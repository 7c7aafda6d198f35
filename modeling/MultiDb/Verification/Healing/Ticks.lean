import MultiDb.Model.Healing

/-!
# Ticks of the controller

A tick observes the nodes up to the first probe that fails.
-/

namespace MultiDb

open Shared

section Health

variable {config : HealthConfig} {now : ℤ} {health : NodeHealth}

/-- A suspect node that was not seen for the failure timeout. -/
def Expired (config : HealthConfig) (now : ℤ) (health : NodeHealth) : Prop :=
  health.state = .suspect ∧
    config.failureTimeout ≤ elapsed (health.lastSeen.getD health.stateSince) now

instance : Decidable (Expired config now health) :=
  inferInstanceAs (Decidable (_ ∧ _))

theorem recoverNode_spec (config : HealthConfig) (now : ℤ) (health : NodeHealth) :
    (recoverNode config now health).2 = none ∧
    (recoverNode config now health).1.nodeId = health.nodeId ∧
    (recoverNode config now health).1.lastSeen = some now ∧
    ((recoverNode config now health).1.state = .dead → health.state = .dead) := by
  rw [recoverNode]
  split
  · exact ⟨rfl, rfl, rfl, id⟩
  · split
    · exact ⟨rfl, rfl, rfl, id⟩
    · exact ⟨rfl, rfl, rfl, by simp⟩

theorem failNode_of_expired (h : Expired config now health) :
    (failNode config now health).2 = some (.markDead health.nodeId) ∧
      (failNode config now health).1.state = .dead := by
  have hstate : ¬ (health.state = .healthy ∧
      config.suspectAfter ≤ saturatingSucc health.failedSamples) := by
    simp [h.1]
  rw [failNode]
  simp only [if_neg hstate, if_pos (show health.state = .suspect ∧ _ from h), and_self]

theorem failNode_of_not_expired (h : ¬ Expired config now health) :
    ((failNode config now health).2 = none ∨
      (failNode config now health).2 = some (.markSuspect health.nodeId)) ∧
    ((failNode config now health).1.state = .dead ↔ health.state = .dead) := by
  rw [failNode]
  split
  · rename_i hhealthy
    simp [show health.state = .healthy from hhealthy.1]
  · rw [if_neg (show ¬ (health.state = .suspect ∧ _) from h)]
    simp

theorem failNode_kept (config : HealthConfig) (now : ℤ) (health : NodeHealth) :
    (failNode config now health).1.nodeId = health.nodeId ∧
      (failNode config now health).1.lastSeen = health.lastSeen := by
  rw [failNode]
  split
  · exact ⟨rfl, rfl⟩
  · split <;> exact ⟨rfl, rfl⟩

end Health

/-! ## One probe -/

/-- What a probe does to the health of its node, and the action it reports. -/
def HealingController.transition (controller : HealingController) (now : ℤ)
    (probe : NodeId × Bool) : NodeHealth × Option HealingAction :=
  if probe.2 then recoverNode controller.config now (controller.entry probe.1 now)
  else failNode controller.config now (controller.entry probe.1 now)

/-- The probe fails for a node whose time is up. -/
def HealingController.marks (controller : HealingController) (now : ℤ) (probe : NodeId × Bool) :
    Bool :=
  !probe.2 && decide (Expired controller.config now (controller.entry probe.1 now))

def HealingController.recovers (controller : HealingController) (probe : NodeId × Bool) : Bool :=
  probe.2 && controller.plannedDead.contains probe.1

/-- What one answered probe does to the state. -/
def TickState.observe (now : ℤ) (state : TickState) (probe : NodeId × Bool) : TickState :=
  let controller := state.controller
  { state with
    controller := { controller with
      health := controller.health.insert probe.1 (controller.transition now probe).1
      plannedDead :=
        if controller.marks now probe && decide (controller.mode = .ap) then
          controller.plannedDead.insert probe.1
        else if controller.recovers probe then controller.plannedDead.erase probe.1
        else controller.plannedDead }
    newlyDead := state.newlyDead ++ if controller.marks now probe then [probe.1] else []
    recovered := state.recovered ++ if controller.recovers probe then [probe.1] else []
    actions := state.actions ++ (controller.transition now probe).2.toList }

/-- Every health record is filed under its own node id. -/
def HealingController.OwnIds (controller : HealingController) : Prop :=
  ∀ (node : NodeId) (health : NodeHealth), controller.health[node]? = some health →
    health.nodeId = node

section Observe

variable {t : HealingTick} {now : ℤ} {controller : HealingController} {state : TickState}
  {probe : NodeId × Bool} {node : NodeId}

theorem HealingController.OwnIds.entry (h : controller.OwnIds) (node : NodeId) (now : ℤ) :
    (controller.entry node now).nodeId = node := by
  rw [HealingController.entry]
  cases hget : controller.health[node]? with
  | none => rfl
  | some health => exact h node health hget

theorem HealingController.transition_nodeId (h : controller.OwnIds) :
    (controller.transition now probe).1.nodeId = probe.1 := by
  rw [HealingController.transition]
  split
  · rw [(recoverNode_spec _ _ _).2.1, h.entry]
  · rw [(failNode_kept _ _ _).1, h.entry]

theorem HealingController.transition_dead
    (hdead : (controller.transition now probe).1.state = .dead) :
    controller.marks now probe = true ∨ (controller.entry probe.1 now).state = .dead := by
  rw [HealingController.transition] at hdead
  by_cases hprobe : probe.2 = true
  · rw [if_pos hprobe] at hdead
    exact .inr ((recoverNode_spec _ _ _).2.2.2 hdead)
  · rw [if_neg hprobe] at hdead
    by_cases hexpired : Expired controller.config now (controller.entry probe.1 now)
    · exact .inl (by simp [HealingController.marks, hprobe, hexpired])
    · exact .inr ((failNode_of_not_expired hexpired).2.mp hdead)

theorem exec_updateNodeHealth (t : HealingTick) (probe : NodeId × Bool) (state : TickState) :
    (t.updateNodeHealth probe.1 probe.2).exec state =
      (.ok (state.controller.transition t.now probe).2, { state with
        controller := { state.controller with
          health := state.controller.health.insert probe.1
            (state.controller.transition t.now probe).1 } }) := by
  obtain ⟨node, healthy⟩ := probe
  cases healthy <;> rfl

theorem HealingController.transition_action (h : controller.OwnIds) (now : ℤ)
    (probe : NodeId × Bool) :
    (controller.marks now probe = true ∧ probe.2 = false ∧
      (controller.transition now probe).2 = some (.markDead probe.1)) ∨
    (controller.marks now probe = false ∧
      ((controller.transition now probe).2 = none ∨
        probe.2 = false ∧ (controller.transition now probe).2 = some (.markSuspect probe.1))) := by
  obtain ⟨node, healthy⟩ := probe
  cases healthy with
  | true => exact .inr ⟨rfl, .inl (recoverNode_spec _ _ _).1⟩
  | false =>
    have hid := h.entry node now
    by_cases hexpired : Expired controller.config now (controller.entry node now)
    · have haction := (failNode_of_expired hexpired).1
      rw [hid] at haction
      exact .inl ⟨by simp [marks, hexpired], rfl, haction⟩
    · have haction := (failNode_of_not_expired hexpired).1
      rw [hid] at haction
      exact .inr ⟨by simp [marks, hexpired], haction.imp id fun haction => ⟨rfl, haction⟩⟩

theorem exec_probeNode (hids : state.controller.OwnIds) (probe : NodeId × Bool) :
    (t.probeNode (probe.1, .ok probe.2)).exec state = (.ok (), state.observe t.now probe) := by
  rw [HealingTick.probeNode, Stateful.exec_bind]
  simp only [Except.mapError, Stateful.exec_lift, Stateful.andThen_ok, Stateful.exec_bind,
    exec_updateNodeHealth, TickState.observe]
  rcases HealingController.transition_action hids t.now probe with
    ⟨hmarks, hprobe, haction⟩ | ⟨hmarks, haction | ⟨hprobe, haction⟩⟩
  · simp [hmarks, haction, HealingController.recovers, hprobe]
  · simp only [hmarks, haction, HealingController.recovers]
    by_cases hback : (probe.2 && state.controller.plannedDead.contains probe.1) = true
    · simp only [Stateful.exec_modify, hback, Option.toList_none, List.append_nil,
        Bool.false_and, Bool.false_eq_true, if_false, if_true]
    · rw [Bool.not_eq_true] at hback
      simp only [Stateful.exec_modify, hback, Option.toList_none, List.append_nil,
        Bool.false_and, Bool.false_eq_true, if_false]
  · simp [hmarks, haction, HealingController.recovers, hprobe]

end Observe

/-! ## All probes -/

/-- The probes of a tick up to the first one that fails. -/
def reached : List (NodeId × ReplResult Bool) → List (NodeId × Bool)
  | (node, .ok healthy) :: probes => (node, healthy) :: reached probes
  | _ => []

def HealingTick.ProbesReturn (t : HealingTick) : Prop :=
  ∀ probe ∈ t.probes, ∃ healthy, probe.2 = .ok healthy

/-- What the probes made so far have changed. -/
structure Observed (controller : HealingController) (now : ℤ) (done : List (NodeId × Bool))
    (state : TickState) : Prop where
  mode : state.controller.mode = controller.mode
  config : state.controller.config = controller.config
  policy : state.controller.policy = controller.policy
  pool : state.controller.replacementPool = controller.replacementPool
  calls : state.calls = []
  questions : state.questions = 0
  health_kept : ∀ node ∉ done.map Prod.fst,
    state.controller.health[node]? = controller.health[node]?
  health_seen : ∀ probe ∈ done,
    state.controller.health[probe.1]? = some (controller.transition now probe).1
  newlyDead : state.newlyDead = (done.filter (controller.marks now)).map Prod.fst
  recovered : state.recovered = (done.filter controller.recovers).map Prod.fst
  planned : ∀ node, node ∈ state.controller.plannedDead ↔
    (controller.mode = .ap ∧ node ∈ (done.filter (controller.marks now)).map Prod.fst) ∨
      node ∈ controller.plannedDead ∧ (node, true) ∉ done

section Loop

variable {t : HealingTick} {now : ℤ} {controller : HealingController} {state : TickState}
  {done : List (NodeId × Bool)} {probe : NodeId × Bool} {node : NodeId}

theorem observed_nil (controller : HealingController) (now : ℤ) :
    Observed controller now [] { controller } := by
  constructor <;> simp

theorem map_fst_reached (probes : List (NodeId × ReplResult Bool)) :
    ((reached probes).map Prod.fst).Sublist (probes.map Prod.fst) := by
  induction probes with
  | nil => exact .slnil
  | cons probe probes ih =>
    obtain ⟨node, answer⟩ := probe
    cases answer with
    | error e => exact List.nil_sublist _
    | ok healthy => exact ih.cons_cons node

theorem Observed.entry (h : Observed controller now done state) (hnew : node ∉ done.map Prod.fst) :
    state.controller.entry node now = controller.entry node now := by
  rw [HealingController.entry, HealingController.entry, h.health_kept node hnew]

theorem Observed.ownIds (h : Observed controller now done state) (hids : controller.OwnIds) :
    state.controller.OwnIds := by
  intro node health hget
  by_cases hdone : node ∈ done.map Prod.fst
  · obtain ⟨probe, hprobe, rfl⟩ := List.mem_map.mp hdone
    rw [h.health_seen probe hprobe] at hget
    cases hget
    exact HealingController.transition_nodeId hids
  · rw [h.health_kept node hdone] at hget
    exact hids node health hget

theorem mem_plannedDead_observe :
    node ∈ (state.observe now probe).controller.plannedDead ↔
      if probe.1 = node then
        state.controller.marks now probe = true ∧ state.controller.mode = .ap ∨
          node ∈ state.controller.plannedDead ∧ probe.2 = false
      else node ∈ state.controller.plannedDead := by
  by_cases hnode : probe.1 = node
  · subst hnode
    rw [if_pos rfl]
    by_cases hdead : state.controller.marks now probe = true ∧ state.controller.mode = .ap
    · simp [TickState.observe, hdead.1, hdead.2]
    · have hfirst : ¬ ((state.controller.marks now probe &&
          decide (state.controller.mode = .ap)) = true) := by
        simpa using hdead
      rw [or_iff_right hdead]
      simp only [TickState.observe, if_neg hfirst, HealingController.recovers]
      obtain ⟨node, healthy⟩ := probe
      by_cases hmem : node ∈ state.controller.plannedDead
      · cases healthy <;> simp [hmem, Std.ExtTreeSet.mem_erase]
      · simp [hmem]
  · rw [if_neg hnode]
    simp only [TickState.observe]
    split
    · simp [Std.ExtTreeSet.mem_insert, hnode]
    · split
      · simp [Std.ExtTreeSet.mem_erase, hnode]
      · exact Iff.rfl

/-- One more probe, of a node not probed before. -/
theorem Observed.observe (h : Observed controller now done state)
    (hnew : probe.1 ∉ done.map Prod.fst) :
    Observed controller now (done ++ [probe]) (state.observe now probe) := by
  have htransition : state.controller.transition now probe = controller.transition now probe := by
    rw [HealingController.transition, HealingController.transition, h.config, h.entry hnew]
  have hmarks : state.controller.marks now probe = controller.marks now probe := by
    rw [HealingController.marks, HealingController.marks, h.config, h.entry hnew]
  have hfilter : ∀ p : NodeId × Bool → Bool, probe.1 ∉ (done.filter p).map Prod.fst := fun p hmem =>
    hnew (List.map_subset _ List.filter_sublist.subset hmem)
  have hfresh : (probe.1, true) ∉ done := fun hmem => hnew (List.mem_map.mpr ⟨_, hmem, rfl⟩)
  have hplanned : probe.1 ∈ state.controller.plannedDead ↔ probe.1 ∈ controller.plannedDead := by
    rw [h.planned, or_iff_right fun hdead => hfilter _ hdead.2, and_iff_left hfresh]
  have hrecovers : state.controller.recovers probe = controller.recovers probe := by
    rw [HealingController.recovers, HealingController.recovers, Bool.eq_iff_iff]
    simp [hplanned]
  refine ⟨h.mode, h.config, h.policy, h.pool, h.calls, h.questions, ?_, ?_, ?_, ?_, ?_⟩
  · intro node hnode
    rw [List.map_append, List.mem_append, not_or] at hnode
    have hne : probe.1 ≠ node := fun heq => hnode.2 (by simp [heq])
    rw [TickState.observe]
    simp only [Std.ExtTreeMap.getElem?_insert]
    rw [if_neg (by simpa using hne), h.health_kept node hnode.1]
  · intro other hother
    rw [TickState.observe]
    simp only [Std.ExtTreeMap.getElem?_insert]
    rcases List.mem_append.mp hother with hother | hother
    · have hne : probe.1 ≠ other.1 := fun heq => hnew (heq ▸ List.mem_map.mpr ⟨_, hother, rfl⟩)
      rw [if_neg (by simpa using hne), h.health_seen other hother]
    · obtain rfl := List.mem_singleton.mp hother
      simp [htransition]
  · rw [TickState.observe, h.newlyDead, hmarks, List.filter_append, List.map_append]
    cases hdead : controller.marks now probe <;> simp [hdead]
  · rw [TickState.observe, h.recovered, hrecovers, List.filter_append, List.map_append]
    cases hback : controller.recovers probe <;> simp [hback]
  · intro node
    rw [mem_plannedDead_observe, hmarks, h.mode, List.filter_append, List.map_append,
      List.mem_append]
    by_cases hnode : probe.1 = node
    · subst hnode
      have hlast : probe.1 ∈ ([probe].filter (controller.marks now)).map Prod.fst ↔
          controller.marks now probe = true := by
        cases hdead : controller.marks now probe <;> simp [hdead]
      have hhealthy : (probe.1, true) ∈ done ++ [probe] ↔ probe.2 = true := by
        rw [List.mem_append, or_iff_right hfresh, List.mem_singleton, Prod.ext_iff]
        exact (and_iff_right rfl).trans eq_comm
      rw [if_pos rfl, or_iff_right (hfilter _), hlast, hhealthy, hplanned, Bool.not_eq_true,
        and_comm (a := controller.marks now probe = true)]
    · have hlast : node ∉ ([probe].filter (controller.marks now)).map Prod.fst := by
        intro hmem
        obtain ⟨other, hother, rfl⟩ := List.mem_map.mp hmem
        exact hnode (by rw [List.mem_singleton.mp (List.filter_sublist.subset hother)])
      have hhealthy : (node, true) ∈ done ++ [probe] ↔ (node, true) ∈ done := by
        rw [List.mem_append, or_iff_left]
        intro hmem
        exact hnode (by rw [← List.mem_singleton.mp hmem])
      rw [if_neg hnode, or_iff_left hlast, hhealthy, h.planned]

/-- The probes stop at the first one that fails. -/
theorem exec_probeNodes (probes : List (NodeId × ReplResult Bool)) (hids : controller.OwnIds)
    (hdistinct : (done.map Prod.fst ++ probes.map Prod.fst).Nodup)
    (h : Observed controller t.now done state) :
    ∃ result state', (probes.forM t.probeNode).exec state = (result, state') ∧
      Observed controller t.now (done ++ reached probes) state' ∧
      (result = .ok () ↔ ∀ probe ∈ probes, ∃ healthy, probe.2 = .ok healthy) := by
  induction probes generalizing done state with
  | nil => exact ⟨.ok (), state, rfl, by simpa [reached] using h, by simp⟩
  | cons probe probes ih =>
    obtain ⟨node, answer⟩ := probe
    rw [Stateful.exec_forM_cons]
    cases answer with
    | error e =>
      refine ⟨.error (.repl e), state, ?_, by simpa [reached] using h, by simp⟩
      rfl
    | ok healthy =>
      rw [exec_probeNode (h.ownIds hids) (node, healthy)]
      rw [List.map_cons, List.nodup_append] at hdistinct
      obtain ⟨hdone, hrest, hdisjoint⟩ := hdistinct
      rw [List.nodup_cons] at hrest
      have hnew : node ∉ done.map Prod.fst := fun hmem =>
        hdisjoint node hmem node List.mem_cons_self rfl
      have hdistinct' : ((done ++ [(node, healthy)]).map Prod.fst ++
          probes.map Prod.fst).Nodup := by
        rw [List.map_append, List.map_singleton, List.append_assoc, List.singleton_append,
          List.nodup_append]
        exact ⟨hdone, List.nodup_cons.mpr hrest, hdisjoint⟩
      obtain ⟨result, state', hexec, hobserved, hresult⟩ := ih hdistinct' (h.observe hnew)
      refine ⟨result, state', hexec, ?_, ?_⟩
      · rwa [List.append_assoc] at hobserved
      · rw [hresult, List.forall_mem_cons]
        exact (and_iff_right ⟨healthy, rfl⟩).symm

end Loop

end MultiDb
