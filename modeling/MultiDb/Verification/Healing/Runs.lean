import MultiDb.Verification.Healing.Requests

/-!
# Runs of the controller

A node is planned for dead only while it is dead, and once for each time that it dies.
-/

namespace MultiDb

open Shared

/-- The node's recorded state is dead. -/
def HealingController.IsDead (controller : HealingController) (node : NodeId) : Prop :=
  ∃ health, controller.health[node]? = some health ∧ health.state = .dead

/-- Planned nodes are dead, and every health record is filed under its own id. -/
structure HealingInv (controller : HealingController) : Prop where
  ownIds : controller.OwnIds
  planned : ∀ node ∈ controller.plannedDead, controller.IsDead node

section Tick

variable {controller : HealingController} {t : HealingTick} {node : NodeId}

theorem HealingController.IsDead.entry (h : controller.IsDead node) (now : ℤ) :
    (controller.entry node now).state = .dead := by
  obtain ⟨health, hget, hdead⟩ := h
  rw [HealingController.entry, hget]
  exact hdead

theorem mem_newlyDead : node ∈ controller.newlyDead t ↔
    (node, false) ∈ reached t.probes ∧
      Expired controller.config t.now (controller.entry node t.now) := by
  simp [HealingController.newlyDead, HealingController.marks]

theorem mem_recovered : node ∈ controller.recovered t ↔
    (node, true) ∈ reached t.probes ∧ node ∈ controller.plannedDead := by
  simp [HealingController.recovered, HealingController.recovers]

theorem HealingController.IsDead.not_marked (h : controller.IsDead node) :
    node ∉ controller.newlyDead t := by
  intro hmem
  have hstate := (mem_newlyDead.mp hmem).2.1
  rw [h.entry] at hstate
  contradiction

theorem nodup_reached (t : HealingTick) : ((reached t.probes).map Prod.fst).Nodup :=
  t.distinct.sublist (map_fst_reached t.probes)

theorem nodup_newlyDead (controller : HealingController) (t : HealingTick) :
    (controller.newlyDead t).Nodup :=
  (nodup_reached t).sublist (List.filter_sublist.map Prod.fst)

theorem reached_unique {healthy healthy' : Bool} (h : (node, healthy) ∈ reached t.probes)
    (h' : (node, healthy') ∈ reached t.probes) : healthy = healthy' := by
  have hinj := List.inj_on_of_nodup_map (nodup_reached t) h h' rfl
  exact (Prod.mk.inj hinj).2

/-- Silent nodes stay dead, and only a mark makes a node dead. -/
theorem isDead_probed_iff (h : HealingInv controller) :
    ((controller.probed t).controller.IsDead node → node ∈ controller.newlyDead t ∨
      controller.IsDead node) ∧
    (node ∈ controller.newlyDead t ∨
      controller.IsDead node ∧ (node, true) ∉ reached t.probes →
        (controller.probed t).controller.IsDead node) := by
  have hobserved := (observed_probed (t := t) h.ownIds).1
  constructor
  · rintro ⟨health, hget, hdead⟩
    by_cases hreached : node ∈ (reached t.probes).map Prod.fst
    · obtain ⟨probe, hprobe, rfl⟩ := List.mem_map.mp hreached
      rw [hobserved.health_seen probe hprobe, Option.some_inj] at hget
      subst hget
      rcases HealingController.transition_dead hdead with hmarks | hentry
      · exact .inl (List.mem_map.mpr ⟨probe, List.mem_filter.mpr ⟨hprobe, hmarks⟩, rfl⟩)
      · right
        rw [HealingController.entry] at hentry
        cases hold : controller.health[probe.1]? with
        | none => simp [hold, NodeHealth.new] at hentry
        | some health =>
          rw [hold] at hentry
          exact ⟨health, hold, hentry⟩
    · rw [hobserved.health_kept node hreached] at hget
      exact .inr ⟨health, hget, hdead⟩
  · rintro (hmarked | ⟨hdead, hunseen⟩)
    · obtain ⟨hprobe, hexpired⟩ := mem_newlyDead.mp hmarked
      exact ⟨_, hobserved.health_seen _ hprobe, (failNode_of_expired hexpired).2⟩
    · by_cases hprobe : (node, false) ∈ reached t.probes
      · refine ⟨_, hobserved.health_seen _ hprobe, ?_⟩
        have hentry := hdead.entry t.now
        have hexpired : ¬ Expired controller.config t.now (controller.entry node t.now) := by
          rintro ⟨hsuspect, -⟩
          rw [hentry] at hsuspect
          contradiction
        exact (failNode_of_not_expired hexpired).2.mpr hentry
      · have hreached : node ∉ (reached t.probes).map Prod.fst := by
          intro hnode
          obtain ⟨⟨_, healthy⟩, hmem, rfl⟩ := List.mem_map.mp hnode
          cases healthy with
          | true => exact hunseen hmem
          | false => exact hprobe hmem
        obtain ⟨health, hget, hstate⟩ := hdead
        exact ⟨health, (hobserved.health_kept node hreached).trans hget, hstate⟩

theorem healingInv_probed (h : HealingInv controller) :
    HealingInv (controller.probed t).controller := by
  have hobserved := (observed_probed (t := t) h.ownIds).1
  refine ⟨hobserved.ownIds h.ownIds, fun node hnode => ?_⟩
  rcases (hobserved.planned node).mp hnode with ⟨-, hmarked⟩ | ⟨hplanned, hunseen⟩
  · exact (isDead_probed_iff h).2 (.inl hmarked)
  · exact (isDead_probed_iff h).2 (.inr ⟨h.planned node hplanned, hunseen⟩)

/-- A tick in CP mode evicts the nodes it has just marked. -/
theorem tickAt_cp (h : HealingInv controller) (henabled : controller.policy.enabled = true)
    (hmode : controller.mode = .cp) (hprobes : t.ProbesReturn) :
    (controller.tickAt t).2.calls = callsMade t (controller.viewAfter t) 0 0
        (evictionScript controller.policy controller.replacementPool (controller.newlyDead t)) ∧
      Plans (controller.newlyDead t) (controller.probed t).controller
        (controller.tickAt t).2.controller := by
  have hobserved := (observed_probed (t := t) h.ownIds).1
  have hplanned : ∀ node ∈ controller.newlyDead t,
      node ∉ (controller.probed t).controller.plannedDead := by
    intro node hmarked hplanned
    rcases (hobserved.planned node).mp hplanned with ⟨hap, -⟩ | ⟨hplanned, -⟩
    · rw [hmode] at hap
      contradiction
    · exact (h.planned node hplanned).not_marked hmarked
  obtain ⟨hperforms, hplans⟩ := performs_planDeadNodes t (controller.viewAfter t)
    (hobserved.mode.trans hmode) (nodup_newlyDead controller t) hplanned
  rw [hobserved.policy, hobserved.pool, hobserved.questions, hobserved.calls] at hperforms
  -- a CP controller plans nothing for recovered nodes
  have hidle : (controller.tickAt t).2 = ((t.planDeadNodes (controller.newlyDead t)
      (controller.viewAfter t)).exec (controller.probed t)).2 := by
    rw [tickAt_of_probesReturn h.ownIds henabled hprobes]
    generalize (t.planDeadNodes (controller.newlyDead t) (controller.viewAfter t)).exec
      (controller.probed t) = run at hplans ⊢
    obtain ⟨result, state⟩ := run
    cases result with
    | error e => rfl
    | ok _ =>
      have hcp : state.controller.mode ≠ .ap := by
        rw [hplans.mode, hobserved.mode, hmode]
        decide
      rw [Stateful.andThen_ok, HealingTick.planRecoveredApNodes, Stateful.exec_bind,
        Stateful.exec_get, Stateful.andThen_ok, if_pos hcp]
      rfl
  rw [hidle]
  exact ⟨hperforms.calls_eq, hplans⟩

/-- A tick in AP mode repairs the nodes it has just seen recover. -/
theorem tickAt_ap (h : HealingInv controller) (henabled : controller.policy.enabled = true)
    (hmode : controller.mode = .ap) (hprobes : t.ProbesReturn) :
    (controller.tickAt t).2.calls = callsMade t (controller.viewAfter t) 0 0
        (repairScript (controller.recovered t)) ∧
      (controller.tickAt t).2.controller = (controller.probed t).controller := by
  have hobserved := (observed_probed (t := t) h.ownIds).1
  have hap : (controller.probed t).controller.mode = .ap := hobserved.mode.trans hmode
  have hnotcp : (controller.probed t).controller.mode ≠ .cp := by
    rw [hap]
    decide
  -- an AP controller plans nothing for dead nodes
  have hidle : ∀ nodes : List NodeId, (t.planDeadNodes nodes (controller.viewAfter t)).exec
      (controller.probed t) = (.ok (), controller.probed t) := by
    intro nodes
    rw [HealingTick.planDeadNodes]
    induction nodes with
    | nil => rfl
    | cons node nodes ih =>
      rw [Stateful.exec_forM_cons, HealingTick.planDeadNode, Stateful.exec_bind,
        Stateful.exec_get, Stateful.andThen_ok, if_pos (.inl hnotcp), Stateful.exec_pure,
        Stateful.andThen_ok, ih]
  obtain ⟨hperforms, hcontroller⟩ := performs_planRecoveredNodes t (controller.viewAfter t)
    (controller.recovered t) (controller.probed t)
  rw [hobserved.questions, hobserved.calls] at hperforms
  have hrun : (controller.tickAt t).2 = (((controller.recovered t).forM t.planRecoveredNode).exec
      (controller.probed t)).2 := by
    rw [tickAt_of_probesReturn h.ownIds henabled hprobes, hidle, Stateful.andThen_ok,
      HealingTick.planRecoveredApNodes, Stateful.exec_bind, Stateful.exec_get, Stateful.andThen_ok,
      if_neg (not_not.mpr hap)]
  rw [hrun]
  exact ⟨hperforms.calls_eq, hcontroller⟩

theorem calls_of_not_probesReturn (h : HealingInv controller) (hprobes : ¬ t.ProbesReturn) :
    (controller.tickAt t).2.calls = [] := by
  rw [tickAt_of_not_probesReturn h.ownIds hprobes]
  exact (observed_probed h.ownIds).1.calls

/-- What a tick leaves behind: the controller after its probes, with more planned nodes. -/
theorem tickAt_plans (h : HealingInv controller) (henabled : controller.policy.enabled = true) :
    Plans (controller.newlyDead t) (controller.probed t).controller
      (controller.tickAt t).2.controller := by
  by_cases hprobes : t.ProbesReturn
  · cases hmode : controller.mode with
    | cp => exact (tickAt_cp h henabled hmode hprobes).2
    | ap =>
      rw [(tickAt_ap h henabled hmode hprobes).2]
      exact plans_refl _ _
  · rw [tickAt_of_not_probesReturn h.ownIds hprobes]
    exact plans_refl _ _

theorem isDead_congr {controller' : HealingController}
    (hhealth : controller'.health = controller.health) :
    controller'.IsDead node ↔ controller.IsDead node := by
  rw [HealingController.IsDead, HealingController.IsDead, hhealth]

/-- A tick keeps the invariant. -/
theorem HealingInv.tickAt (h : HealingInv controller)
    (henabled : controller.policy.enabled = true) :
    HealingInv (controller.tickAt t).2.controller := by
  have hprobed := healingInv_probed (t := t) h
  have hplans := tickAt_plans (t := t) h henabled
  constructor
  · intro node health hget
    rw [hplans.health] at hget
    exact hprobed.ownIds node health hget
  · intro node hnode
    rw [isDead_congr hplans.health]
    rcases hplans.planned node hnode with hplanned | hmarked
    · exact hprobed.planned node hplanned
    · exact (isDead_probed_iff h).2 (.inl hmarked)

theorem isDead_tickAt (h : HealingInv controller) (henabled : controller.policy.enabled = true) :
    ((controller.tickAt t).2.controller.IsDead node →
      node ∈ controller.newlyDead t ∨ controller.IsDead node) ∧
    (node ∈ controller.newlyDead t ∨
      controller.IsDead node ∧ (node, true) ∉ reached t.probes →
        (controller.tickAt t).2.controller.IsDead node) := by
  rw [isDead_congr (tickAt_plans h henabled).health]
  exact isDead_probed_iff h

end Tick

/-! ## Runs -/

section Run

variable {start : HealingController} {ticks : ℕ → HealingTick} {node : NodeId}

/-- A controller that is enabled and has seen no node yet. -/
structure HealingController.Fresh (start : HealingController) : Prop where
  enabled : start.policy.enabled = true
  health : start.health = ∅
  planned : start.plannedDead = ∅

theorem HealingController.Fresh.healingInv (h : start.Fresh) : HealingInv start := by
  constructor
  · intro node health hget
    simp [h.health] at hget
  · intro node hnode
    simp [h.planned] at hnode

/-- What holds before every tick of a run. -/
theorem HealingController.Fresh.before (h : start.Fresh) (ticks : ℕ → HealingTick) (n : ℕ) :
    HealingInv (start.before ticks n) ∧ (start.before ticks n).mode = start.mode ∧
      (start.before ticks n).config = start.config ∧
      (start.before ticks n).policy = start.policy := by
  induction n with
  | zero => exact ⟨h.healingInv, rfl, rfl, rfl⟩
  | succ n ih =>
    obtain ⟨hinv, hmode, hconfig, hpolicy⟩ := ih
    have henabled : (start.before ticks n).policy.enabled = true := hpolicy ▸ h.enabled
    have hplans := tickAt_plans (t := ticks n) hinv henabled
    have hobserved := (observed_probed (t := ticks n) hinv.ownIds).1
    exact ⟨hinv.tickAt henabled, hplans.mode.trans (hobserved.mode.trans hmode),
      hplans.config.trans (hobserved.config.trans hconfig),
      hplans.policy.trans (hobserved.policy.trans hpolicy)⟩

theorem HealingController.Fresh.inv (h : start.Fresh) (ticks : ℕ → HealingTick) (n : ℕ) :
    HealingInv (start.before ticks n) :=
  (h.before ticks n).1

theorem HealingController.Fresh.enabled_before (h : start.Fresh) (ticks : ℕ → HealingTick) (n : ℕ) :
    (start.before ticks n).policy.enabled = true := by
  rw [(h.before ticks n).2.2.2, h.enabled]

theorem HealingController.Fresh.exists_marked (h : start.Fresh) {n : ℕ}
    (hdead : (start.before ticks n).IsDead node) :
    ∃ m < n, node ∈ (start.before ticks m).newlyDead (ticks m) ∧
      ∀ j, m < j → j ≤ n → (start.before ticks j).IsDead node := by
  induction n with
  | zero =>
    obtain ⟨health, hget, -⟩ := hdead
    simp [HealingController.before, h.health] at hget
  | succ n ih =>
    rcases (isDead_tickAt (h.inv ticks n) (h.enabled_before ticks n)).1 hdead with hmarked | hold
    · refine ⟨n, Nat.lt_succ_self n, hmarked, fun j hlt hle => ?_⟩
      rwa [show j = n + 1 by omega]
    · obtain ⟨m, hlt, hmarked, hdeads⟩ := ih hold
      refine ⟨m, by omega, hmarked, fun j hj hle => ?_⟩
      rcases Nat.lt_or_eq_of_le hle with hlt' | rfl
      · exact hdeads j hj (by omega)
      · exact hdead

theorem HealingController.Fresh.stays_dead (h : start.Fresh) {n : ℕ}
    (hdead : (start.before ticks n).IsDead node)
    (hunseen : ∀ j ≥ n, (node, true) ∉ reached (ticks j).probes) {j : ℕ} (hj : n ≤ j) :
    (start.before ticks j).IsDead node := by
  induction j, hj using Nat.le_induction with
  | base => exact hdead
  | succ j hj ih =>
    exact (isDead_tickAt (h.inv ticks j) (h.enabled_before ticks j)).2 (.inr ⟨ih, hunseen j hj⟩)

end Run

end MultiDb
