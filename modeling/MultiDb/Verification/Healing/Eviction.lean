import MultiDb.Verification.Healing.Runs

/-!
# Eviction of dead voters

A dead node is reported once, in the tick that marks it.  It is evicted when that tick gets as
far as its eviction, and otherwise never.
-/

namespace MultiDb

open Shared

/-- A tick that calls `evict_dead_node` for the node. -/
def HealingController.Evicts (controller : HealingController) (t : HealingTick) (node : NodeId) :
    Prop :=
  ∃ answer, (HealingAction.evictDeadNode node, answer) ∈ (controller.tickAt t).2.calls

/-- No probe fails, earlier requests are granted, and the tick has a write quorum. -/
def HealingController.EvictionGoesThrough (controller : HealingController) (t : HealingTick)
    (node : NodeId) : Prop :=
  t.ProbesReturn ∧ ∃ before after, controller.newlyDead t = before ++ node :: after ∧
    Granted t (controller.viewAfter t) 0 0
      (evictionScript controller.policy controller.replacementPool before ++ [.quorum])

section Script

variable {policy : HealingPolicy} {pool : List RaftNode} {nodes : List NodeId} {node : NodeId}

theorem append_eq_append_cons_iff {α : Type} {c : α} {first rest before after : List α}
    (h : c ∉ first) : first ++ rest = before ++ c :: after ↔
      ∃ before', before = first ++ before' ∧ rest = before' ++ c :: after := by
  constructor
  · intro heq
    rcases List.append_eq_append_iff.mp heq with ⟨middle, rfl, hrest⟩ | ⟨middle, hfirst, hrest⟩
    · exact ⟨middle, rfl, hrest⟩
    · cases middle with
      | nil => exact ⟨[], by simpa using hfirst.symm, by simpa using hrest.symm⟩
      | cons other middle =>
        obtain ⟨rfl, -⟩ := List.cons.inj hrest
        exact absurd (by simp [hfirst]) h
  · rintro ⟨before', rfl, rfl⟩
    rw [List.append_assoc]

theorem exists_evictionScript_cons (policy : HealingPolicy) (pool : List RaftNode) (node : NodeId) :
    ∃ replacement pool', (∀ other, HealingRequest.call (.evictDeadNode other) ∉ replacement) ∧
      questionsOf replacement = 0 ∧ ∀ nodes, evictionScript policy pool (node :: nodes) =
        .quorum :: .call (.evictDeadNode node) ::
          (replacement ++ evictionScript policy pool' nodes) := by
  by_cases hparallel : policy.maxParallelResyncs > 0
  · refine ⟨replacementScript policy pool, pool.tail, fun other => ?_, ?_, fun nodes => ?_⟩
    · cases pool with
      | nil => simp [replacementScript]
      | cons first pool =>
        rw [replacementScript]
        split <;> simp
    · cases pool with
      | nil => rfl
      | cons first pool =>
        rw [replacementScript]
        split <;> rfl
    · rw [evictionScript, if_pos hparallel]
      rfl
  · refine ⟨[], pool, by simp, rfl, fun nodes => ?_⟩
    rw [evictionScript, if_neg hparallel]
    rfl

/-- The script evicts each dead node at its own place. -/
theorem evictionScript_eq_append_iff {before : List HealingRequest} :
    (∃ after, evictionScript policy pool nodes = before ++ .call (.evictDeadNode node) :: after) ↔
      ∃ earlier later, nodes = earlier ++ node :: later ∧
        before = evictionScript policy pool earlier ++ [.quorum] := by
  constructor
  · rintro ⟨after, hscript⟩
    induction nodes generalizing pool before with
    | nil => simp [evictionScript] at hscript
    | cons first nodes ih =>
      obtain ⟨replacement, pool', hreplacement, -, hcons⟩ :=
        exists_evictionScript_cons policy pool first
      rw [hcons] at hscript
      rcases before with - | ⟨_, - | ⟨_, before⟩⟩
      · simp at hscript
      · simp only [List.cons_append, List.nil_append, List.cons.injEq, HealingRequest.call.injEq,
          HealingAction.evictDeadNode.injEq] at hscript
        obtain ⟨rfl, rfl, -⟩ := hscript
        exact ⟨[], nodes, rfl, rfl⟩
      · simp only [List.cons_append, List.cons.injEq] at hscript
        obtain ⟨rfl, rfl, hscript⟩ := hscript
        obtain ⟨before', rfl, hrest⟩ := (append_eq_append_cons_iff (hreplacement node)).mp hscript
        obtain ⟨earlier, later, rfl, rfl⟩ := ih hrest
        refine ⟨first :: earlier, later, rfl, ?_⟩
        rw [hcons]
        simp
  · rintro ⟨earlier, later, rfl, rfl⟩
    induction earlier generalizing pool with
    | nil =>
      obtain ⟨replacement, pool', -, -, hcons⟩ := exists_evictionScript_cons policy pool node
      exact ⟨replacement ++ evictionScript policy pool' later, hcons later⟩
    | cons first earlier ih =>
      obtain ⟨replacement, pool', -, -, hcons⟩ := exists_evictionScript_cons policy pool first
      obtain ⟨after, hscript⟩ := @ih pool'
      refine ⟨after, ?_⟩
      rw [List.cons_append, hcons, hcons, hscript]
      simp

theorem questionsOf_evictionScript (policy : HealingPolicy) (pool : List RaftNode)
    (nodes : List NodeId) : questionsOf (evictionScript policy pool nodes) = nodes.length := by
  induction nodes generalizing pool with
  | nil => rfl
  | cons node nodes ih =>
    obtain ⟨replacement, pool', -, hquestions, hcons⟩ :=
      exists_evictionScript_cons policy pool node
    rw [questionsOf] at hquestions
    have hrest := ih pool'
    rw [questionsOf] at hrest
    rw [hcons, questionsOf, List.countP_cons_of_pos rfl, List.countP_cons_of_neg (by simp),
      List.countP_append, hquestions, hrest, Nat.zero_add, List.length_cons]

end Script

section Tick

variable {controller : HealingController} {t : HealingTick} {node : NodeId}

theorem evicts_iff (h : HealingInv controller) (henabled : controller.policy.enabled = true)
    (hmode : controller.mode = .cp) :
    controller.Evicts t node ↔ controller.EvictionGoesThrough t node := by
  by_cases hprobes : t.ProbesReturn
  · rw [HealingController.Evicts, (tickAt_cp h henabled hmode hprobes).1,
      HealingController.EvictionGoesThrough, and_iff_right hprobes]
    simp only [mem_callsMade]
    constructor
    · rintro ⟨_, before, after, hscript, hgranted, -⟩
      obtain ⟨earlier, later, hnodes, rfl⟩ := evictionScript_eq_append_iff.mp ⟨after, hscript⟩
      exact ⟨earlier, later, hnodes, hgranted⟩
    · rintro ⟨earlier, later, hnodes, hgranted⟩
      obtain ⟨after, hscript⟩ := evictionScript_eq_append_iff.mpr ⟨earlier, later, hnodes, rfl⟩
      exact ⟨_, _, after, hscript, hgranted, rfl⟩
  · rw [HealingController.Evicts, calls_of_not_probesReturn h hprobes]
    simp [HealingController.EvictionGoesThrough, hprobes]

/-- An eviction goes through only under a quorum asked just before it. -/
theorem HealingController.EvictionGoesThrough.quorum (h : controller.EvictionGoesThrough t node) :
    ∃ earlier later, controller.newlyDead t = earlier ++ node :: later ∧
      t.hasWriteQuorum earlier.length (controller.viewAfter t) = true := by
  obtain ⟨-, earlier, later, hnodes, hgranted⟩ := h
  refine ⟨earlier, later, hnodes, ?_⟩
  rw [granted_append, questionsOf_evictionScript, Nat.zero_add] at hgranted
  exact hgranted.2.1

end Tick

/-! ## Runs -/

/-- The time of the last probe the node answered. -/
def lastProbe (ticks : ℕ → HealingTick) (node : NodeId) : ℕ → Option ℤ
  | 0 => none
  | n + 1 => if (node, true) ∈ reached (ticks n).probes then some (ticks n).now
      else lastProbe ticks node n

section Run

variable {start : HealingController} {ticks : ℕ → HealingTick} {node : NodeId}

/-- The time a node was last seen is that of its last answered probe. -/
theorem HealingController.Fresh.lastSeen (h : start.Fresh) (ticks : ℕ → HealingTick) (node : NodeId)
    (n : ℕ) :
    (start.before ticks n).health[node]?.bind NodeHealth.lastSeen = lastProbe ticks node n := by
  induction n with
  | zero => simp [HealingController.before, h.health, lastProbe]
  | succ n ih =>
    have hinv := h.inv ticks n
    have hplans := tickAt_plans (t := ticks n) hinv (h.enabled_before ticks n)
    have hobserved := (observed_probed (t := ticks n) hinv.ownIds).1
    rw [HealingController.before, hplans.health, lastProbe]
    by_cases hseen : (node, true) ∈ reached (ticks n).probes
    · rw [if_pos hseen, hobserved.health_seen _ hseen]
      exact (recoverNode_spec _ _ _).2.2.1
    · rw [if_neg hseen, ← ih]
      by_cases hfailed : (node, false) ∈ reached (ticks n).probes
      · rw [hobserved.health_seen _ hfailed]
        refine (failNode_kept _ _ _).2.trans ?_
        rw [HealingController.entry]
        cases (start.before ticks n).health[node]? <;> rfl
      · rw [hobserved.health_kept]
        intro hnode
        obtain ⟨⟨_, healthy⟩, hmem, rfl⟩ := List.mem_map.mp hnode
        cases healthy with
        | true => exact hseen hmem
        | false => exact hfailed hmem

theorem exists_lastProbe {n i : ℕ} (hi : i < n) (hseen : (node, true) ∈ reached (ticks i).probes) :
    ∃ l, i ≤ l ∧ l < n ∧ (node, true) ∈ reached (ticks l).probes ∧
      lastProbe ticks node n = some (ticks l).now := by
  induction n with
  | zero => omega
  | succ n ih =>
    rw [lastProbe]
    by_cases hlast : (node, true) ∈ reached (ticks n).probes
    · exact ⟨n, by omega, by omega, hlast, if_pos hlast⟩
    · have hne : i ≠ n := fun heq => hlast (heq ▸ hseen)
      obtain ⟨l, hle, hlt, hmem, hlastProbe⟩ := ih (by omega)
      exact ⟨l, hle, by omega, hmem, by rw [if_neg hlast, hlastProbe]⟩

/-- A successful probe of the node within the failure timeout before tick `m`. -/
def RecentProbe (ticks : ℕ → HealingTick) (node : NodeId) (timeout m i : ℕ) : Prop :=
  i < m ∧ (node, true) ∈ reached (ticks i).probes ∧ (ticks i).now ≤ (ticks m).now ∧
    (ticks m).now < (ticks i).now + timeout

/-- A marked node was seen within the timeout only when the clock has stepped back. -/
theorem HealingController.Fresh.recentProbe (h : start.Fresh) {m i : ℕ}
    (hmarked : node ∈ (start.before ticks m).newlyDead (ticks m))
    (hrecent : RecentProbe ticks node start.config.failureTimeout m i) :
    ∃ l, i < l ∧ l < m ∧ (node, true) ∈ reached (ticks l).probes ∧
      (ticks l).now < (ticks i).now := by
  obtain ⟨hlt, hseen, hpast, hwithin⟩ := hrecent
  obtain ⟨l, hle, hl, hmem, hlast⟩ := exists_lastProbe hlt hseen
  have hexpired := (mem_newlyDead.mp hmarked).2.2
  rw [← h.lastSeen] at hlast
  rw [(h.before ticks m).2.2.1, HealingController.entry] at hexpired
  cases hget : (start.before ticks m).health[node]? with
  | none => simp [hget] at hlast
  | some health =>
    rw [hget, Option.bind_some] at hlast
    rw [hget, Option.getD_some, hlast, Option.getD_some, elapsed] at hexpired
    have hearlier : (ticks l).now < (ticks i).now := by omega
    refine ⟨l, ?_, hl, hmem, hearlier⟩
    rcases Nat.lt_or_eq_of_le hle with hlt | rfl
    · exact hlt
    · exact absurd hearlier (lt_irrefl _)

/-- A dead and unreachable node was marked in some tick, and is evicted if and only if that tick
gets as far as its eviction, after it was granted a write quorum. -/
theorem dead_voter_evicted_iff (h : start.Fresh) (hmode : start.mode = .cp)
    (ticks : ℕ → HealingTick) (node : NodeId) :
    (∀ n, (start.before ticks n).IsDead node →
      (∀ j ≥ n, (node, true) ∉ reached (ticks j).probes) →
        ∃ m < n, node ∈ (start.before ticks m).newlyDead (ticks m) ∧
          (∀ j > m, node ∉ (start.before ticks j).newlyDead (ticks j)) ∧
          ((∃ j ≥ m, (start.before ticks j).Evicts (ticks j) node) ↔
            (start.before ticks m).EvictionGoesThrough (ticks m) node)) ∧
    (∀ j, (start.before ticks j).Evicts (ticks j) node → ∃ earlier later,
      (start.before ticks j).newlyDead (ticks j) = earlier ++ node :: later ∧
        (ticks j).hasWriteQuorum earlier.length ((start.before ticks j).viewAfter (ticks j)) =
          true) ∧
    (∀ m, node ∈ (start.before ticks m).newlyDead (ticks m) →
      ((∀ i, ¬ RecentProbe ticks node start.config.failureTimeout m i) ↔
        ∀ i l, RecentProbe ticks node start.config.failureTimeout m i → i < l → l < m →
          (node, true) ∈ reached (ticks l).probes → (ticks i).now ≤ (ticks l).now)) := by
  have hevicts : ∀ j, (start.before ticks j).Evicts (ticks j) node ↔
      (start.before ticks j).EvictionGoesThrough (ticks j) node := fun j =>
    evicts_iff (h.inv ticks j) (h.enabled_before ticks j) ((h.before ticks j).2.1.trans hmode)
  have hmarked : ∀ j, (start.before ticks j).Evicts (ticks j) node →
      node ∈ (start.before ticks j).newlyDead (ticks j) := by
    intro j hj
    obtain ⟨earlier, later, hnodes, -⟩ := ((hevicts j).mp hj).quorum
    simp [hnodes]
  refine ⟨fun n hdead hunseen => ?_, fun j hj => ((hevicts j).mp hj).quorum, fun m hm => ?_⟩
  · obtain ⟨m, hlt, hm, hdeads⟩ := h.exists_marked hdead
    have honce : ∀ j > m, node ∉ (start.before ticks j).newlyDead (ticks j) := by
      intro j hj
      by_cases hle : j ≤ n
      · exact (hdeads j hj hle).not_marked
      · exact (h.stays_dead hdead hunseen (by omega)).not_marked
    refine ⟨m, hlt, hm, honce, ?_⟩
    rw [← hevicts m]
    constructor
    · rintro ⟨j, hj, hevict⟩
      rcases Nat.lt_or_eq_of_le hj with hlt | rfl
      · exact absurd (hmarked j hevict) (honce j hlt)
      · exact hevict
    · intro hevict
      exact ⟨m, le_rfl, hevict⟩
  · constructor
    · intro hnone i l hrecent
      exact absurd hrecent (hnone i)
    · intro hclock i hrecent
      obtain ⟨l, hil, hlm, hseen, hback⟩ := h.recentProbe hm hrecent
      exact absurd (hclock i l hrecent hil hlm hseen) (not_le.mpr hback)

end Run

/-- A controller that suspects a node at its first failed probe. -/
private def quickController : HealingController := { mode := .cp, config := { suspectAfter := 1 } }

private theorem quickController_fresh : quickController.Fresh := ⟨rfl, rfl, rfl⟩

/-- Ticks 40 seconds apart without node 2; the second one may have lost its write quorum. -/
private def silentTicks (lost : Bool) (n : ℕ) : HealingTick where
  now := 40000000000 * n
  probes := [(1, .ok true), (2, .ok false)]
  distinct := by decide
  hasWriteQuorum _ _ := !(lost && n == 1)
  answers _ := .ok ()
  recorded _ := .ok ()

private theorem silent_unreachable (lost : Bool) (n : ℕ) :
    (2, true) ∉ reached (silentTicks lost n).probes := by
  simp [silentTicks, reached]

private theorem silent_marked (lost : Bool) :
    (quickController.before (silentTicks lost) 0).newlyDead (silentTicks lost 0) = [] ∧
      (quickController.before (silentTicks lost) 1).newlyDead (silentTicks lost 1) = [2] := by
  cases lost <;> decide +kernel

private theorem silent_dead (lost : Bool) :
    (quickController.before (silentTicks lost) 2).IsDead 2 := by
  have hmarked : 2 ∈ (quickController.before (silentTicks lost) 1).newlyDead
    (silentTicks lost 1) := by
    rw [(silent_marked lost).2]
    exact List.mem_singleton_self 2
  rw [HealingController.before]
  apply (isDead_tickAt (quickController_fresh.inv _ 1) (quickController_fresh.enabled_before _ 1)).2
  exact .inl hmarked

/-- A silent node is evicted in the second tick. -/
theorem dead_voter_evicted_iff_sample :
    (quickController.before (silentTicks false) 2).IsDead 2 ∧
      ∃ j, (quickController.before (silentTicks false) j).Evicts (silentTicks false j) 2 := by
  have hdead := silent_dead false
  obtain ⟨hevicted, -⟩ := dead_voter_evicted_iff quickController_fresh rfl (silentTicks false) 2
  obtain ⟨m, hm, hmarked, -, hiff⟩ := hevicted 2 hdead fun j _ => silent_unreachable false j
  have hfirst : m ≠ 0 := by
    rintro rfl
    rw [(silent_marked false).1] at hmarked
    exact List.not_mem_nil hmarked
  obtain rfl : m = 1 := by omega
  obtain ⟨j, -, hj⟩ := hiff.mpr
    ⟨by simp [HealingTick.ProbesReturn, silentTicks], [], [], (silent_marked false).2, rfl, trivial⟩
  exact ⟨hdead, j, hj⟩

/-- The tick that marks a node has no write quorum, and the node is never evicted. -/
theorem dead_voter_never_evicted :
    (quickController.before (silentTicks true) 2).IsDead 2 ∧
    (∀ j ≥ 2, (2, true) ∉ reached (silentTicks true j).probes ∧ (silentTicks true j).ProbesReturn ∧
      (∀ i view, (silentTicks true j).hasWriteQuorum i view = true) ∧
      ∀ i, (silentTicks true j).answers i = .ok ()) ∧
    ∀ j, ¬ (quickController.before (silentTicks true) j).Evicts (silentTicks true j) 2 := by
  refine ⟨silent_dead true, fun j hj => ⟨silent_unreachable true j, ?_, ?_, fun _ => rfl⟩, ?_⟩
  · simp [HealingTick.ProbesReturn, silentTicks]
  · intro i view
    simp only [silentTicks, Bool.true_and, Bool.not_eq_true', beq_eq_false_iff_ne]
    omega
  · intro j hevict
    obtain ⟨earlier, later, hnodes, hquorum⟩ := ((evicts_iff (quickController_fresh.inv _ j)
      (quickController_fresh.enabled_before _ j)
      (quickController_fresh.before _ j).2.1).mp hevict).quorum
    have hmarked : 2 ∈ (quickController.before (silentTicks true) j).newlyDead
      (silentTicks true j) := by
      simp [hnodes]
    by_cases hlater : 2 ≤ j
    · exact (quickController_fresh.stays_dead (silent_dead true)
        (fun j _ => silent_unreachable true j) hlater).not_marked hmarked
    · have hearlier : j = 0 ∨ j = 1 := by omega
      rcases hearlier with rfl | rfl
      · rw [(silent_marked true).1] at hmarked
        exact List.not_mem_nil hmarked
      · simp [silentTicks] at hquorum

end MultiDb
