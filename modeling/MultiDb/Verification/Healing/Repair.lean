import MultiDb.Verification.Healing.Runs

/-!
# Repair of recovered nodes

A node that was marked dead waits for its repair until a probe finds it back.
-/

namespace MultiDb

open Shared

/-- A tick in which both calls of the repair of the node complete. -/
def HealingController.Repairs (controller : HealingController) (t : HealingTick) (node : NodeId) :
    Prop :=
  (HealingAction.deliverApHints node, .ok ()) ∈ (controller.tickAt t).2.calls ∧
    (HealingAction.runApAntiEntropy node, .ok ()) ∈ (controller.tickAt t).2.calls

/-- No probe fails, and the calls for the nodes up to this one succeed. -/
def HealingController.RepairGoesThrough (controller : HealingController) (t : HealingTick)
    (node : NodeId) : Prop :=
  t.ProbesReturn ∧ ∃ before after, controller.recovered t = before ++ node :: after ∧
    Granted t (controller.viewAfter t) 0 0 (repairScript (before ++ [node]))

section Tick

variable {controller : HealingController} {t : HealingTick} {node : NodeId} {nodes : List NodeId}

theorem repairScript_eq_append {before after : List HealingRequest}
    (h : repairScript nodes = before ++ .call (.runApAntiEntropy node) :: after) :
    ∃ earlier later, nodes = earlier ++ node :: later ∧
      before ++ [.call (.runApAntiEntropy node)] = repairScript (earlier ++ [node]) := by
  induction nodes generalizing before with
  | nil => simp [repairScript] at h
  | cons first nodes ih =>
    have hcons : ∀ rest, repairScript (first :: rest) =
        .call (.deliverApHints first) :: .call (.runApAntiEntropy first) :: repairScript rest :=
      fun _ => rfl
    rw [hcons] at h
    match before, h with
    | [], h => simp at h
    | [_], h =>
      simp only [List.cons_append, List.nil_append, List.cons.injEq, HealingRequest.call.injEq,
        HealingAction.runApAntiEntropy.injEq] at h
      obtain ⟨rfl, rfl, -⟩ := h
      exact ⟨[], nodes, rfl, rfl⟩
    | _ :: _ :: before, h =>
      simp only [List.cons_append, List.cons.injEq] at h
      obtain ⟨rfl, rfl, h⟩ := h
      obtain ⟨earlier, later, rfl, hbefore⟩ := ih h
      refine ⟨first :: earlier, later, rfl, ?_⟩
      change _ = repairScript (first :: (earlier ++ [node]))
      rw [hcons, ← hbefore]
      rfl

theorem repairScript_append_singleton (nodes : List NodeId) (node : NodeId) :
    repairScript (nodes ++ [node]) = repairScript nodes ++
      [.call (.deliverApHints node), .call (.runApAntiEntropy node)] := by
  rw [repairScript, List.flatMap_append]
  rfl

/-- A repair happens exactly when the tick gets as far as it. -/
theorem repairs_iff (h : HealingInv controller) (henabled : controller.policy.enabled = true)
    (hmode : controller.mode = .ap) :
    controller.Repairs t node ↔ controller.RepairGoesThrough t node := by
  by_cases hprobes : t.ProbesReturn
  · rw [HealingController.Repairs, (tickAt_ap h henabled hmode hprobes).1,
      HealingController.RepairGoesThrough, and_iff_right hprobes]
    simp only [mem_callsMade]
    constructor
    · rintro ⟨-, before, after, hscript, hgranted, hanswer⟩
      obtain ⟨earlier, later, hnodes, hbefore⟩ := repairScript_eq_append hscript
      refine ⟨earlier, later, hnodes, ?_⟩
      rw [← hbefore, granted_append]
      exact ⟨hgranted, hanswer.symm, trivial⟩
    · rintro ⟨before, after, hnodes, hgranted⟩
      have hscript : repairScript (controller.recovered t) = repairScript before ++
          (.call (.deliverApHints node) :: .call (.runApAntiEntropy node) ::
            repairScript after) := by
        rw [hnodes, repairScript, List.flatMap_append]
        rfl
      rw [repairScript_append_singleton, granted_append] at hgranted
      obtain ⟨hbefore, hdeliver, hentropy, -⟩ := hgranted
      refine ⟨⟨_, _, hscript, hbefore, hdeliver.symm⟩,
        repairScript before ++ [.call (.deliverApHints node)], repairScript after, ?_, ?_, ?_⟩
      · rw [hscript, List.append_assoc]
        rfl
      · exact granted_append.mpr ⟨hbefore, hdeliver, trivial⟩
      · rw [callsOf, List.countP_append]
        exact hentropy.symm
  · rw [HealingController.Repairs, calls_of_not_probesReturn h hprobes]
    simp [HealingController.RepairGoesThrough, hprobes]

end Tick

section Run

variable {start : HealingController} {ticks : ℕ → HealingTick} {node : NodeId}

theorem HealingController.Fresh.mem_plannedDead_succ (h : start.Fresh) (hmode : start.mode = .ap)
    (n : ℕ) :
    node ∈ (start.before ticks (n + 1)).plannedDead ↔
      node ∈ (start.before ticks n).newlyDead (ticks n) ∨
        node ∈ (start.before ticks n).plannedDead ∧ (node, true) ∉ reached (ticks n).probes := by
  have hinv := h.inv ticks n
  have hap : (start.before ticks n).mode = .ap := (h.before ticks n).2.1.trans hmode
  have hsame : start.before ticks (n + 1) =
      ((start.before ticks n).probed (ticks n)).controller := by
    rw [HealingController.before]
    by_cases hprobes : (ticks n).ProbesReturn
    · exact (tickAt_ap hinv (h.enabled_before ticks n) hap hprobes).2
    · rw [tickAt_of_not_probesReturn hinv.ownIds hprobes]
  rw [hsame, (observed_probed hinv.ownIds).1.planned, and_iff_right hap]
  rfl

/-- A node marked dead is recovered by its next answered probe. -/
theorem HealingController.Fresh.mem_recovered_iff (h : start.Fresh) (hmode : start.mode = .ap)
    {m : ℕ} (hmarked : node ∈ (start.before ticks m).newlyDead (ticks m))
    (hlast : ∀ j > m, node ∉ (start.before ticks j).newlyDead (ticks j)) {j : ℕ} (hj : m < j) :
    node ∈ (start.before ticks j).recovered (ticks j) ↔ (node, true) ∈ reached (ticks j).probes ∧
      ∀ i, m < i → i < j → (node, true) ∉ reached (ticks i).probes := by
  have hplanned : node ∈ (start.before ticks j).plannedDead ↔
      ∀ i, m < i → i < j → (node, true) ∉ reached (ticks i).probes := by
    induction j, hj using Nat.le_induction with
    | base =>
      rw [h.mem_plannedDead_succ hmode]
      exact iff_of_true (.inl hmarked) fun i hmi hij => by omega
    | succ j hj ih =>
      rw [h.mem_plannedDead_succ hmode, or_iff_right (hlast j hj), ih]
      constructor
      · rintro ⟨hbefore, hunseen⟩ i hmi hij
        rcases Nat.lt_or_eq_of_le (Nat.lt_succ_iff.mp hij) with hlt | rfl
        · exact hbefore i hmi hlt
        · exact hunseen
      · intro hall
        exact ⟨fun i hmi hij => hall i hmi (by omega), hall j hj (Nat.lt_succ_self j)⟩
  rw [mem_recovered, hplanned]

theorem HealingController.RepairGoesThrough.mem_recovered {controller : HealingController}
    {t : HealingTick} (h : controller.RepairGoesThrough t node) :
    node ∈ controller.recovered t := by
  obtain ⟨-, before, after, hnodes, -⟩ := h
  simp [hnodes]

/-- A marked node is repaired if and only if the first tick that finds it back gets as far. -/
theorem recovered_node_repaired_iff (h : start.Fresh) (hmode : start.mode = .ap)
    (ticks : ℕ → HealingTick) (node : NodeId) (m : ℕ)
    (hmarked : node ∈ (start.before ticks m).newlyDead (ticks m))
    (hlast : ∀ j > m, node ∉ (start.before ticks j).newlyDead (ticks j)) :
    (∃ j ≥ m, (start.before ticks j).Repairs (ticks j) node) ↔
      ∃ j > m, (node, true) ∈ reached (ticks j).probes ∧
        (∀ i, m < i → i < j → (node, true) ∉ reached (ticks i).probes) ∧
        (start.before ticks j).RepairGoesThrough (ticks j) node := by
  have hrepairs : ∀ j, (start.before ticks j).Repairs (ticks j) node ↔
      (start.before ticks j).RepairGoesThrough (ticks j) node := fun j =>
    repairs_iff (h.inv ticks j) (h.enabled_before ticks j) ((h.before ticks j).2.1.trans hmode)
  constructor
  · rintro ⟨j, hj, hrepair⟩
    rw [hrepairs] at hrepair
    have hback := hrepair.mem_recovered
    have hlater : m < j := by
      rcases Nat.lt_or_eq_of_le hj with hlt | rfl
      · exact hlt
      · exact absurd (reached_unique (mem_recovered.mp hback).1 (mem_newlyDead.mp hmarked).1)
          (by simp)
    obtain ⟨hseen, hfirst⟩ := (h.mem_recovered_iff hmode hmarked hlast hlater).mp hback
    exact ⟨j, hlater, hseen, hfirst, hrepair⟩
  · rintro ⟨j, hj, -, -, hrepair⟩
    exact ⟨j, hj.le, (hrepairs j).mpr hrepair⟩

end Run

private def apController : HealingController := { mode := .ap, config := { suspectAfter := 1 } }

private theorem apController_fresh : apController.Fresh := ⟨rfl, rfl, rfl⟩

/-- Ticks 40 seconds apart in which node 2 answers from the third one on, whose calls may fail. -/
private def backTicks (fails : Bool) (n : ℕ) : HealingTick where
  now := 40000000000 * n
  probes := [(1, .ok true), (2, .ok (2 ≤ n))]
  distinct := show [1, 2].Nodup by decide
  hasWriteQuorum _ _ := true
  answers _ := if fails && n == 2 then .error (.transport "refused") else .ok ()
  recorded _ := .ok ()

private theorem back_seen {fails : Bool} {n : ℕ} :
    (2, true) ∈ reached (backTicks fails n).probes ↔ 2 ≤ n := by
  simp [backTicks, reached]

private theorem back_marked (fails : Bool) :
    2 ∈ (apController.before (backTicks fails) 1).newlyDead (backTicks fails 1) := by
  cases fails <;> decide +kernel

private theorem back_last (fails : Bool) {j : ℕ} (hj : j > 1) :
    2 ∉ (apController.before (backTicks fails) j).newlyDead (backTicks fails j) := by
  intro hmarked
  exact absurd (reached_unique (back_seen.mpr hj) (mem_newlyDead.mp hmarked).1) (by simp)

/-- A node that comes back is repaired. -/
theorem recovered_node_repaired_iff_sample :
    2 ∈ (apController.before (backTicks false) 1).newlyDead (backTicks false 1) ∧
      ∃ j ≥ 1, (apController.before (backTicks false) j).Repairs (backTicks false j) 2 := by
  refine ⟨back_marked false, (recovered_node_repaired_iff apController_fresh rfl
    (backTicks false) 2 1
    (back_marked false) fun j hj => back_last false hj).mpr ?_⟩
  refine ⟨2, by decide, back_seen.mpr le_rfl, fun i _ _ => by omega, ?_, [], [], ?_, rfl,
    rfl, trivial⟩
  · simp [HealingTick.ProbesReturn, backTicks]
  · decide +kernel

/-- A call fails in the tick that finds a node back, and it is never repaired. -/
theorem recovered_node_never_repaired :
    2 ∈ (apController.before (backTicks true) 1).newlyDead (backTicks true 1) ∧
    (∀ j ≥ 2, (2, true) ∈ reached (backTicks true j).probes) ∧
    (∀ j ≥ 3, (backTicks true j).ProbesReturn ∧ ∀ i, (backTicks true j).answers i = .ok ()) ∧
    ∀ j ≥ 1, ¬ (apController.before (backTicks true) j).Repairs (backTicks true j) 2 := by
  refine ⟨back_marked true, fun j hj => back_seen.mpr hj, fun j hj => ⟨?_, fun i => ?_⟩, ?_⟩
  · simp only [HealingTick.ProbesReturn, backTicks, List.forall_mem_cons]
    exact ⟨⟨_, rfl⟩, ⟨_, rfl⟩, by simp⟩
  · have hne : j ≠ 2 := by omega
    simp [backTicks, hne]
  · intro j hj hrepair
    have hthrough :=
      (repairs_iff (apController_fresh.inv _ j) (apController_fresh.enabled_before _ j)
      (apController_fresh.before _ j).2.1).mp hrepair
    have hback := hthrough.mem_recovered
    have hseen := back_seen.mp (mem_recovered.mp hback).1
    rcases Nat.lt_or_eq_of_le hseen with hlater | rfl
    · exact ((apController_fresh.mem_recovered_iff rfl (back_marked true)
        (fun j hj => back_last true hj) hseen).mp hback).2 2 (by decide) hlater
        (back_seen.mpr le_rfl)
    · obtain ⟨-, before, after, -, hgranted⟩ := hthrough
      rw [repairScript_append_singleton, granted_append] at hgranted
      simp [Granted, backTicks] at hgranted

end MultiDb
