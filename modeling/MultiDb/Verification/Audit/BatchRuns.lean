import MultiDb.Verification.Audit.BatchInvariant

/-!
# Runs of the batch coordinator

Every move keeps the invariant, and after a failed `persist` nothing is admitted or persisted
any more.
-/

namespace MultiDb

open Shared

variable {ε : Type} {o : PersistOutcome} {k : ℕ} {b : List (ℕ × ε)}

namespace AuditWorld

/-! ## The end of a batch -/

theorem getElem?_complete (completed : Std.ExtTreeMap ℕ (Except DbError Unit)) (tickets : List ℕ)
    (r : Except DbError Unit) (t : ℕ) : (AuditBatchCoordinator.complete completed tickets r)[t]? =
      if t ∈ tickets then some r else completed[t]? := by
  rw [AuditBatchCoordinator.complete]
  induction tickets generalizing completed with
  | nil => simp
  | cons t₀ tickets ih =>
    rw [List.foldl_cons, ih, Std.ExtTreeMap.getElem?_insert]
    by_cases htail : t ∈ tickets
    · simp [htail]
    · by_cases hhead : t = t₀
      · simp [hhead]
      · have hcmp : ¬ compare t₀ t = .eq := by simpa using fun h : t₀ = t => hhead h.symm
        simp [htail, hhead, hcmp]

/-- What the leader's second section leaves in the coordinator. -/
structure Finished (co : AuditBatchCoordinator ε) (tickets : List ℕ) (o : PersistOutcome)
    (co' : AuditBatchCoordinator ε) : Prop where
  leader : co'.leader = false
  nextTicket : co'.nextTicket = co.nextTicket
  failed : co.failed = none → (co'.failed = none ↔ o = .ok)
  pending : co'.pending = if o = .ok then co.pending else []
  completed : ∀ t, co'.completed[t]? = some (.ok ()) →
    t ∈ tickets ∧ o = .ok ∨ co.completed[t]? = some (.ok ())
  opened : o = .ok → ∀ t, co'.completed[t]? = none ↔ t ∉ tickets ∧ co.completed[t]? = none

theorem finished_finish (co : AuditBatchCoordinator ε) (t : ℕ) (tickets : List ℕ)
    (o : PersistOutcome) : Finished co tickets o (co.finish t tickets o) := by
  cases o with
  | ok =>
    refine ⟨rfl, rfl, fun h => by simp [AuditBatchCoordinator.finish, h], rfl, fun t' => ?_,
      fun _ t' => ?_⟩
    all_goals
      simp only [AuditBatchCoordinator.finish, getElem?_complete]
      split <;> simp_all
  | error error =>
    refine ⟨rfl, rfl, fun _ => by simp [AuditBatchCoordinator.finish], rfl, fun t' => ?_, by simp⟩
    simp only [AuditBatchCoordinator.finish, getElem?_complete]
    split <;> simp_all
  | panic =>
    refine ⟨rfl, rfl, fun _ => by simp [AuditBatchCoordinator.finish], rfl, fun t' => ?_, by simp⟩
    simp only [AuditBatchCoordinator.finish, Std.ExtTreeMap.getElem?_erase, getElem?_complete]
    split
    · simp
    · split <;> simp_all

variable {w w' : AuditWorld ε} {i j t : ℕ} {s : RecordStatus ε}

section Finish

variable (h : Finishes w w' i t k b o s)

include h

theorem Finishes.finished : Finished w.coordinator (b.map Prod.fst) o w'.coordinator := by
  rw [h.coordinator]
  exact finished_finish w.coordinator t (b.map Prod.fst) o

theorem Finishes.leader (hinv : w.BatchInv) : Leader w t k b :=
  hinv.lead.leading i t k b h.before

theorem Finishes.persisted_eq (hinv : w.BatchInv) : ∃ earlier,
    w.persisted = earlier ++ [{ batch := b }] ∧
      w'.persisted = earlier ++ [{ batch := b, outcome := some o }] := by
  obtain ⟨earlier, hearlier, rfl⟩ := (h.leader hinv).call
  exact ⟨earlier, hearlier, by simp [h.persisted, hearlier]⟩

theorem Finishes.passed (hinv : w.BatchInv) : w'.passed = w.passed := by
  obtain ⟨earlier, hearlier, hpersisted⟩ := h.persisted_eq hinv
  simp [AuditWorld.passed, hearlier, hpersisted]

/-- The batch decides its own tickets, and a failure decides every ticket. -/
theorem Finishes.decided_iff (hinv : w.BatchInv) {t' : ℕ} :
    w'.Decided t' ↔ o ≠ .ok ∨ t' ∈ b.map Prod.fst ∨ w.Decided t' := by
  have hrunning := (h.leader hinv).running
  rw [Decided, Decided, hrunning]
  by_cases ho : o = .ok
  · have hfailed := (h.finished.failed hrunning).mpr ho
    rw [hfailed, ne_eq, ne_eq, h.finished.opened ho t', ho]
    simp only [ne_eq, not_true_eq_false, false_or]
    tauto
  · have hfailed := (h.finished.failed hrunning).not.mpr ho
    simp [ho, hfailed]

theorem Finishes.not_leading (hinv : w.BatchInv) {t' k' : ℕ} {b' : List (ℕ × ε)} :
    ¬ w'.Leading j t' k' b' := by
  intro hj
  by_cases hji : j = i
  · rw [Leading, hji, h.after] at hj
    rcases h.ends with rfl | ⟨rfl, -⟩ <;> cases hj
  · exact hji (hinv.lead.unique j i _ _ _ _ _ _ ((h.other hji).symm.trans hj) h.before)

theorem Finishes.not_waiting {t' : ℕ} : w'.status j ≠ some (.waiting t') := by
  intro hj
  by_cases hji : j = i
  · rw [hji, h.after] at hj
    rcases h.ends with rfl | ⟨rfl, -⟩ <;> cases hj
  · exact h.idle j t' ((h.other hji).symm.trans hj)

/-- A finished batch leaves the rest of the queue in order. -/
theorem Finishes.queue (hinv : w.BatchInv) : QueueInv w' := by
  have hrunning := (h.leader hinv).running
  have hpending := h.finished.pending
  have hticket : s.ticket = some t := by
    rcases h.ends with rfl | ⟨rfl, -⟩ <;> rfl
  refine hinv.queue.of_prefix ?_ (fun hnone => ?_) h.finished.nextTicket (h.ticket hticket)
    fun j e he => h.event ▸ he
  · rw [entries, entries, h.passed hinv, hpending]
    split
    · exact List.prefix_rfl
    · simp
  · rw [(h.finished.failed hrunning).mp hnone, if_pos rfl] at hpending
    exact ⟨by rw [entries, entries, h.passed hinv, hpending], hrunning⟩

theorem Finishes.results (hinv : w.BatchInv) : ResultInv w' := by
  obtain ⟨earlier, hearlier, hpersisted⟩ := h.persisted_eq hinv
  have hrunning := (h.leader hinv).running
  -- what came from an earlier batch still does; the running one has got its outcome
  have hfrom : ∀ {t'}, w.Persisted t' → w'.Persisted t' := by
    rintro t' ⟨p, hp, hmem, hok⟩
    rw [hearlier] at hp
    rcases List.mem_append.mp hp with hp | hp
    · exact ⟨p, hpersisted ▸ List.mem_append_left _ hp, hmem, hok⟩
    · rw [List.mem_singleton.mp hp] at hok
      contradiction
  constructor
  case completed =>
    intro t' ht'
    rcases h.finished.completed t' ht' with ⟨hmem, ho⟩ | hold
    · exact ⟨_, hpersisted ▸ List.mem_append_right _ (List.mem_singleton_self _), hmem,
        congrArg some ho⟩
    · exact hfrom (hinv.results.completed t' hold)
  case returned =>
    intro j t' hj
    have hne : s ≠ .returned t' (.ok ()) := by
      rcases h.ends with rfl | ⟨rfl, -⟩ <;> simp
    obtain ⟨n, rfl, hn⟩ := hinv.results.returned j t' ((h.status_iff (by simp) hne).mp hj)
    exact ⟨n, rfl, hfrom hn⟩
  case failed =>
    intro p hp hsome hok
    rw [hpersisted] at hp
    rcases List.mem_append.mp hp with hp | hp
    · exact absurd hrunning
        (hinv.results.failed p (hearlier ▸ List.mem_append_left _ hp) hsome hok)
    · rw [List.mem_singleton.mp hp] at hok
      exact fun hnone => hok (congrArg some ((h.finished.failed hrunning).mp hnone))
  case located =>
    intro j t' hj hundecided
    rw [h.decided_iff hinv] at hundecided
    push Not at hundecided
    obtain ⟨rfl, hnot, hundecided⟩ := hundecided
    obtain rfl : s = .awake t := h.ends.resolve_right fun hpanic => nomatch hpanic.2
    rw [h.passed hinv]
    rcases hinv.results.located j t' ((h.live_iff rfl).mp hj) hundecided with
      hle | ⟨l, t₁, k₁, b₁, hl, hmem⟩
    · exact .inl hle
    · obtain rfl := hinv.lead.unique l i _ _ _ _ _ _ hl h.before
      obtain ⟨-, -, rfl⟩ := RecordStatus.leading.inj (Option.some.inj (hl.symm.trans h.before))
      exact absurd hmem hnot

theorem BatchInv.finishes (hinv : w.BatchInv) : w'.BatchInv where
  queue := h.queue hinv
  lead :=
    { led := fun hl => by simp [h.finished.leader] at hl
      unique := fun _ _ _ _ _ _ _ _ hj => absurd hj (h.not_leading hinv)
      leading := fun _ _ _ _ hj => absurd hj (h.not_leading hinv)
      waiting := fun _ _ hj => absurd hj h.not_waiting }
  results := h.results hinv

end Finish

/-! ## Runs -/

theorem BatchInv.move (hinv : w.BatchInv) (h : Move w w') : w'.BatchInv := by
  cases h with
  | quiet h => exact hinv.quiet h
  | admits h => exact hinv.admits h
  | leads h => exact hinv.leads h
  | finishes h => exact BatchInv.finishes h hinv

theorem BatchInv.moves (hinv : w.BatchInv) (h : Moves w w') : w'.BatchInv := by
  induction h with
  | refl => exact hinv
  | tail _ hmove ih => exact ih.move hmove

theorem BatchInv.step (hinv : w.BatchInv) (st : Step ε) : (w.step st).BatchInv :=
  hinv.moves (moves_step w st)

theorem BatchInv.run (hinv : w.BatchInv) (steps : List (Step ε)) : (w.run steps).BatchInv :=
  List.foldlRecOn (motive := BatchInv) steps AuditWorld.step hinv fun _ h st _ => h.step st

theorem batchInv_states (steps : ℕ → Step ε) (n : ℕ) : (states steps n).BatchInv := by
  induction n with
  | zero => exact batchInv_init
  | succ n ih => exact ih.step (steps n)

/-! ## After a failure -/

/-- What stays so after a failure: no call of `persist`, and no new admission. -/
structure Sealed (w w' : AuditWorld ε) : Prop where
  failed : w'.coordinator.failed = w.coordinator.failed
  persisted : w'.persisted = w.persisted
  unadmitted : ∀ j, w.Unadmitted j → w'.Unadmitted j

theorem Sealed.rfl : Sealed w w :=
  ⟨Eq.refl _, Eq.refl _, fun _ h => h⟩

theorem Sealed.trans {w'' : AuditWorld ε} (h : Sealed w w') (h' : Sealed w' w'') : Sealed w w'' :=
  ⟨h'.failed.trans h.failed, h'.persisted.trans h.persisted,
    fun j hj => h'.unadmitted j (h.unadmitted j hj)⟩

theorem sealed_move (hinv : w.BatchInv) (hfailed : w.coordinator.failed ≠ none) (h : Move w w') :
    Sealed w w' := by
  cases h with
  | quiet h => exact ⟨h.failed, h.persisted, fun _ => h.unadmitted⟩
  | admits h => exact absurd h.running hfailed
  | leads h => exact absurd h.running hfailed
  | finishes h => exact absurd (h.leader hinv).running hfailed

theorem sealed_moves (hinv : w.BatchInv) (hfailed : w.coordinator.failed ≠ none)
    (h : Moves w w') : Sealed w w' := by
  induction h with
  | refl => exact .rfl
  | tail hmoves hmove ih =>
    exact ih.trans (sealed_move (hinv.moves hmoves) (ih.failed ▸ hfailed) hmove)

theorem sealed_run (hinv : w.BatchInv) (hfailed : w.coordinator.failed ≠ none)
    (steps : List (Step ε)) : Sealed w (w.run steps) := by
  induction steps generalizing w with
  | nil => exact .rfl
  | cons st steps ih =>
    have hstep := sealed_moves hinv hfailed (moves_step w st)
    exact hstep.trans (ih (hinv.step st) (hstep.failed ▸ hfailed))

end AuditWorld

end MultiDb
