import MultiDb.Verification.Audit.Moves

/-!
# The steps of audit batching

Every step is a sequence of moves.
-/

namespace MultiDb

open Shared

variable {ε : Type}

namespace AuditWorld

variable {w : AuditWorld ε} {i t : ℕ}

/-! ## Statuses -/

theorem status_setStatus {s₀ : RecordStatus ε} (h : w.status i = some s₀) (s : RecordStatus ε)
    (j : ℕ) : (w.setStatus i s).status j = if j = i then some s else w.status j := by
  simp only [status, setStatus, List.getElem?_modify] at h ⊢
  by_cases hj : j = i
  · subst hj
    obtain ⟨call, hcall, -⟩ := Option.map_eq_some_iff.mp h
    simp [hcall]
  · rw [if_neg hj]
    simp only [if_neg (Ne.symm hj)]
    cases w.calls[j]? <;> rfl

theorem event_setStatus (s : RecordStatus ε) (j : ℕ) :
    (w.setStatus i s).event j = w.event j := by
  simp only [event, setStatus, List.getElem?_modify]
  cases w.calls[j]? with
  | none => rfl
  | some call =>
    simp only [Option.map_eq_map, Option.map_some]
    split <;> rfl

theorem turns_setStatus {s₀ : RecordStatus ε} (co : AuditBatchCoordinator ε)
    (persisted : List (PersistCall ε)) (h : w.status i = some s₀) (s : RecordStatus ε) :
    Turns w (setStatus { w with coordinator := co, persisted := persisted } i s) i s₀ s where
  before := h
  status j := status_setStatus (w := { w with coordinator := co, persisted := persisted }) h s j
  event := funext fun j => event_setStatus s j

/-! ## Quiet moves -/

theorem quiet_setStatus {s₀ s : RecordStatus ε} (hi : w.status i = some s₀)
    (h : Changes w (some s₀) (some s)) : Quiet w (w.setStatus i s) where
  persisted := rfl
  pending := rfl
  nextTicket := rfl
  failed := rfl
  leader := rfl
  event j e he := (event_setStatus s j).trans he
  status j := by
    rw [status_setStatus hi]
    split
    · rename_i hj
      rw [hj, hi]
      exact .inr h
    · exact .inl rfl
  completed t := .inl rfl

/-- A call returns the completion of its ticket. -/
theorem quiet_returns {r : Except DbError Unit} (hi : w.status i = some (.awake t))
    (hr : w.coordinator.completed[t]? = some r) : Quiet w (setStatus { w with
      coordinator := { w.coordinator with completed := w.coordinator.completed.erase t } } i
      (.returned (some t) (r.mapError copyError))) := by
  have hturn := turns_setStatus
    { w.coordinator with completed := w.coordinator.completed.erase t } w.persisted hi
    (.returned (some t) (r.mapError copyError))
  have hok : r.mapError copyError = .ok () → w.coordinator.completed[t]? = some (.ok ()) := by
    intro h
    rw [hr, mapError_eq_ok_iff.mp h]
  refine ⟨rfl, rfl, rfl, rfl, rfl, fun j e he => hturn.event ▸ he, fun j => ?_, fun t' => ?_⟩
  · by_cases hj : j = i
    · rw [hj, hi, hturn.after]
      exact .inr (.returns t _ hok)
    · exact .inl (hturn.other hj)
  · by_cases ht : t' = t
    · subst ht
      exact .inr ⟨by simp [setStatus], i, _, hi, hturn.after⟩
    · refine .inl (Std.ExtTreeMap.getElem?_erase.trans (if_neg ?_))
      simpa using Ne.symm ht

theorem quiet_notifyAll (w : AuditWorld ε) : Quiet w w.notifyAll := by
  refine ⟨rfl, rfl, rfl, rfl, rfl, fun j e he => ?_, fun j => ?_, fun t => .inl rfl⟩
  · simp only [event, notifyAll, List.getElem?_map] at he ⊢
    cases hcall : w.calls[j]? <;> simp_all
  · simp only [status, notifyAll, List.getElem?_map]
    cases w.calls[j]? with
    | none => exact .inl rfl
    | some call =>
      cases hstatus : call.status with
      | waiting t =>
        refine .inr ?_
        simp only [Option.map_some, hstatus]
        exact .wakes t
      | _ => exact .inl (by simp [hstatus, RecordStatus.notified])

theorem quiet_record (w : AuditWorld ε) (e : ε) : Quiet w (w.step (.record e)) := by
  refine ⟨rfl, rfl, rfl, rfl, rfl, fun j x hx => ?_, fun j => ?_, fun t => .inl rfl⟩
  · simp only [step, event, List.getElem?_append] at hx ⊢
    obtain ⟨call, hcall, rfl⟩ := Option.map_eq_some_iff.mp hx
    rw [if_pos (List.getElem?_eq_some_iff.mp hcall).1, hcall]
    rfl
  · simp only [step, status, List.getElem?_append]
    by_cases hlt : j < w.calls.length
    · rw [if_pos hlt]
      exact .inl rfl
    · rw [if_neg hlt, List.getElem?_eq_none (Nat.le_of_not_lt hlt)]
      by_cases hlen : j = w.calls.length
      · exact .inr (by simpa [hlen] using Changes.arrives)
      · exact .inl (by rw [List.getElem?_eq_none (by simp; omega)])

theorem quiet_wake (w : AuditWorld ε) (i : ℕ) : Quiet w (w.wake i) := by
  rw [wake]
  split
  · rename_i event t hi
    exact quiet_setStatus (by rw [status, hi]; rfl) (.wakes t)
  · exact ⟨rfl, rfl, rfl, rfl, rfl, fun _ _ h => h, fun _ => .inl rfl, fun _ => .inl rfl⟩

/-! ## The critical sections of `record` -/

theorem enqueue_eq_ok {co co' : AuditBatchCoordinator ε} {e : ε} (h : co.enqueue e = .ok (t, co')) :
    co.failed = none ∧ t = co.nextTicket ∧ co' = { co with
      nextTicket := co.nextTicket + 1, pending := co.pending ++ [(co.nextTicket, e)] } := by
  rw [AuditBatchCoordinator.enqueue] at h
  cases hfailed : co.failed with
  | some error => simp [hfailed] at h
  | none =>
    simp only [hfailed] at h
    split at h
    · contradiction
    · split at h
      · cases h
        exact ⟨rfl, rfl, rfl⟩
      · contradiction

/-- The loop of `record` returns the result of a decided ticket; otherwise it waits for the leader
or takes the lead. -/
theorem loop_cases (hi : w.status i = some (.awake t)) :
    Quiet w (w.loop i t) ∧ (w.loop i t).Back i ∨
    ¬ w.Decided t ∧ w.coordinator.leader = true ∧ Quiet w (w.loop i t) ∨
    Leads w (w.loop i t) i t := by
  rw [loop]
  cases hopen : w.coordinator.completed[t]? with
  | some r =>
    exact .inl ⟨quiet_returns hi hopen, _, (turns_setStatus _ w.persisted hi _).after, trivial⟩
  | none =>
    cases hfailed : w.coordinator.failed with
    | some error =>
      exact .inl ⟨quiet_setStatus hi (.returns t _ (by simp)), _,
        (turns_setStatus w.coordinator w.persisted hi _).after, trivial⟩
    | none =>
      have hundecided : ¬ w.Decided t := by simp [Decided, hopen, hfailed]
      cases hleader : w.coordinator.leader with
      | true => exact .inr (.inl ⟨hundecided, rfl, quiet_setStatus hi (.waits t hopen hleader)⟩)
      | false => exact .inr (.inr ⟨turns_setStatus _ _ hi _, hopen, hfailed, hleader, rfl, rfl⟩)

theorem moves_loop (hi : w.status i = some (.awake t)) : Moves w (w.loop i t) := by
  rcases loop_cases hi with ⟨h, -⟩ | ⟨-, -, h⟩ | h
  · exact h.moves
  · exact h.moves
  · exact .single (.leads h)

theorem moves_enter {e : ε} (hi : w.status i = some .entering) (he : w.event i = some e) :
    Moves w (w.enter i e) := by
  rw [enter]
  cases henqueue : w.coordinator.enqueue e with
  | error error => exact (quiet_setStatus hi (.refuses error)).moves
  | ok result =>
    obtain ⟨t, co⟩ := result
    obtain ⟨hfailed, rfl, rfl⟩ := enqueue_eq_ok henqueue
    have hturn := turns_setStatus { w.coordinator with
      nextTicket := w.coordinator.nextTicket + 1
      pending := w.coordinator.pending ++ [(w.coordinator.nextTicket, e)] } w.persisted hi
      (.awake w.coordinator.nextTicket)
    exact .head (.admits ⟨hturn, he, hfailed, rfl, rfl⟩) (moves_loop hturn.after)

/-- `persist` has ended: everyone is woken, the batch is finished, and the leader goes on. -/
theorem moves_settle {k : ℕ} {b : List (ℕ × ε)} (hi : w.Leading i t k b) (o : PersistOutcome) :
    ∃ s w', Finishes w.notifyAll w' i t k b o s ∧ Moves w' (w.settle i t k b o) := by
  have hleading : w.notifyAll.Leading i t k b := (quiet_notifyAll w).leading_iff.mpr hi
  have hidle : ∀ j t', w.notifyAll.status j ≠ some (.waiting t') := by
    intro j t'
    simp only [status, notifyAll, List.getElem?_map]
    cases w.calls[j]? with
    | none => simp
    | some call => cases hstatus : call.status <;> simp [hstatus, RecordStatus.notified]
  have hfinishes : ∀ s, s = .awake t ∨ s = .unwound t ∧ o = .panic →
      Finishes w.notifyAll ((w.publish t k b o).setStatus i s) i t k b o s := fun s hs =>
    ⟨turns_setStatus _ _ hleading s, hs, hidle, rfl, rfl⟩
  rw [settle.eq_def]
  split
  · exact ⟨_, _, hfinishes _ (.inr ⟨rfl, rfl⟩), .refl⟩
  · have hawake := hfinishes (.awake t) (.inl rfl)
    exact ⟨_, _, hawake, moves_loop hawake.after⟩

theorem moves_act (w : AuditWorld ε) (i : ℕ) (o : PersistOutcome) : Moves w (w.act i o) := by
  rw [act]
  cases hcall : w.calls[i]? with
  | none => exact .refl
  | some call =>
    have hi : w.status i = some call.status := by rw [status, hcall]; rfl
    have he : w.event i = some call.event := by rw [event, hcall]; rfl
    simp only
    split
    · rename_i hstatus
      exact moves_enter (hstatus ▸ hi) he
    · rename_i t hstatus
      exact moves_loop (hstatus ▸ hi)
    · rename_i t k b hstatus
      obtain ⟨s, w', hfinishes, hmoves⟩ := moves_settle (hstatus ▸ hi) o
      exact (quiet_notifyAll w).moves.trans (.head (.finishes hfinishes) hmoves)
    · exact .refl

theorem moves_step (w : AuditWorld ε) (st : Step ε) : Moves w (w.step st) := by
  cases st with
  | record e => exact (quiet_record w e).moves
  | act i o => exact moves_act w i o
  | wake i => exact (quiet_wake w i).moves
  | markFailed =>
    exact Quiet.moves ⟨rfl, rfl, rfl, rfl, rfl, fun _ _ h => h, fun _ => .inl rfl,
      fun _ => .inl rfl⟩

end AuditWorld

end MultiDb
