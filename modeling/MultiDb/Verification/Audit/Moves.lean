import MultiDb.Model.AuditBatch

/-!
# The moves of audit batching

A critical section is a sequence of moves.  Quiet moves change the status of calls and drop
completions that were returned; the others admit an event, take a batch or finish one.
-/

namespace MultiDb

open Shared

variable {ε : Type}

/-! ## Views of the calls -/

namespace RecordStatus

/-- The ticket of a call that has been admitted. -/
def ticket : RecordStatus ε → Option ℕ
  | .entering => none
  | .waiting ticket | .awake ticket | .leading ticket _ _ | .unwound ticket => some ticket
  | .returned ticket _ => ticket

/-- The ticket of a call that still waits for its result. -/
def liveTicket : RecordStatus ε → Option ℕ
  | .waiting ticket | .awake ticket | .leading ticket _ _ => some ticket
  | _ => none

def Ended : RecordStatus ε → Prop
  | .returned _ _ | .unwound _ => True
  | _ => False

theorem ticket_of_liveTicket {s : RecordStatus ε} {t : ℕ} (h : s.liveTicket = some t) :
    s.ticket = some t := by
  cases s <;> simp_all [liveTicket, ticket]

end RecordStatus

namespace AuditWorld

def status (w : AuditWorld ε) (i : ℕ) : Option (RecordStatus ε) :=
  w.calls[i]?.map RecordCall.status

def event (w : AuditWorld ε) (i : ℕ) : Option ε :=
  w.calls[i]?.map RecordCall.event

def ticket (w : AuditWorld ε) (i : ℕ) : Option ℕ :=
  (w.status i).bind RecordStatus.ticket

/-- The events that were passed to `persist`, in order. -/
def passed (w : AuditWorld ε) : List (ℕ × ε) :=
  w.persisted.flatMap PersistCall.batch

/-- Call `i` persists batch `b` under ticket `t`. -/
def Leading (w : AuditWorld ε) (i t k : ℕ) (b : List (ℕ × ε)) : Prop :=
  w.status i = some (.leading t k b)

def Live (w : AuditWorld ε) (i t : ℕ) : Prop :=
  ∃ s, w.status i = some s ∧ s.liveTicket = some t

/-- The call has returned or has unwound. -/
def Back (w : AuditWorld ε) (i : ℕ) : Prop :=
  ∃ s, w.status i = some s ∧ s.Ended

/-- The ticket has its result, or no ticket will get one any more. -/
def Decided (w : AuditWorld ε) (t : ℕ) : Prop :=
  w.coordinator.failed ≠ none ∨ w.coordinator.completed[t]? ≠ none

instance decidableDecided (w : AuditWorld ε) (t : ℕ) : Decidable (w.Decided t) :=
  inferInstanceAs (Decidable (_ ∨ _))

/-- The call has not been admitted: it is not there yet, still enters, or was refused. -/
def Unadmitted (w : AuditWorld ε) (i : ℕ) : Prop :=
  w.status i = none ∨ w.status i = some .entering ∨
    ∃ error, w.status i = some (.returned none (.error error))

variable {w w' : AuditWorld ε} {i j t : ℕ}

theorem Live.ticket (h : w.Live i t) : w.ticket i = some t := by
  obtain ⟨s, hs, hlive⟩ := h
  rw [AuditWorld.ticket, hs]
  exact RecordStatus.ticket_of_liveTicket hlive

/-! ## Moves -/

/-- How a quiet move may change the status of a call. -/
inductive Changes (w : AuditWorld ε) : Option (RecordStatus ε) → Option (RecordStatus ε) → Prop
  | arrives : Changes w none (some .entering)
  | refuses (error : DbError) : Changes w (some .entering) (some (.returned none (.error error)))
  | returns (t : ℕ) (r : Except DbError Unit) :
      (r = .ok () → w.coordinator.completed[t]? = some (.ok ())) →
      Changes w (some (.awake t)) (some (.returned (some t) r))
  | waits (t : ℕ) : w.coordinator.completed[t]? = none → w.coordinator.leader = true →
      Changes w (some (.awake t)) (some (.waiting t))
  | wakes (t : ℕ) : Changes w (some (.waiting t)) (some (.awake t))

/-- The step changes neither the queue nor the log. -/
structure Quiet (w w' : AuditWorld ε) : Prop where
  persisted : w'.persisted = w.persisted
  pending : w'.coordinator.pending = w.coordinator.pending
  nextTicket : w'.coordinator.nextTicket = w.coordinator.nextTicket
  failed : w'.coordinator.failed = w.coordinator.failed
  leader : w'.coordinator.leader = w.coordinator.leader
  event : ∀ j e, w.event j = some e → w'.event j = some e
  status : ∀ j, w'.status j = w.status j ∨ Changes w (w.status j) (w'.status j)
  completed : ∀ t : ℕ, w'.coordinator.completed[t]? = w.coordinator.completed[t]? ∨
    w'.coordinator.completed[t]? = none ∧
      ∃ j r, w.status j = some (.awake t) ∧ w'.status j = some (.returned (some t) r)

/-- Call `i` turns from status `s₀` to `s`; the other calls stay as they are. -/
structure Turns (w w' : AuditWorld ε) (i : ℕ) (s₀ s : RecordStatus ε) : Prop where
  before : w.status i = some s₀
  status : ∀ j, w'.status j = if j = i then some s else w.status j
  event : w'.event = w.event

/-- Call `i` gets the next ticket for its event. -/
structure Admits (w w' : AuditWorld ε) (i : ℕ) (e : ε) : Prop
    extends Turns w w' i .entering (.awake w.coordinator.nextTicket) where
  owned : w.event i = some e
  running : w.coordinator.failed = none
  coordinator : w'.coordinator = { w.coordinator with
    nextTicket := w.coordinator.nextTicket + 1
    pending := w.coordinator.pending ++ [(w.coordinator.nextTicket, e)] }
  persisted : w'.persisted = w.persisted

/-- Call `i` takes the lead with a batch, as its ticket `t` has no result yet. -/
structure Leads (w w' : AuditWorld ε) (i t : ℕ) : Prop extends Turns w w' i (.awake t)
    (.leading t w.persisted.length (w.coordinator.pending.take maxBatchEvents)) where
  opened : w.coordinator.completed[t]? = none
  running : w.coordinator.failed = none
  free : w.coordinator.leader = false
  coordinator : w'.coordinator = { w.coordinator with
    leader := true, pending := w.coordinator.pending.drop maxBatchEvents }
  persisted : w'.persisted =
    w.persisted ++ [{ batch := w.coordinator.pending.take maxBatchEvents }]

/-- The leader finishes its batch when nobody waits any more. -/
structure Finishes (w w' : AuditWorld ε) (i t k : ℕ) (b : List (ℕ × ε)) (o : PersistOutcome)
    (s : RecordStatus ε) : Prop extends Turns w w' i (.leading t k b) s where
  ends : s = .awake t ∨ s = .unwound t ∧ o = .panic
  idle : ∀ j t', w.status j ≠ some (.waiting t')
  coordinator : w'.coordinator = w.coordinator.finish t (b.map Prod.fst) o
  persisted : w'.persisted = w.persisted.set k { batch := b, outcome := some o }

/-- What one step of the coordinator can do. -/
inductive Move (w w' : AuditWorld ε) : Prop
  | quiet (h : Quiet w w')
  | admits {i : ℕ} {e : ε} (h : Admits w w' i e)
  | leads {i t : ℕ} (h : Leads w w' i t)
  | finishes {i t k : ℕ} {b : List (ℕ × ε)} {o : PersistOutcome} {s : RecordStatus ε}
      (h : Finishes w w' i t k b o s)

abbrev Moves : AuditWorld ε → AuditWorld ε → Prop :=
  Relation.ReflTransGen Move

theorem Quiet.moves (h : Quiet w w') : Moves w w' :=
  .single (.quiet h)

/-! ## Statuses after a move -/

namespace Turns

variable {s₀ s : RecordStatus ε}

theorem after (h : Turns w w' i s₀ s) : w'.status i = some s := by
  rw [h.status, if_pos rfl]

theorem other (h : Turns w w' i s₀ s) (hj : j ≠ i) : w'.status j = w.status j := by
  rw [h.status, if_neg hj]

theorem ticket (h : Turns w w' i s₀ s) (hticket : s.ticket = s₀.ticket) : w'.ticket = w.ticket := by
  funext j
  rw [AuditWorld.ticket, AuditWorld.ticket]
  by_cases hj : j = i
  · rw [hj, h.after, h.before]
    exact hticket
  · rw [h.other hj]

theorem status_iff (h : Turns w w' i s₀ s) {x : RecordStatus ε} (hs₀ : s₀ ≠ x) (hs : s ≠ x) :
    w'.status j = some x ↔ w.status j = some x := by
  by_cases hj : j = i
  · subst hj
    rw [h.after, h.before]
    simp [hs₀, hs]
  · rw [h.other hj]

/-- A call that was under way still is, except where its turn has ended it. -/
theorem live_iff (h : Turns w w' i s₀ s) (hs : s.liveTicket = s₀.liveTicket) :
    w'.Live j t ↔ w.Live j t := by
  by_cases hj : j = i
  · subst hj
    simp [Live, h.after, h.before, hs]
  · rw [Live, Live, h.other hj]

end Turns

namespace Quiet

theorem ticket (h : Quiet w w') : w'.ticket = w.ticket := by
  funext j
  rw [AuditWorld.ticket, AuditWorld.ticket]
  rcases h.status j with hsame | hchange
  · rw [hsame]
  · generalize w.status j = x, w'.status j = y at hchange
    cases hchange <;> rfl

theorem leading_iff (h : Quiet w w') {k : ℕ} {b : List (ℕ × ε)} :
    w'.Leading j t k b ↔ w.Leading j t k b := by
  rw [Leading, Leading]
  rcases h.status j with hsame | hchange
  · rw [hsame]
  · generalize w.status j = x, w'.status j = y at hchange
    cases hchange <;> simp

theorem waiting (h : Quiet w w') (hj : w'.status j = some (.waiting t)) :
    w.status j = some (.waiting t) ∨
      w.coordinator.leader = true ∧ w.coordinator.completed[t]? = none := by
  rcases h.status j with hsame | hchange
  · exact .inl (hsame ▸ hj)
  · rw [hj] at hchange
    generalize w.status j = x at hchange
    cases hchange with
    | waits _ hopen hleader => exact .inr ⟨hleader, hopen⟩

theorem returned (h : Quiet w w') {t : Option ℕ} (hj : w'.status j = some (.returned t (.ok ()))) :
    w.status j = some (.returned t (.ok ())) ∨
      ∃ n, t = some n ∧ w.coordinator.completed[n]? = some (.ok ()) := by
  rcases h.status j with hsame | hchange
  · exact .inl (hsame ▸ hj)
  · rw [hj] at hchange
    generalize w.status j = x at hchange
    cases hchange with
    | returns n _ hok => exact .inr ⟨n, rfl, hok rfl⟩

theorem live (h : Quiet w w') (hj : w'.Live j t) : w.Live j t := by
  obtain ⟨s, hs, hlive⟩ := hj
  rcases h.status j with hsame | hchange
  · exact ⟨s, hsame ▸ hs, hlive⟩
  · rw [hs] at hchange
    rw [Live]
    generalize w.status j = x at hchange
    cases hchange <;> simp_all [RecordStatus.liveTicket]

theorem live_or_back (h : Quiet w w') (hj : w.Live j t) : w'.Live j t ∨ w'.Back j := by
  obtain ⟨s, hs, hlive⟩ := hj
  rcases h.status j with hsame | hchange
  · exact .inl ⟨s, hsame.trans hs, hlive⟩
  · rw [hs] at hchange
    rw [Live, Back]
    generalize w'.status j = y at hchange
    cases hchange <;> simp_all [RecordStatus.liveTicket, RecordStatus.Ended]

theorem unadmitted (h : Quiet w w') (hj : w.Unadmitted j) : w'.Unadmitted j := by
  rcases h.status j with hsame | hchange
  · rw [Unadmitted, hsame]
    exact hj
  · rw [Unadmitted] at hj ⊢
    generalize w.status j = x, w'.status j = y at hchange hj
    cases hchange <;> simp_all

end Quiet

end AuditWorld

end MultiDb
