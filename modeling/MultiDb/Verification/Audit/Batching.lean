import MultiDb.Shared.Fairness
import MultiDb.Verification.Audit.Progress

/-!
# Audit batching is faithful

In a fair run every caller comes back, since its ticket gets nearer to its result.
-/

namespace MultiDb

open Shared

variable {ε : Type}

namespace AuditWorld

variable {w : AuditWorld ε} {i j : ℕ}

/-! ## Fair runs -/

theorem status_cases (h : w.status i ≠ none) :
    w.status i = some .entering ∨ (∃ t, w.Live i t) ∨ w.Back i := by
  obtain ⟨s, hs⟩ := Option.ne_none_iff_exists'.mp h
  cases s with
  | entering => exact .inl hs
  | waiting t => exact .inr (.inl ⟨t, _, hs, rfl⟩)
  | awake t => exact .inr (.inl ⟨t, _, hs, rfl⟩)
  | leading t k b => exact .inr (.inl ⟨t, _, hs, rfl⟩)
  | returned t r => exact .inr (.inr ⟨_, hs, trivial⟩)
  | unwound t => exact .inr (.inr ⟨_, hs, trivial⟩)

/-- A call that enters is refused, or gets a ticket. -/
theorem act_enters (hinv : w.BatchInv) (hi : w.status i = some .entering) (o : PersistOutcome) :
    (∃ t, (w.act i o).Live i t) ∨ (w.act i o).Back i := by
  obtain ⟨call, hcall, hstatus⟩ := act_of_status hi
  simp only [act, hcall, hstatus, enter]
  cases henqueue : w.coordinator.enqueue call.event with
  | error error =>
    exact .inr ⟨_, (turns_setStatus w.coordinator w.persisted hi _).after, trivial⟩
  | ok result =>
    obtain ⟨t, co⟩ := result
    obtain ⟨hfailed, rfl, rfl⟩ := enqueue_eq_ok henqueue
    have hturn := turns_setStatus { w.coordinator with
      nextTicket := w.coordinator.nextTicket + 1
      pending := w.coordinator.pending ++ [(w.coordinator.nextTicket, call.event)] } w.persisted hi
      (.awake w.coordinator.nextTicket)
    have hadmits := hinv.admits ⟨hturn, by rw [event, hcall]; rfl, hfailed, rfl, rfl⟩
    exact ((moves_loop hturn.after).advances hadmits ⟨_, hturn.after, rfl⟩).imp
      (fun h => ⟨_, h.2⟩) id

variable {steps : ℕ → Step ε}

theorem actor_eq_some {st : Step ε} (h : st.actor = some j) : ∃ o, st = .act j o := by
  cases st with
  | act i o => exact ⟨o, by rw [Option.some.inj h]⟩
  | record e => contradiction
  | wake i => contradiction
  | markFailed => contradiction

theorem ranks_live (i t : ℕ) : Ranks Runs (states steps) (fun n => (steps n).actor)
    (fun w => w.BatchInv ∧ w.Live i t) (fun w => w.Back i) (waitRank t) (Helps i t) := by
  have hstep : ∀ n, (states steps n).BatchInv ∧ (states steps n).Live i t →
      ¬ (states steps (n + 1)).Back i →
      Advances i t (states steps n) (states steps (n + 1)) ∧ (states steps (n + 1)).Live i t :=
    fun n hP hgoal => ((moves_step _ (steps n)).advances hP.1 hP.2).resolve_right hgoal
  constructor
  case holds => exact fun n hP hgoal => ⟨hP.1.step _, (hstep n hP hgoal).2⟩
  case rank_le => exact fun n hP hgoal => (hstep n hP hgoal).1.le
  case exists_helper => exact fun n hP => exists_helper hP.1
  case enabled_of_helper => exact fun n j hP hj => helper_runs hP.1 hP.2 hj
  case keeps =>
    intro n j hP hj hgoal hrank
    rcases (hstep n hP hgoal).1 with hlt | ⟨-, hhelps⟩
    · exact absurd hrank hlt.ne
    · exact hhelps j hj
  case lowers =>
    intro n j hP hj hactor hgoal
    obtain ⟨o, hst⟩ := actor_eq_some hactor
    rw [states, hst] at hgoal ⊢
    exact (helper_lowers hP.1 hP.2 hj o).resolve_right hgoal

theorem ranks_entering (i : ℕ) : Ranks Runs (states steps) (fun n => (steps n).actor)
    (fun w => w.BatchInv ∧ w.status i = some .entering)
    (fun w => (∃ t, w.Live i t) ∨ w.Back i) (fun _ => 0) (fun _ j => j = i) where
  holds n hP hgoal :=
    ⟨hP.1.step _, (status_cases ((moves_step _ (steps n)).status_ne_none
      (by simp [hP.2] : (states steps n).status i ≠ none))).resolve_right hgoal⟩
  rank_le n hP hgoal := le_rfl
  exists_helper n hP := ⟨i, rfl⟩
  enabled_of_helper n j hP hj := .inl (hj ▸ hP.2)
  keeps n j hP hj hgoal hrank := hj
  lowers n j hP hj hactor hgoal := by
    obtain ⟨o, hst⟩ := actor_eq_some hactor
    rw [states, hst, hj] at hgoal
    exact absurd (act_enters hP.1 hP.2 o) hgoal

theorem eventually_back (hfair : WeaklyFair Runs (states steps) fun n => (steps n).actor) (n i : ℕ)
    (h : (states steps n).status i ≠ none) : ∃ m, n ≤ m ∧ (states steps m).Back i := by
  have hentered : ∀ n, (∃ t, (states steps n).Live i t) ∨ (states steps n).Back i →
      ∃ m, n ≤ m ∧ (states steps m).Back i := by
    rintro n (⟨t, hlive⟩ | hback)
    · obtain ⟨m, hm, hback⟩ := (ranks_live i t).eventually hfair ⟨batchInv_states steps n, hlive⟩
      exact ⟨m, hm.le, hback⟩
    · exact ⟨n, le_rfl, hback⟩
  rcases status_cases h with hentering | hentered'
  · obtain ⟨m, hm, hgoal⟩ :=
      (ranks_entering i).eventually hfair ⟨batchInv_states steps n, hentering⟩
    obtain ⟨m', hm', hback⟩ := hentered m hgoal
    exact ⟨m', hm.le.trans hm', hback⟩
  · exact hentered n hentered'

/-! ## The coordinator is faithful -/

theorem BatchInv.returned_ok (hinv : w.BatchInv) {t : Option ℕ}
    (h : w.status i = some (.returned t (.ok ()))) :
    ∃ n e p, t = some n ∧ w.event i = some e ∧ p ∈ w.persisted ∧ p.outcome = some .ok ∧
      (n, e) ∈ p.batch := by
  obtain ⟨n, rfl, p, hp, hmem, hok⟩ := hinv.results.returned i t h
  obtain ⟨⟨n, e⟩, hx, rfl⟩ := List.mem_map.mp hmem
  have hpassed : (n, e) ∈ w.passed := List.mem_flatMap.mpr ⟨p, hp, hx⟩
  obtain ⟨j, hj, he⟩ := hinv.queue.owner (n, e) (List.mem_append_left _ hpassed)
  have hi : w.ticket i = some n := by
    rw [ticket, h]
    rfl
  rw [hinv.queue.ticket_inj j i n hj hi] at he
  exact ⟨n, e, p, rfl, he, hp, hok, hx⟩

theorem QueueInv.passed_tickets (h : QueueInv w) :
    w.passed.map Prod.fst = List.range w.passed.length := by
  have htickets := congrArg (List.take w.passed.length) h.tickets
  rw [entries, List.map_append, List.take_left' (by simp), List.take_range] at htickets
  rw [htickets, List.length_append, Nat.min_eq_left (Nat.le_add_right _ _)]

end AuditWorld

/-- An `Ok` means a batch whose `persist` returned `Ok`; events are passed in ticket order, each
once; after a failure `persist` is not called again; and in a fair run every caller comes back. -/
theorem record_faithful (ε : Type) :
    (∀ steps : List (AuditWorld.Step ε), let w := AuditWorld.run {} steps
      (∀ i t, w.status i = some (.returned t (.ok ())) →
        ∃ n e p, t = some n ∧ w.event i = some e ∧ p ∈ w.persisted ∧ p.outcome = some .ok ∧
          (n, e) ∈ p.batch) ∧
      w.passed.map Prod.fst = List.range w.passed.length ∧
      (∀ x ∈ w.passed, ∃ i, w.ticket i = some x.1 ∧ w.event i = some x.2 ∧
        ∀ j, w.ticket j = some x.1 → j = i) ∧
      ((∃ p ∈ w.persisted, p.outcome ≠ none ∧ p.outcome ≠ some .ok) →
        ∀ later, (w.run later).persisted = w.persisted ∧
          ∀ i, w.Unadmitted i → ∀ t, (w.run later).status i ≠ some (.returned t (.ok ())))) ∧
    ∀ steps : ℕ → AuditWorld.Step ε,
      WeaklyFair AuditWorld.Runs (AuditWorld.states steps) (fun n => (steps n).actor) →
      ∀ n i, (AuditWorld.states steps n).status i ≠ none →
        ∃ m, n ≤ m ∧ (AuditWorld.states steps m).Back i := by
  refine ⟨fun steps => ?_, fun steps hfair n i => AuditWorld.eventually_back hfair n i⟩
  intro w
  have hinv : w.BatchInv := AuditWorld.batchInv_init.run steps
  refine ⟨fun i t => hinv.returned_ok, hinv.queue.passed_tickets, ?_, ?_⟩
  · intro x hx
    obtain ⟨i, hi, he⟩ := hinv.queue.owner x (List.mem_append_left _ hx)
    exact ⟨i, hi, he, fun j hj => hinv.queue.ticket_inj j i x.1 hj hi⟩
  · rintro ⟨p, hp, hsome, hok⟩ later
    have hsealed := AuditWorld.sealed_run hinv (hinv.results.failed p hp hsome hok) later
    refine ⟨hsealed.persisted, fun i hi t ht => ?_⟩
    rcases hsealed.unadmitted i hi with h | h | ⟨error, h⟩
    · rw [ht] at h
      contradiction
    · simp [ht] at h
    · simp [ht] at h

/-- One call of `record` that acts for ever. -/
def oneCall : ℕ → AuditWorld.Step ℕ
  | 0 => .record 7
  | _ + 1 => .act 0 .ok

theorem states_oneCall (n : ℕ) : AuditWorld.states oneCall (n + 3) =
    AuditWorld.states oneCall 3 := by
  induction n with
  | zero => rfl
  | succ n ih =>
    rw [AuditWorld.states, ih]
    rfl

theorem weaklyFair_oneCall : WeaklyFair AuditWorld.Runs (AuditWorld.states oneCall)
    fun n => (oneCall n).actor := by
  intro i n henabled
  by_cases hi : i = 0
  · exact ⟨n + 1, Nat.le_succ n, by rw [hi]; rfl⟩
  · -- there is no other call
    have hruns := henabled (n + 3) (Nat.le_add_right n 3)
    have hnone : (AuditWorld.states oneCall 3).status i = none := by
      have hlength : (AuditWorld.states oneCall 3).calls.length = 1 := rfl
      rw [AuditWorld.status, List.getElem?_eq_none (by omega)]
      rfl
    rw [states_oneCall] at hruns
    simp [AuditWorld.Runs, AuditWorld.Leading, hnone] at hruns

theorem record_faithful_oneCall :
    WeaklyFair AuditWorld.Runs (AuditWorld.states oneCall) (fun n => (oneCall n).actor) ∧
      ∃ m, (AuditWorld.states oneCall m).Back 0 := by
  obtain ⟨m, -, hback⟩ := (record_faithful ℕ).2 oneCall weaklyFair_oneCall 1 0 (by decide)
  exact ⟨weaklyFair_oneCall, m, hback⟩

end MultiDb
