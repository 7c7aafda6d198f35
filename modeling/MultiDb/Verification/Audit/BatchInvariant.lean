import MultiDb.Verification.Audit.Steps

/-!
# The invariant of audit batching

Tickets are passed to `persist` in order and once; only one call leads at a time, and nobody
waits while there is no leader.
-/

namespace MultiDb

open Shared

variable {ε : Type}
variable {b : List (ℕ × ε)} {e : ε}

namespace AuditWorld

/-! ## The invariant -/

/-- The admitted events that have not been dropped, in the order of their tickets. -/
def entries (w : AuditWorld ε) : List (ℕ × ε) :=
  w.passed ++ w.coordinator.pending

/-- The tickets are counted from zero, and each event belongs to the call with its ticket. -/
structure QueueInv (w : AuditWorld ε) : Prop where
  tickets : w.entries.map Prod.fst = List.range w.entries.length
  next : w.coordinator.failed = none → w.entries.length = w.coordinator.nextTicket
  owner : ∀ x ∈ w.entries, ∃ j, w.ticket j = some x.1 ∧ w.event j = some x.2
  ticket_lt : ∀ j t, w.ticket j = some t → t < w.coordinator.nextTicket
  ticket_inj : ∀ i j t, w.ticket i = some t → w.ticket j = some t → i = j

/-- A leader with ticket `t` runs the last call of `persist`. -/
structure Leader (w : AuditWorld ε) (t k : ℕ) (b : List (ℕ × ε)) : Prop where
  leader : w.coordinator.leader = true
  running : w.coordinator.failed = none
  opened : w.coordinator.completed[t]? = none
  call : ∃ earlier, w.persisted = earlier ++ [{ batch := b }] ∧ earlier.length = k

/-- One call leads when there is a leader, and calls wait only for a leader. -/
structure LeadInv (w : AuditWorld ε) : Prop where
  led : w.coordinator.leader = true → ∃ i t k b, w.Leading i t k b
  unique : ∀ i j t k b t' k' b', w.Leading i t k b → w.Leading j t' k' b' → i = j
  leading : ∀ i t k b, w.Leading i t k b → Leader w t k b
  waiting : ∀ j t, w.status j = some (.waiting t) →
    w.coordinator.leader = true ∧ w.coordinator.completed[t]? = none

/-- The ticket was in a batch whose `persist` returned `Ok`. -/
def Persisted (w : AuditWorld ε) (t : ℕ) : Prop :=
  ∃ p ∈ w.persisted, t ∈ p.batch.map Prod.fst ∧ p.outcome = some .ok

/-- An `Ok` comes from `persist`, and tickets under way are queued, running or decided. -/
structure ResultInv (w : AuditWorld ε) : Prop where
  completed : ∀ t : ℕ, w.coordinator.completed[t]? = some (.ok ()) → w.Persisted t
  returned : ∀ j t, w.status j = some (.returned t (.ok ())) → ∃ n, t = some n ∧ w.Persisted n
  failed : ∀ p ∈ w.persisted, p.outcome ≠ none → p.outcome ≠ some .ok → w.coordinator.failed ≠ none
  located : ∀ j t, w.Live j t → ¬ w.Decided t →
    w.passed.length ≤ t ∨ ∃ i t' k b, w.Leading i t' k b ∧ t ∈ b.map Prod.fst

/-- What every reachable state of the coordinator satisfies. -/
structure BatchInv (w : AuditWorld ε) : Prop where
  queue : QueueInv w
  lead : LeadInv w
  results : ResultInv w

theorem batchInv_init : ({} : AuditWorld ε).BatchInv where
  queue := by constructor <;> simp [entries, passed, ticket, status]
  lead := by constructor <;> simp [Leading, status]
  results := by constructor <;> simp [Live, status]

variable {w w' : AuditWorld ε} {i j t : ℕ}

theorem LeadInv.not_leading (h : LeadInv w) (hleader : w.coordinator.leader = false) {k : ℕ} : ¬ w.Leading i t k b := by
  intro hi
  have := (h.leading i t k b hi).leader
  simp [hleader] at this

/-! ## Steps that leave a part of it alone -/

/-- Only a failure drops events. -/
theorem QueueInv.of_prefix (h : QueueInv w) (hentries : w'.entries <+: w.entries)
    (hfailed : w'.coordinator.failed = none →
      w'.entries = w.entries ∧ w.coordinator.failed = none)
    (hnext : w'.coordinator.nextTicket = w.coordinator.nextTicket) (hticket : w'.ticket = w.ticket)
    (hevent : ∀ j e, w.event j = some e → w'.event j = some e) : QueueInv w' where
  tickets := by
    rw [List.prefix_iff_eq_take.mp hentries, List.map_take, h.tickets, List.take_range,
      List.length_take]
  next hnone := by
    obtain ⟨hsame, hnone⟩ := hfailed hnone
    rw [hsame, hnext, h.next hnone]
  owner x hx := by
    obtain ⟨j, hj, he⟩ := h.owner x (hentries.subset hx)
    exact ⟨j, hticket ▸ hj, hevent j x.2 he⟩
  ticket_lt := by
    rw [hticket, hnext]
    exact h.ticket_lt
  ticket_inj := by
    rw [hticket]
    exact h.ticket_inj

theorem LeadInv.of_same (h : LeadInv w) (hpersisted : w'.persisted = w.persisted)
    (hleader : w'.coordinator.leader = w.coordinator.leader)
    (hfailed : w'.coordinator.failed = w.coordinator.failed)
    (hopen : ∀ t : ℕ, w.coordinator.completed[t]? = none → w'.coordinator.completed[t]? = none)
    (hlead : ∀ j t k b, w'.Leading j t k b ↔ w.Leading j t k b)
    (hwait : ∀ j t, w'.status j = some (.waiting t) → w.status j = some (.waiting t) ∨
      w.coordinator.leader = true ∧ w.coordinator.completed[t]? = none) : LeadInv w' where
  led hl := by
    simp only [hlead]
    exact h.led (hleader ▸ hl)
  unique := by
    simp only [hlead]
    exact h.unique
  leading i t k b hi := by
    obtain ⟨hl, hrunning, hopened, hcall⟩ := h.leading i t k b ((hlead i t k b).mp hi)
    exact ⟨hleader ▸ hl, hfailed ▸ hrunning, hopen t hopened, hpersisted ▸ hcall⟩
  waiting j t hj := by
    have hold := (hwait j t hj).elim (h.waiting j t) id
    exact ⟨hleader ▸ hold.1, hopen t hold.2⟩

theorem ResultInv.of_same (h : ResultInv w) (hpersisted : w'.persisted = w.persisted)
    (hfailed : w'.coordinator.failed = w.coordinator.failed)
    (hcompleted : ∀ (t : ℕ) r, w'.coordinator.completed[t]? = some r →
      w.coordinator.completed[t]? = some r)
    (hreturned : ∀ j t, w'.status j = some (.returned t (.ok ())) →
      w.status j = some (.returned t (.ok ())) ∨
      ∃ n, t = some n ∧ w.coordinator.completed[n]? = some (.ok ()))
    (hlead : ∀ j t k b, w'.Leading j t k b ↔ w.Leading j t k b)
    (hlive : ∀ j t, w'.Live j t → ¬ w'.Decided t →
      w.passed.length ≤ t ∨ w.Live j t ∧ ¬ w.Decided t) : ResultInv w' where
  completed t ht := by
    rw [Persisted, hpersisted]
    exact h.completed t (hcompleted t _ ht)
  returned j t hj := by
    simp only [Persisted, hpersisted]
    rcases hreturned j t hj with hj | ⟨n, rfl, hn⟩
    · exact h.returned j t hj
    · exact ⟨n, rfl, h.completed n hn⟩
  failed := by
    rw [hpersisted, hfailed]
    exact h.failed
  located j t hj hundecided := by
    simp only [passed, hpersisted, hlead]
    rcases hlive j t hj hundecided with hle | ⟨hj, hundecided⟩
    · exact .inl hle
    · exact h.located j t hj hundecided

/-! ## Quiet moves -/

theorem Quiet.passed (h : Quiet w w') : w'.passed = w.passed := by
  rw [AuditWorld.passed, AuditWorld.passed, h.persisted]

/-- A quiet move decides no ticket that is still under way. -/
theorem BatchInv.decided_quiet (hinv : w.BatchInv) (h : Quiet w w') (hlive : w'.Live j t) :
    w'.Decided t ↔ w.Decided t := by
  rcases h.completed t with hsame | ⟨-, i, r, hi, hi'⟩
  · rw [Decided, Decided, h.failed, hsame]
  · -- the call that returned had the same ticket
    have hticket : w.ticket i = some t := by
      rw [ticket, hi]
      rfl
    obtain rfl := hinv.queue.ticket_inj i j t hticket (h.live hlive).ticket
    obtain ⟨s, hs, hs'⟩ := hlive
    cases hi'.symm.trans hs
    contradiction

/-- A quiet step keeps the invariant. -/
theorem BatchInv.quiet (hinv : w.BatchInv) (h : Quiet w w') : w'.BatchInv where
  queue := by
    have hentries : w'.entries = w.entries := by rw [entries, entries, h.passed, h.pending]
    exact hinv.queue.of_prefix (hentries ▸ List.prefix_rfl)
      (fun hnone => ⟨hentries, h.failed ▸ hnone⟩)
      h.nextTicket h.ticket h.event
  lead := by
    refine hinv.lead.of_same h.persisted h.leader h.failed (fun t hopen => ?_)
      (fun _ _ _ _ => h.leading_iff) fun _ _ => h.waiting
    exact (h.completed t).elim (·.trans hopen) And.left
  results := by
    refine hinv.results.of_same h.persisted h.failed (fun t r hr => ?_) (fun _ _ => h.returned)
      (fun _ _ _ _ => h.leading_iff) fun j t hj hundecided =>
        .inr ⟨h.live hj, (hinv.decided_quiet h hj).not.mp hundecided⟩
    rcases h.completed t with hsame | ⟨hnone, -⟩
    · exact hsame ▸ hr
    · rw [hnone] at hr
      contradiction

/-! ## Admission -/

theorem Admits.passed (h : Admits w w' i e) : w'.passed = w.passed := by
  rw [AuditWorld.passed, AuditWorld.passed, h.persisted]

theorem Admits.entries (h : Admits w w' i e) :
    w'.entries = w.entries ++ [(w.coordinator.nextTicket, e)] := by
  rw [AuditWorld.entries, AuditWorld.entries, h.passed, h.coordinator, List.append_assoc]

theorem Admits.ticket (h : Admits w w' i e) (j : ℕ) :
    w'.ticket j = if j = i then some w.coordinator.nextTicket else w.ticket j := by
  rw [AuditWorld.ticket, h.status]
  split <;> rfl

theorem Admits.leading_iff (h : Admits w w' i e) {k : ℕ} :
    w'.Leading j t k b ↔ w.Leading j t k b :=
  h.status_iff (by simp) (by simp)

theorem Admits.decided_iff (h : Admits w w' i e) : w'.Decided t ↔ w.Decided t := by
  rw [Decided, Decided, h.coordinator]

/-- Admitting a call keeps the queue in order. -/
theorem QueueInv.admits (hinv : QueueInv w) (h : Admits w w' i e) : QueueInv w' where
  tickets := by
    rw [h.entries, List.map_append, hinv.tickets, List.length_append, List.length_singleton,
      List.range_succ, hinv.next h.running]
    rfl
  next _ := by
    rw [h.entries, h.coordinator, List.length_append, hinv.next h.running]
    rfl
  owner x hx := by
    rw [h.entries] at hx
    rcases List.mem_append.mp hx with hx | hx
    · obtain ⟨j, hj, he⟩ := hinv.owner x hx
      refine ⟨j, ?_, h.event ▸ he⟩
      rw [h.ticket, if_neg, hj]
      rintro rfl
      rw [AuditWorld.ticket, h.before] at hj
      contradiction
    · rw [List.mem_singleton.mp hx]
      exact ⟨i, by rw [h.ticket, if_pos rfl], h.event ▸ h.owned⟩
  ticket_lt j t hj := by
    rw [h.coordinator]
    rw [h.ticket] at hj
    split at hj
    · cases hj
      exact Nat.lt_succ_self _
    · exact (hinv.ticket_lt j t hj).trans (Nat.lt_succ_self _)
  ticket_inj j l t hj hl := by
    have hnew : ∀ {j}, w.ticket j ≠ some w.coordinator.nextTicket := fun hj =>
      absurd (hinv.ticket_lt _ _ hj) (lt_irrefl _)
    rw [h.ticket] at hj hl
    split at hj <;> split at hl
    · simp_all
    · cases hj
      exact absurd hl hnew
    · cases hl
      exact absurd hj hnew
    · exact hinv.ticket_inj j l t hj hl

theorem BatchInv.admits (hinv : w.BatchInv) (h : Admits w w' i e) : w'.BatchInv where
  queue := hinv.queue.admits h
  lead := by
    refine hinv.lead.of_same h.persisted ?_ ?_ ?_ (fun _ _ _ _ => h.leading_iff)
      fun j t hj => .inl ((h.status_iff (by simp) (by simp)).mp hj)
    all_goals simp [h.coordinator]
  results := by
    refine hinv.results.of_same h.persisted (by rw [h.coordinator]) (by simp [h.coordinator])
      (fun j t hj => .inl ((h.status_iff (by simp) (by simp)).mp hj))
      (fun _ _ _ _ => h.leading_iff) fun j t hj hundecided => ?_
    rw [h.decided_iff] at hundecided
    by_cases hji : j = i
    · -- the new ticket lies behind everything that was passed
      have hticket := hj.ticket
      rw [h.ticket, if_pos hji] at hticket
      have hnext := hinv.queue.next h.running
      rw [AuditWorld.entries, List.length_append] at hnext
      exact .inl (by rw [← Option.some.inj hticket]; omega)
    · rw [Live, h.other hji] at hj
      exact .inr ⟨hj, hundecided⟩

/-! ## The lead -/

theorem Leads.passed (h : Leads w w' i t) :
    w'.passed = w.passed ++ w.coordinator.pending.take maxBatchEvents := by
  rw [AuditWorld.passed, h.persisted, List.flatMap_append]
  simp [AuditWorld.passed]

theorem Leads.entries (h : Leads w w' i t) : w'.entries = w.entries := by
  rw [AuditWorld.entries, h.passed, h.coordinator, List.append_assoc, List.take_append_drop]
  rfl

theorem Leads.decided_iff {t' : ℕ} (h : Leads w w' i t) : w'.Decided t' ↔ w.Decided t' := by
  rw [Decided, Decided, h.coordinator]

/-- The tickets between the old and the new end of what was passed are those of the batch. -/
theorem QueueInv.mem_batch (h : QueueInv w) (n : ℕ) (hle : w.passed.length ≤ t)
    (hlt : t < (w.passed ++ w.coordinator.pending.take n).length) :
    t ∈ (w.coordinator.pending.take n).map Prod.fst := by
  have hlength : (w.passed ++ w.coordinator.pending.take n).length ≤ w.entries.length := by
    simp only [AuditWorld.entries, List.length_append, List.length_take]
    omega
  have hget : w.entries[t]?.map Prod.fst = some t := by
    rw [← List.getElem?_map, h.tickets, List.getElem?_range (hlt.trans_le hlength)]
  rw [AuditWorld.entries, List.getElem?_append_right hle] at hget
  refine List.mem_map.mpr ?_
  obtain ⟨x, hx, rfl⟩ := Option.map_eq_some_iff.mp hget
  rw [List.length_append] at hlt
  exact ⟨x, List.mem_of_getElem? ((List.getElem?_take_of_lt (by
    rw [List.length_take] at hlt
    omega)).trans hx), rfl⟩

/-- A leader takes the front of the queue. -/
theorem BatchInv.leads (hinv : w.BatchInv) (h : Leads w w' i t) : w'.BatchInv := by
  have hreturned : ∀ {j t' r}, _ ↔ _ := fun {j t' r} =>
    h.status_iff (j := j) (x := .returned t' r) (by simp) (by simp)
  -- nobody led before
  have hlead : ∀ {j t' k b}, w'.Leading j t' k b → j = i ∧ t' = t ∧ k = w.persisted.length ∧
      b = w.coordinator.pending.take maxBatchEvents := by
    intro j t' k b hj
    by_cases hji : j = i
    · subst hji
      exact ⟨rfl, RecordStatus.leading.inj (Option.some.inj (hj.symm.trans h.after))⟩
    · exact absurd ((h.other hji).symm.trans hj) (hinv.lead.not_leading h.free)
  have hfrom : ∀ {t}, w.Persisted t → w'.Persisted t := fun hp =>
    hp.imp fun p hp => ⟨h.persisted ▸ List.mem_append_left _ hp.1, hp.2⟩
  constructor
  case queue =>
    exact hinv.queue.of_prefix (h.entries ▸ List.prefix_rfl) (fun _ => ⟨h.entries, h.running⟩)
      (by rw [h.coordinator]) (h.ticket rfl) fun j e he => h.event ▸ he
  case lead =>
    constructor
    case led => exact fun _ => ⟨i, _, _, _, h.after⟩
    case unique => exact fun i j _ _ _ _ _ _ hi hj => (hlead hi).1.trans (hlead hj).1.symm
    case leading =>
      intro j t' k b hj
      obtain ⟨-, rfl, rfl, rfl⟩ := hlead hj
      exact ⟨by rw [h.coordinator], by rw [h.coordinator, h.running],
        by rw [h.coordinator, h.opened], w.persisted, h.persisted, rfl⟩
    case waiting =>
      intro j t' hj
      have hwait := hinv.lead.waiting j t' ((h.status_iff (by simp) (by simp)).mp hj)
      simp [h.free] at hwait
  case results =>
    constructor
    case completed =>
      intro t' ht'
      rw [h.coordinator] at ht'
      exact hfrom (hinv.results.completed t' ht')
    case returned =>
      intro j t' hj
      obtain ⟨n, rfl, hn⟩ := hinv.results.returned j t' (hreturned.mp hj)
      exact ⟨n, rfl, hfrom hn⟩
    case failed =>
      intro p hp hsome hok
      rw [h.persisted] at hp
      rw [h.coordinator]
      rcases List.mem_append.mp hp with hp | hp
      · exact hinv.results.failed p hp hsome hok
      · rw [List.mem_singleton.mp hp] at hsome
        exact absurd rfl hsome
    case located =>
      intro j t' hj hundecided
      rw [h.decided_iff] at hundecided
      rcases hinv.results.located j t' ((h.live_iff rfl).mp hj) hundecided with
        hle | ⟨l, t₁, k, b, hl, -⟩
      · by_cases hin : w'.passed.length ≤ t'
        · exact .inl hin
        · exact .inr ⟨i, _, _, _, h.after, hinv.queue.mem_batch _ hle (h.passed ▸ not_le.mp hin)⟩
      · exact absurd hl (hinv.lead.not_leading h.free)

end AuditWorld

end MultiDb
