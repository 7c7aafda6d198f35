import MultiDb.Verification.Audit.BatchRuns

/-!
# The progress of a ticket

The distance of a ticket from its result never grows, and there is a caller whose action
lowers it.
-/

namespace MultiDb

open Shared

variable {ε : Type} {o : PersistOutcome} {k : ℕ} {b : List (ℕ × ε)}

namespace AuditWorld

variable {w w' : AuditWorld ε} {i j t : ℕ}

/-! ## The distance of a ticket from its result -/

/-- The call can take its next action. -/
def Runs (w : AuditWorld ε) (j : ℕ) : Prop :=
  w.status j = some .entering ∨ (∃ t, w.status j = some (.awake t)) ∨ ∃ t k b, w.Leading j t k b

/-- How far `t` is from its result; a place in the queue counts two, to finish and to lead. -/
def waitRank (t : ℕ) (w : AuditWorld ε) : ℕ :=
  if w.Decided t then 1
  else if t < w.passed.length then 2
  else 2 * (t - w.passed.length) + 3 + if w.coordinator.leader then 1 else 0

/-- The call whose action brings ticket `t` of call `i` nearer to its result. -/
def Helps (i t : ℕ) (w : AuditWorld ε) (j : ℕ) : Prop :=
  if w.Decided t then j = i
  else if w.coordinator.leader then ∃ t' k b, w.Leading j t' k b
  else j = i

/-- The rank drops, or it stays and so does its helper. -/
def Advances (i t : ℕ) (w w' : AuditWorld ε) : Prop :=
  waitRank t w' < waitRank t w ∨
    waitRank t w' = waitRank t w ∧ ∀ j, Helps i t w j → Helps i t w' j

theorem Advances.trans {w₁ w₂ w₃ : AuditWorld ε} (h₁ : Advances i t w₁ w₂)
    (h₂ : Advances i t w₂ w₃) : Advances i t w₁ w₃ := by
  rcases h₁ with h₁ | ⟨h₁, hhelp₁⟩
  · rcases h₂ with h₂ | ⟨h₂, -⟩
    · exact .inl (h₂.trans h₁)
    · exact .inl (h₂.trans_lt h₁)
  · rcases h₂ with h₂ | ⟨h₂, hhelp₂⟩
    · exact .inl (h₁ ▸ h₂)
    · exact .inr ⟨h₂.trans h₁, fun j hj => hhelp₂ j (hhelp₁ j hj)⟩

theorem Advances.le (h : Advances i t w w') : waitRank t w' ≤ waitRank t w :=
  h.elim LT.lt.le fun h => h.1.le

theorem Advances.of_same (hdecided : w'.Decided t ↔ w.Decided t) (hpassed : w'.passed = w.passed)
    (hleader : w'.coordinator.leader = w.coordinator.leader)
    (hlead : ∀ j t' k b, w'.Leading j t' k b ↔ w.Leading j t' k b) : Advances i t w w' := by
  refine .inr ⟨?_, fun j hj => ?_⟩
  · simp only [waitRank, hdecided, hpassed, hleader]
  · simp only [Helps, hdecided, hleader, hlead] at hj ⊢
    exact hj

theorem Advances.of_decided (h : w.Decided t) (h' : w'.Decided t) : Advances i t w w' := by
  refine .inr ⟨?_, fun j hj => ?_⟩
  · rw [waitRank, waitRank, if_pos h, if_pos h']
  · rw [Helps, if_pos h] at hj
    rw [Helps, if_pos h']
    exact hj

/-- The lead brings every queued ticket nearer. -/
theorem Leads.lowers {i' t' : ℕ} (h : Leads w w' i' t') (hinv : w.BatchInv) (hlive : w.Live i t)
    (hundecided : ¬ w.Decided t) : waitRank t w' < waitRank t w := by
  have hle : w.passed.length ≤ t := by
    rcases hinv.results.located i t hlive hundecided with hle | ⟨l, t₁, k, b, hl, -⟩
    · exact hle
    · exact absurd hl (hinv.lead.not_leading h.free)
  have hlt : t < w.passed.length + w.coordinator.pending.length := by
    rw [← List.length_append]
    exact (hinv.queue.ticket_lt i t hlive.ticket).trans_eq (hinv.queue.next h.running).symm
  have hlength : w'.passed.length =
      w.passed.length + min maxBatchEvents w.coordinator.pending.length := by
    rw [h.passed, List.length_append, List.length_take]
  have hpos : 0 < min maxBatchEvents w.coordinator.pending.length := by
    simp only [maxBatchEvents]
    omega
  rw [waitRank, waitRank, if_neg (h.decided_iff.not.mpr hundecided), if_neg hundecided,
    if_neg (not_lt.mpr hle), h.free, h.coordinator]
  split
  · simp
  · simp only [if_true, Bool.false_eq_true, if_false]
    omega

/-- The end of a batch brings every ticket without a result nearer. -/
theorem Finishes.lowers {i' t' : ℕ} {s : RecordStatus ε} (h : Finishes w w' i' t' k b o s)
    (hinv : w.BatchInv) (hlive : w.Live i t) (hundecided : ¬ w.Decided t) :
    waitRank t w' < waitRank t w := by
  rw [waitRank, waitRank, if_neg hundecided, h.passed hinv, (h.leader hinv).leader,
    h.finished.leader]
  split
  · split <;> omega
  · rename_i hundecided'
    -- still undecided: the batch did not have the ticket
    rw [h.decided_iff hinv] at hundecided'
    have hle : w.passed.length ≤ t := by
      rcases hinv.results.located i t hlive hundecided with hle | ⟨l, t₁, k₁, b₁, hl, hmem⟩
      · exact hle
      · obtain rfl := hinv.lead.unique l i' _ _ _ _ _ _ hl h.before
        obtain ⟨-, -, rfl⟩ := RecordStatus.leading.inj (Option.some.inj (hl.symm.trans h.before))
        exact absurd (.inr (.inl hmem)) hundecided'
    rw [if_neg (not_lt.mpr hle), if_neg (not_lt.mpr hle)]
    simp

/-! ## Moves -/

theorem Turns.back {i' : ℕ} {s₀ s : RecordStatus ε} (h : Turns w w' i' s₀ s) (hs₀ : ¬ s₀.Ended)
    (hi : w.Back i) : w'.Back i := by
  have hne : i ≠ i' := by
    rintro rfl
    obtain ⟨x, hx, hended⟩ := hi
    cases h.before.symm.trans hx
    exact hs₀ hended
  rwa [Back, h.other hne]

theorem Move.back (h : Move w w') (hi : w.Back i) : w'.Back i := by
  cases h with
  | quiet h =>
    rcases h.status i with hsame | hchange
    · rwa [Back, hsame]
    · obtain ⟨s, hs, hended⟩ := hi
      rw [hs] at hchange
      generalize w'.status i = y at hchange
      cases hchange <;> exact absurd hended id
  | admits h => exact h.back id hi
  | leads h => exact h.back id hi
  | finishes h => exact h.back id hi

theorem Move.status_ne_none (h : Move w w') (hi : w.status i ≠ none) : w'.status i ≠ none := by
  have hturn : ∀ {i' s₀ s}, Turns w w' i' s₀ s → w'.status i ≠ none := by
    intro i' s₀ s hturn
    rw [hturn.status]
    split
    · simp
    · exact hi
  cases h with
  | quiet h =>
    rcases h.status i with hsame | hchange
    · rwa [hsame]
    · generalize w.status i = x, w'.status i = y at hchange hi
      cases hchange <;> simp
  | admits h => exact hturn h.toTurns
  | leads h => exact hturn h.toTurns
  | finishes h => exact hturn h.toTurns

/-- Each move brings a waiting call nearer to its end, or ends it. -/
theorem Move.advances (h : Move w w') (hinv : w.BatchInv) (hlive : w.Live i t) :
    Advances i t w w' ∧ w'.Live i t ∨ w'.Back i := by
  cases h with
  | quiet h =>
    rcases h.live_or_back hlive with hlive' | hback
    · exact .inl ⟨.of_same (hinv.decided_quiet h hlive') h.passed h.leader
        fun _ _ _ _ => h.leading_iff, hlive'⟩
    · exact .inr hback
  | @admits i' e h =>
    have hne : i ≠ i' := by
      rintro rfl
      obtain ⟨s, hs, hs'⟩ := hlive
      cases h.before.symm.trans hs
      contradiction
    refine .inl ⟨.of_same h.decided_iff h.passed (by rw [h.coordinator])
      fun _ _ _ _ => h.leading_iff, ?_⟩
    rwa [Live, h.other hne]
  | leads h =>
    refine .inl ⟨?_, (h.live_iff rfl).mpr hlive⟩
    by_cases hdecided : w.Decided t
    · exact .of_decided hdecided (h.decided_iff.mpr hdecided)
    · exact .inl (h.lowers hinv hlive hdecided)
  | @finishes i' t' k b o s h =>
    have hadvances : Advances i t w w' := by
      by_cases hdecided : w.Decided t
      · exact .of_decided hdecided ((h.decided_iff hinv).mpr (.inr (.inr hdecided)))
      · exact .inl (h.lowers hinv hlive hdecided)
    by_cases hi : i = i'
    · subst hi
      rcases h.ends with rfl | ⟨rfl, -⟩
      · exact .inl ⟨hadvances, (h.live_iff rfl).mpr hlive⟩
      · exact .inr ⟨_, h.after, trivial⟩
    · exact .inl ⟨hadvances, by rwa [Live, h.other hi]⟩

theorem Moves.back (h : Moves w w') (hi : w.Back i) : w'.Back i := by
  induction h with
  | refl => exact hi
  | tail _ hmove ih => exact hmove.back ih

theorem Moves.status_ne_none (h : Moves w w') (hi : w.status i ≠ none) : w'.status i ≠ none := by
  induction h with
  | refl => exact hi
  | tail _ hmove ih => exact hmove.status_ne_none ih

theorem Moves.advances (h : Moves w w') (hinv : w.BatchInv) (hlive : w.Live i t) :
    Advances i t w w' ∧ w'.Live i t ∨ w'.Back i := by
  induction h with
  | refl => exact .inl ⟨.inr ⟨rfl, fun _ hj => hj⟩, hlive⟩
  | tail hmoves hmove ih =>
    rcases ih with ⟨hadvances, hlive'⟩ | hback
    · rcases hmove.advances (hinv.moves hmoves) hlive' with ⟨hnext, hlive''⟩ | hback
      · exact .inl ⟨hadvances.trans hnext, hlive''⟩
      · exact .inr hback
    · exact .inr (hmove.back hback)

/-! ## The helper of a ticket -/

/-- A waiting call is awake once its result or the lead is there. -/
theorem BatchInv.awake (hinv : w.BatchInv) (hlive : w.Live i t)
    (h : w.Decided t ∨ w.coordinator.leader = false) : w.status i = some (.awake t) := by
  -- who waits or leads has a leader and no result
  have hnot : w.coordinator.failed = none → w.coordinator.completed[t]? = none →
      w.coordinator.leader ≠ true := by
    rintro hrunning hopen hleader
    rcases h with hdecided | hfalse
    · simp [Decided, hrunning, hopen] at hdecided
    · simp [hfalse] at hleader
  obtain ⟨s, hs, hs'⟩ := hlive
  cases s with
  | awake t' =>
    cases hs'
    exact hs
  | waiting t' =>
    obtain rfl := Option.some.inj hs'
    obtain ⟨hleader, hopen⟩ := hinv.lead.waiting i t' hs
    obtain ⟨l, t₁, k, b, hl⟩ := hinv.lead.led hleader
    exact absurd hleader (hnot (hinv.lead.leading l t₁ k b hl).running hopen)
  | leading t' k b =>
    obtain rfl := Option.some.inj hs'
    have hleader := hinv.lead.leading i t' k b hs
    exact absurd hleader.leader (hnot hleader.running hleader.opened)
  | entering => contradiction
  | returned t' r => contradiction
  | unwound t' => contradiction

theorem act_of_status {s : RecordStatus ε} (hi : w.status i = some s) :
    ∃ call, w.calls[i]? = some call ∧ call.status = s :=
  Option.map_eq_some_iff.mp hi

theorem act_awake (hi : w.status i = some (.awake t)) (o : PersistOutcome) :
    w.act i o = w.loop i t := by
  obtain ⟨call, hcall, hstatus⟩ := act_of_status hi
  simp only [act, hcall, hstatus]

theorem act_leading (hi : w.Leading i t k b) (o : PersistOutcome) :
    w.act i o = w.settle i t k b o := by
  obtain ⟨call, hcall, hstatus⟩ := act_of_status hi
  simp only [act, hcall, hstatus]

/-- A step of the call's helper lowers the rank. -/
theorem helper_lowers (hinv : w.BatchInv) (hlive : w.Live i t) (hhelps : Helps i t w j)
    (o : PersistOutcome) : waitRank t (w.act j o) < waitRank t w ∨ (w.act j o).Back i := by
  by_cases hdecided : w.Decided t
  · rw [Helps, if_pos hdecided] at hhelps
    subst hhelps
    have hi := hinv.awake hlive (.inl hdecided)
    rw [act_awake hi]
    rcases loop_cases hi with ⟨-, hback⟩ | ⟨hundecided, -⟩ | hleads
    · exact .inr hback
    · exact absurd hdecided hundecided
    · exact absurd hdecided (by simp [Decided, hleads.running, hleads.opened])
  · rw [Helps, if_neg hdecided] at hhelps
    split at hhelps
    · obtain ⟨t', k, b, hj⟩ := hhelps
      rw [act_leading hj]
      obtain ⟨s, w', hfinishes, hmoves⟩ := moves_settle hj o
      have hquiet := quiet_notifyAll w
      rcases (Move.quiet hquiet).advances hinv hlive with ⟨hwoken, hlive₁⟩ | hback
      · have hinv₁ := hinv.quiet hquiet
        have hlower := hfinishes.lowers hinv₁ hlive₁
          ((hinv.decided_quiet hquiet hlive₁).not.mpr hdecided)
        rcases (Move.finishes hfinishes).advances hinv₁ hlive₁ with ⟨-, hlive₂⟩ | hback
        · rcases hmoves.advances (hinv₁.move (.finishes hfinishes)) hlive₂ with ⟨hrest, -⟩ | hback
          · exact .inl (hrest.le.trans_lt (hlower.trans_le hwoken.le))
          · exact .inr hback
        · exact .inr (hmoves.back hback)
      · exact .inr (hmoves.back ((Move.finishes hfinishes).back hback))
    · rename_i hleader
      have hleader : w.coordinator.leader = false := by simpa using hleader
      subst hhelps
      have hi := hinv.awake hlive (.inr hleader)
      rw [act_awake hi]
      rcases loop_cases hi with ⟨-, hback⟩ | ⟨-, htrue, -⟩ | hleads
      · exact .inr hback
      · simp [hleader] at htrue
      · exact .inl (hleads.lowers hinv hlive hdecided)

theorem helper_runs (hinv : w.BatchInv) (hlive : w.Live i t) (hhelps : Helps i t w j) :
    w.Runs j := by
  rw [Helps] at hhelps
  split at hhelps
  · rename_i hdecided
    exact .inr (.inl ⟨t, hhelps ▸ hinv.awake hlive (.inl hdecided)⟩)
  · split at hhelps
    · exact .inr (.inr hhelps)
    · rename_i hleader
      exact .inr (.inl ⟨t, hhelps ▸ hinv.awake hlive (.inr (by simpa using hleader))⟩)

theorem exists_helper (hinv : w.BatchInv) : ∃ j, Helps i t w j := by
  by_cases hdecided : w.Decided t
  · exact ⟨i, by rw [Helps, if_pos hdecided]⟩
  · cases hleader : w.coordinator.leader with
    | true =>
      obtain ⟨j, hj⟩ := hinv.lead.led hleader
      exact ⟨j, by rwa [Helps, if_neg hdecided, if_pos hleader]⟩
    | false => exact ⟨i, by rw [Helps, if_neg hdecided, if_neg (by simp [hleader])]⟩

end AuditWorld

end MultiDb
