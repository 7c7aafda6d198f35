import Mathlib.Data.List.Forall2
import Mathlib.Data.List.Sort

/-!
# Fallible computations

Inversion and loop rules for computations in `Except`, where an error stops the
computation and discards its result.
-/

namespace MultiDb.Shared

variable {ε α β σ : Type}
variable {b : β} {x : Except ε α} {f : σ → α → Except ε σ} {a : α} {e : ε} {s s' : σ} {as : List α}
  {bs : List β}

theorem bind_eq_ok_iff {f : α → Except ε β} :
    (x >>= f) = .ok b ↔ ∃ a, x = .ok a ∧ f a = .ok b := by
  cases x with
  | error e => simp [bind, Except.bind]
  | ok a => simp [bind, Except.bind]

theorem pure_eq_ok_iff {b : α} : (pure a : Except ε α) = .ok b ↔ a = b := by
  simp [pure, Except.pure]

theorem map_eq_ok_iff {f : α → β} :
    f <$> x = .ok b ↔ ∃ a, x = .ok a ∧ f a = b := by
  cases x with
  | error e => simp [Functor.map, Except.map]
  | ok a => simp [Functor.map, Except.map]

theorem mapError_eq_ok_iff {ε' : Type} {f : ε → ε'} :
    x.mapError f = .ok a ↔ x = .ok a := by
  cases x <;> simp [Except.mapError]

theorem guard_eq_ok_iff {p : Prop} [Decidable p] :
    (if p then .error e else x) = .ok a ↔ ¬ p ∧ x = .ok a := by
  by_cases h : p <;> simp [h]

theorem foldlM_cons_eq_ok_iff :
    (a :: as).foldlM f s = .ok s' ↔ ∃ t, f s a = .ok t ∧ as.foldlM f t = .ok s' := by
  rw [List.foldlM_cons, bind_eq_ok_iff]

/-- Loop rule: an invariant kept by every successful iteration holds at the end. -/
theorem foldlM_induction (P : σ → Prop)
    (hstep : ∀ a ∈ as, ∀ t t', P t → f t a = .ok t' → P t')
    (hrun : as.foldlM f s = .ok s') (hs : P s) : P s' := by
  induction as generalizing s with
  | nil =>
    obtain rfl : s = s' := by simpa [pure, Except.pure] using hrun
    exact hs
  | cons a as ih =>
    obtain ⟨t, ht, hrest⟩ := foldlM_cons_eq_ok_iff.mp hrun
    exact ih (fun b hb => hstep b (List.mem_cons_of_mem a hb)) hrest
      (hstep a List.mem_cons_self s t hs ht)

theorem foldlM_mem
    (hrun : as.foldlM f s = .ok s') (ha : a ∈ as) : ∃ t t', f t a = .ok t' := by
  induction as generalizing s with
  | nil => simp at ha
  | cons b as ih =>
    obtain ⟨t, ht, hrest⟩ := foldlM_cons_eq_ok_iff.mp hrun
    rcases List.mem_cons.mp ha with rfl | ha
    · exact ⟨s, t, ht⟩
    · exact ih hrest ha

/-- A loop whose iterations either set an observation to `v` or keep it. -/
theorem foldlM_observe {β : Type} (obs : σ → β) (P : α → Prop) (v : β) (hrun : as.foldlM f s = .ok s')
    (hset : ∀ a ∈ as, ∀ t t', f t a = .ok t' → P a → obs t' = v)
    (hkeep : ∀ a ∈ as, ∀ t t', f t a = .ok t' → ¬ P a → obs t' = obs t) :
    ((∃ a ∈ as, P a) → obs s' = v) ∧ ((∀ a ∈ as, ¬ P a) → obs s' = obs s) := by
  induction as generalizing s with
  | nil =>
    obtain rfl := pure_eq_ok_iff.mp hrun
    simp
  | cons a as ih =>
    obtain ⟨t, ht, hrest⟩ := foldlM_cons_eq_ok_iff.mp hrun
    obtain ⟨hlater, hnever⟩ := ih hrest
      (fun b hb => hset b (List.mem_cons_of_mem a hb))
      (fun b hb => hkeep b (List.mem_cons_of_mem a hb))
    constructor
    · rintro ⟨b, hb, hPb⟩
      by_cases htail : ∃ c ∈ as, P c
      · exact hlater htail
      · obtain rfl : b = a := (List.mem_cons.mp hb).resolve_right fun h => htail ⟨b, h, hPb⟩
        rw [hnever fun c hc hPc => htail ⟨c, hc, hPc⟩]
        exact hset b List.mem_cons_self s t ht hPb
    · intro hno
      rw [hnever fun c hc => hno c (List.mem_cons_of_mem a hc)]
      exact hkeep a List.mem_cons_self s t ht (hno a List.mem_cons_self)

theorem foldlM_ok (f : σ → α → σ) (as : List α) (s : σ) :
    (as.foldlM (fun s a => .ok (f s a)) s : Except ε σ) = .ok (as.foldl f s) := by
  induction as generalizing s with
  | nil => rfl
  | cons a as ih => exact ih (f s a)

theorem foldl_observe {f : σ → α → σ} {β : Type} (obs : σ → β) (P : α → Prop) (v : β) (s : σ) (hset : ∀ a ∈ as, ∀ t, P a → obs (f t a) = v)
    (hkeep : ∀ a ∈ as, ∀ t, ¬ P a → obs (f t a) = obs t) :
    ((∃ a ∈ as, P a) → obs (as.foldl f s) = v) ∧
      ((∀ a ∈ as, ¬ P a) → obs (as.foldl f s) = obs s) := by
  have hrun : (as.foldlM (fun s a => .ok (f s a)) s : Except Unit σ) = .ok (as.foldl f s) :=
    foldlM_ok f as s
  refine foldlM_observe obs P v hrun ?_ ?_
  · rintro a ha t t' ⟨⟩
    exact hset a ha t
  · rintro a ha t t' ⟨⟩
    exact hkeep a ha t

theorem exists_foldlM_eq_ok
    (h : ∀ a ∈ as, ∀ t, ∃ t', f t a = .ok t') (s : σ) : ∃ s', as.foldlM f s = .ok s' := by
  induction as generalizing s with
  | nil => exact ⟨s, rfl⟩
  | cons a as ih =>
    obtain ⟨t, ht⟩ := h a List.mem_cons_self s
    obtain ⟨s', hs'⟩ := ih (fun b hb => h b (List.mem_cons_of_mem a hb)) t
    exact ⟨s', foldlM_cons_eq_ok_iff.mpr ⟨t, ht, hs'⟩⟩

theorem foldlM_collect {β : Type} (obs : σ → List β) (g : α → Option β) (hrun : as.foldlM f s = .ok s')
    (hstep : ∀ a ∈ as, ∀ t t', f t a = .ok t' → obs t' = obs t ++ (g a).toList) :
    obs s' = obs s ++ as.filterMap g := by
  induction as generalizing s with
  | nil =>
    obtain rfl : s = s' := by simpa [pure, Except.pure] using hrun
    simp
  | cons a as ih =>
    obtain ⟨t, ht, hrest⟩ := foldlM_cons_eq_ok_iff.mp hrun
    rw [ih hrest fun b hb => hstep b (List.mem_cons_of_mem a hb),
      hstep a List.mem_cons_self s t ht]
    cases hg : g a <;> simp [hg]

/-! ## Maps and filters -/

theorem mapM_eq_ok_iff {f : α → Except ε β} :
    as.mapM f = .ok bs ↔ as.map f = bs.map .ok := by
  induction as generalizing bs with
  | nil =>
    rw [List.mapM_nil, pure_eq_ok_iff]
    cases bs <;> simp
  | cons a as ih =>
    simp only [List.mapM_cons, bind_eq_ok_iff, pure_eq_ok_iff, ih, List.map_cons]
    constructor
    · rintro ⟨b, hb, bs, hbs, rfl⟩
      rw [hb, hbs, List.map_cons]
    · intro h
      cases bs with
      | nil => simp at h
      | cons b bs =>
        obtain ⟨hb, hbs⟩ := List.cons.inj h
        exact ⟨b, hb, bs, hbs, rfl⟩

theorem mapM_eq_ok_iff_forall₂ {f : α → Except ε β} :
    as.mapM f = .ok bs ↔ List.Forall₂ (fun a b => f a = .ok b) as bs := by
  rw [mapM_eq_ok_iff, ← List.forall₂_eq_eq_eq, List.forall₂_map_left_iff,
    List.forall₂_map_right_iff]

theorem exists_mapM_eq_ok {f : α → Except ε β} (h : ∀ a ∈ as, ∃ b, f a = .ok b) :
    ∃ bs, as.mapM f = .ok bs := by
  induction as with
  | nil => exact ⟨[], rfl⟩
  | cons a as ih =>
    obtain ⟨b, hb⟩ := h a List.mem_cons_self
    obtain ⟨bs, hbs⟩ := ih fun a ha => h a (List.mem_cons_of_mem _ ha)
    refine ⟨b :: bs, mapM_eq_ok_iff.mpr ?_⟩
    rw [List.map_cons, List.map_cons, hb, mapM_eq_ok_iff.mp hbs]

theorem mem_of_mapM_eq_ok {f : α → Except ε β}
    (h : as.mapM f = .ok bs) : b ∈ bs ↔ ∃ a ∈ as, f a = .ok b := by
  have hmem : b ∈ bs ↔ (.ok b : Except ε β) ∈ bs.map .ok := by simp
  rw [hmem, ← mapM_eq_ok_iff.mp h, List.mem_map]

/-- The answer a check gives, a failed one counting as no. -/
def accepts : Except ε Bool → Bool
  | .ok keep => keep
  | .error _ => false

theorem accepts_eq_true_iff {x : Except ε Bool} : accepts x = true ↔ x = .ok true := by
  cases x <;> simp [accepts]

private theorem filterAuxM_eq_ok_iff {f : α → Except ε Bool} {acc out : List α} :
    List.filterAuxM f as acc = .ok out ↔ (∀ a ∈ as, ∃ keep, f a = .ok keep) ∧
      out = (as.filter fun a => accepts (f a)).reverse ++ acc := by
  induction as generalizing acc with
  | nil =>
    rw [List.filterAuxM, pure_eq_ok_iff]
    simp [eq_comm]
  | cons a as ih =>
    rw [List.filterAuxM, bind_eq_ok_iff]
    simp only [ih, List.forall_mem_cons]
    cases hkeep : f a with
    | error e => simp
    | ok keep => cases keep <;> simp [accepts, hkeep]

theorem filterM_eq_ok_iff {f : α → Except ε Bool} {bs : List α} :
    as.filterM f = .ok bs ↔ (∀ a ∈ as, ∃ keep, f a = .ok keep) ∧
      bs = as.filter fun a => accepts (f a) := by
  rw [List.filterM, bind_eq_ok_iff]
  simp only [filterAuxM_eq_ok_iff, pure_eq_ok_iff]
  constructor
  · rintro ⟨out, ⟨htests, rfl⟩, rfl⟩
    exact ⟨htests, by simp⟩
  · rintro ⟨htests, rfl⟩
    exact ⟨_, ⟨htests, rfl⟩, by simp⟩

theorem filterM_eq_ok {f : α → Except ε Bool} {bs : List α} (h : as.filterM f = .ok bs) :
    (∀ a ∈ as, ∃ keep, f a = .ok keep) ∧ bs.Sublist as ∧
      ∀ a, a ∈ bs ↔ a ∈ as ∧ f a = .ok true := by
  obtain ⟨htests, rfl⟩ := filterM_eq_ok_iff.mp h
  exact ⟨htests, List.filter_sublist, fun a => by rw [List.mem_filter, accepts_eq_true_iff]⟩

theorem exists_filterM_eq_ok {f : α → Except ε Bool}
    (h : ∀ a ∈ as, ∃ keep, f a = .ok keep) : ∃ bs, as.filterM f = .ok bs :=
  ⟨_, filterM_eq_ok_iff.mpr ⟨h, rfl⟩⟩

theorem forM_eq_ok_iff {f : α → Except ε Unit} :
    forM as f = .ok () ↔ ∀ a ∈ as, f a = .ok () := by
  induction as with
  | nil => simp [pure, Except.pure]
  | cons a as ih =>
    rw [List.forM_cons, bind_eq_ok_iff, List.forall_mem_cons]
    constructor
    · rintro ⟨_, ha, has⟩
      exact ⟨ha, ih.mp has⟩
    · rintro ⟨ha, has⟩
      exact ⟨(), ha, ih.mpr has⟩

/-! ## Errors that cannot happen -/

/-- The computation does not end with this error. -/
def Avoids (e : ε) (x : Except ε α) : Prop :=
  x ≠ .error e

theorem avoids_ok (e : ε) (a : α) : Avoids e (.ok a : Except ε α) := by
  simp [Avoids]

theorem avoids_bind {f : α → Except ε β} (hx : Avoids e x)
    (hf : ∀ a, x = .ok a → Avoids e (f a)) : Avoids e (x >>= f) := by
  cases x with
  | error e' =>
    intro h
    apply hx
    simpa [bind, Except.bind] using h
  | ok a => exact hf a rfl

theorem avoids_map (f : α → β) (hx : Avoids e x) : Avoids e (f <$> x) := by
  cases x with
  | error e' =>
    intro h
    apply hx
    simpa [Functor.map, Except.map] using h
  | ok a => exact avoids_ok e (f a)

theorem avoids_mapError {ε' : Type} {e : ε'} (x : Except ε α) {f : ε → ε'} (hf : ∀ e', f e' ≠ e) :
    Avoids e (x.mapError f) := by
  cases x with
  | error e' =>
    intro h
    apply hf e'
    simpa [Except.mapError] using h
  | ok a => exact avoids_ok e a

theorem avoids_foldlM (hf : ∀ s a, Avoids e (f s a))
    (as : List α) (s : σ) : Avoids e (as.foldlM f s) := by
  induction as generalizing s with
  | nil => exact avoids_ok e s
  | cons a as ih =>
    rw [List.foldlM_cons]
    exact avoids_bind (hf s a) fun s' _ => ih s'

end MultiDb.Shared
