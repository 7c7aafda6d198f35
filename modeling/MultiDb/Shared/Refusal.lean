import MultiDb.Shared.Fallible

/-!
# Computations that may be refused

An implementation with a budget returns what one without returns, or is refused.
-/

namespace MultiDb.Shared

variable {ε ε' α β γ δ : Type}

/-- `x` returns what `y` returns, up to `rel`, unless it is refused. -/
structure Follows (refusal : ε → Prop) (rel : β → α → Prop) (x : Except ε α) (y : Except ε' β) :
    Prop where
  sound : ∀ a, x = .ok a → ∃ b, y = .ok b ∧ rel b a
  complete : ∀ b, y = .ok b → (∃ a, x = .ok a) ∨ ∃ e, x = .error e ∧ refusal e

namespace Follows

variable {refusal : ε → Prop} {rel : β → α → Prop} {rel' : δ → γ → Prop} {x : Except ε α}
  {y : Except ε' β}

theorem ok {a : α} {b : β} (h : rel b a) :
    Follows refusal rel (.ok a : Except ε α) (.ok b : Except ε' β) where
  sound a' ha := by
    cases ha
    exact ⟨b, rfl, h⟩
  complete _ _ := .inl ⟨a, rfl⟩

theorem error {e : ε} {e' : ε'} :
    Follows refusal rel (.error e : Except ε α) (.error e' : Except ε' β) where
  sound _ ha := by contradiction
  complete _ hb := by contradiction

theorem refused {e : ε} (h : refusal e) : Follows refusal rel (.error e : Except ε α) y where
  sound _ ha := by contradiction
  complete _ _ := .inr ⟨e, rfl, h⟩

theorem bind {f : α → Except ε γ} {g : β → Except ε' δ} (h : Follows refusal rel x y)
    (hnext : ∀ b a, rel b a → Follows refusal rel' (f a) (g b)) :
    Follows refusal rel' (x >>= f) (y >>= g) where
  sound c hc := by
    obtain ⟨a, ha, hc⟩ := bind_eq_ok_iff.mp hc
    obtain ⟨b, hb, hrel⟩ := h.sound a ha
    obtain ⟨d, hd, hrel'⟩ := (hnext b a hrel).sound c hc
    exact ⟨d, bind_eq_ok_iff.mpr ⟨b, hb, hd⟩, hrel'⟩
  complete d hd := by
    obtain ⟨b, hb, hd⟩ := bind_eq_ok_iff.mp hd
    rcases h.complete b hb with ⟨a, ha⟩ | ⟨e, he, hrefused⟩
    · obtain ⟨b', hb', hrel⟩ := h.sound a ha
      cases hb.symm.trans hb'
      rw [ha]
      exact (hnext b a hrel).complete d hd
    · rw [he]
      exact .inr ⟨e, rfl, hrefused⟩

theorem check {check : Except ε Unit} {f : Unit → Except ε α}
    (hcheck : ∀ e, check = .error e → refusal e) (h : Follows refusal rel (f ()) y) :
    Follows refusal rel (check >>= f) y := by
  cases check with
  | error e => exact refused (hcheck e rfl)
  | ok _ => exact h

theorem refl (x : Except ε α) : Follows refusal Eq x x where
  sound a ha := ⟨a, ha, rfl⟩
  complete a ha := .inl ⟨a, ha⟩

theorem mapError_right {ε'' : Type} {f : ε' → ε''} (h : Follows refusal rel x y) :
    Follows refusal rel x (y.mapError f) where
  sound a ha := (h.sound a ha).imp fun _ hb => ⟨mapError_eq_ok_iff.mpr hb.1, hb.2⟩
  complete b hb := h.complete b (mapError_eq_ok_iff.mp hb)

theorem eq_ok_iff {y : Except ε' α} (h : Follows (fun _ => False) Eq x y) {a : α} :
    x = .ok a ↔ y = .ok a := by
  constructor
  · intro ha
    obtain ⟨_, hb, rfl⟩ := h.sound a ha
    exact hb
  · intro hb
    rcases h.complete a hb with ⟨b, hx⟩ | ⟨_, -, hfalse⟩
    · obtain ⟨_, hy, rfl⟩ := h.sound b hx
      rwa [Except.ok.inj (hb.symm.trans hy)]
    · contradiction

/-- Two computations that follow a third one, of which the second is never refused. -/
theorem of_common {ε'' : Type} {y : Except ε' α} {z : Except ε'' α} (hx : Follows refusal Eq x z)
    (hy : Follows (fun _ => False) Eq y z) : Follows refusal Eq x y where
  sound a ha := by
    obtain ⟨_, hz, rfl⟩ := hx.sound a ha
    exact ⟨_, hy.eq_ok_iff.mpr hz, rfl⟩
  complete b hb := hx.complete b (hy.eq_ok_iff.mp hb)

theorem returned (h : Follows refusal rel x y) :
    Follows refusal (fun b a => rel b a ∧ y = .ok b) x y where
  sound a ha := by
    obtain ⟨b, hb, hrel⟩ := h.sound a ha
    exact ⟨b, hb, hrel, hb⟩
  complete := h.complete

theorem map_right {g : β → δ} {rel₁ : δ → α → Prop} (h : Follows refusal rel x y)
    (hle : ∀ b a, rel b a → rel₁ (g b) a) : Follows refusal rel₁ x (y >>= fun b => pure (g b)) where
  sound a ha := by
    obtain ⟨b, hb, hrel⟩ := h.sound a ha
    exact ⟨g b, by rw [hb]; rfl, hle b a hrel⟩
  complete d hd := by
    obtain ⟨b, hb, -⟩ := bind_eq_ok_iff.mp hd
    exact h.complete b hb

theorem map_left {f : α → γ} {rel₁ : β → γ → Prop} (h : Follows refusal rel x y)
    (hle : ∀ b a, rel b a → rel₁ b (f a)) : Follows refusal rel₁ (x >>= fun a => pure (f a)) y := by
  rw [← bind_pure y]
  exact h.bind fun b a hrel => .ok (hle b a hrel)

end Follows

end MultiDb.Shared
