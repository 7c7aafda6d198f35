import MultiDb.Shared.Bytes

/-!
# Terminated byte strings

A byte string with its zero bytes escaped and two zero bytes at its end.
-/

namespace MultiDb.Shared

def escapeByte (b : UInt8) : Bytes :=
  if b = 0x00 then [0x00, 0xFF] else [b]

/-- A byte string with escaped zero bytes and its terminator. -/
def terminated (bytes : Bytes) : Bytes :=
  bytes.flatMap escapeByte ++ [0x00, 0x00]

@[simp] theorem terminated_nil : terminated [] = [0x00, 0x00] :=
  rfl

theorem terminated_cons (b : UInt8) (bytes : Bytes) :
    terminated (b :: bytes) = escapeByte b ++ terminated bytes := by
  simp [terminated]

/-- A terminated string ends where its terminator stands. -/
theorem terminated_append_inj {a b x y : Bytes} :
    terminated a ++ x = terminated b ++ y ↔ a = b ∧ x = y := by
  constructor
  · intro h
    induction a generalizing b with
    | nil =>
      cases b with
      | nil => simpa using h
      | cons c b =>
        by_cases hc : c = 0x00
        · simp [terminated_cons, escapeByte, hc] at h
        · simp [terminated_cons, escapeByte, hc, Ne.symm hc] at h
    | cons c a ih =>
      cases b with
      | nil =>
        by_cases hc : c = 0x00
        · simp [terminated_cons, escapeByte, hc] at h
        · simp [terminated_cons, escapeByte, hc] at h
      | cons d b =>
        by_cases hc : c = 0x00
        · by_cases hd : d = 0x00
          · obtain ⟨rfl, rfl⟩ := ih (b := b)
              (by simpa [terminated_cons, escapeByte, hc, hd] using h)
            simp [hc, hd]
          · simp [terminated_cons, escapeByte, hc, hd, Ne.symm hd] at h
        · by_cases hd : d = 0x00
          · simp [terminated_cons, escapeByte, hc, hd] at h
          · obtain ⟨rfl, hrest⟩ : c = d ∧ terminated a ++ x = terminated b ++ y := by
              simpa [terminated_cons, escapeByte, hc, hd] using h
            obtain ⟨rfl, rfl⟩ := ih hrest
            exact ⟨rfl, rfl⟩
  · rintro ⟨rfl, rfl⟩
    rfl

end MultiDb.Shared
