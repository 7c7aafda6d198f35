import MultiDb.Shared.Bytes

/-!
# A self-delimiting binary format

Numbers are written seven bits at a time, lists and byte strings behind their length.
-/

namespace MultiDb.Shared

variable {α β : Type}

/-- The low seven bits first; every byte but the last is marked. -/
def varintBytes : ℕ → ℕ → Bytes
  | 0, n => [UInt8.ofNat n]
  | fuel + 1, n =>
    if n < 128 then [UInt8.ofNat n]
    else UInt8.ofNat (n % 128 + 128) :: varintBytes fuel (n / 128)

/-- Read a little-endian base-128 number off the front. -/
def takeVarint : Bytes → Option (ℕ × Bytes)
  | [] => none
  | b :: bytes =>
    if b.toNat < 128 then some (b.toNat, bytes)
    else (takeVarint bytes).map fun (n, rest) => (b.toNat - 128 + 128 * n, rest)

theorem takeVarint_varintBytes {fuel n : ℕ} (hfuel : n ≤ fuel) (rest : Bytes) :
    takeVarint (varintBytes fuel n ++ rest) = some (n, rest) := by
  induction fuel generalizing n with
  | zero =>
    obtain rfl := Nat.le_zero.mp hfuel
    rfl
  | succ fuel ih =>
    rw [varintBytes]
    by_cases hsmall : n < 128
    · have hbyte : (UInt8.ofNat n).toNat = n := by simp; omega
      simp [hsmall, takeVarint, hbyte]
    · have hbyte : (UInt8.ofNat (n % 128 + 128)).toNat = n % 128 + 128 := by simp; omega
      have hlarge : ¬ n % 128 + 128 < 128 := by omega
      rw [if_neg hsmall, List.cons_append, takeVarint, hbyte, if_neg hlarge, ih (by omega)]
      simp only [Option.map_some, Option.some.injEq, Prod.mk.injEq, and_true]
      omega

/-- A format that reads back what it writes, in front of any other bytes. -/
structure Wire (α : Type) where
  encode : α → Bytes
  take : Bytes → Option (α × Bytes)
  take_encode : ∀ a rest, take (encode a ++ rest) = some (a, rest)

namespace Wire

def nat : Wire ℕ where
  encode n := varintBytes n n
  take := takeVarint
  take_encode _ := takeVarint_varintBytes le_rfl

/-- The format of a type whose values are written as values of another. -/
def via (w : Wire α) (write : β → α) (read : α → Option β) (h : ∀ b, read (write b) = some b) :
    Wire β where
  encode b := w.encode (write b)
  take bytes := (w.take bytes).bind fun (a, rest) => (read a).map (·, rest)
  take_encode b rest := by simp [w.take_encode, h]

def pair (w : Wire α) (w' : Wire β) : Wire (α × β) where
  encode p := w.encode p.1 ++ w'.encode p.2
  take bytes := (w.take bytes).bind fun (a, rest) => (w'.take rest).map fun (b, rest) =>
    ((a, b), rest)
  take_encode p rest := by simp [w.take_encode, w'.take_encode]

def option (w : Wire α) : Wire (Option α) where
  encode
    | none => [0]
    | some a => 1 :: w.encode a
  take
    | [] => none
    | b :: bytes =>
      if b = 0 then some (none, bytes)
      else (w.take bytes).map fun (a, rest) => (some a, rest)
  take_encode a rest := by cases a <;> simp [w.take_encode]

/-- Read this many values in a row. -/
def takeMany (w : Wire α) : ℕ → Bytes → Option (List α × Bytes)
  | 0, bytes => some ([], bytes)
  | count + 1, bytes => (w.take bytes).bind fun (a, rest) =>
    (takeMany w count rest).map fun (as, rest) => (a :: as, rest)

theorem takeMany_flatMap (w : Wire α) (as : List α) (rest : Bytes) :
    w.takeMany as.length (as.flatMap w.encode ++ rest) = some (as, rest) := by
  induction as with
  | nil => rfl
  | cons a as ih =>
    simp only [List.length_cons, List.flatMap_cons, List.append_assoc, takeMany, w.take_encode,
      Option.bind_some, ih, Option.map_some]

def list (w : Wire α) : Wire (List α) where
  encode as := nat.encode as.length ++ as.flatMap w.encode
  take bytes := (nat.take bytes).bind fun (count, rest) => w.takeMany count rest
  take_encode as rest := by
    rw [List.append_assoc, nat.take_encode, Option.bind_some]
    exact w.takeMany_flatMap as rest

/-- A byte string after its length. -/
def blob : Wire Bytes where
  encode bytes := nat.encode bytes.length ++ bytes
  take bytes := (nat.take bytes).bind fun (count, rest) =>
    if count ≤ rest.length then some (rest.take count, rest.drop count) else none
  take_encode bytes rest := by simp [nat.take_encode]

end Wire

end MultiDb.Shared
