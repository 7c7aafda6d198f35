import MultiDb.Model.ValueCodec

/-!
# The memory bound of a stored value

`value_decode_memory_bound` of `model/memory.rs` walks the bytes of a value without building
it.  Counts of bytes do not wrap.
-/

namespace MultiDb

open Shared

/-- `size_of::<Value>()`. -/
def valueBytes : ℕ := 32

/-- A loop of the walk over `count` items, left when the limit is passed. -/
def chargeMany (stopAfter : ℕ) (charge : ℕ × Bytes → Result (ℕ × Bytes)) :
    ℕ → ℕ × Bytes → Result (ℕ × Bytes)
  | 0, state => .ok state
  | count + 1, state => do
    let state ← charge state
    if state.1 > stopAfter then
      return state
    else
      chargeMany stopAfter charge count state

/-- `binary`, on the count so far and the bytes behind the cursor. -/
def binaryMemory (limits : ValueCodecLimits) (stopAfter : ℕ) :
    ℕ → ℕ × Bytes → Result (ℕ × Bytes)
  | 0, _ => .error (valueTooDeepError limits.maxNestingDepth)
  | levels + 1, (used, rest) => do
    let used := used + valueBytes
    if used > stopAfter then
      return (used, rest)
    else
      let (tag, rest) ← readU8 rest
      if tag = 0x00 then return (used, rest)
      else if tag = 0x01 then
        let (_, rest) ← readU8 rest
        return (used, rest)
      else if tag = 0x02 ∨ tag = 0x03 then
        let (_, rest) ← readArray 8 rest
        return (used, rest)
      else if tag = 0x09 then
        let (_, rest) ← readArray 16 rest
        return (used, rest)
      else if tag = 0x04 ∨ tag = 0x05 then
        let (bytes, rest) ← readLenBytes rest
        return (used + bytes.length, rest)
      else if tag = 0x08 then
        let (count, rest) ← readLen rest
        if ¬ count * 4 < 2 ^ 64 then
          .error (.corruption "vector length overflows")
        else if count * 4 > rest.length then
          .error (.corruption "truncated vector")
        else
          return (used + count * 4, rest.drop (count * 4))
      else if tag = 0x06 then
        let (count, rest) ← readLen rest
        if count > rest.length then
          .error (.corruption "array item count exceeds remaining bytes")
        else
          chargeMany stopAfter (binaryMemory limits stopAfter levels) count (used, rest)
      else if tag = 0x07 then
        let (count, rest) ← readLen rest
        if ¬ count * 9 < 2 ^ 64 ∨ count * 9 > rest.length then
          .error (.corruption "object item count exceeds remaining bytes")
        else
          chargeMany stopAfter (fun state => do
            let (name, rest) ← readLenBytes state.2
            let used := state.1 + (name.length + 256)
            if used > stopAfter then
              return (used, rest)
            else
              binaryMemory limits stopAfter levels (used, rest)) count
            (if count ≠ 0 then used + 1024 else used, rest)
      else
        .error (.corruption ("bad value tag " ++ toString tag.toNat))

/-- The walk over the legacy JSON form accepts what the decoder accepts. -/
structure LegacyWalk (C : RelCodecs) where
  bound : ℕ → Bytes → Except String ℕ
  accepts : ∀ stopAfter bytes value legacy, C.legacyValue bytes = .ok legacy →
    canonicalizeLegacyValue {} (ValueCodecLimits.maxNestingDepth {} + 1) legacy = .ok value →
    ∃ used, bound stopAfter bytes = .ok used

def valueDecodeMemoryBound {C : RelCodecs} (legacy : LegacyWalk C) (bytes : Bytes)
    (stopAfter : ℕ) : Result ℕ :=
  let limits : ValueCodecLimits := {}
  if bytes.length > limits.maxDocumentBytes then
    .error (valueTooLargeError limits.maxDocumentBytes)
  else if valueMagic.isPrefixOf bytes then
    match bytes.drop valueMagic.length with
    | [] => .error (.corruption "unsupported or truncated value header")
    | version :: rest =>
      if version ≠ valueFormatV1 then
        .error (.corruption "unsupported or truncated value header")
      else do
        let (used, rest) ← binaryMemory limits stopAfter (limits.maxNestingDepth + 1) (0, rest)
        if ¬ used > stopAfter ∧ !rest.isEmpty then
          .error (.corruption "trailing bytes after value")
        else
          return used
  else
    (legacy.bound stopAfter bytes).mapError .corruption

end MultiDb
