import MultiDb.Model.Compressed
import MultiDb.Verification.Storage.Engine

/-!
# Compressed storage is transparent up to the decode limit

A frame is read back exactly when its value is at most as long as the decoder admits.
-/

namespace MultiDb

open Shared

variable {Z : Compressors} {config : CompressionConfig} {value bytes : Bytes}

/-- The frame of a stored value. -/
def storedFrame (algorithm : UInt8) (originalLen expectedChecksum : UInt64) (payload : Bytes) :
    Bytes :=
  compressedMagic ++ [algorithm] ++ be64 originalLen ++ be64 expectedChecksum ++ payload

theorem encodeStoredValue_eq_ok_iff :
    encodeStoredValue Z value config = .ok bytes ↔ ∃ algorithm payload,
      compressPayload Z value config = .ok (algorithm, payload) ∧
        bytes = storedFrame algorithm (clampedLen value.length) (checksum Z value) payload := by
  simp only [encodeStoredValue, bind_eq_ok_iff, pure_eq_ok_iff, Prod.exists, storedFrame,
    @eq_comm _ bytes]

section Frame

variable (algorithm : UInt8) (originalLen expectedChecksum : UInt64) (payload : Bytes)

theorem isPrefixOf_storedFrame :
    compressedMagic.isPrefixOf (storedFrame algorithm originalLen expectedChecksum payload) =
    true := by
  simp [storedFrame]

theorem length_storedFrame :
    (storedFrame algorithm originalLen expectedChecksum payload).length =
      compressedHeaderLen + payload.length := by
  simp [storedFrame, compressedHeaderLen]
  omega

theorem drop_storedFrame :
    (storedFrame algorithm originalLen expectedChecksum payload).drop compressedHeaderLen =
    payload := by
  have hheader : (compressedMagic ++ [algorithm] ++ be64 originalLen ++
      be64 expectedChecksum).length = compressedHeaderLen := by
    simp [compressedHeaderLen]
  rw [storedFrame, ← hheader, List.drop_left]

theorem algorithm_storedFrame :
    (storedFrame algorithm originalLen expectedChecksum payload).getD compressedMagic.length 0 =
      algorithm := by
  simp [storedFrame, List.getD_eq_getElem?_getD]

theorem readU64_be64 (n : UInt64) : readU64 (be64 n) = .ok n := by
  simp [readU64]

theorem originalLen_storedFrame :
    readU64 (((storedFrame algorithm originalLen expectedChecksum payload).drop
      (compressedMagic.length + 1)).take 8) = .ok originalLen := by
  have hfront : (compressedMagic ++ [algorithm]).length = compressedMagic.length + 1 := by simp
  rw [storedFrame, List.append_assoc, List.append_assoc, ← hfront, List.drop_left,
    List.take_left' (length_be64 originalLen), readU64_be64]

theorem checksum_storedFrame :
    readU64 (((storedFrame algorithm originalLen expectedChecksum payload).drop
      (compressedMagic.length + 9)).take 8) = .ok expectedChecksum := by
  have hfront : (compressedMagic ++ [algorithm] ++ be64 originalLen).length =
      compressedMagic.length + 9 := by
    simp
  rw [storedFrame, List.append_assoc, ← hfront, List.drop_left,
    List.take_left' (length_be64 expectedChecksum), readU64_be64]

theorem decodeStoredValue_storedFrame :
    decodeStoredValue Z (storedFrame algorithm originalLen expectedChecksum payload) =
      if originalLen.toNat > maxDecodedValueBytes then
        .error (.corruption ("compressed value original length " ++ toString originalLen.toNat ++
          " exceeds decode limit " ++ toString maxDecodedValueBytes))
      else do
        let decoded ← decompressPayload Z algorithm payload originalLen
        if clampedLen decoded.length ≠ originalLen then
          .error (.corruption "compressed value length mismatch")
        else if checksum Z decoded ≠ expectedChecksum then
          .error (.corruption "compressed value checksum mismatch")
        else
          return decoded := by
  rw [decodeStoredValue, isPrefixOf_storedFrame, length_storedFrame, algorithm_storedFrame,
    originalLen_storedFrame, checksum_storedFrame, drop_storedFrame,
    if_neg (by simp), if_neg (by omega)]
  rfl

end Frame

/-! ## Payloads -/

theorem clampedLen_toNat (n : ℕ) : (clampedLen n).toNat = min n (2 ^ 64 - 1) := by
  rw [clampedLen, UInt64.toNat_ofNat', Nat.mod_eq_of_lt]
  omega

theorem maxDecodedValueBytes_eq : maxDecodedValueBytes = 2 ^ 26 := by
  decide

theorem validateLz4PrependedSize_compressed {value : Bytes}
    (hsize : value.length ≤ maxDecodedValueBytes) :
    validateLz4PrependedSize (Z.lz4CompressPrependSize value) (clampedLen value.length) =
    .ok () := by
  rw [maxDecodedValueBytes_eq] at hsize
  have htake := Z.lz4_size value
  have hlength : 4 ≤ (Z.lz4CompressPrependSize value).length := by
    have := congrArg List.length htake
    simp [le32] at this
    exact this
  have hannounced : beNat (le32 value.length).reverse = value.length := by
    rw [le32, List.reverse_reverse, beNat_beBytes (by omega)]
  simp only [validateLz4PrependedSize, htake, hannounced, clampedLen_toNat,
    maxDecodedValueBytes_eq]
  rw [if_neg (by omega), if_neg (by omega), if_neg (by omega)]
  rfl

/-- A payload is stored raw or by one of the two compressors. -/
theorem compressPayload_cases {value payload : Bytes} {algorithm : UInt8}
    (h : compressPayload Z value config = .ok (algorithm, payload)) :
    (algorithm = algoRaw ∧ payload = value) ∨
      (algorithm = algoLz4 ∧ payload = Z.lz4CompressPrependSize value) ∨
      (algorithm = algoZstd ∧ ∃ level, Z.zstdCompress value level = .ok payload) := by
  have hraw : (algoRaw, value) = (algorithm, payload) → algorithm = algoRaw ∧ payload = value :=
    fun heq => ⟨(Prod.mk.inj heq).1.symm, (Prod.mk.inj heq).2.symm⟩
  rw [compressPayload] at h
  split at h
  · exact Or.inl (hraw (Except.ok.inj h))
  · cases halgorithm : config.algorithm with
    | none =>
      rw [halgorithm] at h
      exact Or.inl (hraw (Except.ok.inj h))
    | lz4 =>
      simp only [halgorithm] at h
      split at h
      · cases h
        exact Or.inr (Or.inl ⟨rfl, rfl⟩)
      · exact Or.inl (hraw (Except.ok.inj h))
    | zstd =>
      simp only [halgorithm, bind_eq_ok_iff] at h
      obtain ⟨compressed, hcompressed, h⟩ := h
      split at h
      · cases h
        exact Or.inr (Or.inr ⟨rfl, _, mapError_eq_ok_iff.mp hcompressed⟩)
      · exact Or.inl (hraw (pure_eq_ok_iff.mp h))

theorem decompressPayload_compressPayload {value payload : Bytes} {algorithm : UInt8}
    (hsize : value.length ≤ maxDecodedValueBytes)
    (h : compressPayload Z value config = .ok (algorithm, payload)) :
    decompressPayload Z algorithm payload (clampedLen value.length) = .ok value := by
  have hlimit : value.length ≤ 2 ^ 26 := maxDecodedValueBytes_eq ▸ hsize
  rcases compressPayload_cases h with ⟨rfl, rfl⟩ | ⟨rfl, rfl⟩ | ⟨rfl, level, hcompressed⟩
  · rfl
  · rw [decompressPayload, if_neg (by decide), if_pos rfl,
      validateLz4PrependedSize_compressed hsize]
    simp only [Z.lz4_decompress value (by omega)]
    rfl
  · have hlen : (clampedLen value.length).toNat = value.length := by
      rw [clampedLen_toNat]
      omega
    rw [decompressPayload, if_neg (by decide), if_neg (by decide), if_pos rfl, hlen,
      Z.zstd_decompress hcompressed]
    rfl

theorem decodeStoredValue_encodeStoredValue (hsize : value.length ≤ maxDecodedValueBytes)
    (h : encodeStoredValue Z value config = .ok bytes) : decodeStoredValue Z bytes = .ok value := by
  obtain ⟨algorithm, payload, hpayload, rfl⟩ := encodeStoredValue_eq_ok_iff.mp h
  have hlen : ¬ (clampedLen value.length).toNat > maxDecodedValueBytes := by
    rw [clampedLen_toNat]
    omega
  rw [decodeStoredValue_storedFrame, if_neg hlen, decompressPayload_compressPayload hsize hpayload]
  simp [bind, Except.bind, pure, Except.pure]

theorem decodeStoredValue_of_long (hsize : maxDecodedValueBytes < value.length)
    (h : encodeStoredValue Z value config = .ok bytes) :
    ∃ message, decodeStoredValue Z bytes = .error (.corruption message) := by
  obtain ⟨algorithm, payload, -, rfl⟩ := encodeStoredValue_eq_ok_iff.mp h
  have hlen : (clampedLen value.length).toNat > maxDecodedValueBytes := by
    rw [clampedLen_toNat, maxDecodedValueBytes_eq] at *
    omega
  rw [decodeStoredValue_storedFrame, if_pos hlen]
  exact ⟨_, rfl⟩

theorem exists_decodeWorkingBytes (hsize : value.length ≤ maxDecodedValueBytes)
    (h : encodeStoredValue Z value config = .ok bytes) : ∃ n, decodeWorkingBytes bytes = .ok n := by
  obtain ⟨algorithm, payload, hpayload, rfl⟩ := encodeStoredValue_eq_ok_iff.mp h
  have hlen : ¬ (clampedLen value.length).toNat > maxDecodedValueBytes := by
    rw [clampedLen_toNat]
    omega
  simp only [decodeWorkingBytes]
  rw [isPrefixOf_storedFrame, length_storedFrame, algorithm_storedFrame, originalLen_storedFrame,
    if_neg (by simp), if_neg (by omega)]
  simp only [bind_eq_ok_iff, Except.ok.injEq, exists_eq_left', if_neg hlen]
  rcases compressPayload_cases hpayload with ⟨rfl, -⟩ | ⟨rfl, -⟩ | ⟨rfl, -⟩
  · exact ⟨_, if_pos rfl⟩
  · exact ⟨_, (if_neg (by decide)).trans (if_pos rfl)⟩
  · exact ⟨_, (if_neg (by decide)).trans ((if_neg (by decide)).trans (if_pos rfl))⟩

theorem compressedFormat_decodes (hsize : value.length ≤ maxDecodedValueBytes)
    (h : encodeStoredValue Z value config = .ok bytes) (t : String) (k : Bytes) :
    (compressedFormat Z).Decodes t k bytes value := by
  have hdecode := decodeStoredValue_encodeStoredValue hsize h
  refine ⟨hdecode, fun budget hadmits hcheck => ?_⟩
  obtain ⟨n, hn⟩ := exists_decodeWorkingBytes hsize h
  simp only [compressedFormat, hcheck, hn, hadmits.reserve, hdecode, bind, Except.bind]

/-! ## The engine -/

/-- Bytes from before compression: none of them starts with the magic of a frame. -/
def Unframed (s : Store) : Prop :=
  ∀ t k value, s.get t k = some value → compressedMagic.isPrefixOf value = false

theorem Unframed.represents {s : Store} (h : Unframed s) :
    ∀ t, (compressedFormat Z).Represents t s s := by
  refine fun t => ⟨fun k stored hget => ⟨stored, hget, ?_⟩, fun k hget => hget⟩
  have hplain := h t k stored hget
  have hdecode : decodeStoredValue Z stored = .ok stored := by
    simp [decodeStoredValue, hplain, pure, Except.pure]
  refine ⟨hdecode, fun budget hadmits hcheck => ?_⟩
  simp [compressedFormat, hcheck, hadmits.reserve, hdecode, bind, Except.bind, decodeWorkingBytes,
    hplain, pure, Except.pure]

/-- The value can be read back: it is within the limit and encodes. -/
def EngineCall.Decodable (Z : Compressors) (config : CompressionConfig) : EngineCall → Prop
  | .put _ _ value => value.length ≤ maxDecodedValueBytes ∧
      ∃ bytes, encodeStoredValue Z value config = .ok bytes
  | _ => True

/-- A compressed and a plain engine that hold the same rows. -/
structure CompressedPair (Z : Compressors) (c p : EngineState) : Prop where
  committed : ∀ t, (compressedFormat Z).Represents t c.committed p.committed
  staged : ∀ t, (compressedFormat Z).Represents t c.staged p.staged

theorem compressedStep_pair {c p : EngineState} (h : CompressedPair Z c p) {call : EngineCall}
    (hcall : call.Decodable Z config) :
    ∃ c' p', compressedStep Z config c call = .ok c' ∧ plainStep p call = .ok p' ∧
      CompressedPair Z c' p' := by
  cases call with
  | put t k value =>
    obtain ⟨hsize, bytes, hbytes⟩ := hcall
    refine ⟨{ c with writer := some (c.staged.put t k bytes) },
      { p with writer := some (p.staged.put t k value) }, ?_, rfl,
      ⟨h.committed, fun t' => (h.staged t').put fun _ => compressedFormat_decodes hsize
        hbytes t' k⟩⟩
    simp only [compressedStep, engineStep, hbytes]
    rfl
  | delete t k => exact ⟨_, _, rfl, rfl, ⟨h.committed, fun t' => (h.staged t').delete t k⟩⟩
  | commit => exact ⟨_, _, rfl, rfl, ⟨h.staged, h.staged⟩⟩
  | rollback => exact ⟨_, _, rfl, rfl, ⟨h.committed, h.committed⟩⟩

theorem compressedRun_pair {c p : EngineState} (h : CompressedPair Z c p) {calls : List EngineCall}
    (hcalls : ∀ call ∈ calls, call.Decodable Z config) :
    ∃ c' p', calls.foldlM (compressedStep Z config) c = .ok c' ∧ calls.foldlM plainStep p = .ok p' ∧
      CompressedPair Z c' p' := by
  induction calls generalizing c p with
  | nil => exact ⟨c, p, rfl, rfl, h⟩
  | cons call calls ih =>
    rw [List.forall_mem_cons] at hcalls
    obtain ⟨c₁, p₁, hc, hp, hpair⟩ := compressedStep_pair h hcalls.1
    obtain ⟨c', p', hc', hp', hpair'⟩ := ih hpair hcalls.2
    exact ⟨c', p', foldlM_cons_eq_ok_iff.mpr ⟨c₁, hc, hc'⟩,
      foldlM_cons_eq_ok_iff.mpr ⟨p₁, hp, hp'⟩, hpair'⟩

/-- A value is read back exactly when it is within the decode limit, and in runs within it the
engine is transparent. -/
theorem compressed_transparent (Z : Compressors) (config : CompressionConfig) :
    (∀ value bytes, encodeStoredValue Z value config = .ok bytes →
      (decodeStoredValue Z bytes = .ok value ↔ value.length ≤ maxDecodedValueBytes)) ∧
    ∀ (s : Store) (calls : List EngineCall), Unframed s →
      (∀ call ∈ calls, call.Decodable Z config) →
      ∃ c p, calls.foldlM (compressedStep Z config) { committed := s } = .ok c ∧
        calls.foldlM plainStep { committed := s } = .ok p ∧
        ∀ t, (compressedFormat Z).ReadsLike t c.committed p.committed ∧
          (compressedFormat Z).ReadsLike t c.staged p.staged := by
  constructor
  · intro value bytes hencode
    constructor
    · intro hdecode
      by_contra hsize
      obtain ⟨message, herror⟩ := decodeStoredValue_of_long (not_le.mp hsize) hencode
      rw [herror] at hdecode
      contradiction
    · intro hsize
      exact decodeStoredValue_encodeStoredValue hsize hencode
  · intro s calls hs hcalls
    obtain ⟨c, p, hc, hp, hpair⟩ :=
      compressedRun_pair (c := { committed := s }) (p := { committed := s })
        ⟨hs.represents, hs.represents⟩ hcalls
    exact ⟨c, p, hc, hp, fun t => ⟨(hpair.committed t).readsLike, (hpair.staged t).readsLike⟩⟩

def rawConfig : CompressionConfig :=
  { algorithm := .none, minBytes := 0, zstdLevel := 0 }

theorem encodeStoredValue_raw (Z : Compressors) (value : Bytes) :
    encodeStoredValue Z value rawConfig =
      .ok (storedFrame algoRaw (clampedLen value.length) (checksum Z value) value) :=
  rfl

def lz4Config : CompressionConfig :=
  { algorithm := .lz4, minBytes := 16, zstdLevel := 3 }

/-- A value that lz4 makes shorter: a run of 40 bytes and 12 others. -/
def runValue : Bytes := List.replicate 40 97 ++ strBytes "0123456789ab"

/-- The value in lz4: its length, a literal with a match of 39 bytes at offset one, 12 literals. -/
def runBlock : Bytes := [52, 0, 0, 0, 0x1f, 97, 1, 0, 20, 0xc0] ++ strBytes "0123456789ab"

/-- lz4 and `blake3` at `runValue`, and `blake3` at a short value. -/
def sampleCompressors : Compressors where
  lz4CompressPrependSize value := if value = runValue then runBlock else le32 value.length ++ value
  lz4DecompressSizePrepended bytes := .ok (if bytes = runBlock then runValue else bytes.drop 4)
  zstdCompress value _ := .ok value
  zstdDecompress bytes _ := .ok bytes
  blake3 value :=
    if value = runValue then
      [0x3b, 0xf7, 0x77, 0xd2, 0xab, 0x91, 0xae, 0x3a, 0x28, 0xad, 0x3f, 0x0f, 0xfc, 0xd6, 0x63,
       0x83, 0x94, 0x8c, 0xa0, 0x1a, 0xd0, 0xbd, 0x39, 0xd2, 0x28, 0xa6, 0xfb, 0x3c, 0x4a, 0x7a,
       0xee, 0x4d]
    else if value = [2, 3] then
      [0x75, 0xe1, 0x7c, 0x8b, 0xa6, 0x6d, 0x20, 0x92, 0x1e, 0xaa, 0x70, 0x50, 0x0c, 0xef, 0x20,
       0x29, 0x5d, 0x04, 0x53, 0x2f, 0x44, 0x59, 0x8a, 0x5d, 0x77, 0x0c, 0x57, 0xd2, 0xa3, 0x3c,
       0x0b, 0x67]
    else
      []
  lz4_decompress value _ := by
    by_cases hvalue : value = runValue
    · simp [hvalue]
    · rw [if_neg hvalue, if_neg, List.drop_left' (by simp [le32])]
      intro hblock
      -- the length in front of the block is that of `runValue`
      have hlength : value.length = 18 := by
        have hsum := congrArg List.length hblock
        rw [List.length_append, show runBlock.length = 22 by decide] at hsum
        simpa [le32, Nat.add_comm 4] using hsum
      have hsize := congrArg (List.take 4) hblock
      rw [List.take_left' (by simp [le32]), hlength] at hsize
      exact absurd hsize (by decide)
  lz4_size value := by
    split
    · rename_i hvalue
      rw [hvalue]
      decide
    · exact List.take_left' (by simp [le32])
  zstd_decompress h := h.symm

/-- The frame of `runValue`: magic, algorithm, length, checksum and the lz4 block. -/
def runFrame : Bytes :=
  strBytes "MDBC1" ++ [1, 0, 0, 0, 0, 0, 0, 0, 52] ++
    [0x3b, 0xf7, 0x77, 0xd2, 0xab, 0x91, 0xae, 0x3a] ++ runBlock

/-- A value as an lz4 frame, and one that is too short to be compressed. -/
theorem compressed_transparent_sample :
    let calls : List EngineCall := [.put "docs" [1] runValue, .put "docs" [2] [2, 3], .commit,
      .delete "docs" [1]]
    encodeStoredValue sampleCompressors runValue lz4Config = .ok runFrame ∧
    ∃ c p, calls.foldlM (compressedStep sampleCompressors lz4Config) { committed := .empty } =
        .ok c ∧
      calls.foldlM plainStep { committed := .empty } = .ok p ∧
      ∀ t, (compressedFormat sampleCompressors).ReadsLike t c.committed p.committed ∧
        (compressedFormat sampleCompressors).ReadsLike t c.staged p.staged := by
  have hframe : encodeStoredValue sampleCompressors runValue lz4Config = .ok runFrame := by
    decide +kernel
  refine ⟨hframe, (compressed_transparent sampleCompressors lz4Config).2 .empty _ ?_ ?_⟩
  · intro t k value hget
    rw [Tables.get_empty] at hget
    contradiction
  · intro call hmem
    simp only [List.mem_cons, List.not_mem_nil, or_false] at hmem
    rcases hmem with rfl | rfl | rfl | rfl
    · exact ⟨by decide, _, hframe⟩
    · exact ⟨by decide, _, rfl⟩
    · trivial
    · trivial

/-- A value beyond the decode limit is stored and cannot be read back. -/
theorem decodeStoredValue_raw_ne {Z : Compressors} {value : Bytes}
    (hsize : maxDecodedValueBytes < value.length) :
    ∃ bytes, encodeStoredValue Z value rawConfig = .ok bytes ∧
      decodeStoredValue Z bytes ≠ .ok value := by
  refine ⟨_, encodeStoredValue_raw Z value, fun hdecode => ?_⟩
  obtain ⟨message, herror⟩ := decodeStoredValue_of_long hsize (encodeStoredValue_raw Z value)
  rw [herror] at hdecode
  contradiction

/-- One byte beyond the limit is enough. -/
theorem stored_value_unreadable : ∃ bytes,
    encodeStoredValue sampleCompressors (List.replicate (maxDecodedValueBytes + 1) 0) rawConfig =
      .ok bytes ∧
    decodeStoredValue sampleCompressors bytes ≠
    .ok (List.replicate (maxDecodedValueBytes + 1) 0) := by
  apply decodeStoredValue_raw_ne
  rw [List.length_replicate]
  exact Nat.lt_succ_self _

end MultiDb
