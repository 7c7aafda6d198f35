import MultiDb.Model.Engine

/-!
# Compressed storage

`storage/compressed.rs`.  Bytes without the magic of a frame are older values and are read as they
are.
-/

namespace MultiDb

open Shared

inductive CompressionAlgorithm
  | none
  | lz4
  | zstd
  deriving DecidableEq, Repr

structure CompressionConfig where
  algorithm : CompressionAlgorithm
  minBytes : ℕ
  zstdLevel : ℤ
  deriving DecidableEq, Repr

/-- `u32::to_le_bytes`. -/
def le32 (n : ℕ) : Bytes :=
  (beBytes 4 n).reverse

/-- `lz4_flex`, `zstd::bulk` and `blake3`.  lz4 writes the length of its input in front of the
block. -/
structure Compressors where
  lz4CompressPrependSize : Bytes → Bytes
  lz4DecompressSizePrepended : Bytes → Except String Bytes
  zstdCompress : Bytes → ℤ → Except String Bytes
  zstdDecompress : Bytes → ℕ → Except String Bytes
  blake3 : Bytes → Bytes
  lz4_decompress : ∀ value, value.length < 2 ^ 32 →
    lz4DecompressSizePrepended (lz4CompressPrependSize value) = .ok value
  lz4_size : ∀ value, (lz4CompressPrependSize value).take 4 = le32 value.length
  zstd_decompress : ∀ {value level bytes}, zstdCompress value level = .ok bytes →
    zstdDecompress bytes value.length = .ok value

def compressedMagic : Bytes := strBytes "MDBC1"
def compressedHeaderLen : ℕ := compressedMagic.length + 1 + 8 + 8
def algoRaw : UInt8 := 0
def algoLz4 : UInt8 := 1
def algoZstd : UInt8 := 2
def maxDecodedValueBytes : ℕ := 64 * 1024 * 1024

variable (Z : Compressors)

def checksum (value : Bytes) : UInt64 :=
  (ofBe64? ((Z.blake3 value).take 8)).getD 0

/-- The algorithm and payload of a value: compressed only where that makes it shorter. -/
def compressPayload (value : Bytes) (config : CompressionConfig) : Result (UInt8 × Bytes) :=
  if value.length < config.minBytes then
    .ok (algoRaw, value)
  else
    match config.algorithm with
    | .none => .ok (algoRaw, value)
    | .lz4 =>
      let compressed := Z.lz4CompressPrependSize value
      if compressed.length < value.length then .ok (algoLz4, compressed) else .ok (algoRaw, value)
    | .zstd => do
      let compressed ← (Z.zstdCompress value config.zstdLevel).mapError .backend
      if compressed.length < value.length then return (algoZstd, compressed)
      else return (algoRaw, value)

/-- `u64::try_from(len).unwrap_or(u64::MAX)`. -/
def clampedLen (n : ℕ) : UInt64 :=
  UInt64.ofNat (min n (2 ^ 64 - 1))

def encodeStoredValue (value : Bytes) (config : CompressionConfig) : Result Bytes := do
  let (algorithm, payload) ← compressPayload Z value config
  return compressedMagic ++ [algorithm] ++ be64 (clampedLen value.length) ++
    be64 (checksum Z value) ++ payload

/-- `read_array::<8>` and `u64::from_be_bytes`. -/
def readU64 (bytes : Bytes) : Result UInt64 :=
  match ofBe64? bytes with
  | some n => .ok n
  | none => .error (.corruption "compressed value has malformed header")

def validateLz4PrependedSize (payload : Bytes) (originalLen : UInt64) : Result Unit := do
  if payload.length < 4 then
    .error (.corruption "lz4 payload is missing prepended size")
  else
    let announced := beNat (payload.take 4).reverse
    if announced > maxDecodedValueBytes then
      .error (.corruption ("lz4 payload length " ++ toString announced ++
        " exceeds decode limit " ++ toString maxDecodedValueBytes))
    else if announced ≠ originalLen.toNat then
      .error (.corruption "lz4 prepended length does not match frame length")
    else
      return ()

def decompressPayload (algorithm : UInt8) (payload : Bytes) (originalLen : UInt64) :
    Result Bytes :=
  if algorithm = algoRaw then
    .ok payload
  else if algorithm = algoLz4 then do
    validateLz4PrependedSize payload originalLen
    (Z.lz4DecompressSizePrepended payload).mapError .corruption
  else if algorithm = algoZstd then
    (Z.zstdDecompress payload originalLen.toNat).mapError .corruption
  else
    .error (.corruption "compressed value has unknown algorithm")

def decodeStoredValue (value : Bytes) : Result Bytes := do
  if !compressedMagic.isPrefixOf value then
    return value
  else if value.length < compressedHeaderLen then
    .error (.corruption "compressed value has truncated header")
  else
    let algorithm := value.getD compressedMagic.length 0
    let originalLen ← readU64 ((value.drop (compressedMagic.length + 1)).take 8)
    let expectedChecksum ← readU64 ((value.drop (compressedMagic.length + 9)).take 8)
    let payload := value.drop compressedHeaderLen
    if originalLen.toNat > maxDecodedValueBytes then
      .error (.corruption ("compressed value original length " ++ toString originalLen.toNat ++
        " exceeds decode limit " ++ toString maxDecodedValueBytes))
    else
      let decoded ← decompressPayload Z algorithm payload originalLen
      if clampedLen decoded.length ≠ originalLen then
        .error (.corruption "compressed value length mismatch")
      else if checksum Z decoded ≠ expectedChecksum then
        .error (.corruption "compressed value checksum mismatch")
      else
        return decoded

def decodeWorkingBytes (value : Bytes) : Result ℕ := do
  if !compressedMagic.isPrefixOf value then
    return value.length
  else if value.length < compressedHeaderLen then
    .error (.corruption "compressed value has truncated header")
  else
    let originalLen ← readU64 ((value.drop (compressedMagic.length + 1)).take 8)
    if originalLen.toNat > maxDecodedValueBytes then
      .error (.corruption "compressed value exceeds decode limit")
    else
      let algorithm := value.getD compressedMagic.length 0
      if algorithm = algoRaw then
        return max originalLen.toNat (value.length - compressedHeaderLen)
      else if algorithm = algoLz4 then
        return originalLen.toNat
      else if algorithm = algoZstd then
        return originalLen.toNat + 256 * 1024
      else
        .error (.corruption "compressed value has unknown algorithm")

/-- The reads of `CompressedReadTxn` and `CompressedWriteTxn`. -/
def compressedFormat : StoredFormat where
  decode _ _ stored := decodeStoredValue Z stored
  guardedDecode budget _ _ stored := do
    budget.check
    budget.reserve (← decodeWorkingBytes stored)
    decodeStoredValue Z stored

def compressedStep (config : CompressionConfig) : EngineState → EngineCall → Result EngineState :=
  engineStep (fun s table key value => do
    return s.put table key (← encodeStoredValue Z value config))
    fun s table key => .ok (s.delete table key)

end MultiDb
