import MultiDb.Model.Engine

/-!
# Encrypted storage

`storage/encrypted.rs`: an envelope keyring, and the engine that keeps every value encrypted.  The
version of every row ever written is kept in a table of its own.
-/

namespace MultiDb

open Shared

/-- `XChaCha20Poly1305` as an ideal cipher, and the cipher of legacy values, with key, nonce,
associated data and message. -/
structure Aead where
  encrypt : Bytes → Bytes → Bytes → Bytes → Except String Bytes
  decrypt : Bytes → Bytes → Bytes → Bytes → Option Bytes
  legacyDecrypt : Bytes → Bytes → Bytes → Bytes → Option Bytes
  /-- A ciphertext opens under the key, nonce and data it was made with, and under no other. -/
  decrypt_encrypt : ∀ {key nonce aad message ciphertext key' nonce' aad'},
    encrypt key nonce aad message = .ok ciphertext →
    decrypt key' nonce' aad' ciphertext =
      if key' = key ∧ nonce' = nonce ∧ aad' = aad then some message else none

structure ProtectedKey where
  id : UInt64
  bytes : Bytes
  deriving DecidableEq, Repr

/-- What `random_nonce_v3` draws. -/
abbrev Nonce := { bytes : Bytes // bytes.length = 24 }

def magicV1 : Bytes := strBytes "MDBE1"
def magicV2 : Bytes := strBytes "MDBE2"
def magicV3 : Bytes := strBytes "MDBE3"
def nonceLenV1V2 : ℕ := 12
def nonceLenV3 : ℕ := 24
def keyLen : ℕ := 32
def algXChaCha20Poly1305 : UInt8 := 1
def encryptionVersionsTable : String := "__enc_versions"

structure WrappedDataKey where
  keyId : UInt64
  algorithm : String
  nonce : Bytes
  ciphertext : Bytes
  deleted : Bool
  deriving DecidableEq, Repr

structure EnvelopeKeyring where
  currentKeyId : UInt64
  keys : List WrappedDataKey
  deriving DecidableEq, Repr

/-- `EnvelopeKeyProvider`: the keyring, what loading the KEK returns, and the cached keys. -/
structure EnvelopeKeyProvider where
  keyring : EnvelopeKeyring
  kek : Result ProtectedKey
  cache : UInt64 → Option ProtectedKey

variable (A : Aead)

def envelopeAad (keyId : UInt64) : Bytes :=
  strBytes "multidb envelope dek v1" ++ be64 keyId

def wrapDek (kek dek : ProtectedKey) (nonce : Nonce) : Result WrappedDataKey := do
  let ciphertext ← (A.encrypt kek.bytes nonce (envelopeAad dek.id) dek.bytes).mapError .backend
  return { keyId := dek.id, algorithm := "XChaCha20Poly1305", nonce, ciphertext, deleted := false }

def parseRawKey (bytes : Bytes) : Result Bytes :=
  if bytes.length ≠ keyLen then
    .error (.corruption "wrapped DEK must contain exactly 32 bytes")
  else
    .ok bytes

def unwrapDek (kek : ProtectedKey) (wrapped : WrappedDataKey) : Result ProtectedKey := do
  if wrapped.deleted then
    .error (.corruption ("encryption key id " ++ toString wrapped.keyId.toNat ++
      " has been destroyed"))
  else if wrapped.algorithm ≠ "XChaCha20Poly1305" then
    .error (.corruption ("unsupported wrapped DEK algorithm " ++ wrapped.algorithm))
  else
    match A.decrypt kek.bytes wrapped.nonce (envelopeAad wrapped.keyId) wrapped.ciphertext with
    | none => .error (.corruption "wrapped DEK authentication failed")
    | some plaintext => return { id := wrapped.keyId, bytes := ← parseRawKey plaintext }

namespace EnvelopeKeyProvider

def isLive (provider : EnvelopeKeyProvider) (keyId : UInt64) : Bool :=
  provider.keyring.keys.any fun key => key.keyId = keyId && !key.deleted

def cacheKey (provider : EnvelopeKeyProvider) (key : ProtectedKey) : EnvelopeKeyProvider :=
  { provider with cache := fun id => if id = key.id then some key else provider.cache id }

/-- `create`: a keyring with one data key. -/
def create (kek : Result ProtectedKey) (key : Bytes) (nonce : Nonce) :
    Result EnvelopeKeyProvider := do
  let dek : ProtectedKey := { id := 1, bytes := key }
  let wrapped ← wrapDek A (← kek) dek nonce
  let keyring : EnvelopeKeyring := { currentKeyId := 1, keys := [wrapped] }
  return cacheKey { keyring, kek, cache := fun _ => none } dek

/-- The result of `key_by_id`. -/
def keyById (provider : EnvelopeKeyProvider) (keyId : UInt64) : Result ProtectedKey := do
  match provider.cache keyId with
  | some key => return key
  | none =>
    match provider.keyring.keys.find? fun key => key.keyId = keyId && !key.deleted with
    | none => .error (.corruption ("unknown encryption key id " ++ toString keyId.toNat))
    | some wrapped => unwrapDek A (← provider.kek) wrapped

/-- The effect of `key_by_id`: the key it found is cached. -/
def loadKey (provider : EnvelopeKeyProvider) (keyId : UInt64) : Result EnvelopeKeyProvider := do
  return provider.cacheKey (← provider.keyById A keyId)

def currentKey (provider : EnvelopeKeyProvider) : Result ProtectedKey :=
  provider.keyById A provider.keyring.currentKeyId

/-- `rotate_dek`, with the random key and nonce it draws. -/
def rotateDek (provider : EnvelopeKeyProvider) (key : Bytes) (nonce : Nonce) :
    Result (UInt64 × EnvelopeKeyProvider) := do
  let last := ((provider.keyring.keys.map (·.keyId)).max?).getD 0
  if last.toNat + 1 < 2 ^ 64 then
    let dek : ProtectedKey := { id := last + 1, bytes := key }
    let wrapped ← wrapDek A (← provider.kek) dek nonce
    let keyring := { currentKeyId := last + 1, keys := provider.keyring.keys ++ [wrapped] }
    return (last + 1, { provider with keyring }.cacheKey dek)
  else
    .error (.backend "encryption key id overflow")

/-- A live key under another KEK; destroyed keys are left alone. -/
def rewrapDek (oldKek newKek : ProtectedKey) (nonce : UInt64 → Nonce) (wrapped : WrappedDataKey) :
    Result WrappedDataKey := do
  if wrapped.deleted then
    return wrapped
  else
    wrapDek A newKek (← unwrapDek A oldKek wrapped) (nonce wrapped.keyId)

def rotateKekWith (provider : EnvelopeKeyProvider) (newKek : Result ProtectedKey)
    (nonce : UInt64 → Nonce) : Result EnvelopeKeyProvider := do
  let old ← provider.kek
  let new ← newKek
  let keys ← provider.keyring.keys.mapM (rewrapDek A old new nonce)
  return { provider with keyring := { provider.keyring with keys }, kek := newKek }

def destroyDek (provider : EnvelopeKeyProvider) (keyId : UInt64) : Result EnvelopeKeyProvider :=
  if !provider.keyring.keys.any (·.keyId = keyId) then
    .error (.corruption ("unknown encryption key id " ++ toString keyId.toNat))
  else if !provider.isLive keyId then
    .ok provider
  else if provider.keyring.currentKeyId = keyId then
    .error (.backend ("refusing to destroy current encryption key id " ++ toString keyId.toNat ++
      "; rotate the DEK and re-encrypt existing values first"))
  else if !provider.keyring.keys.any (fun key => key.keyId ≠ keyId && !key.deleted) then
    .error (.backend ("refusing to destroy the last live encryption key id " ++
      toString keyId.toNat))
  else
    .ok { provider with
      keyring := { provider.keyring with
        keys := provider.keyring.keys.map fun key =>
          if key.keyId = keyId then { key with deleted := true, ciphertext := [], nonce := [] }
          else key }
      cache := fun id => if id = keyId then none else provider.cache id }

end EnvelopeKeyProvider

/-! ## Frames -/

def decodeU64 (bytes : Bytes) (name : String) : Result UInt64 :=
  match ofBe64? bytes with
  | some n => .ok n
  | none => .error (.corruption (name ++ " must be exactly eight bytes"))

def encryptionVersionKey (table : String) (rowKey : Bytes) : Result Bytes :=
  if (strBytes table).length < 2 ^ 64 then
    .ok (be64 (UInt64.ofNat (strBytes table).length) ++ strBytes table ++ rowKey)
  else
    .error (.backend "out of range integral type conversion attempted")

def decodeEncryptionVersionKey (bytes : Bytes) : Result (String × Bytes) := do
  let malformed : StorageError := .corruption "encryption version key is malformed"
  if bytes.length < 8 then
    .error malformed
  else
    let tableLen ← decodeU64 (bytes.take 8) "encryption version table length"
    let rest := bytes.drop 8
    if rest.length < tableLen.toNat then
      .error malformed
    else
      match String.fromUTF8? ⟨(rest.take tableLen.toNat).toArray⟩ with
      | none => .error malformed
      | some table => return (table, rest.drop tableLen.toNat)

def encryptionVersionFrom (s : Store) (table : String) (rowKey : Bytes) :
    Result (Option UInt64) := do
  if table = encryptionVersionsTable then
    return none
  else
    match s.get encryptionVersionsTable (← encryptionVersionKey table rowKey) with
    | none => return none
    | some bytes => return some (← decodeU64 bytes "encryption version")

def nextEncryptionVersion (s : Store) (table : String) (rowKey : Bytes) : Result UInt64 := do
  let version := (← encryptionVersionFrom s table rowKey).getD 0
  if version.toNat + 1 < 2 ^ 64 then
    return version + 1
  else
    .error (.backend "encryption version overflow")

def aadForV3 (table : String) (rowKey : Bytes) (keyId version : UInt64) : Bytes :=
  strBytes "multidb encrypted storage v3" ++ [algXChaCha20Poly1305] ++ be64 keyId ++
    be64 version ++ be64 (UInt64.ofNat (min (strBytes table).length (2 ^ 64 - 1))) ++
    strBytes table ++ rowKey

def aadForV1V2 (table : String) (rowKey : Bytes) : Bytes :=
  be64 (UInt64.ofNat (min (strBytes table).length (2 ^ 64 - 1))) ++ strBytes table ++ rowKey

/-- `encrypt_value`, with the random nonce it draws. -/
def encryptValue (key : ProtectedKey) (table : String) (rowKey : Bytes) (version : UInt64)
    (value : Bytes) (nonce : Nonce) : Result Bytes := do
  let aad := aadForV3 table rowKey key.id version
  let ciphertext ← (A.encrypt key.bytes nonce aad value).mapError .backend
  return magicV3 ++ [algXChaCha20Poly1305] ++ be64 key.id ++ be64 version ++ nonce ++ ciphertext

def decryptValueV3 (provider : EnvelopeKeyProvider) (table : String) (rowKey : Bytes)
    (expectedVersion : Option UInt64) (value : Bytes) : Result Bytes := do
  let headerLen := magicV3.length + 1 + 8 + 8 + nonceLenV3
  if value.length < headerLen then
    .error (.corruption "encrypted v3 value has invalid header")
  else
    let algorithm := value.getD magicV3.length 0
    if algorithm ≠ algXChaCha20Poly1305 then
      .error (.corruption ("unsupported encrypted value algorithm " ++ toString algorithm.toNat))
    else
      let keyId ← decodeU64 ((value.drop 6).take 8) "key id"
      let version ← decodeU64 ((value.drop 14).take 8) "encryption version"
      if expectedVersion ≠ some version then
        .error (.corruption "encrypted value rollback detected")
      else
        let nonce := (value.drop 22).take nonceLenV3
        let ciphertext := value.drop headerLen
        let key ← provider.keyById A keyId
        match A.decrypt key.bytes nonce (aadForV3 table rowKey keyId version) ciphertext with
        | none => .error (.corruption "encrypted value authentication failed")
        | some plaintext => return plaintext

def decryptValueV1V2 (key : ProtectedKey) (table : String) (rowKey value : Bytes) :
    Result Bytes :=
  let nonceEnd := magicV2.length + nonceLenV1V2
  if value.length < nonceEnd then
    .error (.corruption "encrypted value has invalid header")
  else
    let nonce := (value.drop magicV2.length).take nonceLenV1V2
    match A.legacyDecrypt key.bytes nonce (aadForV1V2 table rowKey) (value.drop nonceEnd) with
    | none => .error (.corruption "encrypted value authentication failed")
    | some plaintext => .ok plaintext

def decryptValue (provider : EnvelopeKeyProvider) (table : String) (rowKey : Bytes)
    (expectedVersion : Option UInt64) (value : Bytes) : Result Bytes := do
  if value.length < magicV3.length + nonceLenV1V2 then
    .error (.corruption "encrypted value has invalid header")
  else
    let header := value.take magicV3.length
    if header = magicV3 then
      decryptValueV3 A provider table rowKey expectedVersion value
    else if header = magicV2 ∨ header = magicV1 then
      decryptValueV1V2 A (← provider.currentKey A) table rowKey value
    else
      .error (.corruption "encrypted value has invalid header")

def visitEncryptionVersion (budget : ReadBudget) (s : Store) (table : String) (rowKey : Bytes) :
    Result (Option UInt64) := do
  if table = encryptionVersionsTable then
    return none
  else
    let versionKey ← encryptionVersionKey table rowKey
    let lookup : Visit (Option UInt64) Bool :=
      visitGet budget s encryptionVersionsTable versionKey fun value => do
        match value with
        | none => set (none : Option UInt64)
        | some bytes => set (some (← decodeU64 bytes "encryption version"))
        return false
    let (outcome, version) := lookup.run.run none
    let _ ← outcome
    return version

/-- The reads of `EncryptedReadTxn` and `EncryptedWriteTxn` over the rows `s`. -/
def encryptedFormat (provider : EnvelopeKeyProvider) (s : Store) : StoredFormat where
  decode table key stored := do
    decryptValue A provider table key (← encryptionVersionFrom s table key) stored
  guardedDecode budget table key stored := do
    budget.check
    budget.reserve (((strBytes table).length + key.length) * 2 + stored.length + 256)
    decryptValue A provider table key (← visitEncryptionVersion budget s table key) stored

/-- `EncryptedWriteTxn::put`. -/
def encryptedPut (provider : EnvelopeKeyProvider) (nonce : Nonce) (s : Store) (table : String)
    (key value : Bytes) : Result Store := do
  if table = encryptionVersionsTable then
    return s.put table key value
  else
    let version ← nextEncryptionVersion s table key
    let encrypted ← encryptValue A (← provider.currentKey A) table key version value nonce
    let s := s.put encryptionVersionsTable (← encryptionVersionKey table key) (be64 version)
    return s.put table key encrypted

/-- `EncryptedWriteTxn::delete`. -/
def encryptedDelete (s : Store) (table : String) (key : Bytes) : Result Store := do
  if table = encryptionVersionsTable then
    return s.delete table key
  else
    let version ← nextEncryptionVersion s table key
    let s := s.put encryptionVersionsTable (← encryptionVersionKey table key) (be64 version)
    return s.delete table key

/-! ## Keys in use -/

def storedKeyId (value : Bytes) : Result (Option UInt64) :=
  let header := value.take magicV3.length
  if header = magicV3 then
    if value.length < magicV3.length + 1 + 8 then
      .error (.corruption "encrypted v3 value has invalid header")
    else
      some <$> decodeU64 ((value.drop (magicV3.length + 1)).take 8) "key id"
  else if header = magicV2 ∨ header = magicV1 then
    .ok none
  else
    .error (.corruption "encrypted value has invalid header")

/-- The row of a version row, with the key of its value; deleted and legacy rows are skipped. -/
def visitVersionRow (s : Store) (visited : List (String × Bytes × UInt64))
    (entry : Bytes × Bytes) : Result (List (String × Bytes × UInt64)) := do
  let (table, rowKey) ← decodeEncryptionVersionKey entry.1
  match s.get table rowKey with
  | none => return visited
  | some stored =>
    match ← storedKeyId stored with
    | none => return visited
    | some keyId => return visited ++ [(table, rowKey, keyId)]

/-- `visit_stored_key_ids`: the rows it visits, in order. -/
def visitStoredKeyIds (s : Store) : Result (List (String × Bytes × UInt64)) :=
  (range s encryptionVersionsTable [] []).foldlM (visitVersionRow s) []

/-- `key_usage_in`, at one key. -/
def keyUsageIn (s : Store) (keyId : UInt64) : Result ℕ := do
  return (← visitStoredKeyIds s).countP fun row => row.2.2 = keyId

def reencryptRow (provider : EnvelopeKeyProvider) (currentKeyId : UInt64)
    (nonce : String × Bytes → Nonce) (s : Store) (row : String × Bytes) : Result Store := do
  match s.get row.1 row.2 with
  | none => return s
  | some stored =>
    match ← storedKeyId stored with
    | none => return s
    | some keyId =>
      if keyId = currentKeyId then
        return s
      else
        let version ← encryptionVersionFrom s row.1 row.2
        let plaintext ← decryptValue A provider row.1 row.2 version stored
        encryptedPut A provider (nonce row) s row.1 row.2 plaintext

/-- `reencrypt_batch`, in a write transaction of its own. -/
def reencryptBatch (provider : EnvelopeKeyProvider) (nonce : String × Bytes → Nonce) (s : Store)
    (batch : List (String × Bytes)) : Result Store := do
  let currentKeyId := (← provider.currentKey A).id
  batch.foldlM (reencryptRow A provider currentKeyId nonce) s

/-- `EncryptedEngine::destroy_dek`, while it holds the writer. -/
def engineDestroyDek (provider : EnvelopeKeyProvider) (s : Store) (keyId : UInt64) :
    Result EnvelopeKeyProvider := do
  if keyId = (← provider.currentKey A).id then
    .error (.backend ("refusing to destroy current encryption key id " ++ toString keyId.toNat ++
      "; rotate the DEK and re-encrypt existing values first"))
  else
    let inUse ← keyUsageIn s keyId
    if inUse > 0 then
      .error (.backend ("refusing to destroy encryption key id " ++ toString keyId.toNat ++ ": " ++
        toString inUse ++
        " stored values are still encrypted with it; run reencrypt_existing_values first"))
    else
      provider.destroyDek keyId

/-! ## The engine -/

/-- `EncryptedEngine`: the keys and the rows below it. -/
structure EncryptedState where
  provider : EnvelopeKeyProvider
  rows : EngineState

/-- The calls of an encrypted engine, with the random values they draw. -/
inductive EncryptedCall
  | put (table : String) (key value : Bytes) (nonce : Nonce)
  | delete (table : String) (key : Bytes)
  | commit
  | rollback
  | loadKey (keyId : UInt64)
  | rotateDek (key : Bytes) (nonce : Nonce)
  | rotateKekWith (kek : Result ProtectedKey) (nonce : UInt64 → Nonce)
  | reencryptBatch (batch : List (String × Bytes)) (nonce : String × Bytes → Nonce)
  | destroyDek (keyId : UInt64)

def withWriter (st : EncryptedState) (call : Result EncryptedState) : Result EncryptedState :=
  match st.rows.writer with
  | none => call
  | some _ => .error (.backend "the writer is busy")

def encryptedStep (st : EncryptedState) : EncryptedCall → Result EncryptedState
  | .put table key value nonce => do
    let _ ← st.provider.currentKey A
    let staged ← encryptedPut A st.provider nonce st.rows.staged table key value
    return { st with rows := { st.rows with writer := some staged } }
  | .delete table key => do
    let _ ← st.provider.currentKey A
    let staged ← encryptedDelete st.rows.staged table key
    return { st with rows := { st.rows with writer := some staged } }
  | .commit => .ok { st with rows := st.rows.commit }
  | .rollback => .ok { st with rows := st.rows.rollback }
  | .loadKey keyId => do return { st with provider := ← st.provider.loadKey A keyId }
  | .rotateDek key nonce => do
    return { st with provider := (← st.provider.rotateDek A key nonce).2 }
  | .rotateKekWith kek nonce => do
    return { st with provider := ← st.provider.rotateKekWith A kek nonce }
  | .reencryptBatch batch nonce => withWriter st do
    let s ← reencryptBatch A st.provider nonce st.rows.committed batch
    return { st with rows := { committed := s } }
  | .destroyDek keyId => withWriter st do
    return { st with provider := ← engineDestroyDek A st.provider st.rows.committed keyId }

end MultiDb
