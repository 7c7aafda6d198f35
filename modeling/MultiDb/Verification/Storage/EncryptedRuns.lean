import MultiDb.Shared.Wire
import MultiDb.Verification.Storage.Encrypted

/-!
# Runs of an encrypted engine

Writes, rotations, re-encryptions and destructions in any order keep all rows sealed.
-/

namespace MultiDb

open Shared

variable {A : Aead}

/-- An encrypted engine with its plain rows and the key ids that were issued. -/
structure EncryptedRun where
  engine : EncryptedState
  plain : EngineState
  issued : List UInt64

/-- What the call does to an engine without encryption. -/
def plainCall (plain : EngineState) : EncryptedCall → EngineState
  | .put table key value _ => { plain with writer := some (plain.staged.put table key value) }
  | .delete table key => { plain with writer := some (plain.staged.delete table key) }
  | .commit => plain.commit
  | .rollback => plain.rollback
  | _ => plain

/-- The key a rotation issues. -/
def issuedId (A : Aead) (provider : EnvelopeKeyProvider) : EncryptedCall → List UInt64
  | .rotateDek key nonce =>
    match provider.rotateDek A key nonce with
    | .ok (id, _) => [id]
    | .error _ => []
  | _ => []

/-- One call, on the encrypted engine and on a plain one. -/
def EncryptedRun.step (A : Aead) (run : EncryptedRun) (call : EncryptedCall) : EncryptedRun :=
  match encryptedStep A run.engine call with
  | .ok engine =>
    { engine
      plain := plainCall run.plain call
      issued := run.issued ++ issuedId A run.engine.provider call }
  | .error _ => run

/-- The calls that leave the version table to the engine. -/
def EncryptedCall.Regular : EncryptedCall → Prop
  | .put table _ _ _ => table ≠ encryptionVersionsTable
  | .delete table _ => table ≠ encryptionVersionsTable
  | _ => True

/-- The encrypted store is a sealed copy of the plain one. -/
structure EncryptedInv (A : Aead) (run : EncryptedRun) : Prop where
  keyring : KeyringInv run.engine.provider
  committed : SealedStore A run.engine.provider run.engine.rows.committed run.plain.committed
  staged : SealedStore A run.engine.provider run.engine.rows.staged run.plain.staged
  writer : run.engine.rows.writer = none → run.plain.writer = none
  issued : run.issued = run.engine.provider.ids

theorem staged_of_writer {st : EngineState} (h : st.writer = none) : st.staged = st.committed := by
  rw [EngineState.staged, h]
  rfl

theorem withWriter_eq_ok {st st' : EncryptedState} {call : Result EncryptedState}
    (h : withWriter st call = .ok st') : st.rows.writer = none ∧ call = .ok st' := by
  rw [withWriter] at h
  split at h
  · rename_i hnone
    exact ⟨hnone, h⟩
  · contradiction

/-- Each call keeps the encrypted engine in step with the plain one. -/
theorem EncryptedInv.step {run : EncryptedRun} (h : EncryptedInv A run) {call : EncryptedCall}
    (hcall : call.Regular) : EncryptedInv A (run.step A call) := by
  rw [EncryptedRun.step]
  cases hstep : encryptedStep A run.engine call with
  | error e => exact h
  | ok engine =>
    cases call with
    | put t k value nonce =>
      simp only [encryptedStep, bind_eq_ok_iff, pure_eq_ok_iff] at hstep
      obtain ⟨_, -, staged, hput, rfl⟩ := hstep
      exact ⟨h.keyring, h.committed, h.staged.encryptedPut h.keyring hcall hput, by simp,
        by simpa [issuedId] using h.issued⟩
    | delete t k =>
      simp only [encryptedStep, bind_eq_ok_iff, pure_eq_ok_iff] at hstep
      obtain ⟨_, -, staged, hdelete, rfl⟩ := hstep
      exact ⟨h.keyring, h.committed, h.staged.encryptedDelete hcall hdelete, by simp,
        by simpa [issuedId] using h.issued⟩
    | commit =>
      cases hstep
      exact ⟨h.keyring, h.staged, h.staged, fun _ => rfl, by simpa [issuedId] using h.issued⟩
    | rollback =>
      cases hstep
      exact ⟨h.keyring, h.committed, h.committed, fun _ => rfl, by simpa [issuedId] using h.issued⟩
    | loadKey keyId =>
      simp only [encryptedStep, bind_eq_ok_iff, pure_eq_ok_iff] at hstep
      obtain ⟨provider, hload, rfl⟩ := hstep
      obtain rfl := EnvelopeKeyProvider.loadKey_eq h.keyring hload
      exact ⟨h.keyring, h.committed, h.staged, h.writer, by simpa [issuedId] using h.issued⟩
    | rotateDek key nonce =>
      simp only [encryptedStep, bind_eq_ok_iff, pure_eq_ok_iff] at hstep
      obtain ⟨⟨id, provider⟩, hrotate, rfl⟩ := hstep
      obtain ⟨hkeyring, hkeeps, hids, -⟩ := EnvelopeKeyProvider.rotateDek_spec h.keyring hrotate
      exact ⟨hkeyring, h.committed.keepsKeys hkeeps, h.staged.keepsKeys hkeeps, h.writer,
        by simp only [issuedId, hrotate, h.issued, hids]⟩
    | rotateKekWith kek nonce =>
      simp only [encryptedStep, bind_eq_ok_iff, pure_eq_ok_iff] at hstep
      obtain ⟨provider, hrotate, rfl⟩ := hstep
      obtain ⟨hkeyring, hkeeps, hids⟩ := EnvelopeKeyProvider.rotateKekWith_spec h.keyring hrotate
      exact ⟨hkeyring, h.committed.keepsKeys hkeeps, h.staged.keepsKeys hkeeps, h.writer,
        by simp only [issuedId, List.append_nil, h.issued, hids]⟩
    | reencryptBatch batch nonce =>
      obtain ⟨hnone, hstep⟩ := withWriter_eq_ok hstep
      simp only [bind_eq_ok_iff, pure_eq_ok_iff] at hstep
      obtain ⟨s, hbatch, rfl⟩ := hstep
      have hs := h.committed.reencryptBatch h.keyring hbatch
      refine ⟨h.keyring, hs, ?_, fun _ => h.writer hnone, by simpa [issuedId] using h.issued⟩
      simp only [plainCall, staged_of_writer (h.writer hnone)]
      exact hs
    | destroyDek keyId =>
      obtain ⟨hnone, hstep⟩ := withWriter_eq_ok hstep
      simp only [bind_eq_ok_iff, pure_eq_ok_iff] at hstep
      obtain ⟨provider, hdestroy, rfl⟩ := hstep
      have hs := h.committed.destroyDek h.keyring hdestroy
      obtain ⟨hprovider, -⟩ := h.committed.unused_of_destroyDek hdestroy
      obtain ⟨hkeyring, hids, -⟩ := EnvelopeKeyProvider.destroyDek_spec h.keyring hprovider
      refine ⟨hkeyring, hs, ?_, h.writer, by simp only [issuedId, List.append_nil, h.issued, hids]⟩
      simp only [plainCall, staged_of_writer hnone, staged_of_writer (h.writer hnone)]
      exact hs

/-- A run of an engine with a new keyring over an empty store. -/
def runEncrypted (A : Aead) (provider : EnvelopeKeyProvider) (calls : List EncryptedCall) :
    EncryptedRun :=
  calls.foldl (EncryptedRun.step A)
    { engine := { provider, rows := { committed := .empty } }
      plain := { committed := .empty }
      issued := provider.ids }

theorem encryptedInv_run {provider : EnvelopeKeyProvider} (h : KeyringInv provider)
    {calls : List EncryptedCall} (hcalls : ∀ call ∈ calls, call.Regular) :
    EncryptedInv A (runEncrypted A provider calls) := by
  refine List.foldlRecOn (motive := EncryptedInv A) _ _ ?_ fun run hrun call hmem =>
    hrun.step (hcalls call hmem)
  exact ⟨h, sealedStore_empty, sealedStore_empty, fun _ => rfl, rfl⟩

/-- In every run that leaves the version table alone, reads return the last plaintext, only unused
keys are destroyed, and no key id is issued twice. -/
theorem encrypted_values_readable {kek : Result ProtectedKey} {key : Bytes} {nonce : Nonce}
    {provider : EnvelopeKeyProvider} (hcreate : EnvelopeKeyProvider.create A kek key nonce =
    .ok provider) {calls : List EncryptedCall} (hcalls : ∀ call ∈ calls, call.Regular) :
    let run := runEncrypted A provider calls
    (∀ t, t ≠ encryptionVersionsTable →
      (encryptedFormat A run.engine.provider run.engine.rows.committed).ReadsLike t
        run.engine.rows.committed run.plain.committed ∧
      (encryptedFormat A run.engine.provider run.engine.rows.staged).ReadsLike t
        run.engine.rows.staged run.plain.staged) ∧
    (∀ keyId provider',
      engineDestroyDek A run.engine.provider run.engine.rows.committed keyId = .ok provider' →
      ∀ t k stored, run.engine.rows.committed.get t k = some stored →
        storedKeyId stored ≠ .ok (some keyId)) ∧
    run.issued.Nodup := by
  obtain ⟨hkeyring, -⟩ := EnvelopeKeyProvider.keyringInv_create hcreate
  have hinv := encryptedInv_run (A := A) hkeyring hcalls
  refine ⟨fun t ht => ⟨(hinv.committed.represents ht).readsLike,
    (hinv.staged.represents ht).readsLike⟩, ?_, ?_⟩
  · intro keyId provider' hdestroy
    exact (hinv.committed.unused_of_destroyDek hdestroy).2
  · rw [hinv.issued]
    exact hinv.keyring.sorted.imp fun hlt => ne_of_lt hlt

/-- A cipher whose ciphertext shows all it was made with. -/
def openCipher : Aead where
  encrypt key nonce aad message :=
    .ok ((Wire.blob.pair (Wire.blob.pair (Wire.blob.pair Wire.blob))).encode
      (key, nonce, aad, message))
  decrypt key nonce aad ciphertext :=
    match (Wire.blob.pair (Wire.blob.pair (Wire.blob.pair Wire.blob))).take ciphertext with
    | some ((key', nonce', aad', message), _) =>
      if key = key' ∧ nonce = nonce' ∧ aad = aad' then some message else none
    | none => none
  legacyDecrypt _ _ _ _ := none
  decrypt_encrypt {key nonce aad message ciphertext key' nonce' aad'} h := by
    cases h
    have htake := (Wire.blob.pair (Wire.blob.pair (Wire.blob.pair Wire.blob))).take_encode
      (key, nonce, aad, message) []
    rw [List.append_nil] at htake
    simp only [htake]

def zeroNonce : Nonce :=
  ⟨List.replicate 24 0, rfl⟩

def sampleProvider : EnvelopeKeyProvider :=
  match EnvelopeKeyProvider.create openCipher (.ok { id := 1, bytes := [7] }) [9] zeroNonce with
  | .ok provider => provider
  | .error _ => { keyring := { currentKeyId := 0, keys := [] }, kek := .error .notFound, cache :=
    fun _ => none }

theorem create_sampleProvider :
    EnvelopeKeyProvider.create openCipher (.ok { id := 1, bytes := [7] }) [9] zeroNonce =
      .ok sampleProvider :=
  rfl

theorem encrypted_values_readable_sample :
    let run := runEncrypted openCipher sampleProvider
      [.put "docs" [1] [2] zeroNonce, .commit, .rotateDek [8] zeroNonce,
        .reencryptBatch [("docs", [1])] fun _ => zeroNonce, .destroyDek 1]
    (encryptedFormat openCipher run.engine.provider run.engine.rows.committed).ReadsLike "docs"
      run.engine.rows.committed run.plain.committed ∧ run.issued.Nodup := by
  have hcalls : ∀ call ∈ ([.put "docs" [1] [2] zeroNonce, .commit, .rotateDek [8] zeroNonce,
      .reencryptBatch [("docs", [1])] fun _ => zeroNonce, .destroyDek 1] : List EncryptedCall),
      call.Regular := by
    simp [EncryptedCall.Regular, encryptionVersionsTable]
  have h := encrypted_values_readable create_sampleProvider hcalls
  exact ⟨(h.1 "docs" (by decide)).1, h.2.2⟩

/-- Whether a committed row reads back as the plain run left it. -/
def readsBack (A : Aead) (run : EncryptedRun) (t : String) (k : Bytes) : Bool :=
  match (encryptedFormat A run.engine.provider run.engine.rows.committed).get
      run.engine.rows.committed t k with
  | .ok value => value = run.plain.committed.get t k
  | .error _ => false

/-- A delete in the version table makes a row unreadable, and its key may be destroyed. -/
theorem version_row_deleted :
    let address := be64 4 ++ strBytes "docs" ++ [1]
    let run := runEncrypted openCipher sampleProvider
      [.put "docs" [1] [2] zeroNonce, .commit, .delete encryptionVersionsTable address, .commit,
        .rotateDek [8] zeroNonce]
    readsBack openCipher run "docs" [1] = false ∧
      (engineDestroyDek openCipher run.engine.provider run.engine.rows.committed 1).isOk = true ∧
      (run.engine.rows.committed.get "docs" [1]).map storedKeyId = some (.ok (some 1)) := by
  decide +kernel

end MultiDb
