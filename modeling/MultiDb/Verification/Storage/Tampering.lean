import MultiDb.Verification.Storage.EncryptedRuns

/-!
# Rollback and relocation of ciphertext

The version of a row only grows and the authenticated data names the row.
-/

namespace MultiDb

open Shared

variable {A : Aead} {provider : EnvelopeKeyProvider} {s s' p : Store} {t : String}
  {version : UInt64}
variable {k address stored : Bytes} {run : EncryptedRun}

theorem VersionRow.unique {version version' : UInt64}
    (h : VersionRow s t k version) (h' : VersionRow s t k version') : version = version' := by
  obtain ⟨address, haddress, hget⟩ := h
  obtain ⟨address', haddress', hget'⟩ := h'
  cases haddress.symm.trans haddress'
  exact be64_inj.mp (Option.some.inj (hget.symm.trans hget'))

/-- No row's version goes down. -/
def VersionsGrow (s s' : Store) : Prop :=
  ∀ t k version, t ≠ encryptionVersionsTable → VersionRow s t k version →
    ∃ version', VersionRow s' t k version' ∧ version ≤ version'

theorem VersionsGrow.refl (s : Store) : VersionsGrow s s :=
  fun _ _ version _ h => ⟨version, h, le_rfl⟩

theorem VersionsGrow.trans {s₁ s₂ s₃ : Store} (h : VersionsGrow s₁ s₂) (h' : VersionsGrow s₂ s₃) :
    VersionsGrow s₁ s₃ := by
  intro t k version ht hrow
  obtain ⟨version₂, hrow₂, hle⟩ := h t k version ht hrow
  obtain ⟨version₃, hrow₃, hle'⟩ := h' t k version₂ ht hrow₂
  exact ⟨version₃, hrow₃, hle.trans hle'⟩

theorem version_lt_of_write (stored : Option Bytes)
    (ht : t ≠ encryptionVersionsTable) (hversion : nextEncryptionVersion s t k = .ok version)
    (haddress : encryptionVersionKey t k = .ok address) :
    VersionRow (writeRow s t k address version stored) t k version ∧
      ∀ old, VersionRow s t k old → old < version := by
  refine ⟨versionRow_writeRow ht haddress, fun old hold => ?_⟩
  obtain ⟨last, hlast, hnext⟩ := nextEncryptionVersion_eq_ok hversion
  cases hlast.symm.trans (hold.encryptionVersionFrom ht)
  rw [UInt64.lt_iff_toNat_lt, hnext, Option.getD_some]
  omega

theorem versionsGrow_writeRow {stored : Option Bytes}
    (ht : t ≠ encryptionVersionsTable) (hversion : nextEncryptionVersion s t k = .ok version)
    (haddress : encryptionVersionKey t k = .ok address) :
    VersionsGrow s (writeRow s t k address version stored) := by
  intro t' k' old ht' hold
  by_cases heq : t = t' ∧ k = k'
  · obtain ⟨rfl, rfl⟩ := heq
    obtain ⟨hrow, hlt⟩ := version_lt_of_write stored ht hversion haddress
    exact ⟨version, hrow, (hlt old hold).le⟩
  · exact ⟨old, hold.writeRow_other ht haddress heq, le_rfl⟩

theorem encryptedPut_version {value : Bytes} {nonce : Nonce}
    (ht : t ≠ encryptionVersionsTable) (h : encryptedPut A provider nonce s t k value = .ok s') :
    VersionsGrow s s' ∧ ∃ version, VersionRow s' t k version ∧
      ∀ old, VersionRow s t k old → old < version := by
  obtain ⟨version, key, ciphertext, address, hversion, -, -, haddress, rfl⟩ :=
    encryptedPut_eq_ok ht h
  exact ⟨versionsGrow_writeRow ht hversion haddress, version,
    version_lt_of_write _ ht hversion haddress⟩

theorem encryptedDelete_version (ht : t ≠ encryptionVersionsTable)
    (h : encryptedDelete s t k = .ok s') :
    VersionsGrow s s' ∧ ∃ version, VersionRow s' t k version ∧
      ∀ old, VersionRow s t k old → old < version := by
  obtain ⟨version, address, hversion, haddress, rfl⟩ := encryptedDelete_eq_ok ht h
  exact ⟨versionsGrow_writeRow ht hversion haddress, version,
    version_lt_of_write _ ht hversion haddress⟩

theorem reencryptBatch_version (h : SealedStore A provider s p)
    (hkeys : KeyringInv provider) {nonce : String × Bytes → Nonce} {batch : List (String × Bytes)}
    (hbatch : reencryptBatch A provider nonce s batch = .ok s') : VersionsGrow s s' := by
  obtain ⟨current, -, hrun⟩ := bind_eq_ok_iff.mp hbatch
  refine (foldlM_induction (fun s₁ => SealedStore A provider s₁ p ∧ VersionsGrow s s₁) ?_ hrun
    ⟨h, .refl s⟩).2
  intro row _ s₁ s₂ ⟨hs₁, hgrow⟩ hrow
  refine ⟨hs₁.reencryptRow hkeys hrow, ?_⟩
  obtain rfl | ⟨stored, keyId, version, plaintext, hget, hkeyId, -, -, hput⟩ :=
    reencryptRow_cases hrow
  · exact hgrow
  · exact hgrow.trans (encryptedPut_version (hs₁.table_of_keyId hget hkeyId) hput).1

/-- Each call lets the versions grow only. -/
theorem VersionsGrow.step (h : EncryptedInv A run)
    (hgrow : VersionsGrow run.engine.rows.committed run.engine.rows.staged) {call : EncryptedCall}
    (hcall : call.Regular) :
    VersionsGrow run.engine.rows.committed (run.step A call).engine.rows.committed ∧
      VersionsGrow (run.step A call).engine.rows.committed
        (run.step A call).engine.rows.staged := by
  rw [EncryptedRun.step]
  cases hstep : encryptedStep A run.engine call with
  | error e => exact ⟨.refl _, hgrow⟩
  | ok engine =>
    cases call with
    | put t k value nonce =>
      simp only [encryptedStep, bind_eq_ok_iff, pure_eq_ok_iff] at hstep
      obtain ⟨_, -, staged, hput, rfl⟩ := hstep
      exact ⟨.refl _, hgrow.trans (encryptedPut_version hcall hput).1⟩
    | delete t k =>
      simp only [encryptedStep, bind_eq_ok_iff, pure_eq_ok_iff] at hstep
      obtain ⟨_, -, staged, hdelete, rfl⟩ := hstep
      exact ⟨.refl _, hgrow.trans (encryptedDelete_version hcall hdelete).1⟩
    | commit =>
      cases hstep
      exact ⟨hgrow, .refl _⟩
    | rollback =>
      cases hstep
      exact ⟨.refl _, .refl _⟩
    | loadKey keyId =>
      simp only [encryptedStep, bind_eq_ok_iff, pure_eq_ok_iff] at hstep
      obtain ⟨_, -, rfl⟩ := hstep
      exact ⟨.refl _, hgrow⟩
    | rotateDek key nonce =>
      simp only [encryptedStep, bind_eq_ok_iff, pure_eq_ok_iff] at hstep
      obtain ⟨_, -, rfl⟩ := hstep
      exact ⟨.refl _, hgrow⟩
    | rotateKekWith kek nonce =>
      simp only [encryptedStep, bind_eq_ok_iff, pure_eq_ok_iff] at hstep
      obtain ⟨_, -, rfl⟩ := hstep
      exact ⟨.refl _, hgrow⟩
    | reencryptBatch batch nonce =>
      obtain ⟨-, hstep⟩ := withWriter_eq_ok hstep
      simp only [bind_eq_ok_iff, pure_eq_ok_iff] at hstep
      obtain ⟨s, hbatch, rfl⟩ := hstep
      exact ⟨reencryptBatch_version h.committed h.keyring hbatch, .refl _⟩
    | destroyDek keyId =>
      obtain ⟨-, hstep⟩ := withWriter_eq_ok hstep
      simp only [bind_eq_ok_iff, pure_eq_ok_iff] at hstep
      obtain ⟨_, -, rfl⟩ := hstep
      exact ⟨.refl _, hgrow⟩

theorem versionsGrow_run (h : EncryptedInv A run)
    (hgrow : VersionsGrow run.engine.rows.committed run.engine.rows.staged)
    {calls : List EncryptedCall} (hcalls : ∀ call ∈ calls, call.Regular) :
    VersionsGrow run.engine.rows.committed
        (calls.foldl (EncryptedRun.step A) run).engine.rows.committed ∧
      VersionsGrow (calls.foldl (EncryptedRun.step A) run).engine.rows.committed
        (calls.foldl (EncryptedRun.step A) run).engine.rows.staged := by
  induction calls generalizing run with
  | nil => exact ⟨.refl _, hgrow⟩
  | cons call calls ih =>
    rw [List.forall_mem_cons] at hcalls
    obtain ⟨hcommitted, hstaged⟩ := hgrow.step h hcalls.1
    obtain ⟨hrest, hend⟩ := ih (h.step hcalls.1) hstaged hcalls.2
    exact ⟨hcommitted.trans hrest, hend⟩

theorem versionsGrow_append {provider : EnvelopeKeyProvider} (h : KeyringInv provider)
    {before after : List EncryptedCall} (hcalls : ∀ call ∈ before ++ after, call.Regular) :
    VersionsGrow (runEncrypted A provider before).engine.rows.committed
      (runEncrypted A provider (before ++ after)).engine.rows.committed := by
  rw [List.forall_mem_append] at hcalls
  have hbefore := encryptedInv_run (A := A) h hcalls.1
  have hstart : EncryptedInv A (runEncrypted A provider []) := encryptedInv_run h (by simp)
  have hstaged : VersionsGrow (runEncrypted A provider before).engine.rows.committed
      (runEncrypted A provider before).engine.rows.staged :=
    (versionsGrow_run hstart (.refl _) hcalls.1).2
  have hrun := (versionsGrow_run hbefore hstaged hcalls.2).1
  rw [runEncrypted, runEncrypted, List.foldl_append]
  exact hrun

/-! ## Replaced frames -/

/-- What a read answers when the stored bytes are replaced. -/
def readReplaced (A : Aead) (provider : EnvelopeKeyProvider) (s : Store) (t : String)
    (k stored : Bytes) : Result (Option Bytes) :=
  (encryptedFormat A provider (s.put t k stored)).get (s.put t k stored) t k

theorem readReplaced_eq
    (ht : t ≠ encryptionVersionsTable) (hversion : VersionRow s t k version) :
    readReplaced A provider s t k stored =
      some <$> decryptValue A provider t k (some version) stored := by
  have hrow : VersionRow (s.put t k stored) t k version := by
    obtain ⟨address, haddress, hget⟩ := hversion
    exact ⟨address, haddress, by rw [Tables.get_put_of_ne fun heq => absurd heq ht, hget]⟩
  rw [readReplaced, StoredFormat.get, Tables.get_put_self]
  simp only [encryptedFormat, hrow.encryptionVersionFrom ht]
  rfl

theorem readReplaced_rollback {s₀ p₀ : Store} {provider₀ : EnvelopeKeyProvider}
    (hs₀ : SealedStore A provider₀ s₀ p₀) {old version : UInt64}
    (ht : t ≠ encryptionVersionsTable) (hget : s₀.get t k = some stored)
    (hold : VersionRow s₀ t k old) (hversion : VersionRow s t k version) (hne : old ≠ version) :
    readReplaced A provider s t k stored =
      .error (.corruption "encrypted value rollback detected") := by
  obtain ⟨value, key, version', nonce, ciphertext, -, hsealed⟩ := hs₀.row t k stored ht hget
  obtain rfl := hold.unique hsealed.version_row
  have hdiff : some version ≠ some old := fun heq => hne (Option.some.inj heq).symm
  rw [readReplaced_eq ht hversion, hsealed.frame, decryptValue_sealedFrame, if_pos hdiff]
  rfl

/-- A frame moved to another row is refused. -/
theorem readReplaced_relocation (hs : SealedStore A provider s p) {t t' : String}
    {k' old : Bytes} (ht : t ≠ encryptionVersionsTable) (hold : s.get t k = some old)
    (hget : s.get t' k' = some stored) (hne : ¬ (t' = t ∧ k' = k)) :
    ∃ message, readReplaced A provider s t k stored = .error (.corruption message) := by
  obtain ⟨_, _, version, _, _, _, hrow⟩ := hs.row t k old ht hold
  rw [readReplaced_eq ht hrow.version_row]
  by_cases ht' : t' = encryptionVersionsTable
  · -- a version row is shorter than the header of a frame
    subst ht'
    obtain ⟨_, _, version', -, -, rfl⟩ := hs.versions k' stored hget
    rw [decryptValue, if_pos (by rw [length_be64]; decide)]
    exact ⟨_, rfl⟩
  · obtain ⟨value, key, version', nonce, ciphertext, -, hsealed⟩ := hs.row t' k' stored ht' hget
    rw [hsealed.frame, decryptValue_sealedFrame]
    split
    · exact ⟨_, rfl⟩
    · obtain ⟨address, haddress, -⟩ := hrow.version_row
      obtain ⟨address', haddress', -⟩ := hsealed.version_row
      rw [encryptionVersionKey_eq] at haddress haddress'
      have haad : aadForV3 t k key.id version' ≠ aadForV3 t' k' key.id version' := by
        intro heq
        obtain ⟨hteq, hkeq, -⟩ := aadForV3_inj (versionKey_eq_ok_iff.mp haddress).1
          (versionKey_eq_ok_iff.mp haddress').1 heq
        exact hne ⟨hteq.symm, hkeq.symm⟩
      rw [EnvelopeKeyProvider.keyById_of_cache hsealed.key_kept]
      simp only [bind, Except.bind, A.decrypt_encrypt hsealed.encrypted, haad, and_false, if_false]
      exact ⟨_, rfl⟩

/-- Bytes that a row had under an older version and bytes of other rows are reported as corruption,
and the version of a row rises with every put and delete. -/
theorem replaced_ciphertext_rejected {kek : Result ProtectedKey} {key : Bytes} {nonce : Nonce}
    {provider : EnvelopeKeyProvider} (hcreate : EnvelopeKeyProvider.create A kek key nonce =
    .ok provider)
    {before after : List EncryptedCall} (hcalls : ∀ call ∈ before ++ after, call.Regular) :
    let earlier := (runEncrypted A provider before).engine
    let now := (runEncrypted A provider (before ++ after)).engine
    (∀ s₀ s t k stored old version, (s₀ = earlier.rows.committed ∨ s₀ = earlier.rows.staged) →
      (s = now.rows.committed ∨ s = now.rows.staged) →
      t ≠ encryptionVersionsTable → s₀.get t k = some stored → VersionRow s₀ t k old →
      VersionRow s t k version → old < version →
      ∃ message, readReplaced A now.provider s t k stored = .error (.corruption message)) ∧
    (∀ s t k t' k' old stored, (s = now.rows.committed ∨ s = now.rows.staged) →
      t ≠ encryptionVersionsTable → s.get t k = some old → s.get t' k' = some stored →
      ¬ (t' = t ∧ k' = k) →
      ∃ message, readReplaced A now.provider s t k stored = .error (.corruption message)) ∧
    VersionsGrow earlier.rows.committed now.rows.committed ∧
    (∀ t k value nonce staged, t ≠ encryptionVersionsTable →
      encryptedPut A now.provider nonce now.rows.staged t k value = .ok staged →
      ∃ version, VersionRow staged t k version ∧
        ∀ old, VersionRow now.rows.staged t k old → old < version) ∧
    (∀ t k staged, t ≠ encryptionVersionsTable →
      encryptedDelete now.rows.staged t k = .ok staged →
      ∃ version, VersionRow staged t k version ∧
        ∀ old, VersionRow now.rows.staged t k old → old < version) := by
  obtain ⟨hkeyring, -⟩ := EnvelopeKeyProvider.keyringInv_create hcreate
  have hnow := encryptedInv_run (A := A) hkeyring hcalls
  have hearlier := encryptedInv_run (A := A) hkeyring
    fun call hmem => hcalls call (List.mem_append_left after hmem)
  refine ⟨?_, ?_, versionsGrow_append hkeyring hcalls, ?_, ?_⟩
  · rintro s₀ s t k stored old version (rfl | rfl) - ht hget hold hversion hlt
    · exact ⟨_, readReplaced_rollback hearlier.committed ht hget hold hversion hlt.ne⟩
    · exact ⟨_, readReplaced_rollback hearlier.staged ht hget hold hversion hlt.ne⟩
  · rintro s t k t' k' old stored (rfl | rfl) ht hold hget hne
    · exact readReplaced_relocation hnow.committed ht hold hget hne
    · exact readReplaced_relocation hnow.staged ht hold hget hne
  · intro t k value nonce staged ht hput
    exact (encryptedPut_version ht hput).2
  · intro t k staged ht hdelete
    exact (encryptedDelete_version ht hdelete).2

/-- The first bytes of a row and those of its neighbour are refused in its place. -/
theorem replaced_ciphertext_rejected_sample :
    let before : List EncryptedCall := [.put "docs" [1] [2] zeroNonce, .commit]
    let after : List EncryptedCall := [.delete "docs" [1], .put "docs" [1] [3] zeroNonce,
      .put "docs" [4] [3] zeroNonce, .commit]
    let s₀ := (runEncrypted openCipher sampleProvider before).engine.rows.committed
    let now := (runEncrypted openCipher sampleProvider (before ++ after)).engine
    ∃ old neighbour, s₀.get "docs" [1] = some old ∧
      now.rows.committed.get "docs" [4] = some neighbour ∧
      (∃ message, readReplaced openCipher now.provider now.rows.committed "docs" [1] old =
        .error (.corruption message)) ∧
      (∃ message, readReplaced openCipher now.provider now.rows.committed "docs" [1] neighbour =
        .error (.corruption message)) := by
  intro before after s₀ now
  have hcalls : ∀ call ∈ before ++ after, call.Regular := by
    simp [before, after, EncryptedCall.Regular, encryptionVersionsTable]
  obtain ⟨hrollback, hrelocation, -⟩ := replaced_ciphertext_rejected create_sampleProvider hcalls
  have hfound : (s₀.get "docs" [1]).isSome ∧ (now.rows.committed.get "docs" [1]).isSome ∧
      (now.rows.committed.get "docs" [4]).isSome := by decide +kernel
  obtain ⟨old, hold⟩ := Option.isSome_iff_exists.mp hfound.1
  obtain ⟨current, hcurrent⟩ := Option.isSome_iff_exists.mp hfound.2.1
  obtain ⟨neighbour, hneighbour⟩ := Option.isSome_iff_exists.mp hfound.2.2
  have hversions : s₀.get encryptionVersionsTable (be64 4 ++ strBytes "docs" ++ [1]) =
    some (be64 1) ∧
      now.rows.committed.get encryptionVersionsTable (be64 4 ++ strBytes "docs" ++ [1]) =
        some (be64 3) := by decide +kernel
  refine ⟨old, neighbour, hold, hneighbour, ?_, ?_⟩
  · exact hrollback s₀ now.rows.committed "docs" [1] old 1 3 (.inl rfl) (.inl rfl) (by decide) hold
      ⟨_, rfl, hversions.1⟩ ⟨_, rfl, hversions.2⟩ (by decide)
  · exact hrelocation now.rows.committed "docs" [1] "docs" [4] current neighbour (.inl rfl)
      (by decide) hcurrent hneighbour (by decide)

end MultiDb
