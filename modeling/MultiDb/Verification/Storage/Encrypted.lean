import MultiDb.Verification.Storage.Engine
import MultiDb.Verification.Storage.Frames
import MultiDb.Verification.Storage.Keyring

/-!
# Encrypted storage keeps every value readable

Every stored row is sealed: its frame was made for the row under a key that the provider still
has, and under the version that the version table records.
-/

namespace MultiDb

open Shared

variable {A : Aead} {provider provider' : EnvelopeKeyProvider} {s p : Store} {s' : Store}
  {nonce : String × Bytes → Nonce} {keyId : UInt64}
variable {value ciphertext : Bytes} {key : ProtectedKey} {row : String × Bytes}
  {currentKeyId : UInt64}

/-- The version row of an encrypted row. -/
def VersionRow (s : Store) (t : String) (k : Bytes) (version : UInt64) : Prop :=
  ∃ address, encryptionVersionKey t k = .ok address ∧
    s.get encryptionVersionsTable address = some (be64 version)

/-- A frame of `value`, made for the row under a known key and the recorded version. -/
structure SealedRow (A : Aead) (provider : EnvelopeKeyProvider) (s : Store) (t : String)
    (k stored value : Bytes) (key : ProtectedKey) (version : UInt64) (nonce : Nonce)
    (ciphertext : Bytes) : Prop where
  frame : stored = sealedFrame key.id version nonce ciphertext
  encrypted : A.encrypt key.bytes nonce (aadForV3 t k key.id version) value = .ok ciphertext
  key_kept : provider.cache key.id = some key
  version_row : VersionRow s t k version

/-- The rows of the store are sealed values of the plain store. -/
structure SealedStore (A : Aead) (provider : EnvelopeKeyProvider) (s p : Store) : Prop where
  row : ∀ t k stored, t ≠ encryptionVersionsTable → s.get t k = some stored →
    ∃ value key version nonce ciphertext, p.get t k = some value ∧
      SealedRow A provider s t k stored value key version nonce ciphertext
  absent : ∀ t k, t ≠ encryptionVersionsTable → s.get t k = none → p.get t k = none
  versions : ∀ address bytes, s.get encryptionVersionsTable address = some bytes →
    ∃ t k version, t ≠ encryptionVersionsTable ∧ encryptionVersionKey t k = .ok address ∧
      bytes = be64 version

theorem VersionRow.encryptionVersionFrom {t : String} {k : Bytes} {version : UInt64}
    (h : VersionRow s t k version) (ht : t ≠ encryptionVersionsTable) :
    encryptionVersionFrom s t k = .ok (some version) := by
  obtain ⟨address, haddress, hget⟩ := h
  simp only [MultiDb.encryptionVersionFrom, if_neg ht, haddress, bind, Except.bind]
  simp only [hget, decodeU64_be64]
  rfl

theorem VersionRow.visitEncryptionVersion {t : String} {k : Bytes} {version : UInt64}
    (h : VersionRow s t k version) (ht : t ≠ encryptionVersionsTable) {budget : ReadBudget}
    (hadmits : budget.Admits) (hcheck : budget.check = .ok ()) :
    visitEncryptionVersion budget s t k = .ok (some version) := by
  obtain ⟨address, haddress, hget⟩ := h
  simp only [MultiDb.visitEncryptionVersion, if_neg ht, haddress, bind, Except.bind, visitGet, hget,
    hcheck, Option.elim_some, hadmits.reserve, decodeU64_be64]
  rfl

/-- A sealed row decrypts to its value. -/
theorem SealedRow.decryptValue {t : String} {k stored : Bytes}
    {version : UInt64} {nonce : Nonce}
    (h : SealedRow A provider s t k stored value key version nonce ciphertext) :
    decryptValue A provider t k (some version) stored = .ok value := by
  rw [h.frame, decryptValue_sealedFrame, if_neg (by simp),
    EnvelopeKeyProvider.keyById_of_cache h.key_kept]
  simp only [bind, Except.bind, A.decrypt_encrypt h.encrypted, and_self, if_true]
  rfl

theorem SealedRow.decodes {t : String} {k stored : Bytes}
    {version : UInt64} {nonce : Nonce} (ht : t ≠ encryptionVersionsTable)
    (h : SealedRow A provider s t k stored value key version nonce ciphertext) :
    (encryptedFormat A provider s).Decodes t k stored value := by
  constructor
  · simp only [encryptedFormat, h.version_row.encryptionVersionFrom ht, bind, Except.bind,
      h.decryptValue]
  · intro budget hadmits hcheck
    simp only [encryptedFormat, hcheck, hadmits.reserve,
      h.version_row.visitEncryptionVersion ht hadmits hcheck, bind, Except.bind, h.decryptValue]

theorem SealedStore.represents (h : SealedStore A provider s p) {t : String}
    (ht : t ≠ encryptionVersionsTable) : (encryptedFormat A provider s).Represents t s p := by
  constructor
  · intro k stored hget
    obtain ⟨value, key, version, nonce, ciphertext, hvalue, hsealed⟩ := h.row t k stored ht hget
    exact ⟨value, hvalue, hsealed.decodes ht⟩
  · intro k hget
    exact h.absent t k ht hget

theorem sealedStore_empty : SealedStore A provider .empty .empty where
  row t k stored _ hget := by
    rw [Tables.get_empty] at hget
    contradiction
  absent t k _ _ := Tables.get_empty t k
  versions address bytes hget := by
    rw [Tables.get_empty] at hget
    contradiction

theorem SealedStore.of_keys (h : SealedStore A provider s p)
    (hkeys : ∀ t k stored keyId key, s.get t k = some stored → t ≠ encryptionVersionsTable →
      storedKeyId stored = .ok (some keyId) → provider.cache keyId = some key →
      provider'.cache keyId = some key) : SealedStore A provider' s p where
  row t k stored ht hget := by
    obtain ⟨value, key, version, nonce, ciphertext, hvalue, hsealed⟩ := h.row t k stored ht hget
    refine ⟨value, key, version, nonce, ciphertext, hvalue, hsealed.frame, hsealed.encrypted, ?_,
      hsealed.version_row⟩
    refine hkeys t k stored key.id key hget ht ?_ hsealed.key_kept
    rw [hsealed.frame, storedKeyId_sealedFrame]
  absent := h.absent
  versions := h.versions

theorem SealedStore.keepsKeys (h : SealedStore A provider s p)
    (hkeeps : KeepsKeys provider provider') : SealedStore A provider' s p :=
  h.of_keys fun _ _ _ keyId key _ _ _ hkey => hkeeps keyId key hkey

theorem nextEncryptionVersion_eq_ok {t : String} {k : Bytes} {version : UInt64}
    (h : nextEncryptionVersion s t k = .ok version) :
    ∃ last, encryptionVersionFrom s t k = .ok last ∧
      version.toNat = (last.getD 0).toNat + 1 := by
  simp only [nextEncryptionVersion, bind_eq_ok_iff] at h
  obtain ⟨last, hlast, h⟩ := h
  split at h
  · rename_i hroom
    obtain rfl := pure_eq_ok_iff.mp h
    refine ⟨last, hlast, ?_⟩
    rw [UInt64.toNat_add]
    exact Nat.mod_eq_of_lt hroom
  · contradiction

/-! ## Writes -/

/-- The rows after a put or a delete: a new version of the row, and its new bytes. -/
def writeRow (s : Store) (t : String) (k address : Bytes) (version : UInt64)
    (stored : Option Bytes) : Store :=
  (s.put encryptionVersionsTable address (be64 version)).set t k stored

section WriteRow

variable {t : String} {k address : Bytes} {version : UInt64} {stored : Option Bytes}

theorem get_versions_writeRow (ht : t ≠ encryptionVersionsTable) (other : Bytes) :
    (writeRow s t k address version stored).get encryptionVersionsTable other =
      if address = other then some (be64 version) else s.get encryptionVersionsTable other := by
  rw [writeRow, Tables.get_set, if_neg fun heq => ht heq.1, Tables.get_put]
  simp only [true_and]

theorem get_writeRow {t' : String} (ht' : t' ≠ encryptionVersionsTable) (k' : Bytes) :
    (writeRow s t k address version stored).get t' k' =
      if t = t' ∧ k = k' then stored else s.get t' k' := by
  rw [writeRow, Tables.get_set, Tables.get_put_of_ne fun heq => absurd heq.symm ht']

theorem versionRow_writeRow (ht : t ≠ encryptionVersionsTable)
    (haddress : encryptionVersionKey t k = .ok address) :
    VersionRow (writeRow s t k address version stored) t k version :=
  ⟨address, haddress, by rw [get_versions_writeRow ht, if_pos rfl]⟩

theorem VersionRow.writeRow_other {t' : String} {k' : Bytes} {version' : UInt64}
    (h : VersionRow s t' k' version') (ht : t ≠ encryptionVersionsTable)
    (haddress : encryptionVersionKey t k = .ok address) (hne : ¬ (t = t' ∧ k = k')) :
    VersionRow (writeRow s t k address version stored) t' k' version' := by
  obtain ⟨other, hother, hget⟩ := h
  refine ⟨other, hother, ?_⟩
  have hdiff : address ≠ other := by
    rintro rfl
    exact hne (encryptionVersionKey_inj haddress hother)
  rw [get_versions_writeRow ht, if_neg hdiff, hget]

/-- Writing a row and its version row keeps the store sealed. -/
theorem SealedStore.writeRow (h : SealedStore A provider s p) (ht : t ≠ encryptionVersionsTable)
    (haddress : encryptionVersionKey t k = .ok address) (value : Option Bytes)
    (hnone : stored = none → value = none)
    (hsome : ∀ bytes, stored = some bytes → ∃ plain key nonce ciphertext, value = some plain ∧
      bytes = sealedFrame key.id version nonce ciphertext ∧
      A.encrypt key.bytes nonce (aadForV3 t k key.id version) plain = .ok ciphertext ∧
      provider.cache key.id = some key) :
    SealedStore A provider (writeRow s t k address version stored) (p.set t k value) := by
  constructor
  · intro t' k' stored' ht' hget
    rw [get_writeRow ht'] at hget
    rw [Tables.get_set]
    split at hget
    · rename_i heq
      obtain ⟨rfl, rfl⟩ := heq
      obtain ⟨plain, key, nonce, ciphertext, hplain, hframe, hencrypted, hkey⟩ := hsome _ hget
      rw [if_pos ⟨rfl, rfl⟩]
      exact ⟨plain, key, version, nonce, ciphertext, hplain, hframe, hencrypted, hkey,
        versionRow_writeRow ht haddress⟩
    · rename_i hne
      obtain ⟨plain, key, version', nonce, ciphertext, hplain, hsealed⟩ :=
        h.row t' k' stored' ht' hget
      rw [if_neg hne]
      exact ⟨plain, key, version', nonce, ciphertext, hplain, hsealed.frame, hsealed.encrypted,
        hsealed.key_kept, hsealed.version_row.writeRow_other ht haddress hne⟩
  · intro t' k' ht' hget
    rw [get_writeRow ht'] at hget
    rw [Tables.get_set]
    split at hget
    · rename_i heq
      rw [if_pos heq, hnone hget]
    · rename_i hne
      rw [if_neg hne]
      exact h.absent t' k' ht' hget
  · intro other bytes hget
    rw [get_versions_writeRow ht] at hget
    split at hget
    · rename_i heq
      exact ⟨t, k, version, ht, heq ▸ haddress, (Option.some.inj hget).symm⟩
    · exact h.versions other bytes hget

end WriteRow

theorem encryptedPut_eq_ok {t : String} {k : Bytes} {nonce : Nonce}
    (ht : t ≠ encryptionVersionsTable) (h : encryptedPut A provider nonce s t k value = .ok s') :
    ∃ version key ciphertext address, nextEncryptionVersion s t k = .ok version ∧
      provider.currentKey A = .ok key ∧
      A.encrypt key.bytes nonce (aadForV3 t k key.id version) value = .ok ciphertext ∧
      encryptionVersionKey t k = .ok address ∧
      s' = writeRow s t k address version (some (sealedFrame key.id version nonce ciphertext)) := by
  simp only [encryptedPut, if_neg ht, bind_eq_ok_iff, pure_eq_ok_iff, encryptValue_eq_ok_iff] at h
  obtain ⟨version, hversion, key, hkey, _, ⟨ciphertext, hencrypted, rfl⟩, address, haddress, rfl⟩ :=
    h
  exact ⟨version, key, ciphertext, address, hversion, hkey, hencrypted, haddress, rfl⟩

theorem encryptedDelete_eq_ok {t : String} {k : Bytes}
    (ht : t ≠ encryptionVersionsTable) (h : encryptedDelete s t k = .ok s') :
    ∃ version address, nextEncryptionVersion s t k = .ok version ∧
      encryptionVersionKey t k = .ok address ∧ s' = writeRow s t k address version none := by
  simp only [encryptedDelete, if_neg ht, bind_eq_ok_iff, pure_eq_ok_iff] at h
  obtain ⟨version, hversion, address, haddress, rfl⟩ := h
  exact ⟨version, address, hversion, haddress, rfl⟩

theorem SealedStore.encryptedPut (h : SealedStore A provider s p) (hkeys : KeyringInv provider)
    {t : String} {k : Bytes} {nonce : Nonce} (ht : t ≠ encryptionVersionsTable)
    (hput : encryptedPut A provider nonce s t k value = .ok s') :
    SealedStore A provider s' (p.put t k value) := by
  obtain ⟨version, key, ciphertext, address, -, hkey, hencrypted, haddress, rfl⟩ :=
    encryptedPut_eq_ok ht hput
  obtain ⟨current, hcurrent, hcached, -⟩ := EnvelopeKeyProvider.currentKey_cached (A := A) hkeys
  cases hkey.symm.trans hcurrent
  refine h.writeRow ht haddress (some value) (by simp) fun bytes hbytes => ?_
  exact ⟨value, key, nonce, ciphertext, rfl, (Option.some.inj hbytes).symm, hencrypted, hcached⟩

theorem SealedStore.encryptedDelete (h : SealedStore A provider s p) {t : String} {k : Bytes}
    (ht : t ≠ encryptionVersionsTable) (hdelete : encryptedDelete s t k = .ok s') :
    SealedStore A provider s' (p.delete t k) := by
  obtain ⟨version, address, -, haddress, rfl⟩ := encryptedDelete_eq_ok ht hdelete
  exact h.writeRow ht haddress none (fun _ => rfl) (by simp)

/-! ## Reencryption -/

theorem storedKeyId_be64 (version keyId : UInt64) : storedKeyId (be64 version) ≠ .ok
    (some keyId) := by
  intro h
  simp only [storedKeyId, length_be64] at h
  split at h
  · rw [if_pos (by decide)] at h
    contradiction
  · split at h
    · simp at h
    · contradiction

theorem SealedStore.table_of_keyId (h : SealedStore A provider s p) {t : String} {k stored : Bytes}
    (hget : s.get t k = some stored) (hkey : storedKeyId stored = .ok (some keyId)) :
    t ≠ encryptionVersionsTable := by
  rintro rfl
  obtain ⟨t, k', version, -, -, rfl⟩ := h.versions k stored hget
  exact storedKeyId_be64 version keyId hkey

theorem put_same {t : String} {k : Bytes} (h : p.get t k = some value) :
    p.put t k value = p := by
  refine Tables.ext_get fun t' k' => ?_
  rw [Tables.get_put]
  split
  · rename_i heq
    obtain ⟨rfl, rfl⟩ := heq
    exact h.symm
  · rfl

theorem reencryptRow_cases
    (h : reencryptRow A provider currentKeyId nonce s row = .ok s') :
    s' = s ∨ ∃ stored keyId version plaintext, s.get row.1 row.2 = some stored ∧
      storedKeyId stored = .ok (some keyId) ∧
      encryptionVersionFrom s row.1 row.2 = .ok version ∧
      decryptValue A provider row.1 row.2 version stored = .ok plaintext ∧
      encryptedPut A provider (nonce row) s row.1 row.2 plaintext = .ok s' := by
  simp only [reencryptRow] at h
  cases hget : s.get row.1 row.2 with
  | none =>
    simp only [hget, pure_eq_ok_iff] at h
    exact Or.inl h.symm
  | some stored =>
    simp only [hget, bind_eq_ok_iff] at h
    obtain ⟨keyId, hkeyId, h⟩ := h
    cases keyId with
    | none => exact Or.inl (pure_eq_ok_iff.mp h).symm
    | some keyId =>
      simp only at h
      split at h
      · exact Or.inl (pure_eq_ok_iff.mp h).symm
      · obtain ⟨version, hversion, h⟩ := bind_eq_ok_iff.mp h
        obtain ⟨plaintext, hplaintext, hput⟩ := bind_eq_ok_iff.mp h
        exact Or.inr ⟨stored, keyId, version, plaintext, rfl, hkeyId, hversion, hplaintext, hput⟩

theorem SealedStore.reencryptRow (h : SealedStore A provider s p) (hkeys : KeyringInv provider)
    (hrow : reencryptRow A provider currentKeyId nonce s row = .ok s') :
    SealedStore A provider s' p := by
  obtain rfl | ⟨stored, keyId, version, plaintext, hget, hkeyId, hversion, hplaintext, hput⟩ :=
    reencryptRow_cases hrow
  · exact h
  · have ht := h.table_of_keyId hget hkeyId
    obtain ⟨value, key, version', nonce', ciphertext, hvalue, hsealed⟩ := h.row _ _ _ ht hget
    have hsame : plaintext = value := by
      rw [hsealed.version_row.encryptionVersionFrom ht] at hversion
      cases hversion
      rw [hsealed.decryptValue] at hplaintext
      exact (Except.ok.inj hplaintext).symm
    have hput' := h.encryptedPut hkeys ht hput
    rw [hsame, put_same hvalue] at hput'
    exact hput'

theorem SealedStore.reencryptBatch (h : SealedStore A provider s p) (hkeys : KeyringInv provider)
    {batch : List (String × Bytes)}
    (hbatch : reencryptBatch A provider nonce s batch = .ok s') : SealedStore A provider s' p := by
  obtain ⟨current, -, hrun⟩ := bind_eq_ok_iff.mp hbatch
  exact foldlM_induction (fun s => SealedStore A provider s p)
    (fun row _ s s' hs hrow => hs.reencryptRow hkeys hrow) hrun h

/-- What the scan of the version table finds at one of its rows. -/
def visitedRow (s : Store) (entry : Bytes × Bytes) : Option (String × Bytes × UInt64) :=
  match decodeEncryptionVersionKey entry.1 with
  | .error _ => none
  | .ok (table, rowKey) =>
    match (s.get table rowKey).map storedKeyId with
    | some (.ok (some keyId)) => some (table, rowKey, keyId)
    | _ => none

theorem visitVersionRow_eq {visited visited' : List (String × Bytes × UInt64)}
    {entry : Bytes × Bytes} (h : visitVersionRow s visited entry = .ok visited') :
    visited' = visited ++ (visitedRow s entry).toList := by
  simp only [visitVersionRow, bind_eq_ok_iff] at h
  obtain ⟨⟨table, rowKey⟩, haddress, h⟩ := h
  simp only [visitedRow, haddress]
  cases hget : s.get table rowKey with
  | none =>
    simp only [hget, pure_eq_ok_iff] at h
    simp [h]
  | some stored =>
    simp only [hget, bind_eq_ok_iff] at h
    obtain ⟨keyId, hkeyId, h⟩ := h
    cases keyId with
    | none => simp [pure_eq_ok_iff.mp h, hkeyId]
    | some keyId => simp [← pure_eq_ok_iff.mp h, hkeyId]

theorem SealedStore.mem_visitStoredKeyIds (h : SealedStore A provider s p)
    {rows : List (String × Bytes × UInt64)} (hrows : visitStoredKeyIds s = .ok rows) {t : String}
    {k stored : Bytes} (hget : s.get t k = some stored)
    (hkeyId : storedKeyId stored = .ok (some keyId)) : (t, k, keyId) ∈ rows := by
  have hrows' := foldlM_collect (fun rows => rows) (visitedRow s) hrows
    fun entry _ visited visited' hstep => visitVersionRow_eq hstep
  rw [hrows', List.nil_append, List.mem_filterMap]
  obtain ⟨value, key, version, nonce, ciphertext, -, hsealed⟩ :=
    h.row t k stored (h.table_of_keyId hget hkeyId) hget
  obtain ⟨address, haddress, hversion⟩ := hsealed.version_row
  refine ⟨(address, be64 version), mem_range.mpr ⟨hversion, by simp⟩, ?_⟩
  simp [visitedRow, decodeEncryptionVersionKey_of_key haddress, hget, hkeyId]

theorem SealedStore.unused_of_destroyDek (h : SealedStore A provider s p)
    (hdestroy : engineDestroyDek A provider s keyId = .ok provider') :
    provider.destroyDek keyId = .ok provider' ∧ ∀ t k stored, s.get t k = some stored →
      storedKeyId stored ≠ .ok (some keyId) := by
  simp only [engineDestroyDek, bind_eq_ok_iff] at hdestroy
  obtain ⟨current, -, hdestroy⟩ := hdestroy
  split at hdestroy
  · contradiction
  · obtain ⟨inUse, husage, hdestroy⟩ := bind_eq_ok_iff.mp hdestroy
    split at hdestroy
    · contradiction
    · rename_i hzero
      refine ⟨hdestroy, fun t k stored hget hkeyId => ?_⟩
      obtain ⟨rows, hrows, hcount⟩ := bind_eq_ok_iff.mp husage
      have hmem := h.mem_visitStoredKeyIds hrows hget hkeyId
      have hpos : 0 < rows.countP fun row => row.2.2 = keyId :=
        List.countP_pos_iff.mpr ⟨_, hmem, by simp⟩
      have := pure_eq_ok_iff.mp hcount
      omega

theorem SealedStore.destroyDek (h : SealedStore A provider s p) (hkeys : KeyringInv provider)
    (hdestroy : engineDestroyDek A provider s keyId = .ok provider') :
    SealedStore A provider' s p := by
  obtain ⟨hdestroy, hunused⟩ := h.unused_of_destroyDek hdestroy
  obtain ⟨-, -, hkept⟩ := EnvelopeKeyProvider.destroyDek_spec hkeys hdestroy
  refine h.of_keys fun t k stored id key hget _ hkeyId hcache => hkept id key ?_ hcache
  rintro rfl
  exact hunused t k stored hget hkeyId

end MultiDb
