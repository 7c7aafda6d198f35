import MultiDb.Verification.Storage.EncryptedRuns

/-!
# Rotations and legacy frames

A version-3 frame names its key, so a rotation leaves it readable.  Older frames are opened
with the current key, whichever it is.
-/

namespace MultiDb

open Shared

variable {A : Aead} {provider provider' : EnvelopeKeyProvider} {s : Store} {t : String}
  {k stored value : Bytes}

/-- A frame of one of the two formats before the present one. -/
def IsLegacy (stored : Bytes) : Prop :=
  stored.take magicV3.length = magicV2 ∨ stored.take magicV3.length = magicV1

def CachesOwnKeys (provider : EnvelopeKeyProvider) : Prop :=
  ∀ id key, provider.cache id = some key → id ∈ provider.ids

/-- Calls of `rotate_dek`, with what they draw; a call that fails changes nothing. -/
def rotateDeks (A : Aead) : EnvelopeKeyProvider → List (Bytes × Nonce) → EnvelopeKeyProvider
  | provider, [] => provider
  | provider, (key, nonce) :: rotations =>
    match provider.rotateDek A key nonce with
    | .ok (_, provider) => rotateDeks A provider rotations
    | .error _ => rotateDeks A provider rotations

/-- The key that the last call to succeed has drawn. -/
def lastDrawn (A : Aead) : EnvelopeKeyProvider → List (Bytes × Nonce) → Option Bytes
  | _, [] => none
  | provider, (key, nonce) :: rotations =>
    match provider.rotateDek A key nonce with
    | .ok (_, provider) => some ((lastDrawn A provider rotations).getD key)
    | .error _ => lastDrawn A provider rotations

/-- Every key the first provider finds, the second finds too. -/
def FindsKeys (A : Aead) (provider provider' : EnvelopeKeyProvider) : Prop :=
  ∀ id key, provider.keyById A id = .ok key → provider'.keyById A id = .ok key

theorem EnvelopeKeyProvider.rotateDek_finds (h : CachesOwnKeys provider) {key : Bytes}
    {nonce : Nonce} {id : UInt64} (hrotate : provider.rotateDek A key nonce = .ok (id, provider')) :
    CachesOwnKeys provider' ∧ FindsKeys A provider provider' ∧
      provider'.currentKey A = .ok { id, bytes := key } := by
  simp only [rotateDek] at hrotate
  split at hrotate
  case isFalse => contradiction
  rename_i hroom
  simp only [bind_eq_ok_iff, pure_eq_ok_iff, Prod.mk.injEq] at hrotate
  obtain ⟨_, -, wrapped, hwrap, rfl, rfl⟩ := hrotate
  have hnew : ∀ old ∈ provider.ids, old ≠ (provider.keyring.keys.map (·.keyId)).max?.getD 0 + 1 :=
    fun old hold => ne_of_lt (lt_of_mem_of_max _ hold hroom)
  generalize (provider.keyring.keys.map (·.keyId)).max?.getD 0 + 1 = next at *
  refine ⟨fun id key hkey => ?_, fun id key hkey => ?_, keyById_of_cache (by simp [cacheKey])⟩
  · simp only [cacheKey] at hkey
    simp only [ids, cacheKey, List.map_append, List.mem_append, List.map_cons, List.mem_cons,
      (wrapDek_eq_ok hwrap).1]
    split at hkey
    · rename_i heq
      exact Or.inr (Or.inl heq)
    · exact Or.inl (h id key hkey)
  · rw [keyById] at hkey
    cases hcache : provider.cache id with
    | some cached =>
      have hid := hnew id (h id cached hcache)
      rw [hcache] at hkey
      refine (keyById_of_cache ?_).trans hkey
      simp [cacheKey, hid, hcache]
    | none =>
      rw [hcache] at hkey
      cases hfind : provider.keyring.keys.find? fun key => key.keyId = id && !key.deleted with
      | none => simp [hfind] at hkey
      | some entry =>
        have hentry := List.find?_some hfind
        simp only [Bool.and_eq_true, decide_eq_true_eq] at hentry
        have hid := hnew id (List.mem_map.mpr ⟨entry, List.mem_of_find?_eq_some hfind, hentry.1⟩)
        simp only [hfind] at hkey
        simp only [keyById, cacheKey, if_neg hid, hcache, List.find?_append, hfind, Option.some_or]
        exact hkey

/-- Rotations lose no key, and the last one drawn is current. -/
theorem rotateDeks_spec (h : CachesOwnKeys provider) (rotations : List (Bytes × Nonce)) :
    FindsKeys A provider (rotateDeks A provider rotations) ∧
      (lastDrawn A provider rotations = none → rotateDeks A provider rotations = provider) ∧
      ∀ drawn, lastDrawn A provider rotations = some drawn →
        ∃ id, (rotateDeks A provider rotations).currentKey A = .ok { id, bytes := drawn } := by
  induction rotations generalizing provider with
  | nil => exact ⟨fun _ _ hkey => hkey, fun _ => rfl, by simp [lastDrawn]⟩
  | cons rotation rotations ih =>
    obtain ⟨key, nonce⟩ := rotation
    cases hrotate : provider.rotateDek A key nonce with
    | error e => simpa only [rotateDeks, lastDrawn, hrotate] using ih h
    | ok result =>
      obtain ⟨id, next⟩ := result
      obtain ⟨hown, hfinds, hcurrent⟩ := EnvelopeKeyProvider.rotateDek_finds h hrotate
      obtain ⟨hrest, hsame, hlast⟩ := ih hown
      simp only [rotateDeks, lastDrawn, hrotate]
      refine ⟨fun id key hkey => hrest id key (hfinds id key hkey), by simp, ?_⟩
      rintro drawn hdrawn
      cases hdrawn
      cases hrun : lastDrawn A next rotations with
      | none =>
        rw [hsame hrun]
        exact ⟨id, hcurrent⟩
      | some drawn => exact hlast drawn hrun

theorem encryptedFormat_get_eq_some_iff :
    (encryptedFormat A provider s).get s t k = .ok (some value) ↔ ∃ stored version,
      s.get t k = some stored ∧ encryptionVersionFrom s t k = .ok version ∧
        decryptValue A provider t k version stored = .ok value := by
  rw [StoredFormat.get]
  cases s.get t k with
  | none => simp
  | some stored => simp [encryptedFormat, map_eq_ok_iff, bind_eq_ok_iff]

theorem decryptValueV3_of_findsKeys (h : FindsKeys A provider provider') {version : Option UInt64}
    (hread : decryptValueV3 A provider t k version stored = .ok value) :
    decryptValueV3 A provider' t k version stored = .ok value := by
  simp only [decryptValueV3] at hread ⊢
  split at hread
  · contradiction
  rename_i hlength
  rw [if_neg hlength]
  split at hread
  · contradiction
  rename_i halgorithm
  rw [if_neg halgorithm]
  obtain ⟨keyId, hkeyId, hread⟩ := bind_eq_ok_iff.mp hread
  obtain ⟨version', hversion, hread⟩ := bind_eq_ok_iff.mp hread
  refine bind_eq_ok_iff.mpr ⟨keyId, hkeyId, bind_eq_ok_iff.mpr ⟨version', hversion, ?_⟩⟩
  split at hread
  · contradiction
  rename_i hexpected
  obtain ⟨key, hkey, hread⟩ := bind_eq_ok_iff.mp hread
  rw [if_neg hexpected]
  exact bind_eq_ok_iff.mpr ⟨key, h keyId key hkey, hread⟩

theorem decryptValueV1V2_eq_ok_iff {key : ProtectedKey} :
    decryptValueV1V2 A key t k stored = .ok value ↔
      ¬ stored.length < magicV2.length + nonceLenV1V2 ∧
      A.legacyDecrypt key.bytes ((stored.drop magicV2.length).take nonceLenV1V2) (aadForV1V2 t k)
        (stored.drop (magicV2.length + nonceLenV1V2)) = some value := by
  simp only [decryptValueV1V2]
  split
  · simp [*]
  · split <;> simp [*]

theorem decryptValue_legacy_iff (h : IsLegacy stored) {version : Option UInt64} :
    decryptValue A provider t k version stored = .ok value ↔
      ¬ stored.length < magicV3.length + nonceLenV1V2 ∧ ∃ key, provider.currentKey A = .ok key ∧
        decryptValueV1V2 A key t k stored = .ok value := by
  have hv3 : stored.take magicV3.length ≠ magicV3 := by
    rcases h with h | h
    all_goals rw [h]; decide
  rw [decryptValue]
  split
  · simp [*]
  · simp only [if_neg hv3]
    rw [IsLegacy] at h
    rw [if_pos h, bind_eq_ok_iff]
    simp [*]

theorem decryptValue_of_findsKeys (h : FindsKeys A provider provider') (hlegacy : ¬ IsLegacy stored)
    {version : Option UInt64} (hread : decryptValue A provider t k version stored = .ok value) :
    decryptValue A provider' t k version stored = .ok value := by
  simp only [decryptValue] at hread ⊢
  split at hread
  · contradiction
  rename_i hlength
  rw [if_neg hlength]
  split at hread
  · rename_i hheader
    rw [if_pos hheader]
    exact decryptValueV3_of_findsKeys h hread
  · rw [IsLegacy] at hlegacy
    rw [if_neg hlegacy] at hread
    contradiction

/-! ## Rotations and values -/

/-- Every value that reads under the first provider reads as the same value under the second. -/
def KeepsValues (A : Aead) (provider provider' : EnvelopeKeyProvider) (s : Store) : Prop :=
  ∀ t k value, (encryptedFormat A provider s).get s t k = .ok (some value) →
    (encryptedFormat A provider' s).get s t k = .ok (some value)

/-- If a legacy value was readable, the last key drawn is the one that was current before. -/
def LegacyKeyKept (A : Aead) (provider : EnvelopeKeyProvider) (s : Store)
    (rotations : List (Bytes × Nonce)) : Prop :=
  ∀ t k stored value drawn, s.get t k = some stored → IsLegacy stored →
    (encryptedFormat A provider s).get s t k = .ok (some value) →
    lastDrawn A provider rotations = some drawn →
    ∃ key, provider.currentKey A = .ok key ∧ drawn = key.bytes

/-- No legacy frame of the store that opens under the key before the calls also opens under the
last key drawn, unless the two are one key. -/
def OpensUnderOneKey (A : Aead) (provider : EnvelopeKeyProvider) (s : Store)
    (rotations : List (Bytes × Nonce)) : Prop :=
  ∀ t k stored key drawn value value', s.get t k = some stored → IsLegacy stored →
    provider.currentKey A = .ok key → lastDrawn A provider rotations = some drawn.bytes →
    decryptValueV1V2 A key t k stored = .ok value →
    decryptValueV1V2 A drawn t k stored = .ok value' → drawn.bytes = key.bytes

/-- Rotations keep all values readable if no legacy value was readable or the last key is the one
before them; and only then, unless two keys open one frame. -/
theorem rotations_keep_values_iff (A : Aead) {provider : EnvelopeKeyProvider}
    (hown : CachesOwnKeys provider) (s : Store) (rotations : List (Bytes × Nonce)) :
    (LegacyKeyKept A provider s rotations →
      KeepsValues A provider (rotateDeks A provider rotations) s) ∧
    (OpensUnderOneKey A provider s rotations →
      KeepsValues A provider (rotateDeks A provider rotations) s →
        LegacyKeyKept A provider s rotations) := by
  obtain ⟨hfinds, hsame, hlast⟩ := rotateDeks_spec (A := A) hown rotations
  simp only [KeepsValues, LegacyKeyKept, encryptedFormat_get_eq_some_iff]
  constructor
  · rintro hcondition t k value ⟨stored, version, hget, hversion, hread⟩
    refine ⟨stored, version, hget, hversion, ?_⟩
    by_cases hlegacy : IsLegacy stored
    · obtain ⟨hlength, key, hkey, hopen⟩ := (decryptValue_legacy_iff hlegacy).mp hread
      cases hdrawn : lastDrawn A provider rotations with
      | none =>
        rw [hsame hdrawn]
        exact hread
      | some drawn =>
        obtain ⟨key', hkey', rfl⟩ := hcondition t k stored value drawn hget hlegacy
          ⟨stored, version, hget, hversion, hread⟩ hdrawn
        cases hkey.symm.trans hkey'
        obtain ⟨id, hcurrent⟩ := hlast _ hdrawn
        refine (decryptValue_legacy_iff hlegacy).mpr ⟨hlength, _, hcurrent, ?_⟩
        exact decryptValueV1V2_eq_ok_iff.mpr (decryptValueV1V2_eq_ok_iff.mp hopen)
    · exact decryptValue_of_findsKeys hfinds hlegacy hread
  · rintro hone hkeeps t k stored value drawn hstored hlegacy hread hdrawn
    obtain ⟨stored', version, hget, hversion, hread⟩ := hread
    cases hstored.symm.trans hget
    obtain ⟨stored', version', hget', -, hread'⟩ :=
      hkeeps t k value ⟨stored, version, hget, hversion, hread⟩
    cases hget.symm.trans hget'
    obtain ⟨-, key, hkey, hopen⟩ := (decryptValue_legacy_iff hlegacy).mp hread
    obtain ⟨-, key', hkey', hopen'⟩ := (decryptValue_legacy_iff hlegacy).mp hread'
    obtain ⟨id, hcurrent⟩ := hlast drawn hdrawn
    cases hcurrent.symm.trans hkey'
    exact ⟨key, hkey, hone t k stored key _ value value hget hlegacy hkey hdrawn hopen hopen'⟩

/-- The open cipher, with legacy ciphertexts that start with their key. -/
def legacyCipher : Aead :=
  { openCipher with
    legacyDecrypt := fun key _ _ ciphertext =>
      match ciphertext with
      | [] => none
      | tag :: message => if key = [tag] then some message else none }

/-- A version-2 value under the key of the sample keyring. -/
def legacyStore : Store :=
  Tables.empty.put "docs" [1] (magicV2 ++ List.replicate 12 0 ++ [9, 5])

/-- The version-2 value beside a version-3 one. -/
def mixedStore : Store :=
  match encryptedPut legacyCipher sampleProvider zeroNonce legacyStore "docs" [2] [6] with
  | .ok s => s
  | .error _ => legacyStore

theorem cachesOwnKeys_sample : CachesOwnKeys sampleProvider := by
  intro id key hkey
  have hid : id = 1 := by
    by_contra hne
    have hnone : sampleProvider.cache id = none := if_neg hne
    rw [hnone] at hkey
    contradiction
  rw [hid]
  decide

/-- Frames of `legacyCipher` open under one key. -/
theorem opensUnderOneKey_legacyCipher (provider : EnvelopeKeyProvider) (s : Store)
    (rotations : List (Bytes × Nonce)) : OpensUnderOneKey legacyCipher provider s rotations := by
  intro t k stored key drawn value value' _ _ _ _ hopen hopen'
  have h := (decryptValueV1V2_eq_ok_iff.mp hopen).2
  have h' := (decryptValueV1V2_eq_ok_iff.mp hopen').2
  cases hframe : stored.drop (magicV2.length + nonceLenV1V2) with
  | nil =>
    rw [hframe] at h
    contradiction
  | cons tag rest =>
    simp only [hframe, legacyCipher, Option.ite_none_right_eq_some] at h h'
    rw [h.1, h'.1]

/-- Two rotations that end with the bytes of the first key keep both values; one that draws another
key does not. -/
theorem rotations_keep_values_iff_sample :
    (let provider := rotateDeks legacyCipher sampleProvider [([8], zeroNonce), ([9], zeroNonce)]
    (encryptedFormat legacyCipher provider mixedStore).get mixedStore "docs" [1] = .ok (some [5]) ∧
      (encryptedFormat legacyCipher provider mixedStore).get mixedStore "docs" [2] =
        .ok (some [6])) ∧
    ¬ KeepsValues legacyCipher sampleProvider
      (rotateDeks legacyCipher sampleProvider [([8], zeroNonce)]) mixedStore := by
  have hboth := (rotations_keep_values_iff legacyCipher cachesOwnKeys_sample mixedStore
    [([8], zeroNonce), ([9], zeroNonce)]).1 ?_
  · refine ⟨⟨hboth _ _ _ (by decide +kernel), hboth _ _ _ (by decide +kernel)⟩, fun hkeeps => ?_⟩
    obtain ⟨key, hkey, hdrawn⟩ := (rotations_keep_values_iff legacyCipher cachesOwnKeys_sample
      mixedStore [([8], zeroNonce)]).2 (opensUnderOneKey_legacyCipher _ _ _) hkeeps "docs" [1]
      (magicV2 ++ List.replicate 12 0 ++ [9, 5]) [5] [8] (by decide +kernel) (Or.inl (by decide))
      (by decide +kernel) (by decide +kernel)
    cases (show sampleProvider.currentKey legacyCipher = .ok { id := 1, bytes := [9] } by
      decide +kernel).symm.trans hkey
    contradiction
  · intro t k stored value drawn _ _ _ hdrawn
    have hlast : lastDrawn legacyCipher sampleProvider [([8], zeroNonce), ([9], zeroNonce)] =
        some [9] := by
      decide +kernel
    cases hlast.symm.trans hdrawn
    exact ⟨{ id := 1, bytes := [9] }, by decide +kernel, rfl⟩

/-- One rotation makes the value unreadable. -/
theorem legacy_value_lost :
    (encryptedFormat legacyCipher sampleProvider legacyStore).get legacyStore "docs" [1] =
      .ok (some [5]) ∧
    (encryptedFormat legacyCipher (rotateDeks legacyCipher sampleProvider [([8], zeroNonce)])
      legacyStore).get legacyStore "docs" [1] =
        .error (.corruption "encrypted value authentication failed") := by
  decide +kernel

end MultiDb
