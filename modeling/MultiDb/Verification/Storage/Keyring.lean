import MultiDb.Model.Encrypted

/-!
# The envelope keyring

Key ids grow with every rotation, and the cache holds exactly the keys that are live.
-/

namespace MultiDb

open Shared
variable {id keyId : UInt64} {key : ProtectedKey} {kek : Result ProtectedKey}
  {wrapped : WrappedDataKey}

namespace EnvelopeKeyProvider

def ids (provider : EnvelopeKeyProvider) : List UInt64 :=
  provider.keyring.keys.map (·.keyId)

end EnvelopeKeyProvider

/-- The keyring is sorted, and the cache holds its live keys. -/
structure KeyringInv (provider : EnvelopeKeyProvider) : Prop where
  sorted : provider.ids.Pairwise (· < ·)
  cached : ∀ id, provider.isLive id = true ↔ (provider.cache id).isSome = true
  cache_id : ∀ id key, provider.cache id = some key → key.id = id
  current : provider.isLive provider.keyring.currentKeyId = true

/-- The keys of one provider are keys of the other. -/
def KeepsKeys (provider provider' : EnvelopeKeyProvider) : Prop :=
  ∀ id key, provider.cache id = some key → provider'.cache id = some key

namespace EnvelopeKeyProvider

variable {A : Aead} {provider provider' : EnvelopeKeyProvider}

theorem isLive_eq_true_iff :
    provider.isLive id = true ↔ ∃ key ∈ provider.keyring.keys, key.keyId = id ∧
    key.deleted = false := by
  simp [isLive]

theorem keyById_of_cache (h : provider.cache id = some key) :
    provider.keyById A id = .ok key := by
  simp only [keyById, h]
  rfl

theorem cache_of_keyById (h : KeyringInv provider)
    (hkey : provider.keyById A id = .ok key) : provider.cache id = some key := by
  rw [keyById] at hkey
  cases hcache : provider.cache id with
  | some cached =>
    rw [hcache] at hkey
    exact congrArg some (Except.ok.inj hkey)
  | none =>
    -- a key outside the cache has been destroyed or never was
    have hdead : provider.isLive id ≠ true := by simp [h.cached, hcache]
    have hfind : provider.keyring.keys.find? (fun key => key.keyId = id && !key.deleted) =
      none := by
      simpa [isLive] using hdead
    simp [hcache, hfind] at hkey

theorem currentKey_cached (h : KeyringInv provider) :
    ∃ key, provider.currentKey A = .ok key ∧ provider.cache key.id = some key ∧
      key.id = provider.keyring.currentKeyId := by
  obtain ⟨key, hkey⟩ := Option.isSome_iff_exists.mp ((h.cached _).mp h.current)
  have hid := h.cache_id _ _ hkey
  exact ⟨key, keyById_of_cache hkey, by rw [hid, hkey], hid⟩

theorem wrapDek_eq_ok {kek dek : ProtectedKey} {nonce : Nonce}
    (h : wrapDek A kek dek nonce = .ok wrapped) : wrapped.keyId = dek.id ∧
    wrapped.deleted = false := by
  obtain ⟨ciphertext, -, h⟩ := bind_eq_ok_iff.mp h
  obtain rfl := pure_eq_ok_iff.mp h
  exact ⟨rfl, rfl⟩

theorem keyringInv_create {key : Bytes} {nonce : Nonce}
    (h : create A kek key nonce = .ok provider) : KeyringInv provider ∧ provider.ids = [1] := by
  simp only [create, bind_eq_ok_iff, pure_eq_ok_iff] at h
  obtain ⟨_, -, wrapped, hwrap, rfl⟩ := h
  obtain ⟨hid, hlive⟩ := wrapDek_eq_ok hwrap
  refine ⟨⟨?_, ?_, ?_, ?_⟩, ?_⟩
  · simp [ids, cacheKey]
  · intro id
    by_cases h1 : id = 1
    · simp [isLive, cacheKey, hid, hlive, h1]
    · simp [isLive, cacheKey, hid, h1, Ne.symm h1]
  · intro id key hkey
    simp only [cacheKey] at hkey
    split at hkey
    · rename_i heq
      rw [← Option.some.inj hkey, heq]
    · contradiction
  · simp [isLive, cacheKey, hid, hlive]
  · simp [ids, cacheKey, hid]

theorem lt_of_mem_of_max (l : List UInt64) (hid : id ∈ l)
    (hroom : (l.max?.getD 0).toNat + 1 < 2 ^ 64) : id < l.max?.getD 0 + 1 := by
  have hle : id ≤ l.max?.getD 0 := by
    cases hmax : l.max? with
    | none => simp [List.max?_eq_none_iff.mp hmax] at hid
    | some m => exact (List.max?_eq_some_iff.mp hmax).2 id hid
  rw [UInt64.lt_iff_toNat_lt, UInt64.toNat_add]
  rw [UInt64.le_iff_toNat_le] at hle
  have hone : (1 : UInt64).toNat = 1 := rfl
  rw [hone, Nat.mod_eq_of_lt hroom]
  omega

/-! ## Rotations -/

/-- A rotation adds a new key and keeps the old ones. -/
theorem rotateDek_spec (h : KeyringInv provider) {key : Bytes} {nonce : Nonce}
    (hrotate : provider.rotateDek A key nonce = .ok (id, provider')) :
    KeyringInv provider' ∧ KeepsKeys provider provider' ∧ provider'.ids = provider.ids ++ [id] ∧
      id ∉ provider.ids := by
  simp only [rotateDek] at hrotate
  split at hrotate
  case isFalse => contradiction
  rename_i hroom
  simp only [bind_eq_ok_iff, pure_eq_ok_iff, Prod.mk.injEq] at hrotate
  obtain ⟨_, -, wrapped, hwrap, rfl, rfl⟩ := hrotate
  obtain ⟨hid, hlive⟩ := wrapDek_eq_ok hwrap
  have hlt : ∀ old ∈ provider.ids, old < ((provider.keyring.keys.map (·.keyId)).max?).getD 0 + 1 :=
    fun old hold => lt_of_mem_of_max _ hold hroom
  generalize ((provider.keyring.keys.map (·.keyId)).max?).getD 0 + 1 = next at *
  have hnew : next ∉ provider.ids := fun hmem => lt_irrefl _ (hlt _ hmem)
  have hother : ∀ {id key}, provider.cache id = some key → id ≠ next := by
    rintro id key hcache rfl
    obtain ⟨old, hmem, hold, -⟩ := isLive_eq_true_iff.mp ((h.cached id).mpr (by simp [hcache]))
    exact hnew (List.mem_map.mpr ⟨old, hmem, hold⟩)
  refine ⟨⟨?_, ?_, ?_, ?_⟩, ?_, ?_, hnew⟩
  · simp only [ids, cacheKey, List.map_append, List.map_cons, List.map_nil, hid]
    rw [List.pairwise_append]
    refine ⟨h.sorted, by simp, ?_⟩
    intro old hold new hnew'
    obtain rfl := List.mem_singleton.mp hnew'
    exact hlt old hold
  · intro id
    have hold := h.cached id
    by_cases heq : id = next
    · simp [isLive, cacheKey, hid, hlive, heq]
    · simpa [isLive, cacheKey, hid, heq, Ne.symm heq] using hold
  · intro id key hkey
    simp only [cacheKey] at hkey
    split at hkey
    · rename_i heq
      rw [← Option.some.inj hkey, heq]
    · exact h.cache_id id key hkey
  · simp [isLive, cacheKey, hid, hlive]
  · intro id key hkey
    simp only [cacheKey, if_neg (hother hkey)]
    exact hkey
  · simp [ids, cacheKey, hid]

theorem rewrapDek_spec {old new : ProtectedKey} {nonce : UInt64 → Nonce}
    {rewrapped : WrappedDataKey} (h : rewrapDek A old new nonce wrapped = .ok rewrapped) :
    rewrapped.keyId = wrapped.keyId ∧ rewrapped.deleted = wrapped.deleted := by
  simp only [rewrapDek] at h
  split at h
  · obtain rfl := pure_eq_ok_iff.mp h
    exact ⟨rfl, rfl⟩
  · rename_i hlive
    obtain ⟨key, hunwrap, hwrap⟩ := bind_eq_ok_iff.mp h
    obtain ⟨hid, hdeleted⟩ := wrapDek_eq_ok hwrap
    have hkey : key.id = wrapped.keyId := by
      simp only [unwrapDek] at hunwrap
      split at hunwrap
      · contradiction
      · split at hunwrap
        · contradiction
        · split at hunwrap
          · contradiction
          · obtain ⟨bytes, -, h⟩ := bind_eq_ok_iff.mp hunwrap
            rw [← pure_eq_ok_iff.mp h]
    exact ⟨hid.trans hkey, by simpa [hdeleted] using hlive⟩

theorem isLive_of_entries {keys keys' : List WrappedDataKey}
    (h : keys'.map (fun key => (key.keyId, key.deleted)) = keys.map fun key =>
    (key.keyId, key.deleted))
    (id : UInt64) : keys'.any (fun key => key.keyId = id && !key.deleted) =
      keys.any fun key => key.keyId = id && !key.deleted := by
  have hany : ∀ l : List WrappedDataKey, l.any (fun key => key.keyId = id && !key.deleted) =
      (l.map fun key => (key.keyId, key.deleted)).any fun entry => entry.1 = id && !entry.2 := by
    intro l
    rw [List.any_map]
    rfl
  rw [hany, hany, h]

/-- A new key-encryption key loses no data key. -/
theorem rotateKekWith_spec (h : KeyringInv provider)
    {nonce : UInt64 → Nonce} (hrotate : provider.rotateKekWith A kek nonce = .ok provider') :
    KeyringInv provider' ∧ KeepsKeys provider provider' ∧ provider'.ids = provider.ids := by
  simp only [rotateKekWith, bind_eq_ok_iff, pure_eq_ok_iff] at hrotate
  obtain ⟨old, -, new, -, keys, hkeys, rfl⟩ := hrotate
  have hentries : keys.map (fun key => (key.keyId, key.deleted)) =
      provider.keyring.keys.map fun key => (key.keyId, key.deleted) := by
    have hmap := mapM_eq_ok_iff.mp hkeys
    clear hkeys h
    generalize provider.keyring.keys = entries at *
    induction entries generalizing keys with
    | nil =>
      cases keys with
      | nil => rfl
      | cons key keys => simp at hmap
    | cons entry entries ih =>
      cases keys with
      | nil => simp at hmap
      | cons key keys =>
        obtain ⟨hkey, hrest⟩ := List.cons.inj hmap
        obtain ⟨hid, hdeleted⟩ := rewrapDek_spec hkey
        rw [List.map_cons, List.map_cons, hid, hdeleted, ih keys hrest]
  have hids : keys.map (·.keyId) = provider.keyring.keys.map (·.keyId) := by
    have := congrArg (List.map Prod.fst) hentries
    rw [List.map_map, List.map_map] at this
    exact this
  refine ⟨⟨?_, ?_, h.cache_id, ?_⟩, fun id key hkey => hkey, hids⟩
  · rw [ids, hids]
    exact h.sorted
  · intro id
    rw [isLive, isLive_of_entries hentries]
    exact h.cached id
  · rw [isLive, isLive_of_entries hentries]
    exact h.current

/-- Destroying a key leaves the others as they were. -/
theorem destroyDek_spec (h : KeyringInv provider)
    (hdestroy : provider.destroyDek keyId = .ok provider') :
    KeyringInv provider' ∧ provider'.ids = provider.ids ∧
      ∀ id key, id ≠ keyId → provider.cache id = some key → provider'.cache id = some key := by
  rw [destroyDek] at hdestroy
  split at hdestroy
  · contradiction
  split at hdestroy
  · cases hdestroy
    exact ⟨h, rfl, fun id key _ hkey => hkey⟩
  split at hdestroy
  · contradiction
  rename_i hcurrent
  split at hdestroy
  · contradiction
  cases hdestroy
  have hids : (provider.keyring.keys.map fun key =>
      if key.keyId = keyId then { key with deleted := true, ciphertext := [], nonce := [] }
      else key).map (·.keyId) = provider.keyring.keys.map (·.keyId) := by
    rw [List.map_map]
    refine List.map_congr_left fun key _ => ?_
    simp only [Function.comp]
    split <;> rfl
  have hlive : ∀ id, (provider.keyring.keys.map fun key =>
      if key.keyId = keyId then { key with deleted := true, ciphertext := [], nonce := [] }
      else key).any (fun key => key.keyId = id && !key.deleted) =
        (id ≠ keyId && provider.isLive id) := by
    intro id
    rw [List.any_map, isLive]
    by_cases hid : id = keyId
    · subst hid
      rw [decide_eq_false (by simp), Bool.false_and, List.any_eq_false]
      intro key _
      by_cases hkey : key.keyId = id <;> simp [Function.comp, hkey]
    · rw [decide_eq_true hid, Bool.true_and]
      refine List.any_congr rfl fun key => ?_
      simp only [Function.comp]
      split
      · rename_i hkey
        simp [hkey, Ne.symm hid]
      · rfl
  refine ⟨⟨?_, ?_, ?_, ?_⟩, hids, ?_⟩
  · rw [ids, hids]
    exact h.sorted
  · intro id
    rw [isLive, hlive]
    by_cases hid : id = keyId
    · simp [hid]
    · simpa [hid] using h.cached id
  · intro id key hkey
    simp only at hkey
    split at hkey
    · contradiction
    · exact h.cache_id id key hkey
  · rw [isLive, hlive]
    simp [hcurrent, h.current]
  · intro id key hne hkey
    simp only [if_neg hne]
    exact hkey

theorem loadKey_eq (h : KeyringInv provider)
    (hload : provider.loadKey A keyId = .ok provider') : provider' = provider := by
  obtain ⟨key, hkey, heq⟩ := bind_eq_ok_iff.mp hload
  obtain rfl := pure_eq_ok_iff.mp heq
  have hcache := cache_of_keyById h hkey
  have hid := h.cache_id _ _ hcache
  rw [cacheKey]
  congr 1
  funext id
  split
  · rename_i heq
    rw [heq, hid, hcache]
  · rfl

end EnvelopeKeyProvider

end MultiDb
