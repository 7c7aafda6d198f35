import MultiDb.Model.BackupGc

/-!
# Backup garbage collection keeps chains

The retained ids are closed under parents.
-/

namespace MultiDb

open Shared

variable {J : Json BackupManifest} {store : ObjectStore} {manifests : List BackupManifest}
variable {manifest : BackupManifest} {id : String} {bytes : Bytes} {kept : List BackupManifest}

/-- Every backup is stored below its own id, as the uploads store it. -/
def StoredById (J : Json BackupManifest) (store : ObjectStore) : Prop :=
  ∀ id bytes manifest, store.get id manifestPath = some bytes →
    J.fromSlice bytes = .ok manifest → manifest.backupId = id

theorem mem_sortByTakenAt :
    manifest ∈ sortByTakenAt manifests ↔ manifest ∈ manifests :=
  (List.perm_insertionSort _ manifests).mem_iff

theorem mem_directories {path : String} (h : store.get id path = some bytes) :
    id ∈ (store.entries.map fun object => object.1.1).dedup := by
  rw [List.mem_dedup, List.mem_map]
  exact ⟨((id, path), bytes), Tables.mem_entries.mpr h, rfl⟩

theorem mem_manifestFiles :
    bytes ∈ (store.entries.map fun object => object.1.1).dedup.filterMap
      (fun id => store.get id manifestPath) ↔ ∃ id, store.get id manifestPath = some bytes := by
  rw [List.mem_filterMap]
  constructor
  · rintro ⟨id, -, hbytes⟩
    exact ⟨id, hbytes⟩
  · rintro ⟨id, hbytes⟩
    exact ⟨id, mem_directories hbytes, hbytes⟩

theorem mem_readBackupManifests (h : readBackupManifests J store = .ok manifests) : manifest ∈ manifests ↔
      ∃ id bytes, store.get id manifestPath = some bytes ∧ J.fromSlice bytes = .ok manifest := by
  simp only [readBackupManifests, bind_eq_ok_iff, pure_eq_ok_iff] at h
  obtain ⟨read, hread, rfl⟩ := h
  simp only [mem_sortByTakenAt, mem_of_mapM_eq_ok hread, mem_manifestFiles, mapError_eq_ok_iff]
  grind

/-- The manifests read are the ones stored under their own id. -/
theorem StoredById.mem_iff (hnamed : StoredById J store)
    (h : readBackupManifests J store = .ok manifests) :
    manifest ∈ manifests ↔ ∃ bytes, store.get manifest.backupId manifestPath = some bytes ∧
      J.fromSlice bytes = .ok manifest := by
  rw [mem_readBackupManifests h]
  constructor
  · rintro ⟨id, bytes, hbytes, hdecode⟩
    rw [hnamed id bytes manifest hbytes hdecode]
    exact ⟨bytes, hbytes, hdecode⟩
  · rintro ⟨bytes, hbytes, hdecode⟩
    exact ⟨_, bytes, hbytes, hdecode⟩

theorem exists_readBackupManifests (h : ∀ id bytes, store.get id manifestPath = some bytes →
    ∃ manifest, J.fromSlice bytes = .ok manifest) :
    ∃ manifests, readBackupManifests J store = .ok manifests := by
  simp only [readBackupManifests, bind_eq_ok_iff, pure_eq_ok_iff]
  obtain ⟨read, hread⟩ := exists_mapM_eq_ok (f := fun bytes : Bytes =>
    (J.fromSlice bytes).mapError CloudError.serde) fun bytes hbytes => by
      obtain ⟨id, hbytes⟩ := mem_manifestFiles.mp hbytes
      obtain ⟨manifest, hdecode⟩ := h id bytes hbytes
      exact ⟨manifest, mapError_eq_ok_iff.mpr hdecode⟩
  exact ⟨_, read, hread, rfl⟩

theorem fromSlice_of_readBackupManifests (h : readBackupManifests J store = .ok manifests) (hbytes : store.get id manifestPath = some bytes) :
    ∃ manifest, J.fromSlice bytes = .ok manifest := by
  simp only [readBackupManifests, bind_eq_ok_iff, pure_eq_ok_iff] at h
  obtain ⟨read, hread, -⟩ := h
  obtain ⟨manifest, -, hdecode⟩ := List.mem_map.mp
    (mapM_eq_ok_iff.mp hread ▸ List.mem_map_of_mem (mem_manifestFiles.mpr ⟨id, hbytes⟩))
  exact ⟨manifest, mapError_eq_ok_iff.mp hdecode.symm⟩

section Retained

/-- No two manifests share an id. -/
def DistinctIds (manifests : List BackupManifest) : Prop :=
  ∀ a ∈ manifests, ∀ b ∈ manifests, a.backupId = b.backupId → a = b

theorem manifestById_eq_some_iff (hids : DistinctIds manifests) : manifestById manifests id = some manifest ↔
      manifest ∈ manifests ∧ manifest.backupId = id := by
  constructor
  · intro h
    exact ⟨List.mem_reverse.mp (List.mem_of_find?_eq_some h), by simpa using List.find?_some h⟩
  · rintro ⟨hmem, rfl⟩
    cases hfound : manifestById manifests manifest.backupId with
    | none =>
      have hnone := List.find?_eq_none.mp hfound manifest (List.mem_reverse.mpr hmem)
      simp at hnone
    | some found =>
      have hid : found.backupId = manifest.backupId := by simpa using List.find?_some hfound
      rw [hids found (List.mem_reverse.mp (List.mem_of_find?_eq_some hfound)) manifest hmem hid]

theorem mem_parentIds (hids : DistinctIds manifests) {parent : String} :
    parent ∈ parentIds manifests id ↔ ∃ manifest ∈ manifests, manifest.backupId = id ∧
      manifest.parentBackupId = some parent := by
  rw [parentIds]
  cases hfound : manifestById manifests id with
  | none =>
    simp only [List.not_mem_nil, false_iff]
    rintro ⟨manifest, hmem, hid, -⟩
    rw [(manifestById_eq_some_iff hids).mpr ⟨hmem, hid⟩] at hfound
    contradiction
  | some found =>
    obtain ⟨hmem, hid⟩ := (manifestById_eq_some_iff hids).mp hfound
    rw [Option.mem_toList]
    constructor
    · intro hparent
      exact ⟨found, hmem, hid, hparent⟩
    · rintro ⟨manifest, hmanifest, hid', hparent⟩
      rw [hids found hmem manifest hmanifest (hid.trans hid'.symm)]
      exact hparent

theorem card_ids_le {f : BackupManifest → Option String} (manifests : List BackupManifest)
    (kept : List String) : ((manifests.filterMap f).toFinset \ kept.toFinset).card ≤
      manifests.length :=
  calc ((manifests.filterMap f).toFinset \ kept.toFinset).card
      ≤ (manifests.filterMap f).toFinset.card := Finset.card_le_card Finset.sdiff_subset
    _ ≤ (manifests.filterMap f).length := List.toFinset_card_le _
    _ ≤ manifests.length := List.length_filterMap_le _ manifests

/-- The selected ids are retained, the retained ids are closed under parents, and the children of a
retained full backup are retained. -/
theorem retainedBackupIds_spec (policy : BackupGcPolicy) (now : ℤ) (hids : DistinctIds manifests) :
    (∀ manifest ∈ keptByAge manifests policy now ++
      (fullsFromNewest manifests).take policy.keepLastFull,
      manifest.backupId ∈ retainedBackupIds manifests policy now) ∧
    (∀ manifest ∈ manifests, manifest.backupId ∈ retainedBackupIds manifests policy now →
      ∀ parent, manifest.parentBackupId = some parent →
        parent ∈ retainedBackupIds manifests policy now) ∧
    ∀ full ∈ manifests, full.kind = .full →
      full.backupId ∈ retainedBackupIds manifests policy now →
      ∀ child ∈ manifests, child.parentBackupId = some full.backupId →
        child.backupId ∈ retainedBackupIds manifests policy now := by
  rw [retainedBackupIds]
  generalize hkept : ((keptByAge manifests policy now ++
    (fullsFromNewest manifests).take policy.keepLastFull).map (·.backupId)).dedup = kept
  obtain ⟨hfirst, -⟩ := worklist_grows (parentIds manifests)
    (kept.length + manifests.length) fun x (hx : x ∈ kept) => hx
  have hdomain : ∀ id, ∀ parent ∈ parentIds manifests id,
      parent ∈ (manifests.filterMap (·.parentBackupId)).toFinset := by
    intro id parent hparent
    obtain ⟨manifest, hmem, -, hparent⟩ := (mem_parentIds hids).mp hparent
    rw [List.mem_toFinset, List.mem_filterMap]
    exact ⟨manifest, hmem, hparent⟩
  have hclosed := worklist_closed (p := fun _ => True) hdomain (kept.length + manifests.length)
    (fun x hx _ hnot => absurd hx hnot) (Nat.add_le_add_left (card_ids_le manifests kept) _)
  generalize worklist (parentIds manifests) (kept.length + manifests.length) kept kept = retained
    at hfirst hclosed
  generalize hfulls : (retained.filter fun id =>
    (manifestById manifests id).any fun manifest => manifest.kind = .full) = fulls
  have hsub : ∀ id ∈ fulls, id ∈ retained := fun id hid => List.mem_of_mem_filter (hfulls ▸ hid)
  obtain ⟨hmore, hchildren⟩ := worklist_grows (childIds manifests)
    (retained.length + manifests.length) hsub
  have hchilds : ∀ id, ∀ child ∈ childIds manifests id,
      child ∈ (manifests.filterMap (some ·.backupId)).toFinset := by
    intro id child hchild
    obtain ⟨manifest, hmem, rfl⟩ := List.mem_map.mp hchild
    rw [List.mem_toFinset, List.mem_filterMap]
    exact ⟨manifest, List.mem_of_mem_filter hmem, rfl⟩
  -- the children of a retained id that is not full are not looked at
  have hexpanded := worklist_closed (p := fun id => id ∈ retained → id ∈ fulls) hchilds
    (retained.length + manifests.length) (fun id hid hp hnot => absurd (hp hid) hnot)
    (Nat.add_le_add (hfulls ▸ List.length_filter_le _ _) (card_ids_le manifests retained))
  refine ⟨fun manifest hmem => hmore _ (hfirst _ ?_), fun manifest hmem hin parent hparent => ?_,
    fun full hmem hkind hin child hchild hparent => hexpanded _ hin (fun hretained => ?_) _ ?_⟩
  · rw [← hkept, List.mem_dedup]
    exact List.mem_map_of_mem hmem
  · rcases hchildren _ hin with hin | ⟨id, hid, hchild⟩
    · exact hmore _ (hclosed _ hin trivial _
        ((mem_parentIds hids).mpr ⟨manifest, hmem, rfl, hparent⟩))
    · -- a child was inserted because its parent is retained
      obtain ⟨child, hchild, hsame⟩ := List.mem_map.mp hchild
      obtain ⟨hchild, hof⟩ := List.mem_filter.mp hchild
      obtain rfl := hids child hchild manifest hmem hsame
      cases (of_decide_eq_true hof).symm.trans hparent
      exact hid
  · rw [← hfulls, List.mem_filter, (manifestById_eq_some_iff hids).mpr ⟨hmem, rfl⟩]
    exact ⟨hretained, by simp [hkind]⟩
  · exact List.mem_map.mpr ⟨child, List.mem_filter.mpr ⟨hchild, by simp [hparent]⟩, rfl⟩

end Retained

/-! ## Deleting -/

theorem get_gcBackup (retained : List String) (report : BackupGcReport) (store : ObjectStore)
    (manifest : BackupManifest) (id path : String) :
    (gcBackup retained (report, store) manifest).2.get id path =
      if manifest.backupId = id ∧ id ∉ retained then none else store.get id path := by
  rw [gcBackup]
  by_cases hin : manifest.backupId ∈ retained
  · rw [if_pos hin, if_neg]
    rintro ⟨rfl, hnot⟩
    exact hnot hin
  · rw [if_neg hin]
    by_cases hid : manifest.backupId = id
    · subst hid
      rw [if_pos ⟨rfl, hin⟩]
      obtain ⟨hdeleted, hkept⟩ := Tables.get_foldl_delete (fun path : String => path)
        manifest.backupId path ((store.scan manifest.backupId fun _ => true).map (·.1)) store
      by_cases hmem : path ∈ (store.scan manifest.backupId fun _ => true).map (·.1)
      · exact hdeleted ⟨path, hmem, rfl⟩
      · refine (hkept fun other hother heq => hmem (heq ▸ hother)).trans ?_
        refine Option.eq_none_iff_forall_ne_some.mpr fun bytes hget => hmem ?_
        exact List.mem_map.mpr ⟨(path, bytes), Tables.mem_scan.mpr ⟨hget, rfl⟩, rfl⟩
    · rw [if_neg fun h => hid h.1]
      exact Tables.get_foldl_delete_of_ne (fun path : String => path) hid path _ store

theorem get_gcBackups (retained : List String) (state : BackupGcReport × ObjectStore)
    (id path : String) :
    (manifests.foldl (gcBackup retained) state).2.get id path =
      if (∃ manifest ∈ manifests, manifest.backupId = id) ∧ id ∉ retained then none
      else state.2.get id path := by
  induction manifests generalizing state with
  | nil => simp
  | cons manifest manifests ih =>
    rw [List.foldl_cons, ih, get_gcBackup]
    simp only [List.mem_cons, exists_eq_or_imp]
    split
    · rename_i h
      rw [if_pos ⟨.inr h.1, h.2⟩]
    · rename_i h
      by_cases hid : manifest.backupId = id ∧ id ∉ retained
      · rw [if_pos hid, if_pos ⟨.inl hid.1, hid.2⟩]
      · rw [if_neg hid, if_neg]
        rintro ⟨hor, hnot⟩
        exact hor.elim (fun heq => hid ⟨heq, hnot⟩) fun hmem => h ⟨hmem, hnot⟩

/-! ## Chains -/

/-- The parents of a backup up to a full one, all of them there. -/
inductive CompleteChain (manifests : List BackupManifest) :
    BackupManifest → List BackupManifest → Prop
  | full {manifest : BackupManifest} : manifest ∈ manifests → manifest.kind = .full →
      CompleteChain manifests manifest [manifest]
  | incremental {manifest parent : BackupManifest} {chain : List BackupManifest} :
      manifest ∈ manifests → manifest.parentBackupId = some parent.backupId →
      CompleteChain manifests parent chain → CompleteChain manifests manifest (manifest :: chain)

/-- Restoring `child` needs `parent` first. -/
def Needs (manifests : List BackupManifest) (child parent : BackupManifest) : Prop :=
  child ∈ manifests ∧ parent ∈ manifests ∧ child.parentBackupId = some parent.backupId

theorem CompleteChain.of_closed
    {chain : List BackupManifest} (h : CompleteChain manifests manifest chain)
    (hclosed : ∀ child ∈ kept, ∀ parent, Needs manifests child parent → parent ∈ kept)
    (hmem : manifest ∈ kept) : CompleteChain kept manifest chain := by
  induction h with
  | full _ hfull => exact .full hmem hfull
  | incremental hchild hparent hchain ih =>
    refine .incremental hmem hparent (ih (hclosed _ hmem _ ⟨hchild, ?_, hparent⟩))
    cases hchain with
    | full hin _ => exact hin
    | incremental hin _ _ => exact hin

theorem mem_of_needed {other : BackupManifest}
    (hclosed : ∀ child ∈ kept, ∀ parent, Needs manifests child parent → parent ∈ kept)
    (hother : other ∈ kept) (h : Relation.TransGen (Needs manifests) other manifest) :
    manifest ∈ kept := by
  induction h with
  | single hneeds => exact hclosed _ hother _ hneeds
  | tail _ hneeds ih => exact hclosed _ ih _ hneeds

theorem sorted_fullsFromNewest (manifests : List BackupManifest) :
    (fullsFromNewest manifests).Pairwise fun a b => b.takenAt ≤ a.takenAt := by
  rw [fullsFromNewest, List.pairwise_reverse]
  exact List.pairwise_insertionSort _ _

theorem takenAt_le_of_drop {k : ℕ} {full old : BackupManifest}
    (hfull : full ∈ (fullsFromNewest manifests).take k)
    (hold : old ∈ (fullsFromNewest manifests).drop k) : old.takenAt ≤ full.takenAt := by
  have hsorted := sorted_fullsFromNewest manifests
  rw [← List.take_append_drop k (fullsFromNewest manifests), List.pairwise_append] at hsorted
  exact hsorted.2.2 full hfull old hold

theorem perm_fullsFromNewest (manifests : List BackupManifest) :
    (fullsFromNewest manifests).Perm (manifests.filter fun full => full.kind = .full) :=
  (List.reverse_perm _).trans (List.perm_insertionSort _ _)

/-- Collection leaves exactly the retained backups. -/
theorem mem_remaining {before after : List BackupManifest} {retained : List String}
    {store' : ObjectStore} (hnamed : StoredById J store)
    (hbefore : readBackupManifests J store = .ok before)
    (hafter : readBackupManifests J store' = .ok after)
    (hget : ∀ id path, store'.get id path =
      if (∃ manifest ∈ before, manifest.backupId = id) ∧ id ∉ retained then none
      else store.get id path) :
    manifest ∈ after ↔ manifest ∈ before ∧ manifest.backupId ∈ retained := by
  have hnamed' : StoredById J store' := by
    intro id bytes manifest hbytes hdecode
    rw [hget] at hbytes
    split at hbytes
    · contradiction
    · exact hnamed id bytes manifest hbytes hdecode
  rw [hnamed'.mem_iff hafter]
  by_cases hmem : manifest ∈ before
  · rw [hget]
    by_cases hretained : manifest.backupId ∈ retained
    · rw [if_neg fun h => h.2 hretained, ← hnamed.mem_iff hbefore]
      simp [hmem, hretained]
    · rw [if_pos ⟨⟨manifest, hmem, rfl⟩, hretained⟩]
      simp [hretained]
  · simp only [hmem, false_and, iff_false]
    rintro ⟨bytes, hbytes, hdecode⟩
    rw [hget] at hbytes
    split at hbytes
    · contradiction
    · exact hmem ((hnamed.mem_iff hbefore).mpr ⟨bytes, hbytes, hdecode⟩)

/-- The remaining backups are unchanged and have every backup they need, and the newest full ones
and the young ones are among them, and so are the backups on a remaining full one. -/
theorem gc_keeps_chains (J : Json BackupManifest) (policy : BackupGcPolicy) (now : ℤ)
    (store store' : ObjectStore) (report : BackupGcReport) (hnamed : StoredById J store)
    (hgc : gcBackupUri J policy now store = .ok (report, store')) :
    ∃ before after, readBackupManifests J store = .ok before ∧
      readBackupManifests J store' = .ok after ∧
      (∀ manifest ∈ after, manifest ∈ before ∧
        ∀ path, store'.get manifest.backupId path = store.get manifest.backupId path) ∧
      (∀ manifest ∈ after, ∀ chain, CompleteChain before manifest chain →
        CompleteChain after manifest chain) ∧
      (∃ newest older : List BackupManifest,
        (newest ++ older).Perm (before.filter fun full => full.kind = .full) ∧
        newest.length = min policy.keepLastFull (newest ++ older).length ∧
        (∀ full ∈ newest, ∀ old ∈ older, old.takenAt ≤ full.takenAt) ∧
        ∀ full ∈ newest, full ∈ after) ∧
      (∀ age, policy.retainNewerThan = some age → ∀ manifest ∈ before,
        now - manifest.takenAt ≤ age → manifest ∈ after) ∧
      (∀ full ∈ after, full.kind = .full → ∀ child ∈ before,
        child.parentBackupId = some full.backupId → child ∈ after) ∧
      ∀ manifest ∈ before, manifest ∉ after → ∀ other ∈ after,
        ¬ Relation.TransGen (Needs before) other manifest := by
  simp only [gcBackupUri, bind_eq_ok_iff, pure_eq_ok_iff] at hgc
  obtain ⟨before, hbefore, hgc⟩ := hgc
  have hget : ∀ id path, store'.get id path =
      if (∃ manifest ∈ before, manifest.backupId = id) ∧ id ∉ retainedBackupIds before policy now
      then none else store.get id path := by
    intro id path
    rw [← get_gcBackups _ ({ scannedBackups := before.length }, store), hgc]
  obtain ⟨after, hafter⟩ := exists_readBackupManifests (J := J) fun id bytes hbytes => by
    rw [hget] at hbytes
    split at hbytes
    · contradiction
    · exact fromSlice_of_readBackupManifests hbefore hbytes
  have hmem : ∀ {manifest}, manifest ∈ after ↔ manifest ∈ before ∧
      manifest.backupId ∈ retainedBackupIds before policy now :=
    mem_remaining hnamed hbefore hafter hget
  have hids : DistinctIds before := by
    intro a ha b hb hsame
    obtain ⟨bytes, hbytes, hdecode⟩ := (hnamed.mem_iff hbefore).mp ha
    obtain ⟨bytes', hbytes', hdecode'⟩ := (hnamed.mem_iff hbefore).mp hb
    rw [hsame, hbytes', Option.some.injEq] at hbytes
    rw [hbytes, hdecode] at hdecode'
    exact Except.ok.inj hdecode'
  obtain ⟨hselected, hparents, hchildren⟩ := retainedBackupIds_spec policy now hids
  have hclosed : ∀ child ∈ after, ∀ parent, Needs before child parent → parent ∈ after := by
    rintro child hchild parent ⟨hin, hparent, hof⟩
    exact hmem.mpr ⟨hparent, hparents child hin (hmem.mp hchild).2 _ hof⟩
  refine ⟨before, after, hbefore, hafter, fun manifest hin => ?_, fun manifest hin chain hchain =>
    hchain.of_closed hclosed hin, ⟨(fullsFromNewest before).take policy.keepLastFull,
      (fullsFromNewest before).drop policy.keepLastFull, ?_, ?_, fun full hfull old hold =>
      takenAt_le_of_drop hfull hold, fun full hfull => ?_⟩, fun age hage manifest hin hyoung => ?_,
    fun full hfull hkind child hchild hof => hmem.mpr
      ⟨hchild, hchildren full (hmem.mp hfull).1 hkind
      (hmem.mp hfull).2 child hchild hof⟩,
    fun manifest _ hout other hother hneeds => hout (mem_of_needed hclosed hother hneeds)⟩
  · refine ⟨(hmem.mp hin).1, fun path => ?_⟩
    rw [hget, if_neg fun h => h.2 (hmem.mp hin).2]
  · rw [List.take_append_drop]
    exact perm_fullsFromNewest before
  · rw [List.take_append_drop, List.length_take]
  · have hfulls := (perm_fullsFromNewest before).mem_iff.mp (List.mem_of_mem_take hfull)
    exact hmem.mpr ⟨List.mem_of_mem_filter hfulls,
      hselected full (List.mem_append_right _ hfull)⟩
  · refine hmem.mpr ⟨hin, hselected manifest (List.mem_append_left _ ?_)⟩
    rw [keptByAge, hage, List.mem_filter]
    exact ⟨hin, by simp [hyoung]⟩

private def manifestText (id kind parent seconds : String) : Bytes :=
  strBytes ("\x7b\"format_version\":1,\"backup_id\":\"" ++ id ++ "\",\"kind\":\"" ++ kind ++
    "\",\"parent_backup_id\":" ++ parent ++ ",\"timeline_id\":\"t\",\"profile\":\"Balanced\"," ++
    "\"start_lsn\":0,\"end_lsn\":0,\"taken_at\":\x7b\"secs_since_epoch\":" ++ seconds ++
    ",\"nanos_since_epoch\":0\x7d,\"engine_version\":\"1.0.0-rc.1\",\"files\":[]," ++
    "\"keyspace_counts\":\x7b\x7d\x7d")

private def baseBackup : BackupManifest := ⟨"a", .full, none, 10 ^ 9⟩

private def nextBackup : BackupManifest := ⟨"b", .incremental, some "a", 2 * 10 ^ 9⟩

private def sampleManifests : Json BackupManifest :=
  .ofTable [(baseBackup, manifestText "a" "Full" "null" "1"),
    (nextBackup, manifestText "b" "Incremental" "\"a\"" "2")] (by decide +kernel)

private theorem fromSlice_baseBackup :
    sampleManifests.fromSlice (manifestText "a" "Full" "null" "1") = .ok baseBackup :=
  sampleManifests.from_toVec rfl

private theorem fromSlice_nextBackup :
    sampleManifests.fromSlice (manifestText "b" "Incremental" "\"a\"" "2") = .ok nextBackup :=
  sampleManifests.from_toVec rfl

private def twoBackups : ObjectStore :=
  (Tables.empty.put "a" manifestPath (manifestText "a" "Full" "null" "1")).put "b" manifestPath
    (manifestText "b" "Incremental" "\"a\"" "2")

private theorem twoBackups_manifest
    (h : twoBackups.get id manifestPath = some bytes) :
    ∃ manifest, sampleManifests.fromSlice bytes = .ok manifest ∧ manifest.backupId = id := by
  rw [twoBackups, Tables.get_put, Tables.get_put, Tables.get_empty] at h
  split at h
  · rename_i hid
    rw [← Option.some.inj h]
    exact ⟨nextBackup, fromSlice_nextBackup, hid.1⟩
  · split at h
    · rename_i hid
      rw [← Option.some.inj h]
      exact ⟨baseBackup, fromSlice_baseBackup, hid.1⟩
    · contradiction

/-- An incremental backup that is young enough keeps its old parent. -/
theorem gc_keeps_chains_sample : ∃ report store' after,
    gcBackupUri sampleManifests ⟨0, some 1⟩ (2 * 10 ^ 9) twoBackups = .ok (report, store') ∧
      readBackupManifests sampleManifests store' = .ok after ∧
      CompleteChain after nextBackup [nextBackup, baseBackup] := by
  have hnamed : StoredById sampleManifests twoBackups := by
    intro id bytes manifest hbytes hdecode
    obtain ⟨found, hfound, hid⟩ := twoBackups_manifest hbytes
    rwa [← Except.ok.inj (hfound.symm.trans hdecode)]
  obtain ⟨before, hbefore⟩ := exists_readBackupManifests fun id bytes hbytes => by
    obtain ⟨found, hfound, -⟩ := twoBackups_manifest hbytes
    exact ⟨found, hfound⟩
  have hgc : gcBackupUri sampleManifests ⟨0, some 1⟩ (2 * 10 ^ 9) twoBackups = .ok _ :=
    bind_eq_ok_iff.mpr ⟨before, hbefore, rfl⟩
  obtain ⟨before', after, hread, hafter, -, hchains, -, hyoung, -⟩ :=
    gc_keeps_chains _ _ _ _ _ _ hnamed hgc
  cases hbefore.symm.trans hread
  have hbase : baseBackup ∈ before :=
    (mem_readBackupManifests hbefore).mpr ⟨"a", _, rfl, fromSlice_baseBackup⟩
  have hnext : nextBackup ∈ before :=
    (mem_readBackupManifests hbefore).mpr ⟨"b", _, rfl, fromSlice_nextBackup⟩
  refine ⟨_, _, after, hgc, hafter, hchains nextBackup
    (hyoung 1 rfl nextBackup hnext (by decide)) _ ?_⟩
  exact .incremental hnext rfl (.full hbase rfl)

end MultiDb
