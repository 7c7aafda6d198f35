import MultiDb.Verification.Ap.Merge

/-!
# Convergence of replicas

The list of a replica depends only on the set of versions that went into it.
-/

namespace MultiDb

open Shared

variable {table : String} {key : Bytes}
variable {versions writes bs as wb wa : List VersionedBytes}

/-- The versions a batch brings for one row. -/
def versionsFor (table : String) (key : Bytes) (batch : List VersionedWrite) :
    List VersionedBytes :=
  (batch.filter fun write => write.table = table ∧ write.key = key).map (·.version)

/-- A batch merges each row's versions one by one. -/
theorem versions_applyVersionedWrites (store : VersionMap) (batch : List VersionedWrite) :
    (applyVersionedWrites store batch).versions table key =
      (versionsFor table key batch).foldl mergeOneVersion (store.versions table key) := by
  induction batch generalizing store with
  | nil => rfl
  | cons write batch ih =>
    have hput : VersionMap.versions (store.put write.table write.key (mergeOneVersion
        (store.versions write.table write.key) write.version)) table key =
        if write.table = table ∧ write.key = key then
          mergeOneVersion (store.versions table key) write.version
        else store.versions table key := by
      rw [VersionMap.versions, Tables.get_put]
      split
      · rename_i heq
        obtain ⟨rfl, rfl⟩ := heq
        rfl
      · rfl
    rw [applyVersionedWrites, List.foldl_cons, ← applyVersionedWrites, ih, hput, versionsFor,
      versionsFor, List.filter_cons]
    by_cases heq : write.table = table ∧ write.key = key
    · rw [if_pos heq, if_pos (decide_eq_true heq), List.map_cons, List.foldl_cons]
    · rw [if_neg heq, if_neg fun h => heq (of_decide_eq_true h)]

def recordVersions (table : String) (key : Bytes) (records : List VersionedRecord) :
    List VersionedBytes :=
  ((records.find? fun record => record.table = table ∧ record.key = key).map
    (·.versions)).getD []

def recordsFor (table : String) (key : Bytes) (records : List VersionedRecord) :
    List VersionedRecord :=
  records.filter fun record => record.table = table ∧ record.key = key

theorem versions_mergeRecordMap (records : List VersionedRecord) :
    (mergeRecordMap records).versions table key =
      ((recordsFor table key records).flatMap (·.versions)).foldl mergeOneVersion [] := by
  induction records using List.reverseRecOn with
  | nil => rfl
  | append_singleton records record ih =>
    rw [mergeRecordMap, List.foldl_append, ← mergeRecordMap, List.foldl_cons, List.foldl_nil,
      VersionMap.versions, Tables.get_put, recordsFor, List.filter_append, List.flatMap_append,
      List.foldl_append, ← recordsFor, ← ih]
    by_cases heq : record.table = table ∧ record.key = key
    · obtain ⟨rfl, rfl⟩ := heq
      simp
    · simp [heq, VersionMap.versions]

theorem recordVersions_mergeRecordSets (left right : List VersionedRecord) :
    recordVersions table key (mergeRecordSets left right) =
      ((recordsFor table key (left ++ right)).flatMap (·.versions)).foldl mergeOneVersion [] := by
  rw [← versions_mergeRecordMap, VersionMap.versions, recordVersions]
  congr 1
  cases hfind : (mergeRecordSets left right).find? fun record =>
      record.table = table ∧ record.key = key with
  | some record =>
    obtain ⟨⟨⟨table', key'⟩, versions⟩, hmem, rfl⟩ :=
      List.mem_map.mp (List.mem_of_find?_eq_some hfind)
    obtain ⟨rfl, rfl⟩ : table' = table ∧ key' = key := by simpa using List.find?_some hfind
    exact (Tables.mem_entries.mp hmem).symm
  | none =>
    cases hget : (mergeRecordMap (left ++ right)).get table key with
    | none => rfl
    | some versions =>
      have hnone := List.find?_eq_none.mp hfind _
        (List.mem_map_of_mem (Tables.mem_entries.mpr hget))
      simp at hnone

/-- The version list of a key that `arrived` went into, in any of these ways. -/
inductive Gathers (table : String) (key : Bytes) :
    List VersionedBytes → List VersionedBytes → Prop
  | empty : Gathers table key [] []
  /-- A batch that a coordinator sends, at once or from a hint. -/
  | deliver {store : VersionMap} {arrived : List VersionedBytes} (batch : List VersionedWrite)
      (h : Gathers table key arrived (store.versions table key)) :
      Gathers table key (arrived ++ versionsFor table key batch)
        ((applyVersionedWrites store batch).versions table key)
  | replies {replies : List (NodeId × List VersionedBytes)}
      {arrived : NodeId × List VersionedBytes → List VersionedBytes}
      (h : ∀ reply ∈ replies, Gathers table key (arrived reply) reply.2) :
      Gathers table key (replies.flatMap arrived) (mergeReplyVersions replies)
  | records {left right : List VersionedRecord}
      {arrived : VersionedRecord → List VersionedBytes}
      (h : ∀ record ∈ recordsFor table key (left ++ right),
        Gathers table key (arrived record) record.versions) :
      Gathers table key ((recordsFor table key (left ++ right)).flatMap arrived)
        (recordVersions table key (mergeRecordSets left right))
  /-- A merged list that read repair or anti-entropy sends to a replica. -/
  | repair {store : VersionMap} {arrived arrived' merged : List VersionedBytes}
      {batch : List VersionedWrite} (h : Gathers table key arrived (store.versions table key))
      (h' : Gathers table key arrived' merged) (hbatch : versionsFor table key batch = merged) :
      Gathers table key (arrived ++ arrived')
        ((applyVersionedWrites store batch).versions table key)

theorem ordered_mergeOneVersion (existing : List VersionedBytes) (incoming : VersionedBytes) :
    Ordered (mergeOneVersion existing incoming) := by
  rw [mergeOneVersion_eq]
  exact ordered_mergeSort _

theorem Ordered.foldl (h : Ordered versions)
    (news : List VersionedBytes) : Ordered (news.foldl mergeOneVersion versions) := by
  induction news generalizing versions with
  | nil => exact h
  | cons version news ih => exact ih (ordered_mergeOneVersion versions version)

theorem Gathers.maxima {arrived : List VersionedBytes}
    (h : Gathers table key arrived versions) (hsep : Separated arrived) :
    Maxima arrived versions ∧ Ordered versions := by
  induction h with
  | empty => exact ⟨maxima_nil, List.Pairwise.nil⟩
  | deliver batch h ih =>
    obtain ⟨hmaxima, hordered⟩ := ih (hsep.mono (by simp; tauto))
    rw [versions_applyVersionedWrites]
    exact ⟨hmaxima.foldl mergesOne_mergeOneVersion hsep, hordered.foldl _⟩
  | replies h ih =>
    have hparts := maxima_flatMap mergesOne_mergeOneVersion (fun reply hreply =>
      (ih reply hreply (hsep.mono fun v hv => List.mem_flatMap_of_mem hreply hv)).1) hsep
    exact ⟨hparts, Ordered.foldl .nil _⟩
  | records h ih =>
    have hparts := maxima_flatMap mergesOne_mergeOneVersion (fun record hrecord =>
      (ih record hrecord (hsep.mono fun v hv => List.mem_flatMap_of_mem hrecord hv)).1) hsep
    rw [recordVersions_mergeRecordSets]
    exact ⟨hparts, Ordered.foldl .nil _⟩
  | repair h h' hbatch ih ih' =>
    obtain ⟨hmaxima, hordered⟩ := ih (hsep.mono (by simp; tauto))
    obtain ⟨hmerged, -⟩ := ih' (hsep.mono (by simp; tauto))
    rw [versions_applyVersionedWrites, hbatch]
    exact ⟨hmaxima.foldl_maxima mergesOne_mergeOneVersion hmerged hsep, hordered.foldl _⟩

/-- Versions with equal clocks are the same version. -/
def EqualClocksAgree (writes : List VersionedBytes) : Prop :=
  ∀ a ∈ writes, ∀ b ∈ writes, a.clock.compare b.clock = .equal → a = b

instance (writes : List VersionedBytes) : Decidable (EqualClocksAgree writes) :=
  inferInstanceAs (Decidable (∀ a ∈ writes, ∀ b ∈ writes, a.clock.compare b.clock = .equal → a = b))

theorem EqualClocksAgree.separated (h : EqualClocksAgree writes) :
    Separated writes :=
  fun a ha b hb hab hba => h a ha b hb (compare_eq_equal_iff.mpr ⟨hab, hba⟩)

/-- A version list that some of the writes went into. -/
def HoldsSome (table : String) (key : Bytes) (writes versions : List VersionedBytes) : Prop :=
  ∃ arrived, (∀ v ∈ arrived, v ∈ writes) ∧ Gathers table key arrived versions

def mergeVersions (left right : List VersionedBytes) : List VersionedBytes :=
  right.foldl mergeOneVersion left

/-- A replica that has received `arrived` of the writes holds their maxima. -/
structure Holds (writes arrived versions : List VersionedBytes) : Prop where
  maxima : Maxima arrived versions
  ordered : Ordered versions
  subset : ∀ v ∈ arrived, v ∈ writes

/-- Two replicas that merge hold the maxima of what either has received. -/
theorem Holds.merge (ha : Holds writes wa as)
    (hsep : Separated writes) (hb : Holds writes wb bs) :
    Holds writes (wa ++ wb) (mergeVersions as bs) := by
  have hsubset : ∀ v ∈ wa ++ wb, v ∈ writes := by
    intro v hv
    rcases List.mem_append.mp hv with hv | hv
    · exact ha.subset v hv
    · exact hb.subset v hv
  exact ⟨ha.maxima.foldl_maxima mergesOne_mergeOneVersion hb.maxima (hsep.mono hsubset),
    ha.ordered.foldl bs, hsubset⟩

/-- What a replica holds depends only on which writes have arrived. -/
theorem Holds.unique (ha : Holds writes wa as)
    (hb : Holds writes wb bs) (hmem : ∀ v, v ∈ wa ↔ v ∈ wb) : as = bs := by
  rw [eq_canonicalVersions ha.maxima ha.ordered]
  exact (eq_canonicalVersions (hb.maxima.congr hmem) hb.ordered).symm

/-- Replicas that received the same writes agree, and merging is a semilattice. -/
structure Converges (table : String) (key : Bytes) (writes : List VersionedBytes) : Prop where
  canonical : ∀ arrived versions, (∀ v, v ∈ arrived ↔ v ∈ writes) →
    Gathers table key arrived versions → versions = canonicalVersions writes
  assoc : ∀ as bs cs, HoldsSome table key writes as → HoldsSome table key writes bs →
    HoldsSome table key writes cs →
    mergeVersions (mergeVersions as bs) cs = mergeVersions as (mergeVersions bs cs)
  comm : ∀ as bs, HoldsSome table key writes as → HoldsSome table key writes bs →
    mergeVersions as bs = mergeVersions bs as
  idem : ∀ as, HoldsSome table key writes as → mergeVersions as as = as

/-- Replicas converge when writes with equal clocks are identical. -/
theorem converges_of_equalClocksAgree (table : String) (key : Bytes)
    (writes : List VersionedBytes) (hclocks : EqualClocksAgree writes) :
    Converges table key writes := by
  have hsep := hclocks.separated
  have hholds : ∀ {as}, HoldsSome table key writes as → ∃ ws, Holds writes ws as := by
    rintro as ⟨ws, hws, hgathers⟩
    obtain ⟨hmaxima, hordered⟩ := hgathers.maxima (hsep.mono hws)
    exact ⟨ws, hmaxima, hordered, hws⟩
  constructor
  case canonical =>
    intro arrived versions hsame hgathers
    obtain ⟨hmaxima, hordered⟩ := hgathers.maxima (hsep.mono fun v hv => (hsame v).mp hv)
    exact eq_canonicalVersions (hmaxima.congr fun v => (hsame v).symm) hordered
  case assoc =>
    intro as bs cs has hbs hcs
    obtain ⟨wa, has⟩ := hholds has
    obtain ⟨wb, hbs⟩ := hholds hbs
    obtain ⟨wc, hcs⟩ := hholds hcs
    exact ((has.merge hsep hbs).merge hsep hcs).unique (has.merge hsep (hbs.merge hsep hcs))
      fun v => by rw [List.append_assoc]
  case comm =>
    intro as bs has hbs
    obtain ⟨wa, has⟩ := hholds has
    obtain ⟨wb, hbs⟩ := hholds hbs
    exact (has.merge hsep hbs).unique (hbs.merge hsep has) fun v => by
      rw [List.mem_append, List.mem_append, or_comm]
  case idem =>
    intro as has
    obtain ⟨wa, has⟩ := hholds has
    exact (has.merge hsep has).unique has fun v => by rw [List.mem_append, or_self]

/-- Two concurrent writes and a write that has seen both. -/
def sampleWrites : List VersionedBytes :=
  [{ value := some [1], clock := ⟨.ofList [((1 : NodeId), (1 : UInt64))]⟩, origin := 1 },
    { value := some [2], clock := ⟨.ofList [((2 : NodeId), (1 : UInt64))]⟩, origin := 2 },
    { value := none, clock := ⟨.ofList [((1 : NodeId), (2 : UInt64)), (2, 1)]⟩, origin := 1 }]

theorem converges_sampleWrites :
    EqualClocksAgree sampleWrites ∧ Converges "t" [1] sampleWrites :=
  have hclocks : EqualClocksAgree sampleWrites := by decide
  ⟨hclocks, converges_of_equalClocksAgree "t" [1] sampleWrites hclocks⟩

end MultiDb
