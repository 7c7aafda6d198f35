import MultiDb.Verification.Cp.ExactlyOnce
import MultiDb.Verification.DistTxn.Steps
import MultiDb.Verification.Txn.Invariant

/-!
# The mirror table

The mirror table holds a copy of every row that commands have written.
-/

namespace MultiDb

open Shared Tables

variable {writes : WriteSet} {r : ReplApplyResponse} {logId : LogId}
variable {mk bytes : Bytes} {membership : Option StoredMembership} {table : String}
  {id snapshotId : TxnId} {env : Env}

/-- The table's name fits its length field. -/
def ShortName (t : String) : Prop :=
  (strBytes t).length < 2 ^ 32 - 1

instance (t : String) : Decidable (ShortName t) :=
  inferInstanceAs (Decidable (_ < _))

theorem mirrorKey_inj {t t' : String} {k k' : Bytes} (ht : ShortName t)
    (h : mirrorKey t k = mirrorKey t' k') : t = t' ∧ k = k' := by
  rw [ShortName] at ht
  rw [mirrorKey, mirrorKey, List.append_assoc, List.append_assoc,
    append_inj_of_length (by simp)] at h
  have hlen : (strBytes t).length = (strBytes t').length := by
    have hnat := congrArg beNat h.1
    rw [beNat_beBytes (by norm_num), beNat_beBytes (by norm_num)] at hnat
    omega
  obtain ⟨hname, hkey⟩ := (append_inj_of_length hlen).mp h.2
  exact ⟨strBytes_inj.mp hname, hkey⟩

theorem decodeMirrorKey_mirrorKey (C : CpCodecs) {t : String} (ht : ShortName t) (k : Bytes) :
    decodeMirrorKey C (mirrorKey t k) = .ok (t, k) := by
  rw [ShortName] at ht
  have hmin : min (strBytes t).length (2 ^ 32 - 1) = (strBytes t).length := by omega
  have hnat : beNat (beBytes 4 (strBytes t).length) = (strBytes t).length :=
    beNat_beBytes (by norm_num; omega)
  have hlen : ¬ (mirrorKey t k).length < 4 := by simp [mirrorKey]
  have hlen' : ¬ (mirrorKey t k).length < 4 + (strBytes t).length := by
    simp only [mirrorKey, List.length_append, length_beBytes]
    omega
  have htake : (mirrorKey t k).take 4 = beBytes 4 (strBytes t).length := by
    rw [mirrorKey, hmin, List.append_assoc]
    exact List.take_left' (by simp)
  have hdrop : (mirrorKey t k).drop 4 = strBytes t ++ k := by
    rw [mirrorKey, hmin, List.append_assoc]
    exact List.drop_left' (by simp)
  have hname : ((mirrorKey t k).drop 4).take (strBytes t).length = strBytes t := by
    rw [hdrop]
    exact List.take_left' rfl
  have hkey : (mirrorKey t k).drop (4 + (strBytes t).length) = k := by
    rw [← List.drop_drop, hdrop]
    exact List.drop_left' rfl
  simp only [decodeMirrorKey, if_neg hlen, htake, hnat, if_neg hlen', hname, hkey,
    fromUTF8_strBytes]

/-- A mirror key names one row. -/
theorem mirrorKey_of_decode {C : CpCodecs} {k : Bytes} {t : String}
    (h : decodeMirrorKey C mk = .ok (t, k)) : mirrorKey t k = mk := by
  simp only [decodeMirrorKey, guard_eq_ok_iff, not_lt] at h
  obtain ⟨hlen, hlen', h⟩ := h
  split at h
  · next name hname =>
      obtain ⟨rfl, rfl⟩ := Prod.mk.inj (Except.ok.inj h)
      have hbytes := strBytes_of_fromUTF8 hname
      have hfour : (mk.take 4).length = 4 := by
        rw [List.length_take]
        omega
      have hsize : (strBytes name).length = beNat (mk.take 4) := by
        rw [hbytes, List.length_take, List.length_drop]
        omega
      have hlt : beNat (mk.take 4) < 256 ^ 4 := by
        simpa only [hfour] using beNat_lt (mk.take 4)
      have hfield : beBytes 4 (beNat (mk.take 4)) = mk.take 4 := by
        simpa only [hfour] using beBytes_beNat (mk.take 4)
      have hmin : min (strBytes name).length (2 ^ 32 - 1) = beNat (mk.take 4) := by
        rw [hsize]
        norm_num at hlt ⊢
        omega
      rw [mirrorKey, hmin, hfield, hbytes, List.append_assoc, ← List.drop_drop,
        List.take_append_drop, List.take_append_drop]
  · contradiction

/-! ## Rows of the node -/

def raftTables : List String :=
  [raftStateTable, raftSnapshotTable, raftMirrorTable]

/-- The rows that the commit path and the state machine keep for themselves. -/
def NodeRow (t : String) (k : Bytes) : Prop :=
  Bookkeeping t k ∨ t ∈ raftTables

instance (t : String) (k : Bytes) : Decidable (NodeRow t k) :=
  inferInstanceAs (Decidable (_ ∨ _))

/-- The rows that commands write, in tables whose names fit a mirror key. -/
def BaseRow (t : String) (k : Bytes) : Prop :=
  ¬ NodeRow t k ∧ ShortName t

/-- The writes touch none of the rows the node keeps for itself. -/
def LeavesNode (writes : WriteSet) : Prop :=
  ∀ t k v, writes.get t k = some v → ¬ NodeRow t k

theorem LeavesNode.clean (h : LeavesNode writes) : CleanWrites writes :=
  fun t k v hget hbook => h t k v hget (Or.inl hbook)

/-- The operations of an entry leave the rows of the node alone. -/
def CpEntry.LeavesNode (entry : CpEntry) : Prop :=
  match entry.payload with
  | .normal (.batch ops) => ∀ op ∈ ops, ¬ NodeRow op.table op.key
  | .normal (.conditional _ ops _) => ∀ op ∈ ops, ¬ NodeRow op.table op.key
  | .normal (.txnCommit _ writes _) => ∀ write ∈ writes, ¬ NodeRow write.1 write.2.1
  | _ => True

theorem not_nodeRow_of_public {t : String} (ht : tableIsReserved t = false) (k : Bytes) :
    ¬ NodeRow t k := by
  have hall : ∀ t ∈ raftTables, tableIsReserved t = true := by decide
  rintro (hbook | hmem)
  · exact not_bookkeeping_of_public ht k hbook
  · rw [hall t hmem] at ht
    contradiction

theorem not_nodeRow_of_distTxn {t : String} (ht : t ∈ distTxnTables) (k : Bytes) :
    ¬ NodeRow t k := by
  have hall : ∀ t ∈ distTxnTables, t ∉ raftTables := by decide
  rintro (hbook | hmem)
  · exact not_bookkeeping_of_mem ht k hbook
  · exact hall t ht hmem

theorem leavesNode_opsToWriteSet {ops : List Op} (h : ∀ op ∈ ops, ¬ NodeRow op.table op.key) :
    LeavesNode (opsToWriteSet ops) := by
  intro t k v hget
  obtain ⟨op, hop, rfl, rfl, -⟩ := exists_op_of_get hget
  exact h op hop

theorem leavesNode_entriesToWriteSet {entries : List (String × Bytes × Option Bytes)}
    (h : ∀ entry ∈ entries, ¬ NodeRow entry.1 entry.2.1) :
    LeavesNode (entriesToWriteSet entries) := by
  rw [entriesToWriteSet]
  apply List.foldlRecOn (motive := LeavesNode)
  · intro t k v hget
    simp at hget
  · intro writes hwrites entry hentry t k v hget
    rw [get_put] at hget
    split at hget
    · next heq =>
        obtain ⟨rfl, rfl⟩ := heq
        exact h entry hentry
    · exact hwrites t k v hget

theorem leavesNode_of_empty (h : ∀ t k, writes.get t k = none) : LeavesNode writes := by
  intro t k v hget
  rw [h] at hget
  contradiction

theorem PrepareWrites.leavesNode {C : Codecs} {s : Store} {record : PreparedTxnRecord} (h : PrepareWrites C s record bytes writes) : LeavesNode writes := by
  intro t k v hget
  by_cases ht : t ∈ distTxnTables
  · exact not_nodeRow_of_distTxn ht k
  · by_cases hformat : t = txnMetaTable ∧ k = lockFormatKey
    · obtain ⟨rfl, rfl⟩ := hformat
      decide
    · have hnone := h.other t k (Or.inl ht) fun htable hkey => hformat ⟨htable, hkey⟩
      rw [hnone] at hget
      contradiction

theorem FinishWrites.leavesNode {C : Codecs} {s : Store} {prepared : Option PreparedTxnRecord}
    {record : FinishedTxnRecord}
    (h : FinishWrites C s prepared record bytes writes) : LeavesNode writes := by
  intro t k v hget
  by_cases ht : t ∈ distTxnTables
  · exact not_nodeRow_of_distTxn ht k
  · rw [h.rows t k ht] at hget
    split at hget
    · exact not_nodeRow_of_public (h.public_rows t k v hget) k
    · contradiction

theorem commandWriteSet_leavesNode {C : CpCodecs} {s : Store} {entry : CpEntry}
    {command : ReplCommand} (hpayload : entry.payload = .normal command) (hentry : entry.LeavesNode)
    (h : commandWriteSet C s command = .ok writes) : LeavesNode writes := by
  simp only [CpEntry.LeavesNode, hpayload] at hentry
  cases command with
  | batch ops =>
    cases h
    exact leavesNode_opsToWriteSet hentry
  | conditional conditions ops hlc =>
    cases h
    exact leavesNode_opsToWriteSet hentry
  | txnCommit snapshotId entries hlc =>
    cases h
    exact leavesNode_entriesToWriteSet hentry
  | distTxnPrepare txnId ops deadlineMs hlc =>
    rcases (prepareWriteSet_cases h).2 with ⟨hempty, -⟩ | ⟨record, bytes, -, -, hprepare⟩
    · exact leavesNode_of_empty hempty
    · exact hprepare.leavesNode
  | distTxnFinish txnId decision hlc =>
    rcases finishWriteSet_cases h with ⟨hempty, -⟩ | ⟨prepared, record, bytes, -, -, hfinish⟩
    · exact leavesNode_of_empty hempty
    · exact hfinish.leavesNode

variable {C : CpCodecs} {s t : Store}

theorem writeApplyMetadata_frame
    {txnId : TxnId} (h : writeApplyMetadata C s logId membership txnId = .ok t) :
    AgreeOff [raftStateTable] t s := by
  have hmem : raftStateTable ∈ [raftStateTable] := List.mem_singleton_self _
  simp only [writeApplyMetadata, writeOptionalLogId, bind_eq_ok_iff, pure_eq_ok_iff] at h
  obtain ⟨_, ⟨id, -, rfl⟩, h⟩ := h
  have hrows :=
    ((((AgreeOff.refl [raftStateTable] s).put_hidden hmem lastAppliedLogIdKey id).put_hidden
    hmem lastAppliedKey (be64 logId.index)).put_hidden hmem lastCommittedKey
    (be64 logId.index)).put_hidden hmem lastTxnIdKey (be64 txnId)
  cases membership with
  | none =>
    obtain rfl := pure_eq_ok_iff.mp h
    exact hrows
  | some membership =>
    simp only [bind_eq_ok_iff, pure_eq_ok_iff] at h
    obtain ⟨bytes, -, rfl⟩ := h
    exact hrows.put_hidden hmem _ _

theorem get_applyMirror_of_ne (ht : table ≠ raftMirrorTable)
    (k : Bytes) : (applyMirror s writes).get table k = s.get table k := by
  rw [applyMirror]
  apply get_foldl_of_ne
  intro s write
  rw [get_set, if_neg fun h => ht h.1.symm]

/-- The mirror follows the written rows. -/
theorem get_applyMirror (ht : ShortName table) (k : Bytes) :
    (applyMirror s writes).get raftMirrorTable (mirrorKey table k) =
      (writes.get table k).getD (s.get raftMirrorTable (mirrorKey table k)) := by
  have hfold : ∀ (es : List ((String × Bytes) × Option Bytes)) (s : Store),
      (es.foldl (fun s write =>
        s.set raftMirrorTable (mirrorKey write.1.1 write.1.2) write.2) s).get raftMirrorTable
          (mirrorKey table k) =
      es.foldl (fun acc e => if e.1 = (table, k) then e.2 else acc)
        (s.get raftMirrorTable (mirrorKey table k)) := by
    intro es
    induction es with
    | nil => exact fun _ => rfl
    | cons e es ih =>
      intro s
      rw [List.foldl_cons, List.foldl_cons, ih, get_set]
      congr 1
      by_cases he : e.1 = (table, k)
      · simp [he]
      · rw [if_neg he, if_neg]
        rintro ⟨-, hkey⟩
        obtain ⟨htable, hk⟩ := mirrorKey_inj ht hkey.symm
        exact he (Prod.ext htable.symm hk.symm)
  rw [applyMirror, hfold]
  have hentries := foldl_entries writes table k id (s.get raftMirrorTable (mirrorKey table k))
  rwa [Option.map_id] at hentries

theorem get_applyMirror_congr {s' : Store}
    (h : s.get raftMirrorTable mk = s'.get raftMirrorTable mk) (writes : WriteSet) :
    (applyMirror s writes).get raftMirrorTable mk =
      (applyMirror s' writes).get raftMirrorTable mk := by
  rw [applyMirror, applyMirror]
  induction writes.entries generalizing s s' with
  | nil => exact h
  | cons write rest ih =>
    apply ih
    rw [get_set, get_set, h]

theorem mem_applyMirror {v : Bytes}
    (h : (applyMirror s writes).get raftMirrorTable mk = some v) :
    s.get raftMirrorTable mk = some v ∨
      ∃ table k v', writes.get table k = some v' ∧ mirrorKey table k = mk := by
  by_cases hwritten : ∃ table k v', writes.get table k = some v' ∧ mirrorKey table k = mk
  · exact Or.inr hwritten
  · refine Or.inl (h ▸ Eq.symm ?_)
    rw [applyMirror]
    apply List.foldlRecOn (motive := fun s' : Store =>
      s'.get raftMirrorTable mk = s.get raftMirrorTable mk)
    · rfl
    · rintro s' hs' ⟨⟨table, k⟩, v'⟩ hmem
      rw [get_set, if_neg, hs']
      rintro ⟨-, hkey⟩
      exact hwritten ⟨table, k, v', mem_entries.mp hmem, hkey⟩

theorem not_bookkeeping_mirror (mk : Bytes) : ¬ Bookkeeping raftMirrorTable mk := by
  rintro (hmem | ⟨heq, -⟩)
  · exact absurd hmem (by decide)
  · exact absurd heq (by decide)

/-! ## Effects -/

/-- What the commit of a command does to rows, mirror and current id. -/
structure CommandEffect (s t : Store) (writes : WriteSet) (id : TxnId) : Prop where
  row : ∀ table k, ¬ NodeRow table k → t.get table k = (writes.get table k).getD (s.get table k)
  mirror : ∀ mk, t.get raftMirrorTable mk = (applyMirror s writes).get raftMirrorTable mk
  current : currentTxnIdFrom t = .ok id

/-- What the commit of a command changes. -/
theorem commitCommand_effect (hwrites : LeavesNode writes)
    (h : commitCommand C env s logId snapshotId writes = .ok (id, t)) :
    CommandEffect s t writes id := by
  obtain ⟨hlocks, hsnapshot, current, s₁, hlc, hcurrent, hnext, happly, hmeta⟩ :=
    commitCommand_eq_ok h
  have hsteps : CommitSteps C.toCodecs env s snapshotId writes id s₁ :=
    ⟨hlocks, validateSnapshot_eq_ok_iff.mp hsnapshot,
      ⟨current, hcurrent, checkedSucc_eq_some_iff.mp hnext⟩, ⟨hlc, happly⟩⟩
  have heffect := hsteps.effect hwrites.clean
  have hframe := writeApplyMetadata_frame hmeta
  constructor
  case row =>
    intro table k hrow
    have hstate : table ∉ [raftStateTable] := fun hmem =>
      hrow (Or.inr (by simp [raftTables, List.mem_singleton.mp hmem]))
    have hmirror : table ≠ raftMirrorTable := fun heq => hrow (Or.inr (by simp [raftTables, heq]))
    rw [hframe table hstate, get_applyMirror_of_ne hmirror]
    exact heffect.row table k fun hbook => hrow (Or.inl hbook)
  case mirror =>
    intro mk
    have hunwritten : writes.get raftMirrorTable mk = none := by
      by_contra hne
      obtain ⟨v, hv⟩ := Option.ne_none_iff_exists'.mp hne
      exact hwrites _ _ v hv (Or.inr (by decide))
    have hkept : s₁.get raftMirrorTable mk = s.get raftMirrorTable mk := by
      rw [heffect.row _ _ (not_bookkeeping_mirror mk), hunwritten]
      rfl
    rw [hframe _ (by decide), get_applyMirror_congr hkept]
  case current =>
    apply currentTxnIdFrom_of_get
    rw [hframe _ (by decide), get_applyMirror_of_ne (by decide), heffect.current]

/-- An entry leaves the data as it is, or commits a write set under the next id. -/
inductive EntryEffect (s t : Store) (response : ReplApplyResponse) : Prop
  | kept : AgreeOff [raftStateTable] t s → currentTxnIdFrom s = .ok response.txnId →
      EntryEffect s t response
  | committed {writes : WriteSet} {current : TxnId} : LeavesNode writes →
      CommandEffect s t writes response.txnId → currentTxnIdFrom s = .ok current →
      response.txnId.toNat = current.toNat + 1 → EntryEffect s t response

theorem commitMetadata_effect {conflict : Bool}
    (h : commitMetadata C env s logId membership conflict = .ok (r, t)) : EntryEffect s t r := by
  obtain ⟨hcurrent, -, hmeta⟩ := commitMetadata_metadata h
  exact .kept (writeApplyMetadata_frame hmeta) hcurrent

theorem commitCommand_next
    (h : commitCommand C env s logId snapshotId writes = .ok (id, t)) :
    ∃ current, currentTxnIdFrom s = .ok current ∧ id.toNat = current.toNat + 1 := by
  obtain ⟨-, -, current, s₁, hlc, hcurrent, hnext, -, -⟩ := commitCommand_eq_ok h
  exact ⟨current, hcurrent, checkedSucc_eq_some_iff.mp hnext⟩

theorem applyOne_effect {env : ApplyEnv} {entry : CpEntry} (hentry : entry.LeavesNode)
    (h : applyOne C env s entry = .ok (r, t)) : EntryEffect s t r := by
  cases hpayload : entry.payload with
  | blank =>
    simp only [applyOne, hpayload, applyMetadataOnly, bind_eq_ok_iff] at h
    obtain ⟨_, -, h⟩ := h
    exact commitMetadata_effect h
  | membership membership =>
    simp only [applyOne, hpayload, applyMetadataOnly, bind_eq_ok_iff] at h
    obtain ⟨_, -, h⟩ := h
    exact commitMetadata_effect h
  | normal command =>
    simp only [applyOne, hpayload] at h
    cases applyCommand_outcome h with
    | condition _ h => exact commitMetadata_effect h
    | writeSet _ _ h => exact commitMetadata_effect h
    | conflict _ _ _ _ h => exact commitMetadata_effect h
    | committed _ hwrites _ hcommit =>
      have hleaves := commandWriteSet_leavesNode hpayload hentry hwrites
      obtain ⟨current, hcurrent, hnext⟩ := commitCommand_next hcommit
      exact .committed hleaves (commitCommand_effect hleaves hcommit) hcurrent hnext

/-! ## Invariants -/

/-- The mirror holds the base rows, and rows of commands only. -/
structure MirrorInv (s : Store) : Prop where
  copy : ∀ table k, BaseRow table k → s.get table k = s.get raftMirrorTable (mirrorKey table k)
  origin : ∀ mk v, s.get raftMirrorTable mk = some v →
    ∃ table k, ¬ NodeRow table k ∧ mirrorKey table k = mk

theorem mirrorInv_empty : MirrorInv .empty where
  copy := by simp
  origin := by simp

theorem MirrorInv.of_agree (hinv : MirrorInv s) (hagree : AgreeOff [raftStateTable] t s) :
    MirrorInv t := by
  have hmirror : ∀ mk, t.get raftMirrorTable mk = s.get raftMirrorTable mk :=
    hagree _ (by decide)
  constructor
  · intro table k hbase
    have hstate : table ∉ [raftStateTable] := fun hmem =>
      hbase.1 (Or.inr (by simp [raftTables, List.mem_singleton.mp hmem]))
    rw [hagree table hstate, hmirror, hinv.copy table k hbase]
  · intro mk v hget
    rw [hmirror] at hget
    exact hinv.origin mk v hget

/-- The mirror stays equal to the rows it copies. -/
theorem MirrorInv.commit (hinv : MirrorInv s)
    (hwrites : LeavesNode writes) (h : CommandEffect s t writes id) : MirrorInv t := by
  constructor
  · intro table k hbase
    rw [h.row table k hbase.1, h.mirror, get_applyMirror hbase.2, hinv.copy table k hbase]
  · intro mk v hget
    rw [h.mirror] at hget
    rcases mem_applyMirror hget with hold | ⟨table, k, v', hwritten, hkey⟩
    · exact hinv.origin mk v hold
    · exact ⟨table, k, hwrites table k v' hwritten, hkey⟩

theorem MirrorInv.entry (hinv : MirrorInv s) (h : EntryEffect s t r) : MirrorInv t := by
  cases h with
  | kept hagree _ => exact hinv.of_agree hagree
  | committed hwrites heffect _ _ => exact hinv.commit hwrites heffect

/-- A store without commits holds the position of its log only. -/
def Counted (s : Store) : Prop :=
  (AgreeOff [raftStateTable] s .empty ∧ currentTxnIdFrom s = .ok 0) ∨
    ∃ current, currentTxnIdFrom s = .ok current ∧ current ≠ 0

theorem counted_empty : Counted .empty :=
  Or.inl ⟨.refl _ _, rfl⟩

theorem Counted.entry (hinv : Counted s) (h : EntryEffect s t r) : Counted t := by
  cases h with
  | kept hagree _ =>
    have hcurrent : currentTxnIdFrom t = currentTxnIdFrom s := by
      rw [currentTxnIdFrom, hagree _ (by decide), currentTxnIdFrom]
    rcases hinv with ⟨hempty, hzero⟩ | ⟨current, hpos, hne⟩
    · exact Or.inl ⟨hagree.trans hempty, hcurrent.trans hzero⟩
    · exact Or.inr ⟨current, hcurrent.trans hpos, hne⟩
  | committed hwrites heffect hcurrent hnext =>
    refine Or.inr ⟨r.txnId, heffect.current, ?_⟩
    rintro hzero
    rw [hzero] at hnext
    simp at hnext

theorem applyEntries_invariant {P : Store → Prop} {run : List (ApplyEnv × CpEntry)}
    {rs : List ReplApplyResponse} (hstep : ∀ {s t r}, P s → EntryEffect s t r → P t)
    (hentries : ∀ step ∈ run, step.2.LeavesNode) (hs : P s)
    (h : applyEntries C s run = .ok (rs, t)) : P t := by
  induction run generalizing s rs with
  | nil =>
    simp only [applyEntries, Except.ok.injEq, Prod.mk.injEq] at h
    obtain ⟨-, rfl⟩ := h
    exact hs
  | cons step run ih =>
    simp only [applyEntries, bind_eq_ok_iff, pure_eq_ok_iff, Prod.mk.injEq] at h
    obtain ⟨⟨r, s₁⟩, hone, ⟨rest, s₂⟩, hrest, rfl, rfl⟩ := h
    have hhead : step.2.LeavesNode := hentries step List.mem_cons_self
    have hs₁ := hstep hs (applyOne_effect hhead hone)
    exact ih (fun step hstep => hentries step (List.mem_cons_of_mem _ hstep)) hs₁ hrest

end MultiDb
