import MultiDb.Shared.Totals
import MultiDb.Model.Tenant
import MultiDb.Model.WireRecords
import MultiDb.Verification.DistTxn.Rows

/-!
# The tenant quota bounds the stored bytes

The counter `used_storage_bytes` covers the live rows, what calls in flight may still put and
what committed deletes have not given back yet.
-/

namespace MultiDb

open Shared

variable {s s' : Store}

/-- The bytes of all user rows of the store. -/
def liveBytes (s : Store) : ℕ :=
  s.total fun table key value => if tableIsReserved table then 0 else rowBytes table key value

/-- Each delete removes a row, in the order of the operations. -/
def deletesRows : Store → List Op → Bool
  | _, [] => true
  | s, op :: ops => (op.value.isSome || (s.get op.table op.key).isSome) && deletesRows
    (applyOp s op) ops

theorem estimateOpsBytes_cons (op : Op) (ops : List Op) :
    estimateOpsBytes (op :: ops) = estimateOpsBytes [op] + estimateOpsBytes ops := by
  simp [estimateOpsBytes]

theorem estimateDeleteBytes_cons (op : Op) (ops : List Op) :
    estimateDeleteBytes (op :: ops) = estimateDeleteBytes [op] + estimateDeleteBytes ops := by
  simp [estimateDeleteBytes]

theorem liveBytes_congr
    (h : ∀ t k, tableIsReserved t = false → s.get t k = s'.get t k) :
    liveBytes s = liveBytes s' := by
  refine Tables.total_congr (p := fun t => !tableIsReserved t) ?_ ?_
  · intro t k v ht
    rw [if_pos (by simpa using ht)]
  · intro t k ht
    exact h t k (by simpa using ht)

/-- One operation changes the live bytes by no more than it is charged and refunded. -/
theorem liveBytes_applyOp {s : Store} {op : Op} (hpublic : tableIsReserved op.table = false)
    (hrow : op.value.isSome = true ∨ (s.get op.table op.key).isSome = true) :
    liveBytes (applyOp s op) + estimateDeleteBytes [op] ≤ liveBytes s + estimateOpsBytes [op] := by
  cases op with
  | put table key value =>
    have hpublic : tableIsReserved table = false := hpublic
    have hput := Tables.total_put (fun table key value =>
      if tableIsReserved table then 0 else rowBytes table key value) s table key value
    have hle := Tables.total_delete_le (fun table key value =>
      if tableIsReserved table then 0 else rowBytes table key value) s table key
    rw [if_neg (by simpa using hpublic)] at hput
    simp only [liveBytes, applyOp, Op.table, Op.key, Op.value, Tables.set, estimateDeleteBytes,
      estimateOpsBytes, List.map_cons, List.map_nil, List.sum_cons, List.sum_nil]
    omega
  | delete table key =>
    have hpublic : tableIsReserved table = false := hpublic
    obtain ⟨value, hvalue⟩ := Option.isSome_iff_exists.mp (hrow.resolve_left (by simp [Op.value]))
    have hvalue : s.get table key = some value := hvalue
    have hdelete := Tables.total_delete (fun table key value =>
      if tableIsReserved table then 0 else rowBytes table key value) hvalue
    rw [if_neg (by simpa using hpublic), rowBytes] at hdelete
    simp only [liveBytes, applyOp, Op.table, Op.key, Op.value, Tables.set, estimateDeleteBytes,
      estimateOpsBytes, List.map_cons, List.map_nil, List.sum_cons, List.sum_nil] at hdelete ⊢
    omega

theorem liveBytes_foldl_applyOp {ops : List Op}
    (hpublic : ∀ op ∈ ops, tableIsReserved op.table = false) {s : Store}
    (hrows : deletesRows s ops = true) :
    liveBytes (ops.foldl applyOp s) + estimateDeleteBytes ops ≤
      liveBytes s + estimateOpsBytes ops := by
  induction ops generalizing s with
  | nil => rfl
  | cons op ops ih =>
    rw [deletesRows, Bool.and_eq_true, Bool.or_eq_true] at hrows
    have hop := liveBytes_applyOp (hpublic op List.mem_cons_self) hrows.1
    have hops := ih (fun op' h => hpublic op' (List.mem_cons_of_mem op h)) hrows.2
    rw [estimateOpsBytes_cons, estimateDeleteBytes_cons, List.foldl_cons]
    omega

/-- What the quota needs of a commit.  When it answers `Ok`, its operations are in the rows, and
each delete has removed one; when it answers `Err`, it has stored no rows. -/
def SoundCommit (before after : Store) (ops : List Op) : ReplResult Unit → Prop
  | .ok _ =>
    deletesRows before ops = true ∧ (∀ op ∈ ops, tableIsReserved op.table = false) ∧
      ∀ t k, tableIsReserved t = false → after.get t k = (ops.foldl applyOp before).get t k
  | .error _ => ∀ t k, tableIsReserved t = false → after.get t k = before.get t k

theorem liveBytes_of_soundCommit {ops : List Op} {answer : Unit}
    (h : SoundCommit s s' ops (.ok answer)) :
    liveBytes s' + estimateDeleteBytes ops ≤ liveBytes s + estimateOpsBytes ops := by
  obtain ⟨hrows, hpublic, hget⟩ := h
  rw [liveBytes_congr hget]
  exact liveBytes_foldl_applyOp hpublic hrows

/-! ## Writes in flight -/

namespace WriteFlight

/-- What a call may still change: the puts it reserved, or the deletes it has not given back. -/
def held (flight : WriteFlight) : ℕ :=
  match flight.stage with
  | .reserved _ | .failed _ _ => estimateOpsBytes flight.ops
  | .written _ => estimateDeleteBytes flight.ops
  | _ => 0

/-- The bytes charged for a call; a call that has failed is charged nothing. -/
def charged (flight : WriteFlight) : ℕ :=
  match flight.stage with
  | .reserved _ | .failed _ _ | .written _ | .closing (.ok _) | .finished (.ok _) =>
    estimateOpsBytes flight.ops
  | _ => 0

/-- What a write gives back to the quota. -/
def refunded (flight : WriteFlight) : ℕ :=
  match flight.stage with
  | .closing (.ok _) | .finished (.ok _) => estimateDeleteBytes flight.ops
  | _ => 0

/-- A reservation is the estimate of its operations. -/
def Reserved (flight : WriteFlight) : Prop :=
  match flight.stage with
  | .reserved reservation | .failed reservation _ | .written reservation =>
    reservation.bytes = estimateOpsBytes flight.ops
  | _ => True

end WriteFlight

/-! ## The invariant -/

namespace PipelineState

variable {β : Type} {B : Backend β}

/-- The counter covers the live rows and what calls hold, and is the sum of their charges. -/
structure QuotaInv (B : Backend β) (quota : TenantQuota) (p : PipelineState β) : Prop where
  config : p.tenant.quota = quota
  reserved : ∀ flight ∈ p.calls, flight.Reserved
  cover : liveBytes (B.rows p.backend) + (p.calls.map WriteFlight.held).sum ≤
    p.tenant.usedStorageBytes
  bounded : p.tenant.usedStorageBytes ≤ quota.maxStorageBytes.toNat
  ledger : p.tenant.usedStorageBytes + (p.calls.map WriteFlight.refunded).sum =
    (p.calls.map WriteFlight.charged).sum

variable {quota : TenantQuota} {p : PipelineState β} {env : Env} {i : ℕ} {flight : WriteFlight}

theorem quotaInv_init {b : β} (hempty : B.rows b = .empty) (tenantId : String)
    (quota : TenantQuota) : (init b tenantId quota).QuotaInv B quota where
  config := rfl
  reserved := by simp [init]
  cover := by simp [init, hempty, liveBytes]
  bounded := Nat.zero_le _
  ledger := rfl

theorem QuotaInv.reservation (h : p.QuotaInv B quota) (hi : p.calls[i]? = some flight) :
    flight.Reserved :=
  h.reserved flight (List.mem_of_getElem? hi)

theorem QuotaInv.held_le (h : p.QuotaInv B quota) (hi : p.calls[i]? = some flight) :
    liveBytes (B.rows p.backend) + flight.held ≤ p.tenant.usedStorageBytes := by
  have hsum := sum_map_set WriteFlight.held hi { flight with stage := .admitted }
  have hcover := h.cover
  have hzero : WriteFlight.held { flight with stage := .admitted } = 0 := rfl
  omega

/-- A write that moves to its next stage keeps the books balanced. -/
theorem QuotaInv.moveTo (h : p.QuotaInv B quota) (hi : p.calls[i]? = some flight) {backend : β}
    {tenant : TenantRuntime} {stage : WriteStage} (hquota : tenant.quota = p.tenant.quota)
    (hreserved : WriteFlight.Reserved { flight with stage })
    (hcover : liveBytes (B.rows backend) + WriteFlight.held { flight with stage } +
      p.tenant.usedStorageBytes ≤
        liveBytes (B.rows p.backend) + flight.held + tenant.usedStorageBytes)
    (hbounded : tenant.usedStorageBytes ≤ quota.maxStorageBytes.toNat)
    (hledger : tenant.usedStorageBytes + WriteFlight.refunded { flight with stage } +
    flight.charged =
      p.tenant.usedStorageBytes + flight.refunded + WriteFlight.charged { flight with stage }) :
    (PipelineState.moveTo { p with backend := backend, tenant := tenant } i flight stage).QuotaInv B
      quota := by
  have hheld := sum_map_set WriteFlight.held hi { flight with stage }
  have hrefunded := sum_map_set WriteFlight.refunded hi { flight with stage }
  have hcharged := sum_map_set WriteFlight.charged hi { flight with stage }
  have hcover' := h.cover
  have hledger' := h.ledger
  constructor
  case config => exact hquota.trans h.config
  case reserved =>
    intro other hother
    rcases List.mem_or_eq_of_mem_set hother with hother | rfl
    · exact h.reserved other hother
    · exact hreserved
  case cover =>
    simp only [PipelineState.moveTo]
    omega
  case bounded => exact hbounded
  case ledger =>
    simp only [PipelineState.moveTo]
    omega

theorem reserveOps_eq_ok {tenant tenant' : TenantRuntime} {ops : List Op}
    {reservation : QuotaReservation} (h : tenant.reserveOps ops = .ok (reservation, tenant'))
    (hused : tenant.usedStorageBytes ≤ tenant.quota.maxStorageBytes.toNat) :
    reservation.bytes = estimateOpsBytes ops ∧ tenant'.quota = tenant.quota ∧
      tenant'.usedStorageBytes = tenant.usedStorageBytes + estimateOpsBytes ops ∧
      tenant'.usedStorageBytes ≤ tenant.quota.maxStorageBytes.toNat := by
  have hmax := tenant.quota.maxStorageBytes.toNat_lt
  rw [TenantRuntime.reserveOps, guard_eq_ok_iff] at h
  obtain ⟨hroom, h⟩ := h
  cases h
  have hsum : TenantRuntime.saturatingAdd tenant.usedStorageBytes (estimateOpsBytes ops) =
      tenant.usedStorageBytes + estimateOpsBytes ops := by
    rw [TenantRuntime.saturatingAdd]
    omega
  refine ⟨rfl, rfl, hsum, ?_⟩
  simp only [hsum]
  omega

theorem QuotaInv.advanceFlight (h : p.QuotaInv B quota) (hi : p.calls[i]? = some flight)
    (hsound : ∀ reservation, flight.stage = .reserved reservation →
      SoundCommit (B.rows p.backend) (B.rows (p.commitResult B env flight).2) flight.ops
        (p.commitResult B env flight).1) :
    (p.advanceFlight B env i flight).QuotaInv B quota := by
  have hreserved := h.reservation hi
  have hheld := h.held_le hi
  have hbounded := h.bounded
  rw [PipelineState.advanceFlight]
  cases hstage : flight.stage with
  | admitted =>
    simp only [WriteFlight.held, WriteFlight.Reserved, hstage] at hreserved hheld
    cases hreserve : p.tenant.reserveOps flight.ops with
    | error error =>
      exact h.moveTo hi rfl trivial (by simp [WriteFlight.held, hstage]) hbounded
        (by simp [WriteFlight.refunded, WriteFlight.charged, hstage])
    | ok result =>
      obtain ⟨reservation, tenant⟩ := result
      obtain ⟨hbytes, hquota, hused, hroom⟩ :=
        reserveOps_eq_ok hreserve (h.config ▸ hbounded)
      refine h.moveTo hi hquota hbytes ?_ (h.config ▸ hroom) ?_
      · simp only [WriteFlight.held, hstage]
        omega
      · simp only [WriteFlight.refunded, WriteFlight.charged, hstage]
        omega
  | reserved reservation =>
    simp only [WriteFlight.Reserved, hstage] at hreserved
    have hsound := hsound reservation hstage
    rcases hcommit : p.commitResult B env flight with ⟨answer, backend⟩
    rw [hcommit] at hsound
    cases answer with
    | error error =>
      refine h.moveTo hi rfl hreserved ?_ hbounded
        (by simp [WriteFlight.refunded, WriteFlight.charged, hstage])
      simp [WriteFlight.held, hstage, liveBytes_congr hsound]
    | ok =>
      have hlive := liveBytes_of_soundCommit hsound
      refine h.moveTo hi rfl hreserved ?_ hbounded
        (by simp [WriteFlight.refunded, WriteFlight.charged, hstage])
      simp only [WriteFlight.held, hstage] at hlive ⊢
      omega
  | failed reservation error =>
    simp only [WriteFlight.held, WriteFlight.Reserved, hstage] at hreserved hheld
    refine h.moveTo hi rfl trivial ?_ ?_ ?_
    · simp only [WriteFlight.held, hstage, TenantRuntime.release]
      omega
    · simp only [TenantRuntime.release]
      omega
    · simp only [WriteFlight.refunded, WriteFlight.charged, hstage, TenantRuntime.release]
      omega
  | written reservation =>
    simp only [WriteFlight.held, hstage] at hheld
    refine h.moveTo hi rfl trivial ?_ ?_ ?_
    · simp only [WriteFlight.held, hstage, TenantRuntime.commitSuccessfulOps]
      omega
    · simp only [TenantRuntime.commitSuccessfulOps]
      omega
    · simp only [WriteFlight.refunded, WriteFlight.charged, hstage,
        TenantRuntime.commitSuccessfulOps]
      omega
  | closing result =>
    refine h.moveTo hi rfl trivial ?_ hbounded ?_
    · simp [WriteFlight.held, hstage, TenantRuntime.dropWritePermit]
    · cases result <;>
        simp [WriteFlight.refunded, WriteFlight.charged, hstage, TenantRuntime.dropWritePermit]
  | finished result => exact h

theorem QuotaInv.enter (h : p.QuotaInv B quota) (call : WriteCall) :
    (p.enter call).QuotaInv B quota := by
  have hadd : ∀ (tenant : TenantRuntime) (entered : WriteFlight), tenant.quota = p.tenant.quota →
      tenant.usedStorageBytes = p.tenant.usedStorageBytes → entered.Reserved → entered.held = 0 →
      entered.charged = 0 → entered.refunded = 0 →
      QuotaInv B quota { p with tenant := tenant, calls := p.calls ++ [entered] } := by
    intro tenant entered hquota hused hreserved hheld hcharged hrefunded
    constructor
    case config => exact hquota.trans h.config
    case reserved =>
      intro other hother
      rcases List.mem_append.mp hother with hother | hother
      · exact h.reserved other hother
      · rw [List.mem_singleton.mp hother]
        exact hreserved
    case cover => simpa [hheld, hused] using h.cover
    case bounded => simpa [hused] using h.bounded
    case ledger => simpa [hcharged, hrefunded, hused] using h.ledger
  rw [PipelineState.enter]
  cases hstaged : call.staged with
  | error error => exact hadd p.tenant _ rfl rfl trivial rfl rfl rfl
  | ok ops =>
    cases hbegin : p.tenant.tryBeginWrite with
    | error error => exact hadd p.tenant _ rfl rfl trivial rfl rfl rfl
    | ok tenant =>
      rw [TenantRuntime.tryBeginWrite, guard_eq_ok_iff] at hbegin
      cases hbegin.2
      exact hadd _ _ rfl rfl trivial rfl rfl rfl

variable (B) in
/-- A commit that this step makes is sound. -/
def SoundAt (p : PipelineState β) : Step → Prop
  | .enter _ => True
  | .advance i env => ∀ flight reservation, p.calls[i]? = some flight →
      flight.stage = .reserved reservation →
      SoundCommit (B.rows p.backend) (B.rows (p.commitResult B env flight).2) flight.ops
        (p.commitResult B env flight).1

variable (B) in
/-- Every commit the run makes is sound. -/
def SoundThrough (p : PipelineState β) : List Step → Prop
  | [] => True
  | st :: steps => SoundAt B p st ∧ SoundThrough (p.step B st) steps

theorem QuotaInv.step (h : p.QuotaInv B quota) {st : Step} (hsound : SoundAt B p st) :
    (p.step B st).QuotaInv B quota := by
  cases st with
  | enter call => exact h.enter call
  | advance i env =>
    rw [PipelineState.step]
    cases hi : p.calls[i]? with
    | none => exact h
    | some flight => exact h.advanceFlight hi fun reservation hstage => hsound _ _ hi hstage

/-- The quota holds through any run of sound commits. -/
theorem QuotaInv.run (h : p.QuotaInv B quota) {steps : List Step}
    (hsound : SoundThrough B p steps) : (p.run B steps).QuotaInv B quota := by
  induction steps generalizing p with
  | nil => exact h
  | cons st steps ih => exact ih (h.step hsound.1) hsound.2

end PipelineState

theorem Pipeline.used_of_execute_error {β : Type} {B : Backend β} {env : Env} {p : Pipeline β}
    {call : WriteCall} {error : ReplError}
    (hused : p.tenant.usedStorageBytes ≤ p.tenant.quota.maxStorageBytes.toNat)
    (h : (p.execute B env call).2 = .error error) :
    (p.execute B env call).1.tenant.usedStorageBytes = p.tenant.usedStorageBytes := by
  revert h
  rw [Pipeline.execute]
  cases call.staged with
  | error error => exact fun _ => rfl
  | ok ops =>
    simp only
    cases hbegin : p.tenant.tryBeginWrite with
    | error error => exact fun _ => rfl
    | ok tenant =>
      rw [TenantRuntime.tryBeginWrite, guard_eq_ok_iff] at hbegin
      cases hbegin.2
      simp only
      split
      · exact fun _ => rfl
      · rename_i reservation tenant hreserve
        obtain ⟨hbytes, -, hsum, -⟩ := PipelineState.reserveOps_eq_ok hreserve hused
        split
        · intro _
          simp only [TenantRuntime.dropWritePermit, TenantRuntime.release, hsum, hbytes]
          omega
        · intro h
          contradiction

/-- When the commits are sound, the live rows stay within the quota, and the counter is the sum of
the charges of the calls that did not fail. -/
theorem liveBytes_le_maxStorageBytes {β : Type} (B : Backend β) {b : β} (hempty : B.rows b = .empty)
    (tenantId : String) (quota : TenantQuota) (steps : List PipelineState.Step)
    (hsound : (PipelineState.init b tenantId quota).SoundThrough B steps) :
    let p := (PipelineState.init b tenantId quota).run B steps
    liveBytes (B.rows p.backend) ≤ quota.maxStorageBytes.toNat ∧
      p.tenant.usedStorageBytes + (p.calls.map WriteFlight.refunded).sum =
        (p.calls.map WriteFlight.charged).sum ∧
      ∀ env call error, (p.toPipeline.execute B env call).2 = .error error →
        (p.toPipeline.execute B env call).1.tenant.usedStorageBytes =
          p.tenant.usedStorageBytes := by
  intro p
  have hinv : p.QuotaInv B quota := (PipelineState.quotaInv_init hempty tenantId quota).run hsound
  have hcover := hinv.cover
  have hbounded := hinv.bounded
  refine ⟨by omega, hinv.ledger, fun env call error herror => ?_⟩
  exact Pipeline.used_of_execute_error (by rw [hinv.config]; exact hbounded) herror

/-! ### A single node -/

variable {C : Codecs}

/-- The calls of a single node write their operations or nothing. -/
theorem CommitCall.soundCommit_singleNode {env : Env} {batch : ConditionalBatch} (call : CommitCall)
    (hrows : deletesRows s batch.ops = true) :
    SoundCommit s (call.run (singleNodeBackend C) env s batch).2 batch.ops
      (call.run (singleNodeBackend C) env s batch).1 := by
  have hkept {result : ReplResult Store}
      (h : ∀ s', result = .ok s' → WritesRows C s (opsToWriteSet batch.ops) s') :
      SoundCommit s (written s (result.map ((), ·))).2 batch.ops
        (written s (result.map ((), ·))).1 := by
    cases hresult : result with
    | error error => exact fun _ _ _ => rfl
    | ok s' =>
      have hwrites := h s' hresult
      exact ⟨hrows, public_ops_of_writeSet hwrites.public_rows, hwrites.get_foldl⟩
  cases call with
  | proposeBatch => exact hkept fun s' h => (proposeBatch_commits h).writesRows
  | proposeConditionalBatch =>
    exact hkept fun s' h => (proposeConditionalBatch_commits h).2.writesRows
  | proposePlainDocumentLww collectionId sourceKey =>
    rw [run]
    split
    · split <;> exact fun _ _ _ => rfl
    · exact fun _ _ _ => rfl
  | commitWriteSet snapshotId => exact hkept fun s' h => (commitWriteSet_commits h).writesRows
  | commitWriteSetWithPreflight snapshotId validateReads =>
    refine hkept fun s' h => ?_
    obtain ⟨id, h⟩ := map_snd_eq_ok h
    obtain ⟨hpublic, -, h⟩ := commitPlain_of_preflight h
    exact (commitPlain_steps h).writesRows hpublic

namespace PipelineState

variable (C) in
/-- Each delete of a batch that this step commits removes a row. -/
def deletesRowsAt (p : PipelineState Store) : Step → Bool
  | .enter _ => true
  | .advance i _ =>
    match p.calls[i]? with
    | none => true
    | some flight =>
      match flight.stage with
      | .reserved _ => deletesRows p.backend flight.ops
      | _ => true

variable (C) in
/-- Every delete of the run removes a row that is stored. -/
def deletesRowsThrough (p : PipelineState Store) : List Step → Bool
  | [] => true
  | st :: steps => deletesRowsAt p st && deletesRowsThrough (p.step (singleNodeBackend C) st) steps

/-- On a single node the deletes alone decide. -/
theorem soundThrough_of_deletesRows {p : PipelineState Store} {steps : List Step}
    (h : deletesRowsThrough C p steps = true) : p.SoundThrough (singleNodeBackend C) steps := by
  induction steps generalizing p with
  | nil => trivial
  | cons st steps ih =>
    rw [deletesRowsThrough, Bool.and_eq_true] at h
    refine ⟨?_, ih h.2⟩
    cases st with
    | enter call => trivial
    | advance i env =>
      intro flight reservation hi hstage
      have hrows : deletesRows p.backend flight.ops = true := by
        simpa only [deletesRowsAt, hi, hstage] using h.1
      exact CommitCall.soundCommit_singleNode flight.commit hrows

end PipelineState

def twelveBytes : TenantQuota :=
  { maxStorageBytes := 12, maxConcurrentWrites := 1 }

def plainWrite (ops : List Op) : WriteCall :=
  { conditions := [], staged := .ok ops, commit := .proposeBatch }

def writesInTurn (batches : List (List Op)) : List PipelineState.Step :=
  batches.zipIdx.flatMap fun batch =>
    .enter (plainWrite batch.1) :: List.replicate 4 (.advance batch.2 epochEnv)

def tenBytes : Bytes :=
  List.replicate 10 0

set_option maxRecDepth 20000 in
theorem liveBytes_le_maxStorageBytes_reused :
    let steps := writesInTurn [[.put "t" [1] tenBytes], [.delete "t" [1]]]
    let B := singleNodeBackend wireCodecs
    let p := (PipelineState.init Tables.empty "a" twelveBytes).run B steps
    liveBytes p.backend ≤ 12 ∧
      p.tenant.usedStorageBytes + (p.calls.map WriteFlight.refunded).sum =
        (p.calls.map WriteFlight.charged).sum ∧
      ∀ env call error, (p.toPipeline.execute B env call).2 = .error error →
        (p.toPipeline.execute B env call).1.tenant.usedStorageBytes = p.tenant.usedStorageBytes :=
  liveBytes_le_maxStorageBytes (singleNodeBackend wireCodecs) rfl "a" twelveBytes
    (writesInTurn [[.put "t" [1] tenBytes], [.delete "t" [1]]])
    (PipelineState.soundThrough_of_deletesRows (by decide +kernel))

set_option maxRecDepth 20000 in
/-- A delete of an absent row gives back bytes that were never charged. -/
theorem liveBytes_exceeds_quota_after_absent_delete :
    let steps := writesInTurn
      [[.put "t" [1] tenBytes], [.delete "t" (2 :: tenBytes)], [.put "t" [3] tenBytes]]
    liveBytes ((PipelineState.init Tables.empty "a" twelveBytes).run (singleNodeBackend wireCodecs)
      steps).backend = 24 ∧
      twelveBytes.maxStorageBytes = 12 := by
  decide +kernel

end MultiDb
