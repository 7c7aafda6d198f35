import Mathlib.Data.List.Induction
import MultiDb.Model.LeaseFile

/-!
# Taking over a lease

As long as no process stops in the middle of the bytes of a lease file, the file is missing,
empty, or the whole record of the last write.
-/

namespace MultiDb

open Shared LeaseFile

variable {F : LeaseFormat} {w w' : LeaseWorld} {now ttl : ℤ} {i : ℕ} {bytes : Bytes}
  {record handle : LeaseRecord}

/-- The step leaves a partly written lease file behind. -/
def LeaseStep.Torn (F : LeaseFormat) (w : LeaseWorld) : LeaseStep → Prop
  | .acquire now ttl owner (some (.written n)) =>
    (readLeaseFile F now w.file).any (fun existing => existing.expiresAt > now) = false ∧
    ∃ bytes, F.json.toVec (newRecord now ttl (.uuid w.nextLease) owner) = .ok bytes ∧
      0 < n ∧ n < bytes.length
  | .heartbeat i now ttl (some n) => ∃ handle bytes, w.handles[i]? = some handle ∧
    ensureOwner F now handle w.file = true ∧
    F.json.toVec { handle with expiresAt := leaseExpiration now ttl } = .ok bytes ∧
    0 < n ∧ n < bytes.length
  | _ => False

/-- The file is the whole record of the last write. -/
structure StoresLease (F : LeaseFormat) (w : LeaseWorld) (record : LeaseRecord) : Prop where
  stored : ∃ bytes, w.file = some bytes ∧ F.json.toVec record = .ok bytes
  written : ∃ t ttl, w.lastWrite = some (t, ttl) ∧ record.expiresAt = leaseExpiration t ttl
  handles : ∀ handle ∈ w.handles, handle.leaseId = record.leaseId →
    handle.expiresAt = record.expiresAt

/-- What holds of the lease file and the handles after any run. -/
structure LeaseInv (F : LeaseFormat) (w : LeaseWorld) : Prop where
  ids : ∀ handle ∈ w.handles, ∃ n < w.nextLease, handle.leaseId = .uuid n
  nodup : (w.handles.map (·.leaseId)).Nodup
  file : (w.file = none ∨ w.file = some []) ∨ ∃ record, StoresLease F w record

theorem LeaseInv.read (h : LeaseInv F w) (now : ℤ) : readLeaseFile F now w.file = none ∨
    ∃ record, StoresLease F w record ∧ readLeaseFile F now w.file = some record := by
  rcases h.file with (hnone | hempty) | ⟨record, hstores⟩
  · rw [hnone]
    exact Or.inl rfl
  · rw [hempty, readLeaseFile]
    cases hdecode : F.json.fromSlice [] with
    | ok record => exact absurd hdecode (F.fromSlice_nil record)
    | error e => simp [F.legacyText_nil]
  · obtain ⟨bytes, hbytes, hencode⟩ := hstores.stored
    refine Or.inr ⟨record, hstores, ?_⟩
    rw [hbytes, readLeaseFile, F.json.from_toVec hencode]

/-- A step that adds no handle and writes no record of one. -/
theorem LeaseInv.shrinks (h : LeaseInv F w) (hnext : w.nextLease ≤ w'.nextLease)
    (hhandles : w'.handles.Sublist w.handles)
    (hfile : w'.file = w.file ∨ (w'.file = none ∨ w'.file = some []) ∨
      ∃ record, StoresLease F { w' with lastWrite := some (now, ttl) } record)
    (hlast : w'.lastWrite = if w'.file = w.file then w.lastWrite else some (now, ttl)) :
    LeaseInv F w' := by
  refine ⟨fun handle hhandle => ?_, h.nodup.sublist (hhandles.map _), ?_⟩
  · obtain ⟨n, hn, hid⟩ := h.ids handle (hhandles.subset hhandle)
    exact ⟨n, hn.trans_le hnext, hid⟩
  by_cases hsame : w'.file = w.file
  · rw [if_pos hsame] at hlast
    refine h.file.imp (fun hfile => hsame ▸ hfile) ?_
    rintro ⟨record, hstored, hwritten, hexpires⟩
    exact ⟨record, hsame ▸ hstored, hlast ▸ hwritten,
      fun handle hhandle => hexpires handle (hhandles.subset hhandle)⟩
  · rw [if_neg hsame] at hlast
    rcases hfile with hfile | hempty | ⟨record, hstored, hwritten, hexpires⟩
    · exact absurd hfile hsame
    · exact Or.inl hempty
    · exact Or.inr ⟨record, hstored, hlast ▸ hwritten, hexpires⟩

theorem take_of_untorn {n : ℕ} (h : ¬ (0 < n ∧ n < bytes.length)) :
    bytes.take n = [] ∨ bytes.take n = bytes := by
  rcases Nat.eq_zero_or_pos n with rfl | hn
  · exact Or.inl rfl
  · exact Or.inr (List.take_of_length_le (by omega))

/-! ## Steps -/

/-- An acquire that is not torn keeps the invariant. -/
theorem LeaseInv.acquire (h : LeaseInv F w) {owner : Option LeaseId} {stop : Option AcquireStop}
    (hwhole : ¬ (LeaseStep.acquire now ttl owner stop).Torn F w) :
    LeaseInv F (w.step F (.acquire now ttl owner stop)) := by
  have hfresh : ∀ handle ∈ w.handles, handle.leaseId ≠ .uuid w.nextLease := by
    intro handle hhandle hid
    obtain ⟨n, hn, hid'⟩ := h.ids handle hhandle
    obtain rfl := LeaseId.uuid.inj (hid'.symm.trans hid)
    exact absurd hn (lt_irrefl _)
  simp only [LeaseWorld.step, acquireWithOptions]
  by_cases hheld : (readLeaseFile F now w.file).any fun existing => existing.expiresAt > now
  · rw [if_pos hheld]
    exact h.shrinks (Nat.le_succ _) (.refl _) (Or.inl rfl) rfl
  simp only [if_neg hheld]
  cases hencode : F.json.toVec (newRecord now ttl (.uuid w.nextLease) owner) with
  | error e =>
    rcases stop with - | - | n
    · exact h.shrinks (Nat.le_succ _) (.refl _) (Or.inr (Or.inl (Or.inr rfl))) rfl
    · exact h.shrinks (Nat.le_succ _) (.refl _) (Or.inr (Or.inl (Or.inl rfl))) rfl
    · exact h.shrinks (Nat.le_succ _) (.refl _) (Or.inr (Or.inl (Or.inr rfl))) rfl
  | ok bytes =>
    rcases stop with - | - | n
    · refine ⟨?_, ?_, Or.inr ⟨_, ⟨bytes, rfl, hencode⟩, ⟨now, ttl, rfl, rfl⟩, ?_⟩⟩
      · intro handle hhandle
        rcases List.mem_append.mp hhandle with hhandle | hhandle
        · obtain ⟨n, hn, hid⟩ := h.ids handle hhandle
          exact ⟨n, hn.trans (Nat.lt_succ_self _), hid⟩
        · exact ⟨w.nextLease, Nat.lt_succ_self _, by rw [List.mem_singleton.mp hhandle, newRecord]⟩
      · rw [List.map_append, List.nodup_append]
        refine ⟨h.nodup, by simp, ?_⟩
        simpa [newRecord] using hfresh
      · intro handle hhandle hid
        rcases List.mem_append.mp hhandle with hhandle | hhandle
        · exact absurd hid (hfresh handle hhandle)
        · rw [List.mem_singleton.mp hhandle]
    · exact h.shrinks (Nat.le_succ _) (.refl _) (Or.inr (Or.inl (Or.inl rfl))) rfl
    · refine h.shrinks (Nat.le_succ _) (.refl _) (Or.inr ?_) rfl
      rcases take_of_untorn fun hn => hwhole ⟨by simpa using hheld, bytes, hencode, hn⟩ with
        hcut | hcut
      · exact Or.inl (Or.inr (congrArg some hcut))
      · exact Or.inr ⟨_, ⟨bytes, congrArg some hcut, hencode⟩, ⟨now, ttl, rfl, rfl⟩,
          fun handle hhandle hid => absurd hid (hfresh handle hhandle)⟩

/-- A heartbeat that is not torn keeps the invariant. -/
theorem LeaseInv.heartbeat (h : LeaseInv F w) {stop : Option ℕ}
    (hwhole : ¬ (LeaseStep.heartbeat i now ttl stop).Torn F w) :
    LeaseInv F (w.step F (.heartbeat i now ttl stop)) := by
  simp only [LeaseWorld.step]
  cases hhandle : w.handles[i]? with
  | none => exact h
  | some handle =>
    have hi := (List.getElem?_eq_some_iff.mp hhandle).1
    have hget : w.handles[i] = handle := (List.getElem?_eq_some_iff.mp hhandle).2
    -- no other handle has the id of this one
    have hother : ∀ j other, w.handles[j]? = some other → other.leaseId = handle.leaseId →
        j = i := by
      intro j other hj hid
      have hlt := (List.getElem?_eq_some_iff.mp hj).1
      refine (List.getElem?_inj (by simpa using hlt) h.nodup).mp ?_
      simp [hj, hhandle, hid]
    simp only [LeaseFile.heartbeat]
    by_cases howner : ensureOwner F now handle w.file
    case neg =>
      rw [if_neg howner]
      refine h.shrinks le_rfl ?_ (Or.inl rfl) rfl
      cases stop with
      | none => exact .refl _
      | some n => exact List.eraseIdx_sublist _ _
    rw [if_pos howner]
    cases hencode : F.json.toVec { handle with expiresAt := leaseExpiration now ttl } with
    | error e =>
      refine h.shrinks le_rfl ?_ (Or.inl rfl) rfl
      cases stop with
      | none => exact .refl _
      | some n => exact List.eraseIdx_sublist _ _
    | ok bytes =>
      cases stop with
      | none =>
        refine ⟨?_, ?_, Or.inr ⟨_, ⟨bytes, rfl, hencode⟩, ⟨now, ttl, rfl, rfl⟩, ?_⟩⟩
        · intro other hmem
          rcases List.mem_or_eq_of_mem_set hmem with hmem | rfl
          · exact h.ids other hmem
          · exact h.ids handle (List.mem_of_getElem? hhandle)
        · have hids := (List.set_getElem_self (by simpa using hi) :
            (w.handles.map (·.leaseId)).set i _ = w.handles.map (·.leaseId))
          simp only [List.getElem_map, hget] at hids
          simpa only [List.map_set, hids] using h.nodup
        · intro other hmem hid
          obtain ⟨j, hj⟩ := List.mem_iff_getElem?.mp hmem
          rw [List.getElem?_set] at hj
          by_cases hij : i = j
          · rw [if_pos hij, if_pos hi] at hj
            rw [← Option.some.inj hj]
          · rw [if_neg hij] at hj
            exact absurd (hother j other hj hid).symm hij
      | some n =>
        refine h.shrinks le_rfl (List.eraseIdx_sublist _ _) (Or.inr ?_) rfl
        rcases take_of_untorn fun hn => hwhole ⟨handle, bytes, hhandle, howner, hencode, hn⟩ with
          hcut | hcut
        · exact Or.inl (Or.inr (congrArg some hcut))
        · refine Or.inr ⟨_, ⟨bytes, congrArg some hcut, hencode⟩, ⟨now, ttl, rfl, rfl⟩, ?_⟩
          intro other hmem hid
          obtain ⟨j, hne, hj⟩ := List.mem_eraseIdx_iff_getElem?.mp hmem
          exact absurd (hother j other hj hid) hne

theorem LeaseInv.step (h : LeaseInv F w) : ∀ {s : LeaseStep}, ¬ s.Torn F w →
    LeaseInv F (w.step F s)
  | .acquire .., hwhole => h.acquire hwhole
  | .heartbeat .., hwhole => h.heartbeat hwhole
  | .release i now, _ => by
    simp only [LeaseWorld.step]
    cases w.handles[i]? with
    | none => exact h
    | some handle =>
      simp only [LeaseFile.release]
      repeat' split
      · exact h
      · exact h
      · exact ⟨h.ids, h.nodup, Or.inl (Or.inl rfl)⟩
  | .stop i, _ => by
    refine ⟨fun handle hmem => h.ids handle (List.mem_of_mem_eraseIdx hmem),
      h.nodup.sublist ((List.eraseIdx_sublist _ _).map _), h.file.imp_right ?_⟩
    rintro ⟨record, hstored, hwritten, hexpires⟩
    exact ⟨record, hstored, hwritten,
      fun handle hmem => hexpires handle (List.mem_of_mem_eraseIdx hmem)⟩

theorem leaseInv_leaseRun {steps : List LeaseStep}
    (hwhole : ∀ done step rest, steps = done ++ step :: rest → ¬ step.Torn F (leaseRun F done)) :
    LeaseInv F (leaseRun F steps) := by
  induction steps using List.reverseRecOn with
  | nil => exact ⟨by simp [leaseRun], by simp [leaseRun], Or.inl (Or.inl rfl)⟩
  | append_singleton done step ih =>
    rw [leaseRun, List.foldl_append]
    refine (ih fun earlier s rest hsplit => ?_).step (hwhole done step [] rfl)
    exact hwhole earlier s (rest ++ [step]) (by simp [hsplit])

/-- Without torn writes, one token at most is valid, an expired lease is refused, and an abandoned
one is taken over. -/
theorem abandoned_lease_taken_over (F : LeaseFormat) (steps : List LeaseStep)
    (hwhole : ∀ done step rest, steps = done ++ step :: rest → ¬ step.Torn F (leaseRun F done))
    (now : ℤ) :
    (∀ a b, validateFencingToken F now a (leaseRun F steps).file = .ok () →
      validateFencingToken F now b (leaseRun F steps).file = .ok () → a = b) ∧
    (∀ handle ∈ (leaseRun F steps).handles, handle.expiresAt ≤ now →
      validateFencingToken F now handle.leaseId (leaseRun F steps).file =
        .error (.leaseOwnerMismatch leasePath) ∧
      ∀ ttl stop, LeaseFile.heartbeat F now ttl handle stop (leaseRun F steps).file =
        ((leaseRun F steps).file, .error (.leaseOwnerMismatch leasePath))) ∧
    ((∀ t ttl, (leaseRun F steps).lastWrite = some (t, ttl) → leaseExpiration t ttl ≤ now) →
      ∀ ttl leaseId owner bytes, F.json.toVec (newRecord now ttl leaseId owner) = .ok bytes →
      acquireWithOptions F now ttl leaseId owner none (leaseRun F steps).file =
        (some bytes, .ok (newRecord now ttl leaseId owner))) := by
  have hinv := leaseInv_leaseRun hwhole
  refine ⟨fun a b ha hb => ?_, fun handle hmem hexpired => ?_, ?_⟩
  · unfold validateFencingToken at ha hb
    cases hread : readLeaseFile F now (leaseRun F steps).file with
    | none => simp [hread] at ha
    | some record => simp_all
  · rcases hinv.read now with hread | ⟨record, hstores, hread⟩
    · simp [validateFencingToken, LeaseFile.heartbeat, ensureOwner, hread]
    · have hnot : record.leaseId = handle.leaseId → record.expiresAt ≤ now := fun hid =>
        hstores.handles handle hmem hid.symm ▸ hexpired
      simp_all [validateFencingToken, LeaseFile.heartbeat, ensureOwner]
  · intro hlast ttl leaseId owner bytes hencode
    have hfree : (readLeaseFile F now (leaseRun F steps).file).any
        (fun existing => existing.expiresAt > now) = false := by
      rcases hinv.read now with hread | ⟨record, hstores, hread⟩
      · simp [hread]
      · obtain ⟨t, ttl', hwritten, hexpires⟩ := hstores.written
        simp [hread, hexpires, hlast t ttl' hwritten]
    simp only [acquireWithOptions, hfree, hencode, Bool.false_eq_true, if_false]

private def leaseText (n nanos : String) : Bytes :=
  let uuid := "\"00000000-0000-4000-8000-00000000000" ++ n ++ "\","
  strBytes ("\x7b\"lease_id\":" ++ uuid ++ "\"owner\":" ++ uuid ++
    "\"expires_at\":\x7b\"secs_since_epoch\":0,\"nanos_since_epoch\":" ++ nanos ++ "\x7d\x7d")

private def leaseJson : Json LeaseRecord :=
  .ofTable
    [(newRecord 0 (10 ^ 7) (.uuid 0) none, leaseText "0" "10000000"),
      (newRecord 0 (10 ^ 7) (.uuid 1) none, leaseText "1" "10000000"),
      (newRecord (10 ^ 8) (10 ^ 7) (.uuid 2) none, leaseText "2" "110000000")] (by decide)

private theorem leaseJson_answers :
    leaseJson.fromSlice [] = .error "" ∧ leaseJson.fromSlice [123, 34, 108] = .error "" ∧
    leaseJson.toVec (newRecord (10 ^ 8) (10 ^ 7) (.uuid 2) none) =
      .ok (leaseText "2" "110000000") := by
  decide +kernel

private def leaseSample : LeaseFormat where
  json := leaseJson
  legacyText bytes := String.ofList (bytes.map fun b => Char.ofNat b.toNat)
  fromSlice_nil record := by simp [leaseJson_answers.1]
  legacyText_nil := rfl

private def leaseSteps : List LeaseStep :=
  [.acquire 0 (10 ^ 7) none (some (.written 0)), .acquire 0 (10 ^ 7) none none]

theorem abandoned_lease_taken_over_sample :
    validateFencingToken leaseSample (10 ^ 8) (.uuid 1) (leaseRun leaseSample leaseSteps).file =
      .error (.leaseOwnerMismatch leasePath) ∧
    (acquireWithOptions leaseSample (10 ^ 8) (10 ^ 7) (.uuid 2) none none
      (leaseRun leaseSample leaseSteps).file).2 =
        .ok (newRecord (10 ^ 8) (10 ^ 7) (.uuid 2) none) := by
  have hrun : (leaseRun leaseSample leaseSteps).handles = [newRecord 0 (10 ^ 7) (.uuid 1) none] ∧
      (leaseRun leaseSample leaseSteps).lastWrite = some (0, 10 ^ 7) := by decide +kernel
  obtain ⟨-, hexpired, hacquire⟩ := abandoned_lease_taken_over leaseSample leaseSteps (by
    intro done step rest hsplit
    have hmem : step ∈ leaseSteps := by simp [hsplit]
    simp only [leaseSteps, List.mem_cons, List.not_mem_nil, or_false] at hmem
    rcases hmem with rfl | rfl
    · rintro ⟨-, bytes, -, hn, -⟩
      exact absurd hn (lt_irrefl _)
    · exact id) (10 ^ 8)
  have hmem : newRecord 0 (10 ^ 7) (.uuid 1) none ∈ (leaseRun leaseSample leaseSteps).handles := by
    rw [hrun.1]
    exact List.mem_singleton_self _
  refine ⟨(hexpired _ hmem (by decide)).1, ?_⟩
  have hencode : leaseSample.json.toVec (newRecord (10 ^ 8) (10 ^ 7) (.uuid 2) none) = .ok _ :=
    leaseJson_answers.2.2
  refine congrArg Prod.snd (hacquire (fun t ttl h => ?_) _ _ _ _ hencode)
  cases hrun.2.symm.trans h
  decide

/-- A process stops after three bytes of the file: no time is late enough to acquire the lease. -/
theorem torn_lease_never_taken_over :
    (leaseRun leaseSample [.acquire 0 (10 ^ 7) none (some (.written 3))]).lastWrite =
      some (0, 10 ^ 7) ∧
    ∀ now ttl leaseId owner, (acquireWithOptions leaseSample now ttl leaseId owner none
      (leaseRun leaseSample [.acquire 0 (10 ^ 7) none (some (.written 3))]).file).2 =
        .error (.leaseExists leasePath) := by
  have hrun : (leaseRun leaseSample [.acquire 0 (10 ^ 7) none (some (.written 3))]).file =
      some [123, 34, 108] := by decide +kernel
  refine ⟨by decide +kernel, fun now ttl leaseId owner => ?_⟩
  have hdecode : leaseSample.json.fromSlice [123, 34, 108] = .error "" := leaseJson_answers.2.1
  have htext : leaseSample.legacyText [123, 34, 108] ≠ "" := by decide +kernel
  rw [hrun]
  simp [acquireWithOptions, readLeaseFile, hdecode, htext]

end MultiDb
