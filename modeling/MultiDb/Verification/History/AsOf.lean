import Mathlib.Data.List.Induction
import MultiDb.Verification.History.Prune

/-!
# Reading a table at an id

`rowsAsOfLsn` keeps the newest version at or below the id for each row of a table.
-/

namespace MultiDb

open Shared

variable {C : Codecs} {row : Bytes × Bytes}

theorem versionRow_cases (pfx row : Bytes) :
    (row.length < pfx.length + 8 ∨ ¬ pfx.isPrefixOf row) ∨
      ∃ lk v, row = pfx ++ lk ++ be64 v := by
  by_cases hlen : row.length < pfx.length + 8
  · exact Or.inl (Or.inl hlen)
  by_cases hpfx : pfx.isPrefixOf row
  · obtain ⟨rest, rfl⟩ := List.isPrefixOf_iff_prefix.mp hpfx
    have hrest : 8 ≤ rest.length := by
      rw [List.length_append] at hlen
      omega
    obtain ⟨v, hv⟩ := exists_be64_of_length
      (show (rest.drop (rest.length - 8)).length = 8 by rw [List.length_drop]; omega)
    refine Or.inr ⟨rest.take (rest.length - 8), v, ?_⟩
    rw [List.append_assoc, ← hv, List.take_append_drop]
  · exact Or.inl (Or.inr hpfx)

theorem versionRow_parts (pfx lk : Bytes) (v : TxnId) :
    ¬ ((pfx ++ lk ++ be64 v).length < pfx.length + 8 ∨
      ¬ pfx.isPrefixOf (pfx ++ lk ++ be64 v)) ∧
    (pfx ++ lk ++ be64 v).drop ((pfx ++ lk ++ be64 v).length - 8) = be64 v ∧
    ((pfx ++ lk ++ be64 v).drop pfx.length).take
      ((pfx ++ lk ++ be64 v).length - 8 - pfx.length) = lk := by
  have hlen : (pfx ++ lk ++ be64 v).length = pfx.length + lk.length + 8 := by
    simp [Nat.add_assoc]
  refine ⟨?_, ?_, ?_⟩
  · rw [hlen, List.append_assoc]
    simp
  · rw [hlen, show pfx.length + lk.length + 8 - 8 = (pfx ++ lk).length by simp, List.drop_left]
  · rw [hlen, List.append_assoc, List.drop_left,
      show pfx.length + lk.length + 8 - 8 - pfx.length = lk.length by omega, List.take_left]

theorem visitVersion_eq {pfx lk value : Bytes} {lsn v : TxnId}
    {byKey : Std.ExtTreeMap Bytes (TxnId × Option Bytes)} :
    visitVersion C pfx lsn byKey (pfx ++ lk ++ be64 v, value) =
      if v > lsn then .ok byKey
      else do
        let record ← decodeMvccRecord C value
        if byKey[lk]?.all fun current : TxnId × Option Bytes => v > current.1 then
          return byKey.insert lk (v, record.value)
        else
          return byKey := by
  obtain ⟨hform, hdrop, hkey⟩ := versionRow_parts pfx lk v
  rw [visitVersion, if_neg hform, hdrop, hkey, decodeTxnId, ofBe64?_be64]
  rfl

/-- The newest visible version of each logical key among the rows met so far. -/
structure NewestByKey (C : Codecs) (pfx : Bytes) (lsn : TxnId) (rows : List (Bytes × Bytes))
    (byKey : Std.ExtTreeMap Bytes (TxnId × Option Bytes)) : Prop where
  sound : ∀ lk v x, byKey[lk]? = some (v, x) → v ≤ lsn ∧
    ∃ value, (pfx ++ lk ++ be64 v, value) ∈ rows ∧ decodeMvccRecord C value = .ok { value := x }
  complete : ∀ lk v value, (pfx ++ lk ++ be64 v, value) ∈ rows → v ≤ lsn →
    ∃ w x, byKey[lk]? = some (w, x) ∧ v ≤ w

section Loop

variable {pfx : Bytes} {lsn : TxnId} {rows : List (Bytes × Bytes)}
  {byKey byKey' : Std.ExtTreeMap Bytes (TxnId × Option Bytes)}

theorem versionRow_inj {lk lk' : Bytes} {v v' : TxnId}
    (h : pfx ++ lk ++ be64 v = pfx ++ lk' ++ be64 v') : lk = lk' ∧ v = v' := by
  obtain ⟨hfront, hv⟩ := List.append_inj' h (by simp)
  exact ⟨List.append_cancel_left hfront, be64_inj.mp hv⟩

theorem NewestByKey.skip (h : NewestByKey C pfx lsn rows byKey)
    (hrow : ∀ lk v value, row = (pfx ++ lk ++ be64 v, value) → v ≤ lsn →
      ∃ w x, byKey[lk]? = some (w, x) ∧ v ≤ w) :
    NewestByKey C pfx lsn (rows ++ [row]) byKey := by
  constructor
  · intro lk v x hget
    obtain ⟨hle, value, hmem, hdecode⟩ := h.sound lk v x hget
    exact ⟨hle, value, List.mem_append_left _ hmem, hdecode⟩
  · intro lk v value hmem hle
    rcases List.mem_append.mp hmem with hmem | hmem
    · exact h.complete lk v value hmem hle
    · exact hrow lk v value (List.mem_singleton.mp hmem).symm hle

theorem NewestByKey.replace {lk value : Bytes} {v : TxnId} {record : MvccRecord}
    (h : NewestByKey C pfx lsn rows byKey) (hle : v ≤ lsn)
    (hdecode : decodeMvccRecord C value = .ok record)
    (hnewer : ∀ current, byKey[lk]? = some current → current.1 < v) :
    NewestByKey C pfx lsn (rows ++ [(pfx ++ lk ++ be64 v, value)])
      (byKey.insert lk (v, record.value)) := by
  constructor
  · intro lk' v' x hget
    rw [Std.ExtTreeMap.getElem?_insert] at hget
    split at hget
    · rename_i heq
      obtain rfl := Std.LawfulEqOrd.eq_of_compare heq
      cases hget
      exact ⟨hle, value, List.mem_append_right _ (List.mem_singleton_self _), hdecode⟩
    · obtain ⟨hle', value', hmem, hdecode'⟩ := h.sound lk' v' x hget
      exact ⟨hle', value', List.mem_append_left _ hmem, hdecode'⟩
  · intro lk' v' value' hmem hle'
    rw [Std.ExtTreeMap.getElem?_insert]
    rcases List.mem_append.mp hmem with hmem | hmem
    · obtain ⟨w, x, hget, hw⟩ := h.complete lk' v' value' hmem hle'
      split
      · rename_i heq
        obtain rfl := Std.LawfulEqOrd.eq_of_compare heq
        exact ⟨v, record.value, rfl, hw.trans (hnewer _ hget).le⟩
      · exact ⟨w, x, hget, hw⟩
    · obtain ⟨rfl, rfl⟩ := versionRow_inj (Prod.mk.inj (List.mem_singleton.mp hmem)).1
      exact ⟨v', record.value, by simp, le_rfl⟩

/-- One more row keeps the newest version of each key. -/
theorem NewestByKey.visit (h : NewestByKey C pfx lsn rows byKey)
    (hstep : visitVersion C pfx lsn byKey row = .ok byKey') :
    NewestByKey C pfx lsn (rows ++ [row]) byKey' := by
  obtain ⟨row, value⟩ := row
  rcases versionRow_cases pfx row with hform | ⟨lk, v, rfl⟩
  · rw [visitVersion, if_pos hform] at hstep
    cases hstep
    refine h.skip fun lk v value' heq _ => ?_
    cases heq
    simp at hform
  · have hsame : ∀ lk' v' value', (pfx ++ lk ++ be64 v, value) = (pfx ++ lk' ++ be64 v', value') →
        lk = lk' ∧ v = v' := fun _ _ _ heq => versionRow_inj (Prod.mk.inj heq).1
    rw [visitVersion_eq] at hstep
    split at hstep
    · rename_i hgt
      cases hstep
      refine h.skip fun lk' v' value' heq hle => ?_
      obtain ⟨rfl, rfl⟩ := hsame _ _ _ heq
      exact absurd hgt hle.not_gt
    · rename_i hle
      obtain ⟨record, hdecode, hstep⟩ := bind_eq_ok_iff.mp hstep
      split at hstep
      · rename_i hnewer
        obtain rfl := pure_eq_ok_iff.mp hstep
        refine h.replace (not_lt.mp hle) hdecode fun current hcurrent => ?_
        simpa [hcurrent] using hnewer
      · rename_i holder
        obtain rfl := pure_eq_ok_iff.mp hstep
        refine h.skip fun lk' v' value' heq _ => ?_
        obtain ⟨rfl, rfl⟩ := hsame _ _ _ heq
        cases hget : byKey[lk]? with
        | none => simp [hget] at holder
        | some current => exact ⟨current.1, current.2, rfl, by simpa [hget] using holder⟩

theorem newestByKey_foldlM (hrun : rows.foldlM (visitVersion C pfx lsn) ∅ = .ok byKey) :
    NewestByKey C pfx lsn rows byKey := by
  induction rows using List.reverseRecOn generalizing byKey with
  | nil =>
    obtain rfl := pure_eq_ok_iff.mp hrun
    exact ⟨by simp, by simp⟩
  | append_singleton rows row ih =>
    rw [List.foldlM_append, bind_eq_ok_iff] at hrun
    obtain ⟨byKey₀, hinit, hlast⟩ := hrun
    obtain ⟨byKey₁, hstep, hnil⟩ := foldlM_cons_eq_ok_iff.mp hlast
    obtain rfl := pure_eq_ok_iff.mp hnil
    exact (ih hinit).visit hstep

end Loop

/-! ## Rows -/

section Rows

variable {s s' : Store} {pfx : Bytes} {lsn : TxnId}
  {byKey : Std.ExtTreeMap Bytes (TxnId × Option Bytes)}

theorem asOf_eq_byKey
    (hrun : (range s txnMvccTable pfx (rangeEnd pfx)).foldlM (visitVersion C pfx lsn) ∅ = .ok byKey)
    (lk : Bytes) : asOf C s (pfx ++ lk) lsn = .ok (byKey[lk]?.bind (·.2)) := by
  have hnewest := newestByKey_foldlM hrun
  have hstart : ∀ x, (compare pfx (pfx ++ x)).isLE = true := by
    intro x
    have := compare_append_left pfx [] x
    rw [List.append_nil] at this
    rw [this]
    cases x <;> rfl
  have hcomplete : ∀ w ≤ lsn, chainOf C s (pfx ++ lk) w ≠ none →
      ∃ w' x, byKey[lk]? = some (w', x) ∧ w ≤ w' := by
    intro w hw hpresent
    obtain ⟨value, hvalue⟩ : ∃ value, s.get txnMvccTable (pfx ++ lk ++ be64 w) = some value := by
      simpa [chainOf, Option.ne_none_iff_exists'] using hpresent
    refine hnewest.complete lk w value (mem_range.mpr ⟨hvalue, ?_⟩) hw
    rw [List.append_assoc]
    exact keyInRange_rangeEnd (hstart _)
  apply asOf_eq_of_sees
  cases hget : byKey[lk]? with
  | none =>
    refine Or.inr ⟨rfl, fun w hw => ?_⟩
    by_contra hpresent
    obtain ⟨w', x, hsome, -⟩ := hcomplete w hw hpresent
    rw [hget] at hsome
    contradiction
  | some current =>
    obtain ⟨v, x⟩ := current
    obtain ⟨hle, value, hmem, hdecode⟩ := hnewest.sound lk v x hget
    have hchain : chainOf C s (pfx ++ lk) v = some (.ok x) := by
      rw [chainOf, (mem_range.mp hmem).1]
      simp [hdecode, Functor.map, Except.map]
    refine Or.inl ⟨v, ⟨hle, by simp [hchain], fun w hw hpresent => ?_⟩, hchain⟩
    obtain ⟨w', x', hsome, hww'⟩ := hcomplete w hw hpresent
    rw [hget, Option.some_inj, Prod.mk.injEq] at hsome
    exact hsome.1 ▸ hww'

theorem exists_visitVersion_eq_ok {byKey₀ byKey₁ : Std.ExtTreeMap Bytes (TxnId × Option Bytes)}
    (h : visitVersion C pfx lsn byKey₀ row = .ok byKey₁)
    (byKey : Std.ExtTreeMap Bytes (TxnId × Option Bytes)) :
    ∃ byKey', visitVersion C pfx lsn byKey row = .ok byKey' := by
  obtain ⟨row, value⟩ := row
  rcases versionRow_cases pfx row with hform | ⟨lk, v, rfl⟩
  · exact ⟨byKey, if_pos hform⟩
  · rw [visitVersion_eq] at h ⊢
    split
    · exact ⟨byKey, rfl⟩
    · rename_i hle
      rw [if_neg hle] at h
      obtain ⟨record, hdecode, -⟩ := bind_eq_ok_iff.mp h
      rw [hdecode]
      by_cases hnewer : byKey[lk]?.all fun current : TxnId × Option Bytes => v > current.1
      · exact ⟨_, if_pos hnewer⟩
      · exact ⟨_, if_neg hnewer⟩

theorem visitVersion_of_later {vk : Bytes} {v : TxnId} (hrow : row.1 = vk ++ be64 v) (hlt : lsn < v)
    (byKey : Std.ExtTreeMap Bytes (TxnId × Option Bytes)) :
    visitVersion C pfx lsn byKey row = .ok byKey := by
  obtain ⟨row, value⟩ := row
  rcases versionRow_cases pfx row with hform | ⟨lk, w, rfl⟩
  · exact if_pos hform
  · have hvw : be64 w = be64 v := (List.append_inj' hrow (by simp)).2
    rw [visitVersion_eq, be64_inj.mp hvw, if_pos hlt]

/-- A read is kept when no row changes its value at `lsn`. -/
theorem rowsAsOfLsn_of_asOf {table : String} {rows : List Bytes}
    (hsub : ∀ row value, s'.get txnMvccTable row = some value →
      s.get txnMvccTable row = some value ∨ ∃ vk v, row = vk ++ be64 v ∧ lsn < v)
    (hasOf : ∀ k vk, versionKey relRowsTable k = .ok vk → asOf C s' vk lsn = asOf C s vk lsn)
    (hretained : ensureHistoryRetained s' lsn = .ok ())
    (h : rowsAsOfLsn C s table lsn = .ok rows) : rowsAsOfLsn C s' table lsn = .ok rows := by
  simp only [rowsAsOfLsn, bind_eq_ok_iff, mapError_eq_ok_iff, pure_eq_ok_iff] at h ⊢
  obtain ⟨_, -, pfx, hpfx, byKey, hrun, rfl⟩ := h
  obtain ⟨byKey', hrun'⟩ : ∃ byKey', (range s' txnMvccTable pfx (rangeEnd pfx)).foldlM
      (visitVersion C pfx lsn) ∅ = .ok byKey' := by
    refine exists_foldlM_eq_ok (fun row hrow t => ?_) ∅
    obtain ⟨hget, hin⟩ := mem_range.mp hrow
    rcases hsub _ _ hget with hold | ⟨vk, v, heq, hlt⟩
    · obtain ⟨_, _, hok⟩ := foldlM_mem hrun (mem_range.mpr ⟨hold, hin⟩)
      exact exists_visitVersion_eq_ok hok t
    · exact ⟨t, visitVersion_of_later heq hlt t⟩
  refine ⟨(), hretained, pfx, hpfx, byKey', hrun', ?_⟩
  refine toList_filterMap_congr (g := fun entry : TxnId × Option Bytes => entry.2) fun lk => ?_
  obtain ⟨hlen, hpfx⟩ := versionKey_eq_ok_iff.mp hpfx
  have hvk : versionKey relRowsTable (tablePrefixBytes table ++ lk) = .ok (pfx ++ lk) :=
    versionKey_eq_ok_iff.mpr ⟨hlen, by rw [hpfx, List.append_assoc]⟩
  have heq := hasOf _ _ hvk
  rw [asOf_eq_byKey hrun', asOf_eq_byKey hrun] at heq
  exact Except.ok.inj heq

end Rows

end MultiDb
