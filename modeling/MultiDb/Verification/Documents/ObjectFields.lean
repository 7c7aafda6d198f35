import MultiDb.Verification.Documents.ValueEncoding

/-!
# The fields of an object

The decoder collects the fields it reads in the order of their names.  A name that comes
twice keeps its last value.
-/

namespace MultiDb

open Shared

variable {fields acc : List (String × Value)} {name : String} {value : Value}

/-! ## Names that ascend already -/

theorem insertField_append
    (h : ∀ field ∈ fields, compare (strBytes field.1) (strBytes name) = .lt) :
    insertField name value fields = fields ++ [(name, value)] := by
  induction fields with
  | nil => rfl
  | cons field fields ih =>
    have hgt : compare (strBytes name) (strBytes field.1) = .gt :=
      Std.OrientedCmp.gt_of_lt (h field List.mem_cons_self)
    rw [insertField, hgt]
    simp only [List.cons_append, List.cons.injEq, true_and]
    exact ih fun field' hfield' => h field' (List.mem_cons_of_mem field hfield')

theorem foldl_insertField_of_ascend
    (h : (acc ++ fields).Pairwise fun a b => compare (strBytes a.1) (strBytes b.1) = .lt) :
    fields.foldl (fun fields field => insertField field.1 field.2 fields) acc = acc ++ fields := by
  induction fields generalizing acc with
  | nil => simp
  | cons field fields ih =>
    have hlast : insertField field.1 field.2 acc = acc ++ [field] :=
      insertField_append fun field' hfield' =>
        (List.pairwise_append.mp h).2.2 field' hfield' field List.mem_cons_self
    rw [List.foldl_cons, hlast, ih (by simpa using h)]
    simp

/-! ## Names in any order -/

theorem mem_insertField {field : String × Value}
    (h : field ∈ insertField name value fields) : field = (name, value) ∨ field ∈ fields := by
  induction fields with
  | nil => simpa [insertField] using h
  | cons first fields ih =>
    rw [insertField] at h
    cases hcmp : compare (strBytes name) (strBytes first.1) with
    | lt => simpa [hcmp] using h
    | eq =>
      rw [hcmp] at h
      rcases List.mem_cons.mp h with rfl | hmem
      · exact Or.inl rfl
      · exact Or.inr (List.mem_cons_of_mem _ hmem)
    | gt =>
      rw [hcmp] at h
      rcases List.mem_cons.mp h with rfl | hmem
      · exact Or.inr List.mem_cons_self
      · exact (ih hmem).imp_right (List.mem_cons_of_mem _)

/-- Fields stay sorted by name. -/
theorem insertField_ascend
    (h : fields.Pairwise fun a b => compare (strBytes a.1) (strBytes b.1) = .lt) :
    (insertField name value fields).Pairwise
      fun a b => compare (strBytes a.1) (strBytes b.1) = .lt := by
  induction fields with
  | nil => simp [insertField]
  | cons first fields ih =>
    obtain ⟨hfirst, hfields⟩ := List.pairwise_cons.mp h
    rw [insertField]
    cases hcmp : compare (strBytes name) (strBytes first.1) with
    | lt =>
      refine List.pairwise_cons.mpr ⟨fun field hfield => ?_, h⟩
      rcases List.mem_cons.mp hfield with rfl | hmem
      · exact hcmp
      · exact Std.TransCmp.lt_trans hcmp (hfirst field hmem)
    | eq =>
      have hname : strBytes name = strBytes first.1 := Std.LawfulEqOrd.eq_of_compare hcmp
      refine List.pairwise_cons.mpr ⟨fun field hfield => ?_, hfields⟩
      rw [hname]
      exact hfirst field hfield
    | gt =>
      refine List.pairwise_cons.mpr ⟨fun field hfield => ?_, ih hfields⟩
      rcases mem_insertField hfield with rfl | hmem
      · exact Std.OrientedCmp.lt_of_gt hcmp
      · exact hfirst field hmem

/-! ## The size of the fields -/

/-- The bytes of a field in the payload of its object. -/
def fieldSize (field : String × Value) : ℕ :=
  8 + (strBytes field.1).length + field.2.payload.length

theorem length_fieldPayloads (fields : List (String × Value)) :
    (Value.fieldPayloads fields).length = (fields.map fieldSize).sum := by
  induction fields with
  | nil => rfl
  | cons field fields ih =>
    simp [Value.fieldPayloads, ih, fieldSize]
    omega

theorem insertField_size (name : String) (value : Value) (fields : List (String × Value)) :
    ((insertField name value fields).map fieldSize).sum ≤
      fieldSize (name, value) + (fields.map fieldSize).sum := by
  induction fields with
  | nil => simp [insertField]
  | cons first fields ih =>
    rw [insertField]
    cases compare (strBytes name) (strBytes first.1) with
    | lt => simp
    | eq => simp
    | gt =>
      simp only [List.map_cons, List.sum_cons]
      omega

theorem foldl_insertField_sound {P : String × Value → Prop}
    (hfields : ∀ field ∈ fields, P field) (hacc : ∀ field ∈ acc, P field)
    (hascend : acc.Pairwise fun a b => compare (strBytes a.1) (strBytes b.1) = .lt) :
    (∀ field ∈ fields.foldl (fun fields field => insertField field.1 field.2 fields) acc, P field) ∧
    (fields.foldl (fun fields field => insertField field.1 field.2 fields) acc).Pairwise
      (fun a b => compare (strBytes a.1) (strBytes b.1) = .lt) ∧
    ((fields.foldl (fun fields field => insertField field.1 field.2 fields) acc).map
      fieldSize).sum ≤ (acc.map fieldSize).sum + (fields.map fieldSize).sum := by
  induction fields generalizing acc with
  | nil => exact ⟨hacc, hascend, by simp⟩
  | cons field fields ih =>
    obtain ⟨hfield, hrest⟩ := List.forall_mem_cons.mp hfields
    have hacc' : ∀ field' ∈ insertField field.1 field.2 acc, P field' := by
      intro field' hmem
      rcases mem_insertField hmem with rfl | hmem
      · exact hfield
      · exact hacc field' hmem
    obtain ⟨hall, hpairwise, hsize⟩ := ih hrest hacc' (insertField_ascend hascend)
    have hfirst : ((insertField field.1 field.2 acc).map fieldSize).sum ≤
        fieldSize field + (acc.map fieldSize).sum := insertField_size field.1 field.2 acc
    refine ⟨hall, hpairwise, ?_⟩
    rw [List.map_cons, List.sum_cons, List.foldl_cons]
    omega

end MultiDb
