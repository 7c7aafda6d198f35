import MultiDb.Model.Rel

/-!
# Keys of rows and index entries

The key of a value ends where the value ends, and tells it apart from every other one up to
the sign of a zero.
-/

namespace MultiDb

open Shared

namespace F64

theorem isFinite_normalize (f : F64) : f.normalize.isFinite = f.isFinite := by
  rw [normalize]
  split
  · rename_i hzero
    have hbits := f.bits.toNat_lt
    simp only [isZero, decide_eq_true_eq] at hzero
    simp only [isFinite, isSpecial]
    have : f.bits.toNat / 2 ^ 52 % 2 ^ 11 = 0 := by omega
    rw [this]
    rfl
  · rfl

theorem normalize_normalize (f : F64) : f.normalize.normalize = f.normalize := by
  by_cases hzero : f.isZero = true
  · rw [show f.normalize = { bits := 0 } from if_pos hzero]
    rfl
  · rw [show f.normalize = f from if_neg hzero, show f.normalize = f from if_neg hzero]

end F64

namespace Value

/-- A value as the codec gives it back: a zero has no sign. -/
def normalized : Value → Value
  | .float value => .float value.normalize
  | value => value

/-- The values the key encoding keeps apart. -/
def Scalar : Value → Prop
  | .null => True
  | .bool _ => True
  | .int _ => True
  | .float _ => True
  | .str _ => True
  | .bytes _ => True
  | _ => False

end Value

theorem encodeF64Ordered_normalize (f : F64) : encodeF64Ordered f.normalize =
    encodeF64Ordered f := by
  rw [encodeF64Ordered, encodeF64Ordered, F64.normalize_normalize]

theorem encodeRelKey_normalized (v : Value) : encodeRelKey v.normalized = encodeRelKey v := by
  cases v with
  | float f =>
    simp only [Value.normalized, encodeRelKey, encodeIndexValue, F64.isFinite_normalize,
      encodeF64Ordered_normalize]
  | _ => rfl

theorem scalar_of_encodeRelKey {v : Value} {key : Bytes} (h : encodeRelKey v = .ok key) :
    v.Scalar := by
  cases v with
  | array _ => simp [encodeRelKey] at h
  | object _ => simp [encodeRelKey] at h
  | vector _ => simp [encodeRelKey] at h
  | geoPoint _ _ => simp [encodeRelKey] at h
  | _ => exact trivial

theorem encodeI64Ordered_inj {a b : Int64} : encodeI64Ordered a = encodeI64Ordered b ↔ a = b := by
  constructor
  · intro h
    have ha := a.toInt_lt
    have ha' := a.le_toInt
    have hb := b.toInt_lt
    have hb' := b.le_toInt
    have hnat := congrArg beNat h
    rw [encodeI64Ordered, encodeI64Ordered, beNat_beBytes, beNat_beBytes] at hnat
    · apply Int64.toInt_inj.mp
      omega
    · norm_num
      omega
    · norm_num
      omega
  · rintro rfl
    rfl

theorem encodeF64Ordered_inj {f g : F64} :
    encodeF64Ordered f = encodeF64Ordered g ↔ f.normalize = g.normalize := by
  constructor
  · intro h
    have hf := f.normalize.bits.toNat_lt
    have hg := g.normalize.bits.toNat_lt
    have hnat := congrArg beNat h
    simp only [encodeF64Ordered] at hnat
    rw [beNat_beBytes, beNat_beBytes] at hnat
    · have hbits : f.normalize.bits.toNat = g.normalize.bits.toNat := by
        split at hnat <;> split at hnat <;> omega
      cases hfn : f.normalize
      cases hgn : g.normalize
      simp only [hfn, hgn] at hbits
      simp [UInt64.toNat_inj.mp hbits]
    · split <;> norm_num <;> omega
    · split <;> norm_num <;> omega
  · intro h
    rw [encodeF64Ordered, encodeF64Ordered, h]

def Value.keyTag : Value → UInt8
  | .null => 0x00
  | .bool _ => 0x01
  | .int _ => 0x02
  | .float _ => 0x03
  | .str _ => 0x04
  | _ => 0x05

def Value.keyBody : Value → Bytes
  | .bool value => [if value then 1 else 0]
  | .int value => encodeI64Ordered value
  | .float value => encodeF64Ordered value
  | .str value => terminated (strBytes value)
  | .bytes value => terminated value
  | _ => []

theorem encodeRelKey_shape {v : Value} {key : Bytes} (h : encodeRelKey v = .ok key) :
    key = v.keyTag :: v.keyBody := by
  cases v with
  | float f =>
    simp only [encodeRelKey, encodeIndexValue, mapError_eq_ok_iff, guard_eq_ok_iff,
      Except.ok.injEq] at h
    exact h.2.symm
  | array _ => simp [encodeRelKey] at h
  | object _ => simp [encodeRelKey] at h
  | vector _ => simp [encodeRelKey] at h
  | geoPoint _ _ => simp [encodeRelKey] at h
  | _ =>
    simp only [encodeRelKey, encodeIndexValue, mapError_eq_ok_iff, Except.ok.injEq] at h
    exact h.symm

private theorem length_encodeI64Ordered (value : Int64) : (encodeI64Ordered value).length = 8 :=
  length_beBytes 8 _

private theorem length_encodeF64Ordered (value : F64) : (encodeF64Ordered value).length = 8 :=
  length_beBytes 8 _

/-- A key ends where its value ends, and names its value up to the sign of a zero. -/
theorem encodeRelKey_append_inj {v w : Value} {a b x y : Bytes} (ha : encodeRelKey v = .ok a)
    (hb : encodeRelKey w = .ok b) : a ++ x = b ++ y ↔ v.normalized = w.normalized ∧ x = y := by
  constructor
  · intro h
    have hv := scalar_of_encodeRelKey ha
    have hw := scalar_of_encodeRelKey hb
    rw [encodeRelKey_shape ha, encodeRelKey_shape hb, List.cons_append, List.cons_append,
      List.cons.injEq] at h
    obtain ⟨htag, hbody⟩ := h
    cases v with
    | null =>
      cases w with
      | null => exact ⟨rfl, hbody⟩
      | _ => simp [Value.keyTag] at htag
    | bool p =>
      cases w with
      | bool q =>
        cases p <;> cases q <;> simp_all [Value.keyBody]
      | _ => simp [Value.keyTag] at htag
    | int i =>
      cases w with
      | int j =>
        obtain ⟨hij, hxy⟩ := (append_inj_of_length
          (by rw [Value.keyBody, Value.keyBody, length_encodeI64Ordered,
            length_encodeI64Ordered])).mp hbody
        rw [encodeI64Ordered_inj.mp hij]
        exact ⟨rfl, hxy⟩
      | _ => simp [Value.keyTag] at htag
    | float f =>
      cases w with
      | float g =>
        obtain ⟨hfg, hxy⟩ := (append_inj_of_length
          (by rw [Value.keyBody, Value.keyBody, length_encodeF64Ordered,
            length_encodeF64Ordered])).mp hbody
        rw [Value.normalized, Value.normalized, encodeF64Ordered_inj.mp hfg]
        exact ⟨rfl, hxy⟩
      | _ => simp [Value.keyTag] at htag
    | str s =>
      cases w with
      | str t =>
        obtain ⟨hst, hxy⟩ := terminated_append_inj.mp hbody
        rw [strBytes_inj.mp hst]
        exact ⟨rfl, hxy⟩
      | _ => simp [Value.keyTag] at htag
    | bytes s =>
      cases w with
      | bytes t =>
        obtain ⟨rfl, hxy⟩ := terminated_append_inj.mp hbody
        exact ⟨rfl, hxy⟩
      | array _ => exact hw.elim
      | object _ => exact hw.elim
      | vector _ => exact hw.elim
      | geoPoint _ _ => exact hw.elim
      | _ => simp [Value.keyTag] at htag
    | _ => exact hv.elim
  · rintro ⟨hvw, rfl⟩
    rw [← encodeRelKey_normalized, hvw, encodeRelKey_normalized, hb] at ha
    rw [Except.ok.inj ha]

end MultiDb
