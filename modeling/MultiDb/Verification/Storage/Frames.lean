import MultiDb.Model.Encrypted
import MultiDb.Verification.Txn.Equations

/-!
# Encrypted frames

The authenticated data determines the row, the key and the version of a frame.
-/

namespace MultiDb

open Shared

variable {A : Aead} {provider : EnvelopeKeyProvider}

theorem encryptionVersionKey_eq (table : String) (rowKey : Bytes) :
    encryptionVersionKey table rowKey = versionKey table rowKey :=
  rfl

theorem encryptionVersionKey_inj {t t' : String} {k k' bytes : Bytes}
    (h : encryptionVersionKey t k = .ok bytes) (h' : encryptionVersionKey t' k' = .ok bytes) :
    t = t' ∧ k = k' := by
  rw [encryptionVersionKey_eq] at h h'
  exact versionKey_inj h h'

theorem decodeU64_be64 (n : UInt64) (name : String) : decodeU64 (be64 n) name = .ok n := by
  simp [decodeU64]

theorem decodeEncryptionVersionKey_of_key {table : String} {rowKey bytes : Bytes}
    (h : encryptionVersionKey table rowKey = .ok bytes) :
    decodeEncryptionVersionKey bytes = .ok (table, rowKey) := by
  rw [encryptionVersionKey_eq] at h
  obtain ⟨hlength, rfl⟩ := versionKey_eq_ok_iff.mp h
  have hlen : (UInt64.ofNat (strBytes table).length).toNat = (strBytes table).length := by
    rw [UInt64.toNat_ofNat', Nat.mod_eq_of_lt hlength]
  simp only [decodeEncryptionVersionKey]
  rw [List.append_assoc, if_neg (by simp), List.take_left' (length_be64 _),
    List.drop_left' (length_be64 _), decodeU64_be64]
  simp only [bind, Except.bind, hlen]
  rw [if_neg (by simp), List.take_left' rfl, List.drop_left' rfl, fromUTF8_strBytes]
  rfl

/-- The associated data fixes the row, the key and the version. -/
theorem aadForV3_inj {t t' : String} {k k' : Bytes} {keyId keyId' version version' : UInt64}
    (hlength : (strBytes t).length < 2 ^ 64) (hlength' : (strBytes t').length < 2 ^ 64)
    (h : aadForV3 t k keyId version = aadForV3 t' k' keyId' version') :
    t = t' ∧ k = k' ∧ keyId = keyId' ∧ version = version' := by
  have hmin : ∀ {t : String}, (strBytes t).length < 2 ^ 64 →
      min (strBytes t).length (2 ^ 64 - 1) = (strBytes t).length := by
    intro t ht
    omega
  simp only [aadForV3, List.append_assoc, hmin hlength, hmin hlength'] at h
  obtain ⟨-, h⟩ := List.append_inj h rfl
  obtain ⟨-, h⟩ := List.append_inj h rfl
  obtain ⟨hkey, h⟩ := List.append_inj h (by simp)
  obtain ⟨hversion, h⟩ := List.append_inj h (by simp)
  -- what is left is laid out as a version key
  have haddress : encryptionVersionKey t k = .ok
      (be64 (UInt64.ofNat (strBytes t).length) ++ (strBytes t ++ k)) := by
    rw [encryptionVersionKey, if_pos hlength, List.append_assoc]
  have haddress' : encryptionVersionKey t' k' = .ok
      (be64 (UInt64.ofNat (strBytes t).length) ++ (strBytes t ++ k)) := by
    rw [encryptionVersionKey, if_pos hlength', List.append_assoc, h]
  obtain ⟨ht, hk⟩ := encryptionVersionKey_inj haddress haddress'
  exact ⟨ht, hk, be64_inj.mp hkey, be64_inj.mp hversion⟩

/-- The frame of a sealed value. -/
def sealedFrame (keyId version : UInt64) (nonce : Nonce) (ciphertext : Bytes) : Bytes :=
  magicV3 ++ [algXChaCha20Poly1305] ++ be64 keyId ++ be64 version ++ nonce ++ ciphertext

theorem encryptValue_eq_ok_iff {key : ProtectedKey} {t : String} {k value stored : Bytes}
    {version : UInt64} {nonce : Nonce} :
    encryptValue A key t k version value nonce = .ok stored ↔
      ∃ ciphertext, A.encrypt key.bytes nonce (aadForV3 t k key.id version) value = .ok ciphertext ∧
        stored = sealedFrame key.id version nonce ciphertext := by
  simp only [encryptValue, bind_eq_ok_iff, mapError_eq_ok_iff, pure_eq_ok_iff, sealedFrame,
    @eq_comm _ stored]

section Frame

variable (keyId version : UInt64) (nonce : Nonce) (ciphertext : Bytes)

theorem length_magicV3 : magicV3.length = 5 := by
  decide

theorem length_sealedFrame :
    (sealedFrame keyId version nonce ciphertext).length = 46 + ciphertext.length := by
  simp only [sealedFrame, List.length_append, length_magicV3, length_be64, nonce.property,
    List.length_singleton]

theorem take_sealedFrame : (sealedFrame keyId version nonce ciphertext).take magicV3.length =
    magicV3 := by
  simp [sealedFrame, List.append_assoc]

theorem keyId_sealedFrame :
    ((sealedFrame keyId version nonce ciphertext).drop 6).take 8 = be64 keyId := by
  have hfront : (magicV3 ++ [algXChaCha20Poly1305]).length = 6 := by simp [length_magicV3]
  rw [sealedFrame, List.append_assoc, List.append_assoc, List.append_assoc, List.drop_left' hfront,
    List.take_left' (length_be64 keyId)]

theorem version_sealedFrame :
    ((sealedFrame keyId version nonce ciphertext).drop 14).take 8 = be64 version := by
  have hfront : (magicV3 ++ [algXChaCha20Poly1305] ++ be64 keyId).length = 14 := by
    simp [length_magicV3]
  rw [sealedFrame, List.append_assoc, List.append_assoc, List.drop_left' hfront,
    List.take_left' (length_be64 version)]

theorem nonce_sealedFrame :
    ((sealedFrame keyId version nonce ciphertext).drop 22).take nonceLenV3 = nonce := by
  have hfront : (magicV3 ++ [algXChaCha20Poly1305] ++ be64 keyId ++ be64 version).length = 22 := by
    simp [length_magicV3]
  rw [sealedFrame, List.append_assoc, List.drop_left' hfront, nonceLenV3,
    List.take_left' nonce.property]

theorem drop_sealedFrame : (sealedFrame keyId version nonce ciphertext).drop 46 = ciphertext := by
  have hfront : (magicV3 ++ [algXChaCha20Poly1305] ++ be64 keyId ++ be64 version ++ nonce).length =
      46 := by
    simp [length_magicV3, nonce.property]
  rw [sealedFrame, List.drop_left' hfront]

theorem algorithm_sealedFrame :
    (sealedFrame keyId version nonce ciphertext).getD magicV3.length 0 = algXChaCha20Poly1305 := by
  simp [sealedFrame, List.getD_eq_getElem?_getD]

theorem storedKeyId_sealedFrame :
    storedKeyId (sealedFrame keyId version nonce ciphertext) = .ok (some keyId) := by
  simp only [storedKeyId, take_sealedFrame, if_true, length_sealedFrame]
  rw [if_neg (by rw [length_magicV3]; omega), show magicV3.length + 1 = 6 by rw [length_magicV3],
    keyId_sealedFrame, decodeU64_be64]
  rfl

/-- The version is compared before the key is looked up and the ciphertext opened. -/
theorem decryptValue_sealedFrame (t : String) (k : Bytes) (expected : Option UInt64) :
    decryptValue A provider t k expected (sealedFrame keyId version nonce ciphertext) =
      if expected ≠ some version then
        .error (.corruption "encrypted value rollback detected")
      else do
        let key ← provider.keyById A keyId
        match A.decrypt key.bytes nonce (aadForV3 t k keyId version) ciphertext with
        | none => .error (.corruption "encrypted value authentication failed")
        | some plaintext => return plaintext := by
  have hlen := length_sealedFrame keyId version nonce ciphertext
  rw [decryptValue, if_neg (by rw [hlen, length_magicV3, nonceLenV1V2]; omega), take_sealedFrame]
  simp only [if_true, decryptValueV3]
  rw [if_neg (by rw [hlen, length_magicV3, nonceLenV3]; omega), algorithm_sealedFrame,
    if_neg (by simp), keyId_sealedFrame, version_sealedFrame, decodeU64_be64, decodeU64_be64,
    nonce_sealedFrame, show magicV3.length + 1 + 8 + 8 + nonceLenV3 = 46 by decide,
    drop_sealedFrame]
  rfl

end Frame

end MultiDb
