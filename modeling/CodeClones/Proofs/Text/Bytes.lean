import CodeClones.Text.Bytes
import Mathlib

/-!
# Proofs/Text/Bytes — what the bytes of a text say

A text is told by its bytes (`bytes_injective`), and the encoding of a character has no byte of five
leading ones or more (`toNat_lt_of_mem_bytes`).
-/

namespace CodeClones.Text

/-- **Bytes tell texts apart.** -/
theorem bytes_injective : Function.Injective bytes := fun a b h => by
  rw [bytes, bytes, Array.toList_inj, ← ByteArray.ext_iff] at h
  exact String.toByteArray_inj.mp h

theorem bytes_eq_flatMap (text : String) :
    bytes text = text.toList.flatMap String.utf8EncodeChar := by
  have hbytes : text.toUTF8 = text.toList.utf8Encode := by
    rw [String.toUTF8_eq_toByteArray, ← String.toByteArray_ofList, String.ofList_toList]
  rw [bytes, hbytes, List.utf8Encode, List.toList_data_toByteArray]

/-- A leading byte marks up to four bytes by as many ones and a zero, and a byte that follows has a
zero in second place. -/
theorem toNat_lt_of_mem_utf8EncodeChar {c : Char} {b : UInt8} (h : b ∈ String.utf8EncodeChar c) :
    b.toNat < 0xF8 := by
  have hbyte : ∃ n < 0xF8, b = UInt8.ofNat n := by
    rw [String.utf8EncodeChar.eq_def] at h
    extract_lets v at h
    split at h
    · exact ⟨v, by omega, List.mem_singleton.mp h⟩
    · split at h
      · simp only [List.mem_cons, List.not_mem_nil, or_false] at h
        rcases h with h | h
        all_goals exact ⟨_, by omega, h⟩
      · split at h
        · simp only [List.mem_cons, List.not_mem_nil, or_false] at h
          rcases h with h | h | h
          all_goals exact ⟨_, by omega, h⟩
        · simp only [List.mem_cons, List.not_mem_nil, or_false] at h
          rcases h with h | h | h | h
          all_goals exact ⟨_, by omega, h⟩
  obtain ⟨n, hn, rfl⟩ := hbyte
  exact Nat.lt_of_le_of_lt (Nat.mod_le n 256) hn

/-- **The bytes of a text are far from `0xFF`.** -/
theorem toNat_lt_of_mem_bytes {text : String} {b : UInt8} (h : b ∈ bytes text) :
    b.toNat < 0xF8 := by
  rw [bytes_eq_flatMap] at h
  obtain ⟨c, -, hc⟩ := List.mem_flatMap.mp h
  exact toNat_lt_of_mem_utf8EncodeChar hc

end CodeClones.Text
