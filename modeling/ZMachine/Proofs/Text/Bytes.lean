import Mathlib.Data.List.Basic
import ZMachine.Word

/-!
# Bytes of a text

The bytes of a text in UTF-8 are those of its characters, one after another. A character of ASCII
has one byte, which is its number, and no other character has a byte that is as small.

## Main statements

* `fromUTF8?_toUTF8` — a text is read back from its bytes.
* `toList_toUTF8_ascii` — the bytes of a text in ASCII.
* `toNat_of_mem_utf8EncodeChar` — a byte below 128 is a whole character.
* `exists_split_left`, `exists_split_right` — bytes of a text can be parted after and before such a
  byte.
-/

namespace ZMachine

abbrev utf8Bytes (s : String) : List Byte :=
  s.toUTF8.data.toList

theorem toList_toUTF8 (s : String) :
    s.toUTF8.data.toList = s.toList.flatMap String.utf8EncodeChar := by
  conv_lhs => rw [← String.ofList_toList (s := s)]
  rw [String.toUTF8_eq_toByteArray, String.toByteArray_ofList]
  exact List.toList_data_toByteArray

theorem fromUTF8?_toUTF8 (s : String) : String.fromUTF8? s.toUTF8 = some s :=
  dif_pos s.isValidUTF8

theorem utf8EncodeChar_ascii {c : Char} (ascii : c.toNat < 128) :
    String.utf8EncodeChar c = [UInt8.ofNat c.toNat] := by
  have small : c.val ≤ 127 := UInt32.le_iff_toNat_le.mpr (Nat.le_of_lt_succ ascii)
  exact String.utf8EncodeChar_eq_singleton (Char.utf8Size_eq_one_iff.mpr small)

theorem toList_toUTF8_ascii {text : List Char} (ascii : ∀ c ∈ text, c.toNat < 128) :
    (String.ofList text).toUTF8.data.toList = text.map fun c => UInt8.ofNat c.toNat := by
  rw [toList_toUTF8, String.toList_ofList, List.map_eq_flatMap]
  exact List.flatMap_congr fun c mem => utf8EncodeChar_ascii (ascii c mem)

/-- A byte below 128 is an ASCII character of its own. -/
theorem toNat_of_mem_utf8EncodeChar {c : Char} {b : Byte} (mem : b ∈ String.utf8EncodeChar c)
    (small : b.toNat < 128) : c.toNat = b.toNat := by
  have high {n : Nat} (low : 128 ≤ n) (lt : n < 256) : b ≠ UInt8.ofNat n := by
    rintro rfl
    rw [UInt8.toNat_ofNat_of_lt' lt] at small
    omega
  unfold String.utf8EncodeChar at mem
  dsimp only at mem
  -- There is one case for each number of bytes.
  split_ifs at mem with ascii <;> simp only [List.mem_cons, List.not_mem_nil, or_false] at mem
  · rw [mem]
    exact (UInt8.toNat_ofNat_of_lt' (Nat.lt_of_le_of_lt ascii (by decide))).symm
  · obtain same | same := mem
    all_goals exact absurd same (high (by omega) (by omega))
  · obtain same | same | same := mem
    all_goals exact absurd same (high (by omega) (by omega))
  · obtain same | same | same | same := mem
    all_goals exact absurd same (high (by omega) (by omega))

theorem utf8Bytes_ofList (text : List Char) :
    utf8Bytes (String.ofList text) = text.flatMap String.utf8EncodeChar := by
  rw [utf8Bytes, toList_toUTF8, String.toList_ofList]

/-! ## Parting bytes between characters -/

section
variable {text : List Char} {before after : List Byte}

/-- A byte below 128 parts the characters before it from those after it. -/
theorem exists_split_ascii {b : Byte} (small : b.toNat < 128)
    (bytes : text.flatMap String.utf8EncodeChar = before ++ b :: after) :
    ∃ front c back, text = front ++ c :: back ∧ front.flatMap String.utf8EncodeChar = before ∧
      String.utf8EncodeChar c = [b] ∧ back.flatMap String.utf8EncodeChar = after := by
  induction text generalizing before with
  | nil => simp at bytes
  | cons c text ih =>
    rw [List.flatMap_cons] at bytes
    obtain ⟨mid, rfl, rest⟩ | ⟨mid, own, rest⟩ := List.append_eq_append_iff.mp bytes
    · obtain ⟨front, d, back, rfl, rfl, single, tail⟩ := ih rest
      exact ⟨c :: front, d, back, rfl, by rw [List.flatMap_cons], single, tail⟩
    · cases mid with
      | nil =>
        rw [List.append_nil] at own
        have rest : text.flatMap String.utf8EncodeChar = [] ++ b :: after := rest.symm
        obtain ⟨front, d, back, rfl, none, single, tail⟩ := ih rest
        exact ⟨c :: front, d, back, rfl, by rw [List.flatMap_cons, none, own, List.append_nil],
          single, tail⟩
      | cons x mid =>
        obtain ⟨rfl, rfl⟩ := List.cons.inj rest
        -- The byte belongs to the first character, which then has no other byte.
        have code := toNat_of_mem_utf8EncodeChar (c := c) (b := b) (by simp [own]) small
        have single := utf8EncodeChar_ascii (code ▸ small)
        rw [own, List.append_eq_singleton_iff] at single
        obtain ⟨rfl, single⟩ | ⟨-, nil⟩ := single
        · obtain ⟨-, rfl⟩ := List.cons.inj single
          exact ⟨[], c, text, rfl, rfl, own, rfl⟩
        · cases nil

/-- A text can be cut after an ASCII byte. -/
theorem exists_split_left (bytes : text.flatMap String.utf8EncodeChar = before ++ after)
    (small : ∀ b, before.getLast? = some b → b.toNat < 128) :
    ∃ front back, text = front ++ back ∧ front.flatMap String.utf8EncodeChar = before ∧
      back.flatMap String.utf8EncodeChar = after := by
  rcases before.eq_nil_or_concat with rfl | ⟨before, b, rfl⟩
  · exact ⟨[], text, rfl, rfl, bytes⟩
  · rw [List.concat_eq_append, List.append_assoc] at bytes
    obtain ⟨front, c, back, rfl, rfl, single, tail⟩ := exists_split_ascii (small b (by simp)) bytes
    refine ⟨front ++ [c], back, by simp, ?_, tail⟩
    rw [List.flatMap_append, List.flatMap_singleton, single, List.concat_eq_append]

/-- A text can be cut before an ASCII byte. -/
theorem exists_split_right (bytes : text.flatMap String.utf8EncodeChar = before ++ after)
    (small : ∀ b, after.head? = some b → b.toNat < 128) :
    ∃ front back, text = front ++ back ∧ front.flatMap String.utf8EncodeChar = before ∧
      back.flatMap String.utf8EncodeChar = after := by
  cases after with
  | nil => exact ⟨text, [], by simp, by simpa using bytes, rfl⟩
  | cons b after =>
    obtain ⟨front, c, back, rfl, head, single, tail⟩ := exists_split_ascii (small b rfl) bytes
    exact ⟨front, c :: back, rfl, head, by rw [List.flatMap_cons, single, tail]; rfl⟩

end

end ZMachine
