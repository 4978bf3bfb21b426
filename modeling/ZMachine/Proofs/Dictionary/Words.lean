import Mathlib.Tactic.Choose
import ZMachine.Dictionary
import ZMachine.Proofs.Action
import ZMachine.Proofs.Dictionary.Runs
import ZMachine.Proofs.Text.Bytes

/-!
# Words of any line

Where all separators are characters of ASCII, a line is never cut inside a character, whatever
characters are in it. So its words are its runs of bytes.

## Main definitions

* `Token.Covers` — a byte of the line belongs to a word.

## Main statements

* `Token.exists_ofSpan` — a run of bytes is a text.
* `Dictionary.tokenise_covers` — into which words a line is cut.
-/

namespace ZMachine

namespace Token

variable {separators : List Byte} {line : String} {bytes : List Byte} {offset : Nat}

def Covers (word : Token) (place : Nat) : Prop :=
  word.offset ≤ place ∧ place < word.offset + (utf8Bytes word.text).length

theorem fromUTF8?_utf8EncodeChar (own : List Char) :
    String.fromUTF8? ⟨(own.flatMap String.utf8EncodeChar).toArray⟩ = some (String.ofList own) := by
  rw [← utf8Bytes_ofList, Array.toArray_toList]
  exact fromUTF8?_toUTF8 _

section
variable (ascii : ∀ b ∈ separators, b.toNat < 128)
include ascii

theorem lt_of_not_inWord {b : Byte} (ends : ¬ InWord separators b) : b.toNat < 128 := by
  by_cases isSpace : b = space
  · subst isSpace
    decide
  · exact ascii b (Decidable.not_not.mp fun unlisted => ends ⟨isSpace, unlisted⟩)

/-- What stands on its own begins and ends between characters. -/
theorem StandsAt.exists_chars (h : StandsAt separators (utf8Bytes line) bytes offset) :
    ∃ own : List Char, own.flatMap String.utf8EncodeChar = bytes := by
  cases h with
  | separator parts place single listed visible =>
    rw [utf8Bytes, toList_toUTF8] at parts
    obtain ⟨_, c, _, -, -, own, -⟩ := exists_split_ascii (ascii _ listed) parts
    exact ⟨[c], by rw [List.flatMap_singleton, own, single]⟩
  | run parts place maximal =>
    rw [utf8Bytes, toList_toUTF8, List.append_assoc] at parts
    obtain ⟨_, rest, -, -, tail⟩ := exists_split_left parts fun b last =>
      lt_of_not_inWord ascii (maximal.left b last)
    obtain ⟨own, _, -, bytes, -⟩ := exists_split_right tail fun b head =>
      lt_of_not_inWord ascii (maximal.right b head)
    exact ⟨own, bytes⟩

/-- The bytes of a run are those of a text, whatever the line is. -/
theorem exists_ofSpan (line : String) {s : Span}
    (mem : s ∈ spansFrom separators 0 [] (utf8Bytes line)) :
    ∃ text, ofSpan s = .ok ⟨text, s.offset⟩ ∧ utf8Bytes text = s.bytes := by
  unfold ofSpan
  split
  · next kind =>
    obtain ⟨b, listed, single⟩ := single_of_isSeparator mem kind
    have small := ascii b listed
    refine ⟨_, rfl, ?_⟩
    have code : (Char.ofNat b.toNat).toNat = b.toNat := by
      have valid : b.toNat.isValidChar := .inl (by omega)
      rw [Char.ofNat, dif_pos valid]
      rfl
    rw [single, List.map_singleton, utf8Bytes_ofList, List.flatMap_singleton,
      utf8EncodeChar_ascii (by rwa [code]), code, UInt8.ofNat_toNat]
  · obtain ⟨own, bytes⟩ := (standsAt_of_mem mem).exists_chars ascii
    rw [← bytes, fromUTF8?_utf8EncodeChar]
    exact ⟨_, rfl, utf8Bytes_ofList own⟩

end

end Token

namespace Dictionary

open Token

/-- For every line and separators in ASCII: the words follow the order of the line. Each is the
bytes of the line at its place, and either one separator or as long a run of other bytes as there
is. Every byte that is not a space lies in exactly one of them. -/
theorem tokenise_covers (d : Dictionary) (line : String)
    (ascii : ∀ b ∈ d.separators, b.toNat < 128) :
    ∃ words, d.tokenise line = .ok words ∧
      words.Pairwise (fun word other => word.offset < other.offset) ∧
      (∀ word ∈ words,
        StandsAt d.separators (utf8Bytes line) (utf8Bytes word.text) word.offset) ∧
      ∀ place b, (utf8Bytes line)[place]? = some b → b ≠ space →
        ∃! word, word ∈ words ∧ word.Covers place := by
  choose! text decoded bytes using fun s (mem : s ∈ spansFrom d.separators 0 [] (utf8Bytes line)) =>
    exists_ofSpan ascii line mem
  have stands (s : Span) (mem : s ∈ spansFrom d.separators 0 [] (utf8Bytes line)) :=
    standsAt_of_mem mem
  refine ⟨_, Except.mapM_eq_ok_map decoded, List.pairwise_map.mpr ?_, fun word mem => ?_,
    fun place b found visible => ?_⟩
  · refine (pairwise_spansFrom (Nat.zero_le _)).imp_of_mem fun memS _ before => ?_
    have := List.length_pos_iff.mpr (stands _ memS).nonempty
    rw [Span.Before] at before
    dsimp only
    omega
  · obtain ⟨s, own, rfl⟩ := List.mem_map.mp mem
    rw [bytes s own]
    exact stands s own
  · obtain ⟨s, mem, covers⟩ := exists_covers_spansFrom 0 [] found visible
    rw [Nat.zero_add] at covers
    have covers_iff (t : Span) (own : t ∈ spansFrom d.separators 0 [] (utf8Bytes line)) :
        Covers ⟨text t, t.offset⟩ place ↔ t.Covers place := by
      rw [Covers, bytes t own, Span.Covers]
    refine ⟨⟨text s, s.offset⟩, ⟨List.mem_map_of_mem mem, (covers_iff s mem).mpr covers⟩, ?_⟩
    rintro _ ⟨mem', covers'⟩
    obtain ⟨t, own, rfl⟩ := List.mem_map.mp mem'
    rw [eq_of_covers own mem ((covers_iff t own).mp covers') covers]

/-- Some characters have two bytes, separators follow each other, and a space stays one though it is
listed among them. -/
theorem tokenise_covers_accents :
    let d : Dictionary := ⟨0, [46, 44, 32], 7, 7, #[], #[]⟩
    let words : List Token := [⟨"né", 0⟩, ⟨",", 3⟩, ⟨".", 4⟩, ⟨"où", 7⟩]
    (∀ b ∈ d.separators, b.toNat < 128) ∧ d.tokenise "né,.  où" = .ok words ∧
      StandsAt d.separators (utf8Bytes "né,.  où") (utf8Bytes "où") 7 ∧
      ∃! word, word ∈ words ∧ word.Covers 9 := by
  intro d words
  have ascii : ∀ b ∈ d.separators, b.toNat < 128 := by simp [d]
  have cut : d.tokenise "né,.  où" = .ok words := by decide +kernel
  obtain ⟨_, same, -, stands, covers⟩ := tokenise_covers d "né,.  où" ascii
  cases cut.symm.trans same
  have last : ⟨"où", 7⟩ ∈ words := by simp [words]
  exact ⟨ascii, cut, stands ⟨"où", 7⟩ last, covers 9 185 (by decide +kernel) (by decide)⟩

end Dictionary
end ZMachine
