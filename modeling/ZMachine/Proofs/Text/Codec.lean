import ZMachine.Proofs.Text.Packing
import ZMachine.Text.ZString

/-!
# Writing and reading texts

What is written for a character is read back as this character, whatever follows it: no part of it
is left open, and none of it is taken for something else. So a text that was written is read back
whole, wherever it lies.

## Main definitions

* `ZString.Spelling` — the five ways in which a character is written.

## Main statements

* `ZString.Spelling.pieces_append` — the z-characters of a character are read as this character.
* `ZString.toZChars_eq_error_iff` — which texts cannot be written.
* `ZString.encode_read` — all other texts are written, and read back from where they lie.
-/

namespace ZMachine

namespace Alphabet

variable {a : Alphabet} {c : Char} {z : ZChar}

theorem length_letters (a : Alphabet) : a.letters.length = 26 := by
  cases a <;> rfl

/-- A z-character that names a letter is one of 26 from 6 on. -/
theorem zchar?_eq_some (h : a.zchar? c = some z) :
    6 ≤ z.toNat ∧ z.toNat < 32 ∧ a.letter z = c := by
  obtain ⟨index, found, rfl⟩ := Option.map_eq_some_iff.mp h
  obtain ⟨inside, eq, -⟩ := List.idxOf?_eq_some_iff.mp found
  rw [length_letters] at inside
  have number : (UInt8.ofNat (index + 6)).toNat = index + 6 := by
    rw [UInt8.toNat_ofNat']
    omega
  refine ⟨by omega, by omega, ?_⟩
  rw [letter, number, Nat.add_sub_cancel, List.getD_eq_getElem _ _ (by rwa [length_letters])]
  exact eq

/-- The letters of all alphabets are ASCII. -/
theorem zchar?_eq_none (h : 0x400 ≤ c.toNat) : a.zchar? c = none := by
  have ascii : a.letters.all (·.toNat < 0x400) = true := by cases a <;> decide
  have missing : c ∉ a.letters := fun mem =>
    absurd (of_decide_eq_true (List.all_eq_true.mp ascii c mem)) (Nat.not_lt.mpr h)
  rw [zchar?, List.idxOf?_eq_none_iff.mpr missing]
  rfl

end Alphabet

namespace ZString

variable {c : Char} {zs : List ZChar}

/-- How a character is written: as a blank, as a letter of one of the alphabets after the shift to
it, or by its code. The blank and the letter 7 of the third alphabet are never read as letters. -/
inductive Spelling : Char → List ZChar → Prop
  | blank : Spelling ' ' [0]
  | lower {c : Char} {z : ZChar} (h : Alphabet.lower.zchar? c = some z) : Spelling c [z]
  | upper {c : Char} {z : ZChar} (h : Alphabet.upper.zchar? c = some z) : Spelling c [4, z]
  | punctuation {c : Char} {z : ZChar} (ne : c ≠ ' ')
      (h : Alphabet.punctuation.zchar? c = some z) : Spelling c [5, z]
  | code {c : Char} (small : c.toNat < 0x400) :
      Spelling c [5, 6, UInt8.ofNat (c.toNat / 32), UInt8.ofNat (c.toNat % 32)]

/-- What is written for a character is a spelling of it. -/
theorem spelling_of_zcharsOf? (h : zcharsOf? c = some zs) : Spelling c zs := by
  unfold zcharsOf? at h
  split at h
  · next eq =>
    cases h
    exact eq ▸ .blank
  · next ne =>
    split at h
    · next found =>
      cases h
      exact .lower found
    · split at h
      · next found =>
        cases h
        exact .upper found
      · split at h
        · next found =>
          cases h
          exact .punctuation ne found
        · split at h
          · next small =>
            cases h
            exact .code small
          · cases h

/-- Every character that ten bits can tell can be written. -/
theorem zcharsOf?_eq_none_iff : zcharsOf? c = none ↔ 0x400 ≤ c.toNat := by
  constructor
  · intro h
    by_contra small
    unfold zcharsOf? at h
    simp only [if_pos (Nat.lt_of_not_le small)] at h
    repeat' split at h
    all_goals cases h
  · intro large
    have ne : c ≠ ' ' := by
      rintro rfl
      exact absurd large (by decide)
    simp [zcharsOf?, ne, Alphabet.zchar?_eq_none large, Nat.not_lt.mpr large]

namespace Spelling

/-- The two halves of a code. -/
theorem toNat_halves {n : Nat} (small : n < 0x400) :
    (UInt8.ofNat (n / 32)).toNat = n / 32 ∧ (UInt8.ofNat (n % 32)).toNat = n % 32 := by
  constructor <;> rw [UInt8.toNat_ofNat'] <;> omega

theorem ne_nil (h : Spelling c zs) : zs ≠ [] := by
  cases h <;> exact List.cons_ne_nil _ _

theorem lt (h : Spelling c zs) : ∀ z ∈ zs, z < 32 := by
  have named {a : Alphabet} {z : ZChar} (found : a.zchar? c = some z) : z < 32 :=
    UInt8.lt_iff_toNat_lt.mpr (Alphabet.zchar?_eq_some found).2.1
  intro z mem
  cases h with
  | blank =>
    obtain rfl := List.mem_singleton.mp mem
    decide
  | lower found =>
    obtain rfl := List.mem_singleton.mp mem
    exact named found
  | upper found =>
    obtain rfl | mem := List.mem_cons.mp mem
    · decide
    · obtain rfl := List.mem_singleton.mp mem
      exact named found
  | punctuation ne found =>
    obtain rfl | mem := List.mem_cons.mp mem
    · decide
    · obtain rfl := List.mem_singleton.mp mem
      exact named found
  | code small =>
    obtain ⟨high, low⟩ := toNat_halves small
    have code_high : UInt8.ofNat (c.toNat / 32) < 32 := by
      rw [UInt8.lt_iff_toNat_lt, high]
      exact Nat.div_lt_of_lt_mul small
    have code_low : UInt8.ofNat (c.toNat % 32) < 32 := by
      rw [UInt8.lt_iff_toNat_lt, low]
      exact Nat.mod_lt _ (by decide)
    simp only [List.mem_cons, List.not_mem_nil, or_false] at mem
    rcases mem with rfl | rfl | rfl | rfl
    · decide
    · decide
    · exact code_high
    · exact code_low

/-- Only two of the places from 6 on are not read as letters. -/
theorem next_letter {a : Alphabet} {z : ZChar} (from_six : 6 ≤ z.toNat)
    (plain : a = .punctuation → z ≠ 6 ∧ z ≠ 7) :
    (Awaited.letter a).next z = (.start, some (.char (a.letter z))) := by
  have not_below (n : ZChar) (small : n.toNat < 6) : z ≠ n ∧ ¬z ≤ n := by
    rw [UInt8.le_iff_toNat_le]
    exact ⟨fun eq => by rw [eq] at from_six; omega, by omega⟩
  rw [Awaited.next, if_neg (not_below 0 (by decide)).1, if_neg (not_below 3 (by decide)).2,
    if_neg (not_below 4 (by decide)).1, if_neg (not_below 5 (by decide)).1,
    if_neg fun h => (plain h.1).1 h.2, if_neg fun h => (plain h.1).2 h.2]

/-- The z-character of a letter, after the shift to its alphabet, is read as the letter. -/
theorem next_of_zchar? {a : Alphabet} {z : ZChar} (ne : c ≠ ' ')
    (found : a.zchar? c = some z) :
    (Awaited.letter a).next z = (.start, some (.char c)) := by
  obtain ⟨from_six, -, name⟩ := Alphabet.zchar?_eq_some found
  by_cases plain : a = .punctuation → z ≠ 6 ∧ z ≠ 7
  · rw [next_letter from_six plain, name]
  · -- The letter in the place of the escape is a blank; the one in the place of the newline is it.
    obtain ⟨rfl, place⟩ := Classical.not_imp.mp plain
    obtain rfl | rfl : z = 6 ∨ z = 7 := by tauto
    · exact absurd name.symm ne
    · rw [← name]
      rfl

/-- The z-characters of a character are read as this character, and leave nothing open. -/
theorem pieces_append (h : Spelling c zs) (rest : List ZChar) :
    Awaited.start.pieces (zs ++ rest) = .char c :: Awaited.start.pieces rest := by
  have blank_unnamed {a : Alphabet} {z : ZChar} (plain : a ≠ .punctuation)
      (found : a.zchar? c = some z) : c ≠ ' ' := by
    rintro rfl
    cases a <;> first | exact plain rfl | cases found
  cases h with
  | blank => rfl
  | lower found =>
    have read := next_of_zchar? (blank_unnamed (by decide) found) found
    simp [Awaited.pieces, Awaited.start, read]
  | upper found =>
    have read := next_of_zchar? (blank_unnamed (by decide) found) found
    have shift : Awaited.start.next 4 = (.letter .upper, none) := rfl
    simp [Awaited.pieces, shift, read]
  | punctuation ne found =>
    have read := next_of_zchar? ne found
    have shift : Awaited.start.next 5 = (.letter .punctuation, none) := rfl
    simp [Awaited.pieces, shift, read]
  | code small =>
    have shift : Awaited.start.next 5 = (.letter .punctuation, none) := rfl
    have escape : (Awaited.letter .punctuation).next 6 = (.highCode, none) := rfl
    have first (z : ZChar) : Awaited.highCode.next z = (.lowCode z, none) := rfl
    have second (high low : ZChar) : (Awaited.lowCode high).next low =
      (.start, some (.char (Char.ofNat (32 * high.toNat + low.toNat)))) := rfl
    obtain ⟨high, low⟩ := toNat_halves small
    have whole : 32 * (c.toNat / 32) + c.toNat % 32 = c.toNat := Nat.div_add_mod _ _
    simp [Awaited.pieces, shift, escape, first, second, high, low, whole]

end Spelling

/-! ## Texts -/

variable {text : List Char}

theorem lt_of_toZChars (h : toZChars text = .ok zs) : ∀ z ∈ zs, z < 32 := by
  induction text generalizing zs with
  | nil =>
    cases h
    exact nofun
  | cons c text ih =>
    rw [toZChars] at h
    split at h
    · next front found =>
      obtain ⟨back, tail, rfl⟩ := Except.map_eq_ok.mp h
      intro z mem
      obtain mem | mem := List.mem_append.mp mem
      · exact (spelling_of_zcharsOf? found).lt z mem
      · exact ih tail z mem
    · cases h

/-- What was written for a text is read as its characters, whatever comes next. -/
theorem pieces_of_toZChars (h : toZChars text = .ok zs) (rest : List ZChar) :
    Awaited.start.pieces (zs ++ rest) = text.map .char ++ Awaited.start.pieces rest := by
  induction text generalizing zs with
  | nil =>
    cases h
    rfl
  | cons c text ih =>
    rw [toZChars] at h
    split at h
    · next front found =>
      obtain ⟨back, tail, rfl⟩ := Except.map_eq_ok.mp h
      rw [List.append_assoc, (spelling_of_zcharsOf? found).pieces_append, ih tail]
      rfl
    · cases h

/-- The first character that no string can hold is the one that is refused. -/
theorem toZChars_eq_error_iff {e : Error} :
    toZChars text = .error e ↔
      ∃ c, text.find? (0x400 ≤ ·.toNat) = some c ∧ e = .unencodableCharacter c := by
  induction text with
  | nil => simp [toZChars]
  | cons c text ih =>
    rw [toZChars]
    split
    · next front found =>
      have small : ¬0x400 ≤ c.toNat := fun large => by
        rw [zcharsOf?_eq_none_iff.mpr large] at found
        cases found
      rw [List.find?_cons_of_neg (by simpa using small), ← ih]
      cases toZChars text <;> simp
    · next missing =>
      have large := zcharsOf?_eq_none_iff.mp missing
      rw [List.find?_cons_of_pos (by simpa using large)]
      simp [eq_comm]

theorem exists_toZChars (small : ∀ c ∈ text, c.toNat < 0x400) : ∃ zs, toZChars text = .ok zs := by
  cases written : toZChars text with
  | ok zs => exact ⟨zs, rfl⟩
  | error e =>
    obtain ⟨c, found, -⟩ := toZChars_eq_error_iff.mp written
    have large : 0x400 ≤ c.toNat := by simpa using List.find?_some found
    exact absurd (small c (List.mem_of_find?_eq_some found)) (Nat.not_lt.mpr large)

/-- Padding only shifts, so that it stands for no piece. -/
theorem pieces_padding (a : Alphabet) (count : Nat) :
    (Awaited.letter a).pieces (List.replicate count padZChar) = [] := by
  induction count generalizing a with
  | zero => rfl
  | succ count ih => exact ih .punctuation

/-- Text without references needs no abbreviations. -/
theorem expand_chars {ε : Type} (abbreviation : Nat → Nat → Except ε (List Char)) :
    Piece.expand abbreviation (text.map .char) = .ok text := by
  induction text with
  | nil => rfl
  | cons c text ih => rw [List.map_cons, Piece.expand, ih]; rfl

/-- The words of a text stand for its characters and nothing else. -/
theorem encode_spec {text : String} {words : List Word} (h : encode text = .ok words) :
    IsText words ∧ Piece.ofZChars (words.flatMap unpackWord) = text.toList.map .char := by
  obtain ⟨zs, written, rfl⟩ := Except.map_eq_ok.mp h
  obtain ⟨isText, unpacked⟩ := packZChars_spec (lt_of_toZChars written)
  refine ⟨isText, ?_⟩
  rw [unpacked, Piece.ofZChars, pieces_of_toZChars written, padding, Awaited.start, pieces_padding,
    List.append_nil]

/-- A text without references is read wherever memory holds it, however deep it is in others. -/
theorem readWithin_of_holds {words : List Word} (isText : IsText words)
    (pieces : Piece.ofZChars (words.flatMap unpackWord) = text.map .char) {m : Memory}
    {address : Nat} (holds : m.Holds address (Word.toBytes words))
    (abbreviations : AbbreviationTable) (depth : Nat) :
    readWithin m abbreviations (depth + 1) address = .ok text := by
  rw [readWithin, Memory.zcharsAt_of_holds isText holds]
  change Piece.expand _ (Piece.ofZChars (words.flatMap unpackWord)) = .ok text
  rw [pieces, expand_chars]

/-- What was written as words is read back wherever memory holds them. -/
theorem read_of_holds {text : String} {words : List Word} (h : encode text = .ok words)
    {m : Memory} {address : Nat} (holds : m.Holds address (Word.toBytes words))
    (abbreviations : AbbreviationTable) :
    read m abbreviations address = .ok text ∧ m.textLength address = .ok (2 * words.length) := by
  obtain ⟨isText, pieces⟩ := encode_spec h
  refine ⟨?_, Memory.textLength_of_holds isText holds⟩
  rw [read, maxDepth, readWithin_of_holds isText pieces holds]
  exact congrArg Except.ok (String.ofList_toList)

/-- Writing refuses the first character with a code from 1024 on. A text without one is read back
from every memory that holds its words, at any address and with any abbreviations, and takes up
exactly these words. -/
theorem encode_read (text : String) :
    (∀ e, encode text = .error e ↔
      ∃ c, text.toList.find? (0x400 ≤ ·.toNat) = some c ∧ e = .unencodableCharacter c) ∧
    ∀ words, encode text = .ok words →
      ∀ (m : Memory) (address : Nat) (abbreviations : AbbreviationTable),
        m.Holds address (Word.toBytes words) →
          read m abbreviations address = .ok text ∧
            m.textLength address = .ok (2 * words.length) := by
  refine ⟨fun e => ?_, fun words h m address abbreviations holds =>
    read_of_holds h holds abbreviations⟩
  rw [← toZChars_eq_error_iff, encode]
  cases toZChars text.toList <;> simp

/-- An escape whose halves would be shifts elsewhere, between bytes that are not part of the
text. -/
theorem encode_read_between :
    let m : Memory := ⟨#[0xFF, 0x10, 0xC0, 0x14, 0xC5, 0x90, 0xA5, 0x14]⟩
    encode "A ¤" = .ok [0x10C0, 0x14C5, 0x90A5] ∧
      m.Holds 1 (Word.toBytes [0x10C0, 0x14C5, 0x90A5]) ∧
      read m ⟨0⟩ 1 = .ok "A ¤" ∧ m.textLength 1 = .ok 6 := by
  intro m
  have written : encode "A ¤" = .ok [0x10C0, 0x14C5, 0x90A5] := by decide +kernel
  have holds : m.Holds 1 (Word.toBytes [0x10C0, 0x14C5, 0x90A5]) := by
    simp only [Word.toBytes_cons, Word.toBytes_nil, Memory.holds_cons, Memory.holds_nil]
    decide
  exact ⟨written, holds, (encode_read "A ¤").2 _ written m 1 ⟨0⟩ holds⟩

end ZString
end ZMachine
