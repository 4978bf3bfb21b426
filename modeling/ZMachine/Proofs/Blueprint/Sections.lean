import Mathlib.Data.List.Forall2
import ZMachine.Proofs.Blueprint.Patch
import ZMachine.Proofs.Text.Codec

/-!
# The sections of an image

Each kind of content is written to a region of its own, so that what lies there afterwards does not
depend on the other kinds. Where a word is given more than once, the last one counts.

## Main definitions

* `Blueprint.WordsAt` — words that are written, each to its place.
* `Blueprint.WroteAbbreviation` — a string that is written, and the pointer to it.

## Main statements

* `Blueprint.wrote_words` — the words of a table.
* `Blueprint.wroteAbbreviation` — the strings of abbreviations and the pointers to them.
-/

namespace ZMachine.Blueprint

open Patch

variable {ps : List Patch} {i key : Nat}

/-- Of the values for a key, the last one in a list is the last one in what follows, if there is
one. -/
theorem lookup_reverse_cons {α : Type} (d : Nat × α) (rest : List (Nat × α)) :
    (d :: rest).reverse.lookup key =
      (rest.reverse.lookup key).or (if key = d.1 then some d.2 else none) := by
  rw [List.reverse_cons, List.lookup_append]
  congr 1
  rw [List.lookup_cons]
  by_cases eq : key = d.1
  · simp [eq]
  · simp [eq, beq_eq_false_iff_ne.mpr eq]

/-! ## Tables of words -/

theorem stop_ofWord (address value : Nat) : (ofWord address value).stop = address + 2 := rfl

theorem bytes_ofWord (address : Nat) (value : Word) :
    (ofWord address value.toNat).bytes = [value.highByte, value.lowByte] := by
  rw [ofWord, UInt16.ofNat_toNat]
  rfl

variable {pairs : List (Nat × Word)} {place : Nat → Nat}

def WordsAt (place : Nat → Nat) (pairs : List (Nat × Word)) (ps : List Patch) : Prop :=
  List.Forall₂ (fun d p => p = ofWord (place d.1) d.2.toNat) pairs ps

/-- Words that are written to places of their own: one that is given is the last one given, and the
place of one that is not given stays free. -/
theorem wrote_words (h : WordsAt place pairs ps)
    (apart : ∀ d ∈ pairs, d.1 ≠ key → place d.1 + 2 ≤ place key ∨ place key + 2 ≤ place d.1) :
    (∀ value, pairs.reverse.lookup key = some value →
      Wrote ps (place key) [value.highByte, value.lowByte]) ∧
    (pairs.reverse.lookup key = none → ∀ k < 2, written ps (place key + k) = none) := by
  unfold WordsAt at h
  induction h with
  | nil => exact ⟨nofun, fun _ _ _ => rfl⟩
  | @cons d p pairs ps eq _ ih =>
    subst eq
    obtain ⟨given, missing⟩ := ih fun d' mem => apart d' (List.mem_cons_of_mem d mem)
    rw [lookup_reverse_cons]
    refine ⟨fun value last => ?_, fun none k small => ?_⟩
    · cases later : pairs.reverse.lookup key with
      | some value' =>
        rw [later, Option.some_or] at last
        cases last
        exact (given value later).cons _
      | none =>
        rw [later, Option.none_or] at last
        split at last
        · next same =>
          cases last
          subst same
          rw [← bytes_ofWord (place d.1)]
          refine .self ps _ fun i after before => ?_
          rw [stop_ofWord] at before
          obtain ⟨k, rfl⟩ := Nat.exists_eq_add_of_le after
          exact missing later k (by simp only [ofWord] at before; omega)
        · cases last
    · rw [Option.or_eq_none_iff] at none
      have ne : key ≠ d.1 := fun eq => by simp [eq] at none
      have := apart d List.mem_cons_self (Ne.symm ne)
      rw [written, missing none.1 k small, Option.none_or]
      refine byte?_eq_none ?_
      rw [stop_ofWord]
      simp only [ofWord]
      omega

/-- The word in a place of such a table. -/
theorem word_of_words (h : WordsAt place pairs ps) (key : Nat)
    (apart : ∀ d ∈ pairs, d.1 ≠ key → place d.1 + 2 ≤ place key ∨ place key + 2 ≤ place d.1) :
    Word.ofBytes ((written ps (place key)).getD 0) ((written ps (place key + 1)).getD 0) =
      (pairs.reverse.lookup key).getD 0 := by
  obtain ⟨given, missing⟩ := wrote_words h apart
  cases last : pairs.reverse.lookup key with
  | some value =>
    have wrote := given value last
    rw [show written ps (place key) = _ from wrote 0 _ rfl, wrote 1 _ rfl]
    exact Word.ofBytes_highByte_lowByte value
  | none =>
    rw [show written ps (place key) = none from missing last 0 (by decide),
      missing last 1 (by decide)]
    rfl

/-- Such a table lies where the places of its words lie. -/
theorem within_words {low high : Nat} (h : WordsAt place pairs ps)
    (inside : ∀ d ∈ pairs, low ≤ place d.1 ∧ place d.1 + 2 ≤ high) : Within low high ps := by
  unfold WordsAt at h
  induction h with
  | nil => exact nofun
  | @cons d p pairs ps eq _ ih =>
    subst eq
    exact List.forall_mem_cons.mpr ⟨inside d List.mem_cons_self,
      ih fun d' mem => inside d' (List.mem_cons_of_mem d mem)⟩

/-! ## Abbreviations -/

theorem encodeText_eq_ok {text : String} {bytes : List Byte} :
    encodeText text = .ok bytes ↔ ∃ words, ZString.encode text = .ok words ∧
      bytes = Word.toBytes words := by
  unfold encodeText
  cases ZString.encode text <;> simp [eq_comm]

/-- An abbreviation takes its string and a pointer; the next string comes right after. -/
theorem abbreviationPatches_cons {next index : Nat} {text : String} {rest : List (Nat × String)}
    (h : abbreviationPatches next ((index, text) :: rest) = .ok ps) :
    ∃ words others, index < AbbreviationTable.count ∧ ZString.encode text = .ok words ∧
      next + 2 * words.length ≤ stringsAddress ∧
      abbreviationPatches (next + 2 * words.length) rest = .ok others ∧
      ps = ⟨next, Word.toBytes words⟩ ::
        ofWord (abbreviationsAddress + 2 * index) (next / 2) :: others := by
  rw [abbreviationPatches] at h
  split at h
  · cases h
  · next few =>
    obtain ⟨bytes, encoded, h⟩ := Except.bind_eq_ok.mp h
    obtain ⟨words, written, rfl⟩ := encodeText_eq_ok.mp encoded
    simp only [stop, Word.length_toBytes] at h
    split at h
    · cases h
    · next fits =>
      obtain ⟨others, rest, h⟩ := Except.bind_eq_ok.mp h
      cases h
      exact ⟨words, others, Nat.lt_of_not_le few, written, Nat.le_of_not_lt fits, rest, rfl⟩

/-- The strings lie one after another from `next` on; the pointers lie in their table, each in the
place of an abbreviation that was given. -/
theorem abbreviation_regions {next : Nat} {given : List (Nat × String)}
    (h : abbreviationPatches next given = .ok ps) :
    ∀ p ∈ ps, next ≤ p.address ∧ p.stop ≤ stringsAddress ∨
      ∃ d ∈ given, d.1 < AbbreviationTable.count ∧
        p.address = abbreviationsAddress + 2 * d.1 ∧ p.stop = p.address + 2 := by
  induction given generalizing next ps with
  | nil =>
    cases h
    exact nofun
  | cons d rest ih =>
    obtain ⟨words, others, few, -, fits, after, rfl⟩ := abbreviationPatches_cons h
    intro p mem
    rcases List.mem_cons.mp mem with rfl | mem
    · refine .inl ⟨Nat.le_refl _, ?_⟩
      rwa [stop, Word.length_toBytes]
    · rcases List.mem_cons.mp mem with rfl | mem
      · exact .inr ⟨d, List.mem_cons_self, few, rfl, rfl⟩
      · rcases ih after p mem with ⟨low, high⟩ | ⟨d', mem', place⟩
        · exact .inl ⟨by omega, high⟩
        · exact .inr ⟨d', List.mem_cons_of_mem d mem', place⟩

def WroteAbbreviation (ps : List Patch) (next index : Nat) (text : String) : Prop :=
  ∃ words target, ZString.encode text = .ok words ∧ target % 2 = 0 ∧ next ≤ target ∧
    target + 2 * words.length ≤ stringsAddress ∧
    Wrote ps (abbreviationsAddress + 2 * index) (Word.toBytes [UInt16.ofNat (target / 2)]) ∧
    Wrote ps target (Word.toBytes words)

/-- An abbreviation stays if its index is not given again. -/
theorem wroteAbbreviation_of_cons {next index : Nat} {text : String} {rest : List (Nat × String)}
    (h : abbreviationPatches next ((index, text) :: rest) = .ok ps) (even : next % 2 = 0)
    (late : abbreviationStringsAddress ≤ next) (last : rest.reverse.lookup index = none) :
    WroteAbbreviation ps next index text := by
  obtain ⟨words, others, few, written, fits, after, rfl⟩ := abbreviationPatches_cons h
  have regions := abbreviation_regions after
  have notLater (d : Nat × String) (mem : d ∈ rest) : d.1 ≠ index := fun eq =>
    absurd (List.lookup_eq_none_iff.mp last d (List.mem_reverse.mpr mem)) (by simp [eq])
  simp only [abbreviationsAddress, abbreviationStringsAddress, AbbreviationTable.count] at *
  refine ⟨words, next, written, even, Nat.le_refl _, fits, ?_, ?_⟩
  · refine Wrote.cons (.self others (ofWord _ _) fun i low high => ?_) _
    simp only [stop_ofWord] at high
    simp only [ofWord] at low high
    refine written_eq_none fun p mem => ?_
    rcases regions p mem with ⟨after', -⟩ | ⟨d, mem', few', address, stop⟩
    · omega
    · have := notLater d mem'
      omega
  · refine .self _ ⟨next, _⟩ fun i low high => ?_
    simp only [stop, Word.length_toBytes] at low high
    refine written_eq_none fun p mem => ?_
    rcases List.mem_cons.mp mem with rfl | mem
    · rw [stop_ofWord]
      simp only [ofWord]
      omega
    · rcases regions p mem with ⟨after', -⟩ | ⟨d, -, few', address, stop⟩ <;> omega

/-- Of the abbreviations for an index, the last one is pointed to, and its string stays whole. -/
theorem wroteAbbreviation {next index : Nat} {given : List (Nat × String)} {text : String}
    (h : abbreviationPatches next given = .ok ps) (even : next % 2 = 0)
    (late : abbreviationStringsAddress ≤ next) (last : given.reverse.lookup index = some text) :
    index < AbbreviationTable.count ∧ WroteAbbreviation ps next index text := by
  induction given generalizing next ps with
  | nil => cases last
  | cons d rest ih =>
    obtain ⟨words, others, few, -, -, after, eq⟩ := abbreviationPatches_cons h
    rw [lookup_reverse_cons] at last
    cases later : rest.reverse.lookup index with
    | some text' =>
      rw [later, Option.some_or] at last
      cases last
      obtain ⟨few', words', target, written, even', low, high, pointer, string⟩ :=
        ih after (by omega) (by omega) later
      rw [eq]
      exact ⟨few', words', target, written, even', by omega, high, (pointer.cons _).cons _,
        (string.cons _).cons _⟩
    | none =>
      rw [later, Option.none_or] at last
      split at last
      · next same =>
        subst same
        cases last
        exact ⟨few, wroteAbbreviation_of_cons h even late later⟩
      · cases last

end ZMachine.Blueprint
