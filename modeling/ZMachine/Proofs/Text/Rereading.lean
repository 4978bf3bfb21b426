import ZMachine.Proofs.Text.Codec
import ZMachine.Proofs.Text.Expansion
import ZMachine.Proofs.Text.Unpacking

/-!
# Texts that were read

Strings can spell a text in many ways, with references, with codes of letters, and with parts left
open at their end. But the half of a code has five bits, and all letters are ASCII. So every text
that was read can be written, and once it has been written it is spelled in one way only.

## Main definitions

* `Awaited.Bounded` — the half of a code that was read has five bits.
* `ZString.reread` — reads a string, writes its text and reads that.

## Main statements

* `Awaited.next_bounded` — what one z-character adds to a text.
* `ZString.toNat_lt_of_readWithin` — the characters of a text that was read, references included.
* `ZString.read_encode_read` — every text that was read can be written, and is read from that again.
-/

namespace ZMachine

/-! ## The characters of a text -/

theorem Alphabet.toNat_letter_lt (a : Alphabet) (z : ZChar) : (a.letter z).toNat < 0x400 := by
  have ascii : a.letters.all (·.toNat < 0x400) = true := by cases a <;> decide
  rw [letter, List.getD_eq_getElem?_getD]
  cases found : a.letters[z.toNat - 6]? with
  | none => decide
  | some c => exact of_decide_eq_true (List.all_eq_true.mp ascii c (List.mem_of_getElem? found))

namespace Awaited

/-- If half of a code is known, it has five bits. -/
def Bounded : Awaited → Prop
  | lowCode high => high < 32
  | _ => True

/-- A code is made of two halves, and any other character is a letter. -/
theorem next_bounded {state : Awaited} {z : ZChar} (bounded : state.Bounded) (small : z < 32) :
    (state.next z).1.Bounded ∧
      ∀ c, (state.next z).2 = some (.char c) → c.toNat < 0x400 := by
  cases state with
  | abbreviation table => exact ⟨trivial, nofun⟩
  | highCode => exact ⟨small, nofun⟩
  | lowCode high =>
    refine ⟨trivial, ?_⟩
    rintro _ ⟨⟩
    simp only [Bounded, UInt8.lt_iff_toNat_lt, UInt8.reduceToNat] at bounded small
    have code : 32 * high.toNat + z.toNat < 0x400 := by omega
    have valid : (32 * high.toNat + z.toNat).isValidChar := .inl (by omega)
    rw [Char.ofNat, dif_pos valid]
    exact code
  | letter a =>
    rw [next]
    split_ifs
    all_goals refine ⟨trivial, ?_⟩
    all_goals simp [a.toNat_letter_lt z]

/-- Characters that are read can be written: ten bits tell each of them. -/
theorem toNat_lt_of_mem_pieces {state : Awaited} {zs : List ZChar} (bounded : state.Bounded)
    (small : ∀ z ∈ zs, z < 32) {c : Char} (mem : .char c ∈ state.pieces zs) : c.toNat < 0x400 := by
  induction zs generalizing state with
  | nil => cases mem
  | cons z zs ih =>
    obtain ⟨after, emitted⟩ := next_bounded bounded (small z List.mem_cons_self)
    rw [pieces_cons] at mem
    obtain own | later := List.mem_append.mp mem
    · exact emitted c (Option.mem_toList.mp own)
    · exact ih after (fun z mem => small z (List.mem_cons_of_mem _ mem)) later

end Awaited

def Memory.ofWords (words : List Word) : Memory :=
  ⟨(Word.toBytes words).toArray⟩

theorem Memory.holds_ofWords (words : List Word) :
    (ofWords words).Holds 0 (Word.toBytes words) := by
  refine holds_iff.mpr fun k b found => ?_
  obtain ⟨inside, rfl⟩ := List.getElem?_eq_some_iff.mp found
  rw [Nat.zero_add]
  refine ⟨by simpa [ofWords, size] using inside, ?_⟩
  simp only [ofWords, get, Array.getD_eq_getD_getElem?, List.getElem?_toArray, found,
    Option.getD_some]

namespace ZString

variable {m : Memory} {t : AbbreviationTable} {address depth : Nat}

/-- The induction is on the depth that is left, as abbreviations are read like the string itself. -/
theorem toNat_lt_of_readWithin {text : List Char} (read : readWithin m t depth address = .ok text) :
    ∀ c ∈ text, c.toNat < 0x400 := by
  induction depth generalizing address text with
  | zero => cases read
  | succ depth ih =>
    obtain ⟨zs, found, expanded⟩ := Except.bind_eq_ok.mp read
    obtain ⟨ws, -, -, rfl⟩ := Memory.zcharsAt_eq_ok.mp found
    obtain ⟨textOf, texts, rfl⟩ := Piece.expand_eq_ok.mp expanded
    have small : ∀ z ∈ ws.flatMap unpackWord, z < 32 := by
      intro z mem
      obtain ⟨w, -, mem⟩ := List.mem_flatMap.mp mem
      exact lt_of_mem_unpackWord mem
    intro c mem
    obtain ⟨piece, stands, mem⟩ := List.mem_flatMap.mp mem
    cases piece with
    | char c' =>
      obtain rfl := List.mem_singleton.mp mem
      have bounded : Awaited.start.Bounded := trivial
      exact Awaited.toNat_lt_of_mem_pieces bounded small stands
    | abbreviation table index =>
      obtain ⟨target, -, own⟩ := Except.bind_eq_ok.mp (texts table index stands)
      exact ih own c mem

/-- Every text that was read can be written. -/
theorem exists_encode_of_read {text : String} (found : read m t address = .ok text) :
    ∃ words, encode text = .ok words := by
  obtain ⟨cs, within, rfl⟩ := Except.map_eq_ok.mp found
  obtain ⟨zs, written⟩ := exists_toZChars (toNat_lt_of_readWithin within)
  refine ⟨packZChars zs, ?_⟩
  rw [encode, String.toList_ofList, written]
  rfl

def reread (m : Memory) (t t' : AbbreviationTable) (address : Nat) : Except Error String := do
  let text ← read m t address
  let words ← encode text
  read (.ofWords words) t' 0

/-- Every text that is read can be written, and is read back from wherever its words lie, with any
abbreviations. So reading a string, writing it and reading it again is no more than reading it. -/
theorem read_encode_read (m : Memory) (t : AbbreviationTable) (address : Nat) :
    (∀ text, read m t address = .ok text →
      ∃ words, encode text = .ok words ∧
        ∀ (m' : Memory) (address' : Nat) (t' : AbbreviationTable),
          m'.Holds address' (Word.toBytes words) → read m' t' address' = .ok text) ∧
    ∀ t', reread m t t' address = read m t address := by
  constructor
  · intro text found
    obtain ⟨words, written⟩ := exists_encode_of_read found
    refine ⟨words, written, fun m' address' t' holds => ?_⟩
    exact (read_of_holds written holds t').1
  · intro t'
    rw [reread]
    cases found : read m t address with
    | error e => rfl
    | ok text =>
      obtain ⟨words, written⟩ := exists_encode_of_read found
      have back := (read_of_holds written (Memory.holds_ofWords words) t').1
      change (encode text >>= fun words => read (.ofWords words) t' 0) = .ok text
      rw [written]
      exact back

/-- One pointer, the string of its abbreviation at 4, which ends in an escape that is cut off, and a
string at 6. A shift stands before its reference, a letter is written by its code, and a shift and
half of a reference are left open at its end. -/
def raggedMemory : Memory :=
  ⟨#[0, 2, 0, 0, 0x98, 0xA6, 0x10, 0x20, 0x14, 0xC3, 0x84, 0x81]⟩

/-- The text of three words is written as one. -/
theorem read_encode_read_raggedMemory :
    read raggedMemory ⟨0⟩ 6 = .ok "aa" ∧ encode "aa" = .ok [0x98C5] ∧
      read (.ofWords [0x98C5]) ⟨0⟩ 0 = .ok "aa" ∧ reread raggedMemory ⟨0⟩ ⟨0⟩ 6 = .ok "aa" := by
  have found : read raggedMemory ⟨0⟩ 6 = .ok "aa" := by decide +kernel
  have written : encode "aa" = .ok [0x98C5] := by decide +kernel
  obtain ⟨again, same⟩ := read_encode_read raggedMemory ⟨0⟩ 6
  obtain ⟨words, written', back⟩ := again "aa" found
  obtain rfl : [0x98C5] = words := Except.ok.inj (written.symm.trans written')
  exact ⟨found, written, back _ 0 ⟨0⟩ (Memory.holds_ofWords _), (same ⟨0⟩).trans found⟩

end ZString
end ZMachine
