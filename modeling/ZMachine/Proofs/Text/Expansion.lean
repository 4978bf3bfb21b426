import Mathlib.Data.List.Induction
import ZMachine.Proofs.Text.Packing
import ZMachine.Text.ZString

/-!
# Strings that refer to strings

A string refers to abbreviations, whose strings may refer to others. It is read exactly if no more
than three references follow one another from it, and all that is needed on the way lies in memory.
So references may go round in a circle somewhere in a story, but no string that leads there is read.

## Main definitions

* `ZString.Names` — z-characters with a completed reference among them.
* `ZString.Reached` — the string that some references lead to, one after the other.
* `ZString.Readable` — all that references lead to is in memory, and they do not lead too deep.

## Main statements

* `Awaited.pieces_reference` — what is open before a reference does not matter in it or after it.
* `ZString.exists_readWithin_iff` — which strings are read.
* `ZString.read_iff_readable` — which they are, what their texts are, and why others are refused.
-/

namespace ZMachine

/-! ## References among z-characters -/

namespace Awaited

variable {state : Awaited} {z : ZChar} {table index : Nat}

def after (state : Awaited) (zs : List ZChar) : Awaited :=
  zs.foldl (fun state z => (state.next z).1) state

@[simp] theorem after_concat (state : Awaited) (front : List ZChar) (z : ZChar) :
    state.after (front ++ [z]) = ((state.after front).next z).1 := by
  simp [after]

theorem pieces_cons (state : Awaited) (z : ZChar) (zs : List ZChar) :
    state.pieces (z :: zs) = (state.next z).2.toList ++ (state.next z).1.pieces zs := rfl

/-- Reading goes on in the second part with what is awaited after the first. -/
theorem pieces_append (state : Awaited) (front back : List ZChar) :
    state.pieces (front ++ back) = state.pieces front ++ (state.after front).pieces back := by
  induction front generalizing state with
  | nil => rfl
  | cons z front ih =>
    rw [List.cons_append, pieces_cons, ih, pieces_cons, List.append_assoc]
    rfl

/-- The first half of a reference is one of three z-characters, where a letter may stand. -/
theorem next_eq_abbreviation :
    (state.next z).1 = .abbreviation table ↔
      ∃ a, state = .letter a ∧ 1 ≤ z ∧ z ≤ 3 ∧ table = z.toNat - 1 := by
  cases state with
  | letter a =>
    have positive : 1 ≤ z ↔ z ≠ 0 := by
      rw [UInt8.le_iff_toNat_le, ne_eq, ← UInt8.toNat_inj]
      exact Nat.one_le_iff_ne_zero
    rw [next]
    split_ifs <;> simp_all [start, eq_comm]
  | abbreviation | highCode | lowCode => simp [next, start]

/-- The second half of a reference is whatever follows the first. -/
theorem next_eq_some_abbreviation :
    (state.next z).2 = some (.abbreviation table index) ↔
      state = .abbreviation table ∧ index = z.toNat := by
  cases state with
  | letter a =>
    rw [next]
    split_ifs <;> simp
  | abbreviation | highCode | lowCode => simp [next, eq_comm]

/-- A reference stands for the abbreviation whatever is open before it, and nothing is open after
it. -/
theorem pieces_reference {front back : List ZChar} {a : Alphabet} {mark : ZChar}
    (open_ : start.after front = .letter a) (low : 1 ≤ mark) (high : mark ≤ 3) :
    start.pieces (front ++ mark :: z :: back) =
      start.pieces front ++ .abbreviation (mark.toNat - 1) z.toNat :: start.pieces back := by
  have opened : ((letter a).next mark).1 = .abbreviation (mark.toNat - 1) :=
    next_eq_abbreviation.mpr ⟨a, rfl, low, high, rfl⟩
  have silent : ((letter a).next mark).2 = none := by
    have zero : mark ≠ 0 := by
      rintro rfl
      exact absurd low (by decide)
    rw [next, if_neg zero, if_pos high]
  rw [pieces_append, open_, pieces_cons, silent, opened]
  rfl

end Awaited

namespace ZString

variable {zs : List ZChar} {table index : Nat}

/-- Among the z-characters there is a completed reference to an abbreviation, of which neither half
is part of an escape. -/
def Names (zs : List ZChar) (table index : Nat) : Prop :=
  ∃ front alphabet mark z back, zs = front ++ mark :: z :: back ∧
    Awaited.start.after front = .letter alphabet ∧ 1 ≤ mark ∧ mark ≤ 3 ∧
    table = mark.toNat - 1 ∧ index = z.toNat

/-- An abbreviation is read iff its reference stands among the z-characters. -/
theorem mem_pieces_iff_names :
    .abbreviation table index ∈ Piece.ofZChars zs ↔ Names zs table index := by
  constructor
  · intro mem
    induction zs using List.reverseRecOn with
    | nil => cases mem
    | append_singleton zs z ih =>
      rw [Piece.ofZChars, Awaited.pieces_append] at mem
      obtain mem | mem := List.mem_append.mp mem
      · obtain ⟨front, alphabet, mark, w, back, rfl, rest⟩ := ih mem
        exact ⟨front, alphabet, mark, w, back ++ [z], by simp, rest⟩
      · -- The last z-character completes the reference, and the one before it has opened it.
        have emitted : ((Awaited.start.after zs).next z).2 = some (.abbreviation table index) := by
          simpa [Awaited.pieces, Option.mem_toList] using mem
        obtain ⟨pending, place⟩ := Awaited.next_eq_some_abbreviation.mp emitted
        obtain rfl | ⟨front, mark, rfl⟩ := List.eq_nil_or_concat' zs
        · cases pending
        · rw [Awaited.after_concat] at pending
          obtain ⟨alphabet, letter, low, high, rfl⟩ := Awaited.next_eq_abbreviation.mp pending
          exact ⟨front, alphabet, mark, z, [], by simp, letter, low, high, rfl, place⟩
  · rintro ⟨front, alphabet, mark, z, back, rfl, letter, low, high, rfl, rfl⟩
    rw [Piece.ofZChars, Awaited.pieces_reference letter low high]
    simp

end ZString

/-! ## Texts of pieces -/

namespace Piece

/-- The characters of a piece, given the text of each abbreviation. -/
def spell (textOf : Nat → Nat → String) : Piece → List Char
  | .char c => [c]
  | .abbreviation table index => (textOf table index).toList

variable {ε : Type} {f : Nat → Nat → Except ε (List Char)} {ps : List Piece} {table index : Nat}

theorem expand_of_texts {textOf : Nat → Nat → String}
    (texts : ∀ table index, .abbreviation table index ∈ ps →
      f table index = .ok (textOf table index).toList) :
    expand f ps = .ok (ps.flatMap (spell textOf)) := by
  induction ps with
  | nil => rfl
  | cons p ps ih =>
    have rest := ih fun table index mem => texts table index (List.mem_cons_of_mem p mem)
    cases p with
    | char c =>
      rw [expand, rest]
      rfl
    | abbreviation table index =>
      rw [expand, texts table index List.mem_cons_self, rest]
      rfl

/-- A text is missing if that of an abbreviation is. -/
theorem exists_of_expand {cs : List Char} (expanded : expand f ps = .ok cs)
    (mem : .abbreviation table index ∈ ps) : ∃ text, f table index = .ok text := by
  induction ps generalizing cs with
  | nil => cases mem
  | cons p ps ih =>
    cases p with
    | char c =>
      obtain ⟨tail, rest, -⟩ := Except.map_eq_ok.mp expanded
      exact ih rest ((List.mem_cons.mp mem).resolve_left nofun)
    | abbreviation table' index' =>
      obtain ⟨text, own, expanded⟩ := Except.bind_eq_ok.mp expanded
      obtain ⟨tail, rest, -⟩ := Except.bind_eq_ok.mp expanded
      obtain same | mem := List.mem_cons.mp mem
      · cases same
        exact ⟨text, own⟩
      · exact ih rest mem

/-- The texts of all abbreviations in one function. -/
theorem exists_textOf (texts : ∀ table index, .abbreviation table index ∈ ps →
      ∃ text, f table index = .ok text) :
    ∃ textOf : Nat → Nat → String, ∀ table index, .abbreviation table index ∈ ps →
      f table index = .ok (textOf table index).toList := by
  refine ⟨fun table index => ((f table index).toOption.map String.ofList).getD "",
    fun table index mem => ?_⟩
  obtain ⟨text, own⟩ := texts table index mem
  simp [own, Except.toOption]

/-- Pieces are spelled out iff every abbreviation among them has a text. -/
theorem expand_eq_ok {cs : List Char} :
    expand f ps = .ok cs ↔ ∃ textOf : Nat → Nat → String,
      (∀ table index, .abbreviation table index ∈ ps →
        f table index = .ok (textOf table index).toList) ∧ cs = ps.flatMap (spell textOf) := by
  constructor
  · intro expanded
    obtain ⟨textOf, texts⟩ := exists_textOf fun table index => exists_of_expand expanded
    exact ⟨textOf, texts, Except.ok.inj (expanded.symm.trans (expand_of_texts texts))⟩
  · rintro ⟨textOf, texts, rfl⟩
    exact expand_of_texts texts

/-- If pieces are not spelled out, one of the abbreviations is at fault. -/
theorem exists_of_expand_error {e : ε} (failed : expand f ps = .error e) :
    ∃ table index, .abbreviation table index ∈ ps ∧ f table index = .error e := by
  induction ps with
  | nil => cases failed
  | cons p ps ih =>
    have later (failed : expand f ps = .error e) :
        ∃ table index, .abbreviation table index ∈ p :: ps ∧ f table index = .error e := by
      obtain ⟨table, index, mem, own⟩ := ih failed
      exact ⟨table, index, List.mem_cons_of_mem p mem, own⟩
    cases p with
    | char c =>
      cases rest : expand f ps with
      | ok tail =>
        rw [expand, rest] at failed
        cases failed
      | error fault =>
        rw [expand, rest] at failed
        cases failed
        exact later rest
    | abbreviation table index =>
      rw [expand] at failed
      cases own : f table index with
      | error fault =>
        rw [own] at failed
        cases failed
        exact ⟨table, index, List.mem_cons_self, own⟩
      | ok text =>
        cases rest : expand f ps with
        | ok tail =>
          rw [own, rest] at failed
          cases failed
        | error fault =>
          rw [own, rest] at failed
          cases failed
          exact later rest

end Piece

namespace ZString

variable {m : Memory} {t : AbbreviationTable} {index a b c depth n k : Nat}

/-! ## Where references lead -/

def RefersTo (m : Memory) (address table index : Nat) : Prop :=
  ∃ zs, m.zcharsAt address = .ok zs ∧ Names zs table index

def PointsTo (m : Memory) (t : AbbreviationTable) (a b : Nat) : Prop :=
  ∃ table index, RefersTo m a table index ∧ t.stringAddress m (32 * table + index) = .ok b

inductive Reached (m : Memory) (t : AbbreviationTable) : Nat → Nat → Nat → Prop
  | here (a : Nat) : Reached m t 0 a a
  | through {n a b c : Nat} (first : PointsTo m t a b) (rest : Reached m t n b c) :
      Reached m t (n + 1) a c

/-- Where fewer than `depth` references lead there is a string, and the table has the pointers that
it refers to. No `depth` references follow one another. -/
structure Readable (m : Memory) (t : AbbreviationTable) (depth address : Nat) : Prop where
  ends : ∀ n < depth, ∀ b, Reached m t n address b →
    ∃ ws, IsText ws ∧ m.Holds b (Word.toBytes ws)
  pointers : ∀ n < depth, ∀ b, Reached m t n address b → ∀ table index, RefersTo m b table index →
    t.address + 2 * (32 * table + index) + 2 ≤ m.size
  shallow : ∀ b, ¬Reached m t depth address b

namespace Reached

theorem trans (first : Reached m t n a b) (second : Reached m t k b c) :
    Reached m t (n + k) a c := by
  induction first with
  | here => rwa [Nat.zero_add]
  | through step _ ih =>
    rw [Nat.add_right_comm]
    exact .through step (ih second)

theorem exists_of_le (h : Reached m t n a c) (le : k ≤ n) : ∃ b, Reached m t k a b := by
  induction h generalizing k with
  | here a =>
    obtain rfl := Nat.le_zero.mp le
    exact ⟨a, .here a⟩
  | @through n a b c step rest ih =>
    cases k with
    | zero => exact ⟨a, .here a⟩
    | succ k =>
      obtain ⟨d, reached⟩ := ih (Nat.le_of_succ_le_succ le)
      exact ⟨d, .through step reached⟩

/-- A circle of references can be followed again and again. -/
theorem around (circle : Reached m t n a a) (k : Nat) : Reached m t (k * n) a a := by
  induction k with
  | zero =>
    rw [Nat.zero_mul]
    exact .here a
  | succ k ih =>
    rw [Nat.succ_mul]
    exact ih.trans circle

end Reached

/-! ## Which strings are read -/

/-- An abbreviation has a pointer iff its place in the table lies in memory. -/
theorem exists_stringAddress_iff :
    (∃ b, t.stringAddress m index = .ok b) ↔ t.address + 2 * index + 2 ≤ m.size := by
  constructor
  · rintro ⟨b, h⟩
    obtain ⟨w, word, -⟩ := Except.map_eq_ok.mp h
    exact (Memory.wordAt_eq_ok.mp word).end_le (List.cons_ne_nil _ _)
  · intro inside
    rw [AbbreviationTable.stringAddress, Memory.wordAt_of_le inside]
    exact ⟨_, rfl⟩

/-- A string is read with those that it refers to. -/
theorem exists_readWithin_succ_iff :
    (∃ text, readWithin m t (depth + 1) a = .ok text) ↔
      (∃ zs, m.zcharsAt a = .ok zs) ∧ ∀ table index, RefersTo m a table index →
        ∃ b, t.stringAddress m (32 * table + index) = .ok b ∧
          ∃ text, readWithin m t depth b = .ok text := by
  rw [readWithin]
  constructor
  · rintro ⟨text, h⟩
    obtain ⟨zs, found, expanded⟩ := Except.bind_eq_ok.mp h
    refine ⟨⟨zs, found⟩, ?_⟩
    rintro table index ⟨zs', found', names⟩
    cases found.symm.trans found'
    obtain ⟨text, own⟩ := Piece.exists_of_expand expanded (mem_pieces_iff_names.mpr names)
    obtain ⟨b, pointer, read⟩ := Except.bind_eq_ok.mp own
    exact ⟨b, pointer, text, read⟩
  · rintro ⟨⟨zs, found⟩, references⟩
    obtain ⟨textOf, texts⟩ : ∃ textOf : Nat → Nat → String, ∀ table index,
        .abbreviation table index ∈ Piece.ofZChars zs →
          (do
            let target ← t.stringAddress m (32 * table + index)
            readWithin m t depth target) = .ok (textOf table index).toList := by
      refine Piece.exists_textOf fun table index mem => ?_
      obtain ⟨b, pointer, text, read⟩ :=
        references table index ⟨zs, found, mem_pieces_iff_names.mp mem⟩
      exact ⟨text, Except.bind_eq_ok.mpr ⟨b, pointer, read⟩⟩
    exact ⟨_, Except.bind_eq_ok.mpr ⟨zs, found, Piece.expand_of_texts texts⟩⟩

/-- What a string leads to through one reference more than the strings that it refers to. -/
theorem readable_succ_iff :
    Readable m t (depth + 1) a ↔
      (∃ zs, m.zcharsAt a = .ok zs) ∧ ∀ table index, RefersTo m a table index →
        ∃ b, t.stringAddress m (32 * table + index) = .ok b ∧ Readable m t depth b := by
  constructor
  · intro h
    refine ⟨?_, fun table index refers => ?_⟩
    · obtain ⟨ws, text, holds⟩ := h.ends 0 depth.succ_pos a (.here a)
      exact ⟨_, Memory.zcharsAt_eq_ok.mpr ⟨ws, text, holds, rfl⟩⟩
    · obtain ⟨b, pointer⟩ := exists_stringAddress_iff.mpr
        (h.pointers 0 depth.succ_pos a (.here a) table index refers)
      have first : PointsTo m t a b := ⟨table, index, refers, pointer⟩
      exact ⟨b, pointer,
        fun n less c reached => h.ends _ (Nat.succ_lt_succ less) c (.through first reached),
        fun n less c reached => h.pointers _ (Nat.succ_lt_succ less) c (.through first reached),
        fun c reached => h.shallow c (.through first reached)⟩
  · rintro ⟨found, references⟩
    have next {b : Nat} (first : PointsTo m t a b) : Readable m t depth b := by
      obtain ⟨table, index, refers, pointer⟩ := first
      obtain ⟨b', pointer', readable⟩ := references table index refers
      cases pointer.symm.trans pointer'
      exact readable
    refine ⟨fun n less c reached => ?_, fun n less c reached => ?_, fun c reached => ?_⟩
    · cases reached with
      | here =>
        obtain ⟨zs, found⟩ := found
        obtain ⟨ws, text, holds, -⟩ := Memory.zcharsAt_eq_ok.mp found
        exact ⟨ws, text, holds⟩
      | through first rest => exact (next first).ends _ (Nat.lt_of_succ_lt_succ less) c rest
    · cases reached with
      | here =>
        intro table index refers
        obtain ⟨b, pointer, -⟩ := references table index refers
        exact exists_stringAddress_iff.mp ⟨b, pointer⟩
      | through first rest => exact (next first).pointers _ (Nat.lt_of_succ_lt_succ less) c rest
    · cases reached with
      | through first rest => exact (next first).shallow c rest

/-- A string is read to a depth exactly if references do not lead deeper or outside memory. -/
theorem exists_readWithin_iff :
    (∃ text, readWithin m t depth a = .ok text) ↔ Readable m t depth a := by
  induction depth generalizing a with
  | zero => exact ⟨nofun, fun h => absurd (.here a) (h.shallow a)⟩
  | succ depth ih => simp only [exists_readWithin_succ_iff, readable_succ_iff, ih]

/-! ## Why strings are refused -/

theorem eq_of_zcharsAt_error {e : Error} (failed : m.zcharsAt a = .error e) :
    ∃ place, e = .memoryOutOfRange place m.size ∧ m.size < place + 2 := by
  fun_induction Memory.zcharsAt m a with
  | case1 => cases failed
  | case2 a inside w unmarked ih =>
    cases rest : m.zcharsAt (a + 2) with
    | ok zs =>
      rw [rest] at failed
      cases failed
    | error fault =>
      rw [rest] at failed
      cases failed
      exact ih rest
  | case3 a outside =>
    cases failed
    exact ⟨a, rfl, Nat.lt_of_not_le outside⟩

theorem eq_of_stringAddress_error {e : Error} (failed : t.stringAddress m index = .error e) :
    ∃ place, e = .memoryOutOfRange place m.size ∧ m.size < place + 2 := by
  by_cases inside : t.address + 2 * index + 2 ≤ m.size
  · obtain ⟨b, found⟩ := exists_stringAddress_iff.mpr inside
    cases found.symm.trans failed
  · rw [AbbreviationTable.stringAddress, Memory.wordAt, Memory.check, if_neg inside] at failed
    cases failed
    exact ⟨_, rfl, Nat.lt_of_not_le inside⟩

/-- A string is refused because of a word outside memory, or because of a string that lies too
deep. -/
theorem eq_of_readWithin_error {e : Error} (failed : readWithin m t depth a = .error e) :
    (∃ place, e = .memoryOutOfRange place m.size ∧ m.size < place + 2) ∨
      ∃ b, e = .abbreviationTooDeep b ∧ Reached m t depth a b := by
  induction depth generalizing a with
  | zero =>
    cases failed
    exact .inr ⟨a, rfl, .here a⟩
  | succ depth ih =>
    rw [readWithin] at failed
    cases found : m.zcharsAt a with
    | error fault =>
      rw [found] at failed
      cases failed
      exact .inl (eq_of_zcharsAt_error found)
    | ok zs =>
      rw [found] at failed
      obtain ⟨table, index, mem, failed⟩ := Piece.exists_of_expand_error failed
      cases pointer : t.stringAddress m (32 * table + index) with
      | error fault =>
        rw [pointer] at failed
        cases failed
        exact .inl (eq_of_stringAddress_error pointer)
      | ok b =>
        rw [pointer] at failed
        refine (ih failed).imp_right ?_
        rintro ⟨c, rfl, rest⟩
        exact ⟨c, rfl,
          .through ⟨table, index, ⟨zs, found, mem_pieces_iff_names.mp mem⟩, pointer⟩ rest⟩

/-! ## Strings and their texts -/

/-- A string is read iff it and all that it refers to can be, at no more than the greatest depth. -/
theorem exists_read_iff : (∃ text, read m t a = .ok text) ↔ Readable m t maxDepth a := by
  rw [← exists_readWithin_iff, read]
  constructor
  · rintro ⟨text, h⟩
    obtain ⟨cs, found, -⟩ := Except.map_eq_ok.mp h
    exact ⟨cs, found⟩
  · rintro ⟨cs, found⟩
    exact ⟨String.ofList cs, Except.map_eq_ok.mpr ⟨cs, found, rfl⟩⟩

/-- The pieces of the string itself are spelled out, with the text that the table gives for each
reference. -/
structure Spells (m : Memory) (t : AbbreviationTable) (address : Nat) (text : String)
    (zs : List ZChar) (textOf : Nat → Nat → String) : Prop where
  zchars : m.zcharsAt address = .ok zs
  texts : ∀ table index, Names zs table index →
    t.get m (32 * table + index) = .ok (textOf table index)
  text : text = String.ofList ((Piece.ofZChars zs).flatMap (Piece.spell textOf))

/-- A string that was read is spelled out of its pieces. -/
theorem exists_spells_of_read {text : String} (h : read m t a = .ok text) :
    ∃ zs textOf, Spells m t a text zs textOf := by
  obtain ⟨cs, within, rfl⟩ := Except.map_eq_ok.mp h
  obtain ⟨zs, found, expanded⟩ := Except.bind_eq_ok.mp within
  obtain ⟨textOf, texts, rfl⟩ := Piece.expand_eq_ok.mp expanded
  refine ⟨zs, textOf, found, fun table index names => ?_, rfl⟩
  obtain ⟨b, pointer, read⟩ :=
    Except.bind_eq_ok.mp (texts table index (mem_pieces_iff_names.mpr names))
  refine Except.bind_eq_ok.mpr ⟨b, pointer, Except.map_eq_ok.mpr ⟨_, read, ?_⟩⟩
  exact String.ofList_toList

/-- A string that leads into a circle of references leads through as many of them as one likes. -/
theorem not_readable_of_circle (leads : Reached m t n a b) (circle : Reached m t (k + 1) b b) :
    ¬Readable m t depth a := by
  intro readable
  have long : depth ≤ n + depth * (k + 1) :=
    (Nat.le_mul_of_pos_right depth k.succ_pos).trans (Nat.le_add_left _ n)
  obtain ⟨c, reached⟩ := (leads.trans (circle.around depth)).exists_of_le long
  exact readable.shallow c reached

/-- A string is read exactly if up to three references, one after the other, lead to strings in
memory through pointers in memory, and nowhere four references follow one another.

* Its text is then made of its own pieces, with the text that the table gives in place of each
  reference. What is open before a reference does not matter in it, and nothing is open after it.
* Otherwise it is refused because of a word outside memory, or of a string four references deep.
* So no string is read that leads into a circle of references. -/
theorem read_iff_readable (m : Memory) (t : AbbreviationTable) (address : Nat) :
    ((∃ text, read m t address = .ok text) ↔ Readable m t 4 address) ∧
    (∀ text, read m t address = .ok text → ∃ zs textOf, Spells m t address text zs textOf) ∧
    (∀ front alphabet mark z back,
      Awaited.start.after front = .letter alphabet → 1 ≤ mark → mark ≤ 3 →
      Piece.ofZChars (front ++ mark :: z :: back) = Piece.ofZChars front ++
        .abbreviation (mark.toNat - 1) z.toNat :: Piece.ofZChars back) ∧
    (∀ e, read m t address = .error e →
      (∃ place, e = .memoryOutOfRange place m.size ∧ m.size < place + 2) ∨
        ∃ b, e = .abbreviationTooDeep b ∧ Reached m t 4 address b) ∧
    (∀ n b k, Reached m t n address b → Reached m t (k + 1) b b →
      ∃ e, read m t address = .error e) := by
  refine ⟨exists_read_iff, fun text => exists_spells_of_read,
    fun front alphabet mark z back => Awaited.pieces_reference, fun e failed => ?_,
    fun n b k leads circle => ?_⟩
  · rw [read] at failed
    cases within : readWithin m t maxDepth address with
    | ok cs =>
      rw [within] at failed
      cases failed
    | error fault =>
      rw [within] at failed
      cases failed
      exact eq_of_readWithin_error within
  · cases refused : read m t address with
    | ok text =>
      exact absurd (exists_read_iff.mp ⟨text, refused⟩) (not_readable_of_circle leads circle)
    | error e => exact ⟨e, rfl⟩

/-- Five pointers, and strings from 10 on. The strings at 10, 12 and 14 refer to the next one each,
the one at 18 to itself, and the one at 20 to the one at 10. -/
def nestedMemory : Memory :=
  ⟨#[0, 6, 0, 7, 0, 8, 0, 9, 0, 5,
    0x84, 0x06, 0x84, 0x27, 0x84, 0x48, 0xA4, 0xA5, 0x84, 0x65, 0x84, 0x85]⟩

/-- Three references in a row are followed, but not four. -/
theorem read_iff_readable_nestedMemory :
    read nestedMemory ⟨0⟩ 10 = .ok "dcba" ∧ Readable nestedMemory ⟨0⟩ 4 10 ∧
      (∃ zs textOf, Spells nestedMemory ⟨0⟩ 10 "dcba" zs textOf) ∧
      (∃ b, Reached nestedMemory ⟨0⟩ 4 20 b) ∧ ¬Readable nestedMemory ⟨0⟩ 4 18 := by
  have whole : read nestedMemory ⟨0⟩ 10 = .ok "dcba" := by decide +kernel
  have deep : read nestedMemory ⟨0⟩ 20 = .error (.abbreviationTooDeep 16) := by decide +kernel
  have circle : read nestedMemory ⟨0⟩ 18 = .error (.abbreviationTooDeep 18) := by decide +kernel
  obtain ⟨reads, spells, -, -, -⟩ := read_iff_readable nestedMemory ⟨0⟩ 10
  obtain ⟨-, -, -, refused, -⟩ := read_iff_readable nestedMemory ⟨0⟩ 20
  obtain ⟨circles, -, -, -, -⟩ := read_iff_readable nestedMemory ⟨0⟩ 18
  refine ⟨whole, reads.mp ⟨_, whole⟩, spells _ whole, ?_, fun readable => ?_⟩
  · obtain ⟨place, wrong, -⟩ | ⟨b, -, reached⟩ := refused _ deep
    · cases wrong
    · exact ⟨b, reached⟩
  · obtain ⟨text, found⟩ := circles.mpr readable
    cases circle.symm.trans found

end ZString
end ZMachine
