import Mathlib.Data.List.Pairwise
import ZMachine.Dictionary.Token
import ZMachine.Word

/-!
# Runs of bytes

A line is cut between bytes. Each separator makes a run of its own, each word is as long as it can
be, and together they hold all of the line but for its spaces.

## Main definitions

* `Token.InWord` — a byte that is neither a space nor a separator.
* `Token.StandsAt` — what stands at a place of a line as a word of its own.
* `Token.Span.LiesIn` — a run of bytes stands in a line at its place.
* `Token.Span.Before` — one run ends before the other begins.

## Main statements

* `Token.mem_spansFrom_cons` — what one byte makes of the runs.
* `Token.standsAt_spansFrom` — a run is a separator, or cannot be made longer.
* `Token.pairwise_spansFrom` — the runs are in the order of the line, and do not overlap.
* `Token.exists_covers_spansFrom`, `Token.eq_of_covers` — each byte that is not a space lies in one
  run.
-/

namespace ZMachine

namespace Token

variable {separators : List Byte}

/-! ## Where a run stands -/

/-- A byte of a word: neither a space nor a separator. -/
def InWord (separators : List Byte) (b : Byte) : Prop :=
  b ≠ space ∧ b ∉ separators

/-- Bytes of a word that cannot be taken together with what stands before or after them. -/
structure Maximal (separators before run after : List Byte) : Prop where
  nonempty : run ≠ []
  inWord : ∀ b ∈ run, InWord separators b
  left : ∀ b, before.getLast? = some b → ¬ InWord separators b
  right : ∀ b, after.head? = some b → ¬ InWord separators b

/-- What stands at a place of a line as a word of its own: one separator, or as long a run of other
bytes as there is. -/
inductive StandsAt (separators line bytes : List Byte) (offset : Nat) : Prop
  | separator {before after : List Byte} {b : Byte} (parts : line = before ++ b :: after)
      (place : before.length = offset) (single : bytes = [b]) (listed : b ∈ separators)
      (visible : b ≠ space)
  | run {before after : List Byte} (parts : line = before ++ bytes ++ after)
      (place : before.length = offset) (maximal : Maximal separators before bytes after)

theorem StandsAt.nonempty {line bytes : List Byte} {offset : Nat}
    (h : StandsAt separators line bytes offset) : bytes ≠ [] := by
  cases h with
  | separator _ _ single => exact single ▸ List.cons_ne_nil _ _
  | run _ _ maximal => exact maximal.nonempty

section
variable {offset : Nat} {front openWord rest : List Byte} {b : Byte} {s : Span}

/-- A byte goes on with the open word, or it closes this and may be a run itself. -/
theorem mem_spansFrom_cons (mem : s ∈ spansFrom separators offset openWord (b :: rest)) :
    (InWord separators b ∧ s ∈ spansFrom separators (offset + 1) (b :: openWord) rest) ∨
      (¬ InWord separators b ∧ (s ∈ close offset openWord ∨
        (b ≠ space ∧ b ∈ separators ∧ s = ⟨[b], offset, true⟩) ∨
        s ∈ spansFrom separators (offset + 1) [] rest)) := by
  rw [spansFrom] at mem
  split at mem
  · next isSpace =>
    exact .inr ⟨fun inWord => inWord.1 isSpace, (List.mem_append.mp mem).imp_right .inr⟩
  · next visible =>
    split at mem
    · next listed =>
      refine .inr ⟨fun inWord => inWord.2 listed, (List.mem_append.mp mem).imp_right fun mem => ?_⟩
      exact (List.mem_cons.mp mem).imp_left fun same => ⟨visible, listed, same⟩
    · next unlisted => exact .inl ⟨⟨visible, unlisted⟩, mem⟩

/-- A run of bytes of a word stands as a word where none is before or after it. -/
theorem standsAt_close (left : ∀ b, front.getLast? = some b → ¬ InWord separators b)
    (own : ∀ b ∈ openWord, InWord separators b)
    (right : ∀ b, rest.head? = some b → ¬ InWord separators b)
    (mem : s ∈ close (front.length + openWord.length) openWord) :
    StandsAt separators (front ++ openWord.reverse ++ rest) s.bytes s.offset := by
  unfold close at mem
  split at mem
  · cases mem
  · next some =>
    obtain rfl := List.mem_singleton.mp mem
    refine .run rfl (by simp) ⟨by simpa using some, fun b mem => ?_, left, right⟩
    exact own b (List.mem_reverse.mp mem)

/-- The line is what has been passed, the word that is open, and the rest. -/
theorem standsAt_spansFrom (front openWord : List Byte)
    (left : ∀ b, front.getLast? = some b → ¬ InWord separators b)
    (own : ∀ b ∈ openWord, InWord separators b)
    (mem : s ∈ spansFrom separators (front.length + openWord.length) openWord rest) :
    StandsAt separators (front ++ openWord.reverse ++ rest) s.bytes s.offset := by
  induction rest generalizing front openWord with
  | nil => exact standsAt_close left own nofun mem
  | cons b rest ih =>
    have passed :
        (front ++ openWord.reverse ++ [b]).length = front.length + openWord.length + 1 := by
      simp [Nat.add_assoc]
    rcases mem_spansFrom_cons mem with ⟨inWord, mem⟩ | ⟨ends, mem | ⟨visible, listed, rfl⟩ | mem⟩
    · have := ih front (b :: openWord) left (List.forall_mem_cons.mpr ⟨inWord, own⟩) mem
      simpa using this
    · exact standsAt_close left own (fun _ head => Option.some.inj head ▸ ends) mem
    · exact .separator rfl (by simp) rfl listed visible
    · rw [← passed] at mem
      have := ih (front ++ openWord.reverse ++ [b]) [] (by simpa using ends) nofun mem
      simpa using this

end

/-- Only a separator makes a run of its own kind. -/
theorem single_of_isSeparator {offset : Nat} {openWord rest : List Byte} {s : Span}
    (mem : s ∈ spansFrom separators offset openWord rest) (kind : s.isSeparator = true) :
    ∃ b ∈ separators, s.bytes = [b] := by
  have closed {offset : Nat} {openWord : List Byte} (mem : s ∈ close offset openWord) :
      ∃ b ∈ separators, s.bytes = [b] := by
    unfold close at mem
    split at mem
    · cases mem
    · obtain rfl := List.mem_singleton.mp mem
      cases kind
  induction rest generalizing offset openWord with
  | nil => exact closed mem
  | cons b rest ih =>
    rcases mem_spansFrom_cons mem with ⟨-, mem⟩ | ⟨-, mem | ⟨-, listed, rfl⟩ | mem⟩
    · exact ih mem
    · exact closed mem
    · exact ⟨b, listed, rfl⟩
    · exact ih mem

def Span.LiesIn (line : List Byte) (s : Span) : Prop :=
  ∃ before after, line = before ++ s.bytes ++ after ∧ before.length = s.offset

theorem StandsAt.liesIn {line : List Byte} {s : Span}
    (h : StandsAt separators line s.bytes s.offset) : s.LiesIn line := by
  cases h with
  | separator parts place single => exact ⟨_, _, by rw [parts, single, List.append_cons], place⟩
  | run parts place => exact ⟨_, _, parts, place⟩

/-- Every run that the scan gives stands as a word in the line. -/
theorem standsAt_of_mem {line : List Byte} {s : Span} (mem : s ∈ spansFrom separators 0 [] line) :
    StandsAt separators line s.bytes s.offset :=
  standsAt_spansFrom [] [] nofun nofun mem

/-! ## The order of runs -/

def Span.Before (s t : Span) : Prop :=
  s.offset + s.bytes.length ≤ t.offset

def Span.Apart (s t : Span) : Prop :=
  s.Before t ∨ t.Before s

instance : Std.Symm Span.Apart := ⟨fun _ _ => Or.symm⟩

theorem mem_close {offset : Nat} {openWord : List Byte} {s : Span}
    (mem : s ∈ close offset openWord) :
    s.offset = offset - openWord.length ∧ s.bytes.length = openWord.length := by
  unfold close at mem
  split at mem
  · cases mem
  · obtain rfl := List.mem_singleton.mp mem
    exact ⟨rfl, List.length_reverse⟩

theorem pairwise_close (offset : Nat) (openWord : List Byte) :
    (close offset openWord).Pairwise Span.Before := by
  unfold close
  split
  · exact .nil
  · exact List.pairwise_singleton _ _

/-- No run begins before the open word. -/
theorem le_offset_of_mem {offset : Nat} {openWord rest : List Byte} {s : Span}
    (mem : s ∈ spansFrom separators offset openWord rest) :
    offset - openWord.length ≤ s.offset := by
  induction rest generalizing offset openWord with
  | nil => exact Nat.le_of_eq (mem_close mem).1.symm
  | cons b rest ih =>
    rcases mem_spansFrom_cons mem with ⟨-, mem⟩ | ⟨-, mem | ⟨-, -, rfl⟩ | mem⟩
    · have := ih mem
      simp only [List.length_cons] at this
      omega
    · exact Nat.le_of_eq (mem_close mem).1.symm
    · exact Nat.sub_le _ _
    · have := ih mem
      simp only [List.length_nil] at this
      omega

/-- The runs follow the order of the line. -/
theorem pairwise_spansFrom {offset : Nat} {openWord rest : List Byte}
    (passed : openWord.length ≤ offset) :
    (spansFrom separators offset openWord rest).Pairwise Span.Before := by
  induction rest generalizing offset openWord with
  | nil => exact pairwise_close offset openWord
  | cons b rest ih =>
    have closed {s t : Span} (first : s ∈ close offset openWord) (after : offset ≤ t.offset) :
        s.Before t := by
      obtain ⟨place, length⟩ := mem_close first
      rw [Span.Before]
      omega
    have next {t : Span} (mem : t ∈ spansFrom separators (offset + 1) [] rest) :
        offset + 1 ≤ t.offset := le_offset_of_mem mem
    have tail : (spansFrom separators (offset + 1) [] rest).Pairwise Span.Before :=
      ih (Nat.zero_le _)
    rw [spansFrom]
    split
    · refine List.pairwise_append.mpr ⟨pairwise_close _ _, tail, fun s first t mem => ?_⟩
      exact closed first (Nat.le_of_succ_le (next mem))
    · split
      · refine List.pairwise_append.mpr ⟨pairwise_close _ _,
          List.pairwise_cons.mpr ⟨fun t mem => next mem, tail⟩, fun s first t mem => ?_⟩
        obtain rfl | mem := List.mem_cons.mp mem
        · exact closed first (Nat.le_refl _)
        · exact closed first (Nat.le_of_succ_le (next mem))
      · exact ih (by rw [List.length_cons]; omega)

/-! ## What the runs hold -/

def Span.Covers (s : Span) (place : Nat) : Prop :=
  s.offset ≤ place ∧ place < s.offset + s.bytes.length

theorem exists_covers_close (start : Nat) {k : Nat} {openWord : List Byte}
    (short : k < openWord.length) :
    ∃ s ∈ close (start + openWord.length) openWord, s.Covers (start + k) := by
  have some : openWord.isEmpty = false := by
    rw [List.isEmpty_eq_false_iff]
    exact List.ne_nil_of_length_pos (Nat.zero_lt_of_lt short)
  rw [close, some]
  refine ⟨_, List.mem_singleton.mpr rfl, ?_⟩
  simp only [Span.Covers, List.length_reverse]
  omega

/-- A byte of the word that is open, or of the rest, lies in a run unless it is a space. -/
theorem exists_covers_spansFrom (start : Nat) (openWord : List Byte) {k : Nat} {rest : List Byte}
    {b : Byte} (found : (openWord.reverse ++ rest)[k]? = some b) (visible : b ≠ space) :
    ∃ s ∈ spansFrom separators (start + openWord.length) openWord rest, s.Covers (start + k) := by
  induction rest generalizing start k openWord with
  | nil =>
    have short : k < openWord.length := by
      simpa using (List.getElem?_eq_some_iff.mp found).1
    exact exists_covers_close start short
  | cons c rest ih =>
    rw [spansFrom]
    by_cases short : k < openWord.length
    · -- The byte is in the open word, which is closed here or goes on.
      obtain ⟨s, mem, covers⟩ := exists_covers_close start short
      split
      · exact ⟨s, List.mem_append_left _ mem, covers⟩
      · split
        · exact ⟨s, List.mem_append_left _ mem, covers⟩
        · exact ih start (c :: openWord) (by simpa using found)
    · obtain ⟨j, rfl⟩ := Nat.exists_eq_add_of_le (Nat.le_of_not_lt short)
      have later : (c :: rest)[j]? = some b := by
        rw [List.getElem?_append_right (by simp)] at found
        simpa using found
      cases j with
      | zero =>
        obtain rfl : c = b := by simpa using later
        rw [if_neg visible]
        split
        · refine ⟨_, List.mem_append_right _ List.mem_cons_self, ?_⟩
          simp only [Span.Covers, List.length_singleton]
          omega
        · exact ih start (c :: openWord) (by simp)
      | succ j =>
        obtain ⟨s, mem, covers⟩ :=
          ih (start + openWord.length + 1) [] (k := j) (by simpa using later)
        rw [show start + openWord.length + 1 + j = start + (openWord.length + (j + 1)) by omega]
          at covers
        split
        · exact ⟨s, List.mem_append_right _ mem, covers⟩
        · split
          · exact ⟨s, List.mem_append_right _ (List.mem_cons_of_mem _ mem), covers⟩
          · exact ih start (c :: openWord) (by simpa using found)

/-- No byte lies in two runs. -/
theorem eq_of_covers {line : List Byte} {place : Nat} {s t : Span}
    (mem : s ∈ spansFrom separators 0 [] line) (mem' : t ∈ spansFrom separators 0 [] line)
    (covers : s.Covers place) (covers' : t.Covers place) : s = t := by
  have apart : (spansFrom separators 0 [] line).Pairwise Span.Apart :=
    (pairwise_spansFrom (Nat.zero_le _)).imp Or.inl
  by_contra ne
  have beside := apart.forall mem mem' ne
  simp only [Span.Apart, Span.Before, Span.Covers] at beside covers covers'
  omega

end Token
end ZMachine
