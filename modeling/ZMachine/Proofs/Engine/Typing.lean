import ZMachine.Proofs.Dictionary.Search
import ZMachine.Proofs.Engine.Outcome
import ZMachine.Proofs.Machine.Typing

/-!
# Reading a line

When an instruction has read a line, the line that the host gave and its words are in the two
buffers that the instruction names, as far as they have room, and nothing else in memory has
changed.

## Main statements

* `Machine.tracks_dictionary` — nothing that happens to a machine changes its dictionary.
* `Engine.sread_takes_line` — what there is in memory when a story has read a line.
-/

namespace ZMachine

namespace Machine

/-- No program changes the dictionary. -/
theorem tracks_dictionary : Tracks (Keeps dictionary) where
  effect h := by cases h <;> rfl
  control _ _ _ := rfl

/-- A word is found where an entry lies, and entries lie where the dictionary was loaded from. -/
theorem lookup_lt {story : Memory} {random : Random} {m : Machine} {limit : Nat}
    (loaded : load story random = .ok m)
    (below : ∀ index < m.dictionary.size, m.dictionary.entryAddress index < limit) {typed : String}
    {place : Nat} (found : m.dictionary.lookup typed = some place) : place < limit := by
  obtain ⟨h, objects, dictionary, -, -, readWords, rfl⟩ := load_iff.mp loaded
  obtain ⟨key, index, -, carries, rfl⟩ := (Dictionary.answers_lookup readWords typed).sound _ found
  exact below index carries.inside

end Machine

namespace Engine

variable {η : Type} [Host η]

open Machine

/-- Let a story be loaded whose dictionary has its entries below 0x10000, so that their addresses
are words. On whatever way it has come to where it reads a line, if the two buffers are apart from
each other and the line is read, then it is the next line that the host gives, and both buffers hold
what they should:

* the text buffer the characters of the line that it has room for, with a zero byte after them;
* the parse buffer the number of words in them, or of those that it has room for, and a record for
  each in their order, with the address of its entry or 0, its length, and a place at which the text
  buffer has this word.

No other byte of memory has changed, and nothing else of the machine. -/
theorem sread_takes_line {story : Memory} {random : Random} {e : Engine η}
    (loaded : load story random = .ok e.machine)
    (below : ∀ index < e.machine.dictionary.size,
      e.machine.dictionary.entryAddress index < 0x10000)
    (n : Nat) {now : Engine η} (reached : Turns (e.after n).machine now.machine) (i : Instruction)
    (text parse : Word) (rest : List Word)
    (apart : text.toNat + max 1 (now.machine.memory.get text.toNat).toNat < parse.toNat ∨
      parse.toNat + 1 + 4 * (now.machine.memory.get parse.toNat).toNat < text.toNat)
    (advanced : answer (perform .sread i (text :: parse :: rest)) now = .ok .advanced) :
    ∃ flushed line asked words, (Host.flush : HostM η Unit).run now.host = .ok () flushed ∧
      (Host.readLine : HostM η String).run flushed = .ok line asked ∧
      TookLine text.toNat parse.toNat line words now.machine
        (finalState (perform .sread i (text :: parse :: rest)) now).machine := by
  obtain ⟨flushed, called, ⟨quit, -⟩ |
      ⟨-, _, _, line, asked, first, second, read, accepted, final⟩⟩ :=
    exists_of_readInput advanced
  · cases quit
  cases first
  cases second
  have same : now.machine.dictionary = e.machine.dictionary :=
    tracks_dictionary.turns ((turns_after e n).trans reached)
  have found (typed : String) (place : Nat) (h : now.machine.dictionary.lookup typed = some place) :
      place < 0x10000 := lookup_lt loaded below (same ▸ h)
  obtain ⟨words, took⟩ := tookLine_of_acceptLine apart found accepted
  have performed : (perform .sread i (text :: parse :: rest) : EngineM η Outcome) =
      readInput (text :: parse :: rest) := rfl
  rw [performed, final]
  exact ⟨flushed, line, asked, words, called, read, took⟩

/-- A line that is too long for the text buffer, with more words than the parse buffer has room for.
The dictionary has one word, at 99. -/
theorem sread_takes_line_promptMachine :
    let line := "GO,\tgø north"
    let e : Engine Script := ofMachine promptMachine (Script.ofLines [line])
    let i : Instruction :=
      ⟨109, .several, 4, .variadic, [.small 75, .small 84], none, none, none, 4⟩
    let m := (finalState (perform .sread i [75, 84]) (e.after 1)).machine
    load promptStory (Random.predictable 0) = .ok e.machine ∧
      (∀ index < e.machine.dictionary.size,
        e.machine.dictionary.entryAddress index < 0x10000) ∧
      Turns (e.after 1).machine (e.after 1).machine ∧
      (75 + max 1 ((e.after 1).machine.memory.get 75).toNat < 84) ∧
      Instruction.decode (e.after 1).machine.memory (e.after 1).machine.pc = .ok i ∧
      answer (perform .sread i [75, 84]) (e.after 1) = .ok .advanced ∧
      (∃ words, TookLine 75 84 line words (e.after 1).machine m) ∧
      m.memory.slice 76 8 = .ok (("go, g n".toList.map Token.code) ++ [0]) ∧
      m.memory.slice 84 10 = .ok [2, 2, 0, 99, 2, 1, 0, 0, 1, 3] := by
  intro line e i m
  have below : ∀ index < e.machine.dictionary.size,
      e.machine.dictionary.entryAddress index < 0x10000 := by decide +kernel
  have apart : 75 + max 1 ((e.after 1).machine.memory.get 75).toNat < 84 := by decide +kernel
  have advanced : answer (perform .sread i [75, 84]) (e.after 1) = .ok .advanced := by
    decide +kernel
  obtain ⟨flushed, typed, asked, words, called, read, took⟩ :=
    sread_takes_line load_promptStory below 1 .refl i 75 84 [] (.inl apart) advanced
  have host : (e.after 1).host = ⟨[line], ">"⟩ := by decide +kernel
  rw [host] at called
  cases called
  cases read
  exact ⟨load_promptStory, below, .refl, apart, by decide +kernel, advanced, ⟨words, took⟩,
    by decide +kernel, by decide +kernel⟩

end Engine
end ZMachine
