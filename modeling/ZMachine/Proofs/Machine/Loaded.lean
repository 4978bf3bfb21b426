import ZMachine.Machine
import ZMachine.Proofs.Action

/-!
# Loaded machines

A story that loads gives a machine at its start, with the header, the objects and the dictionary
that its memory describes.

## Main statements

* `Header.parse_eq_ok` — which stories have a header that can be played.
* `Machine.load_iff` — which machine a story gives.
-/

namespace ZMachine

/-- A header is taken iff memory is long enough for it and nothing about its fields is at fault. -/
theorem Header.parse_eq_ok {m : Memory} {h : Header} :
    Header.parse m = .ok h ↔ length ≤ m.size ∧ read m = .ok h ∧ h.fault? m.size = none := by
  rw [parse]
  by_cases short : m.size < length
  · rw [if_pos short]
    exact ⟨nofun, fun ⟨long, _⟩ => absurd long (by omega)⟩
  · rw [if_neg short, Except.bind_eq_ok]
    constructor
    · rintro ⟨h', found, fine⟩
      split at fine
      · cases fine
      · next none =>
        cases fine
        exact ⟨by omega, found, none⟩
    · rintro ⟨-, found, none⟩
      exact ⟨h, found, by rw [none]; rfl⟩

def Header.fields (m : Memory) : Header :=
  let word (place : Nat) : Word := Word.ofBytes (m.get place) (m.get (place + 1))
  { version := m.get 0x00
    flags := m.get 0x01
    release := word 0x02
    highBase := (word 0x04).toNat
    start := (word 0x06).toNat
    dictionary := (word 0x08).toNat
    objects := (word 0x0A).toNat
    globals := (word 0x0C).toNat
    dynamicLimit := (word 0x0E).toNat
    serial := (List.range 6).map fun i => m.get (0x12 + i)
    abbreviations := (word 0x18).toNat
    fileLength := 2 * (word 0x1A).toNat
    checksum := word 0x1C }

theorem Header.read_of_long {m : Memory} (long : length ≤ m.size) : read m = .ok (fields m) := by
  simp only [read, Memory.wordAt, Memory.byteAt, Memory.slice, Memory.check, length] at *
  repeat rw [if_pos (by omega)]
  rfl

/-- A story that can be played is not too large. -/
theorem Header.size_le_of_parse {m : Memory} {h : Header} (parsed : Header.parse m = .ok h) :
    m.size ≤ maxFileLength := by
  obtain ⟨-, -, none⟩ := parse_eq_ok.mp parsed
  unfold fault? at none
  split_ifs at none
  omega

namespace Machine

def atStart (m : Memory) (h : Header) (objects : ObjectTable) (dictionary : Dictionary)
    (random : Random) : Machine where
  memory := m
  header := h
  abbreviations := ⟨h.abbreviations⟩
  objects := objects
  dictionary := dictionary
  stack := CallStack.start h.start
  pc := h.start
  random := random

/-- A story is loaded iff its header, its objects and its dictionary are. -/
theorem load_iff {m : Memory} {random : Random} {machine : Machine} :
    load m random = .ok machine ↔
      ∃ h objects dictionary, Header.parse m = .ok h ∧
        ObjectTable.load m h.objects ⟨h.abbreviations⟩ = .ok objects ∧
        Dictionary.load m h.dictionary ⟨h.abbreviations⟩ = .ok dictionary ∧
        machine = atStart m h objects dictionary random := by
  rw [load, Except.bind_eq_ok]
  constructor
  · rintro ⟨h, parsed, started⟩
    obtain ⟨objects, readObjects, started⟩ := Except.bind_eq_ok.mp started
    obtain ⟨dictionary, readWords, started⟩ := Except.bind_eq_ok.mp started
    exact ⟨h, objects, dictionary, parsed, readObjects, readWords, (Except.ok.inj started).symm⟩
  · rintro ⟨h, objects, dictionary, parsed, readObjects, readWords, rfl⟩
    refine ⟨h, parsed, ?_⟩
    rw [start, Except.bind_eq_ok]
    refine ⟨objects, readObjects, ?_⟩
    rw [Except.bind_eq_ok]
    exact ⟨dictionary, readWords, rfl⟩

/-- A small story. After the header come the entries of two objects without a name, which share two
properties of one byte and of two, then one global, an empty dictionary and the code. Dynamic memory
ends with the header. The program moves the second object into the first, branches because the first
has a child now, overwrites a property, a global and the dynamic limit, and at last tries to write
beyond the limit that it was loaded with. -/
def boxStory : Memory :=
  ⟨(
    -- header
    [3, 0, 0, 1, 0, 64, 0, 100, 0, 94, 0, 2, 0, 90, 0, 64] ++ List.replicate 48 (0 : Byte) ++
    -- entries from 64, properties from 82
    [0, 0, 0, 0, 0, 0, 0, 0, 82, 0, 0, 0, 0, 0, 0, 0, 0, 82, 0, 0x05, 1, 0x26, 2, 3, 0, 0] ++
    -- the global at 90, the dictionary at 94
    [0, 0, 0, 0, 0, 0, 0, 0, 0, 0] ++
    -- code from 100
    [0x0E, 2, 1, 0x92, 1, 0, 0xC3, 0xB4, 0xE3, 0x57, 1, 5, 7, 0x0D, 16, 42,
      0xE2, 0x57, 0, 14, 255, 0xE2, 0x57, 0, 88, 9]).toArray⟩

def boxMachine : Machine :=
  atStart boxStory ⟨3, 0, 1, 64, 100, 94, 2, 90, 64, [0, 0, 0, 0, 0, 0], 0, 0, 0⟩
    ⟨2, #[⟨0, 0, 0, 0, 82, none, [⟨5, 84, 1⟩, ⟨6, 86, 2⟩]⟩,
      ⟨0, 0, 0, 0, 82, none, [⟨5, 84, 1⟩, ⟨6, 86, 2⟩]⟩]⟩
    ⟨94, [], 0, 98, #[], #[]⟩ (Random.predictable 0)

theorem load_boxStory : load boxStory (Random.predictable 0) = .ok boxMachine :=
  load_iff.mpr ⟨_, _, _, by decide +kernel, by decide +kernel, by decide +kernel, rfl⟩

/-- A story that asks for lines again and again, each time after a prompt. After the header come the
entry and the properties of one object, a text buffer at 75 for seven characters, a parse buffer at
84 for two words, and a dictionary in which the comma parts words and the only word is go. -/
def promptStory : Memory :=
  ⟨(
    -- header
    [3, 0, 0, 1, 0, 94, 0, 106, 0, 94, 0, 2, 0, 64, 0, 94] ++ List.replicate 48 (0 : Byte) ++
    -- the object at 64
    [0, 0, 0, 0, 0, 0, 0, 0, 73, 0, 0] ++
    -- buffers at 75 and 84
    [8] ++ List.replicate 8 0 ++ [2] ++ List.replicate 9 0 ++
    -- the dictionary at 94
    [1, 44, 7, 0, 1, 0x32, 0x85, 0x94, 0xA5, 0, 0, 0] ++
    -- code from 106
    [0xE5, 0x7F, 62, 0xE4, 0x5F, 75, 84, 0x8C, 0xFF, 0xF8]).toArray⟩

def promptMachine : Machine :=
  atStart promptStory ⟨3, 0, 1, 94, 106, 94, 2, 64, 94, [0, 0, 0, 0, 0, 0], 0, 0, 0⟩
    ⟨2, #[⟨0, 0, 0, 0, 73, none, []⟩]⟩ ⟨94, [44], 7, 99, #["go"], #[0x328594A5]⟩
    (Random.predictable 0)

theorem load_promptStory : load promptStory (Random.predictable 0) = .ok promptMachine :=
  load_iff.mpr ⟨_, _, _, by decide +kernel, by decide +kernel, by decide +kernel, rfl⟩

end Machine
end ZMachine
