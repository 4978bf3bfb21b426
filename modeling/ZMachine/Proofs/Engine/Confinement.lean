import ZMachine.Host.Script
import ZMachine.Proofs.Engine.Run
import ZMachine.Proofs.Machine.Loaded
import ZMachine.Proofs.Object.Footprint

/-!
# Where a run can write

Only the instructions that store in arrays and buffers are kept to dynamic memory. Globals,
attributes, links and properties are written wherever their tables lie. Since neither the header nor
the places of objects and properties change after the story was loaded, the places that a run can
write to are known from the start, even if the program overwrites the header.

## Main definitions

* `Machine.MayWrite` — the places that a machine can write to.
* `Machine.Confined` — what a run can do to memory, and what it leaves alone.

## Main statements

* `Machine.tracks_confined` — every effect writes to these places only.
* `Engine.writes_confined` — so does every run.
-/

namespace ZMachine

def Header.InGlobals (h : Header) (a : Nat) : Prop :=
  h.globals ≤ a ∧ a < h.globals + 2 * 240

namespace Machine

variable {m m' m'' : Machine} {a : Nat}

/-- Dynamic memory, the globals, the entries of objects and their short properties. -/
def MayWrite (m : Machine) (a : Nat) : Prop :=
  a < m.header.dynamicLimit ∨ m.header.InGlobals a ∨ m.objects.InEntry a ∨
    m.objects.InShortProperty a

/-- From the machine `m` to `m'`, memory has only changed where it may. -/
structure Confined (m m' : Machine) : Prop where
  header_eq : m'.header = m.header
  size_eq : m'.memory.size = m.memory.size
  shape : m.objects.SameShape m'.objects
  changed : ∀ a, m'.memory.get a ≠ m.memory.get a → m.MayWrite a

namespace Confined

theorem refl (m : Machine) : m.Confined m :=
  ⟨rfl, rfl, .refl _, fun _ ne => absurd rfl ne⟩

/-- A run does not change where it may write. -/
theorem mayWrite_iff (h : m.Confined m') : m'.MayWrite a ↔ m.MayWrite a := by
  simp only [MayWrite, h.header_eq, h.shape.inEntry_iff, h.shape.inShortProperty_iff]

theorem trans (h : m.Confined m') (h' : m'.Confined m'') : m.Confined m'' := by
  refine ⟨h'.header_eq.trans h.header_eq, h'.size_eq.trans h.size_eq, h.shape.trans h'.shape,
    fun a ne => ?_⟩
  by_cases first : m'.memory.get a = m.memory.get a
  · rw [← first] at ne
    exact h.mayWrite_iff.mp (h'.changed a ne)
  · exact h.changed a first

instance : Std.Refl Confined := ⟨refl⟩

instance : IsTrans Machine Confined := ⟨fun _ _ _ => trans⟩

/-- A byte that is written to a place that may change. -/
theorem put {address : Nat} (value : Byte) (may : m.MayWrite address) :
    m.Confined { m with memory := m.memory.put address value } := by
  refine ⟨rfl, Memory.size_put .., .refl _, fun a ne => ?_⟩
  by_cases eq : a = address
  · rwa [eq]
  · exact absurd (Memory.get_put_of_ne value eq) ne

theorem putWord {address : Nat} (value : Word) (first : m.MayWrite address)
    (second : m.MayWrite (address + 1)) :
    m.Confined { m with memory := m.memory.putWord address value } :=
  (put value.highByte first).trans (put value.lowByte second)

/-- What an instruction asks of the objects writes to entries and short properties. -/
theorem objects (change : ObjectChange) :
    m.Confined (m.withStore (finalState change.action m.objectStore)) := by
  have touches := change.leads_action m.objectStore
  exact ⟨rfl, touches.size_eq, touches.shape,
    fun a ne => .inr (.inr (touches.changed a ne))⟩

end Confined

/-- An effect writes where it may. -/
theorem Effect.confined {W : Write → Prop} (h : Effect W m m') : m.Confined m' := by
  cases h with
  | push | pop | assignLocal | sow => exact ⟨rfl, rfl, .refl _, fun _ ne => absurd rfl ne⟩
  | @assignGlobal index value _ few inside =>
    refine .putWord value (.inr (.inl ?_)) (.inr (.inl ?_)) <;>
      simp only [Header.InGlobals, globalAddress] <;> omega
  | writeByte value _ dynamic inside => exact .put value (.inl dynamic)
  | writeWord value _ dynamic inside =>
    exact .putWord value (.inl (by omega)) (.inl (by omega))
  | objects change => exact .objects change

/-- Whatever a program does, it writes where it may. -/
theorem tracks_confined : Tracks Confined where
  effect h := h.confined
  control _ _ _ := ⟨rfl, rfl, .refl _, fun _ ne => absurd rfl ne⟩

end Machine

namespace Engine

variable {η : Type} [Host η]

open Machine

/-- Let a story be loaded. Then on every host, whatever it does, and after any number of steps,
failed ones included: memory is as large as it was, and a byte that is not as it was lies below the
dynamic limit as the header gave it when it was loaded, in the table of globals, among the
attributes and links of an object, or in the data of a property of one or two bytes. If these tables
lie in dynamic memory, nothing has changed outside it. -/
theorem writes_confined {m : Memory} {random : Random} {e : Engine η}
    (loaded : Machine.load m random = .ok e.machine) (n : Nat) :
    ∃ h objects, Header.parse m = .ok h ∧
      ObjectTable.load m h.objects ⟨h.abbreviations⟩ = .ok objects ∧
      (e.after n).machine.memory.size = m.size ∧
      (∀ a, (e.after n).machine.memory.get a ≠ m.get a →
        a < h.dynamicLimit ∨ h.InGlobals a ∨ objects.InEntry a ∨ objects.InShortProperty a) ∧
      ((∀ a, h.InGlobals a ∨ objects.InEntry a ∨ objects.InShortProperty a → a < h.dynamicLimit) →
        ∀ a, h.dynamicLimit ≤ a → (e.after n).machine.memory.get a = m.get a) := by
  obtain ⟨h, objects, dictionary, parsed, readObjects, -, start⟩ := load_iff.mp loaded
  have confined := tracks_confined.after e n
  rw [start] at confined
  refine ⟨h, objects, parsed, readObjects, confined.size_eq, confined.changed,
    fun inside a high => ?_⟩
  by_contra ne
  rcases confined.changed a ne with low | other
  · exact Nat.not_lt.mpr high low
  · exact Nat.not_lt.mpr high (inside a other)

/-- Six steps of a story with its objects and globals outside dynamic memory, the last of which
fails. Links, a property, a global and the dynamic limit have changed. -/
theorem writes_confined_boxStory :
    let e : Engine Script := ofMachine boxMachine (Script.ofLines [])
    Machine.load boxStory (Random.predictable 0) = .ok e.machine ∧
      answer step (e.after 5) = .error (.writeOutsideDynamicMemory 88) ∧
      (e.after 6).machine.memory.size = boxStory.size ∧
      (∀ a, (e.after 6).machine.memory.get a ≠ boxStory.get a →
        a < 64 ∨ boxMachine.header.InGlobals a ∨ boxMachine.objects.InEntry a ∨
          boxMachine.objects.InShortProperty a) ∧
      (e.after 6).machine.memory.get 14 = 255 ∧ (e.after 6).machine.memory.get 70 = 2 ∧
      (e.after 6).machine.memory.get 84 = 7 ∧ (e.after 6).machine.memory.get 91 = 42 := by
  intro e
  obtain ⟨h, objects, parsed, readObjects, size, changed, -⟩ :=
    writes_confined (e := e) load_boxStory 6
  have sameHeader : Header.parse boxStory = .ok boxMachine.header := by decide +kernel
  have sameObjects : ObjectTable.load boxStory 2 ⟨0⟩ = .ok boxMachine.objects := by decide +kernel
  obtain rfl := Except.ok.inj (parsed.symm.trans sameHeader)
  obtain rfl := Except.ok.inj (readObjects.symm.trans sameObjects)
  exact ⟨load_boxStory, by decide +kernel, size, changed, by decide +kernel, by decide +kernel,
    by decide +kernel, by decide +kernel⟩

end Engine
end ZMachine
