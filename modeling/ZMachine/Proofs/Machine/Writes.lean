import ZMachine.Proofs.Machine.Frames
import ZMachine.Proofs.Object.Coherence

/-!
# What instructions can write

An opcode can write its result, the variable that its first operand names, an element of an array,
the buffers for a typed line, or objects, and most opcodes only one of these or nothing at all.
Whatever else is in memory stays as it is, and so does the table of objects unless attributes or
links are changed.

## Main definitions

* `Opcode.Writes` — what an opcode can write as part of an instruction.
* `Machine.Write.Stores` — the bytes of a write that does not change attributes or links.
* `Machine.StoresOnly` — nothing else has become of memory, and nothing of the objects.

## Main statements

* `Opcode.Writes.relinks_eq` — an opcode changes attributes and links alone, or none of them.
* `Machine.Effects.storesOnly`, `Machine.Effects.keepsEntries` — effects that make these writes.
* `Machine.Ends.storesOnly` — the end of an instruction can only write the result of a routine.
-/

namespace ZMachine

open Machine

/-! ## Writes of opcodes -/

namespace Opcode

def assigns : Opcode → Bool
  | inc | dec | decChk | incChk | store | pull => true
  | _ => false

def relinks : Opcode → Bool
  | insertObj | removeObj | setAttr | clearAttr => true
  | _ => false

def leavesMemory (opcode : Opcode) : Bool :=
  !opcode.stores && !opcode.assigns && !opcode.relinks && opcode ∉ [storeb, storew, sread, putProp]

/-- What an opcode can write as part of the instruction `i`, on these values of its operands. -/
inductive Writes (i : Instruction) (values : List Word) : Opcode → Write → Prop
  | result {opcode : Opcode} {w : Write} (stores : opcode.stores = true)
      (wanted : w.InVariable i.store) : Writes i values opcode w
  | assigned {opcode : Opcode} {w : Write} (assigns : opcode.assigns = true)
      (named : w.InVariable (named? values)) : Writes i values opcode w
  | byte {address : Nat} (element : byteElement values = .ok address) :
      Writes i values storeb (.byte address)
  | word {address : Nat} (element : wordElement values = .ok address) :
      Writes i values storew (.word address)
  | text {buffer : Word} {address : Nat} (first : values[0]? = some buffer)
      (low : buffer.toNat < address) (high : address ≤ buffer.toNat + 255) :
      Writes i values sread (.byte address)
  | words {buffer : Word} {address : Nat} {w : Write} (second : values[1]? = some buffer)
      (low : buffer.toNat < address) (high : address < buffer.toNat + 2 + recordLength * 255)
      (place : w = .byte address ∨ w = .word address) : Writes i values sread w
  | property {object number value : Word} (first : values[0]? = some object)
      (second : values[1]? = some number) :
      Writes i values putProp (.objects (.putProperty object.toNat number.toNat value))
  | remove {object : Word} (first : values[0]? = some object) :
      Writes i values removeObj (.objects (.remove object.toNat))
  | insert {object parent : Word} (first : values[0]? = some object)
      (second : values[1]? = some parent) :
      Writes i values insertObj (.objects (.insertInto object.toNat parent.toNat))
  | set {object number : Word} (first : values[0]? = some object)
      (second : values[1]? = some number) :
      Writes i values setAttr (.objects (.assignAttribute object.toNat number.toNat true))
  | clear {object number : Word} (first : values[0]? = some object)
      (second : values[1]? = some number) :
      Writes i values clearAttr (.objects (.assignAttribute object.toNat number.toNat false))

end Opcode

def Instruction.Writes (i : Instruction) (values : List Word) (w : Write) : Prop :=
  ∃ opcode, i.opcode? = some opcode ∧ opcode.Writes i values w

def Machine.Write.relinks : Write → Bool
  | .objects (.putProperty ..) => false
  | .objects _ => true
  | _ => false

theorem Machine.Write.InVariable.relinks_eq {b : Option Byte} {w : Write} (h : w.InVariable b) :
    w.relinks = false := by
  cases h
  rfl

/-- An opcode that changes attributes or links writes nothing else. -/
theorem Opcode.Writes.relinks_eq {i : Instruction} {values : List Word} {opcode : Opcode}
    {w : Write} (h : opcode.Writes i values w) : w.relinks = opcode.relinks := by
  cases h with
  | result stores wanted =>
    rw [wanted.relinks_eq]
    cases opcode <;> first | rfl | cases stores
  | assigned assigns named =>
    rw [named.relinks_eq]
    cases opcode <;> first | rfl | cases assigns
  | words _ _ _ place => obtain rfl | rfl := place <;> rfl
  | byte | word | text | property | remove | insert | set | clear => rfl

/-- There are no others among the opcodes that write. -/
theorem Opcode.Writes.leavesMemory_eq {i : Instruction} {values : List Word} {opcode : Opcode}
    {w : Write} (h : opcode.Writes i values w) : opcode.leavesMemory = false := by
  cases h with
  | result stores => simp [leavesMemory, stores]
  | assigned assigns => simp [leavesMemory, assigns]
  | byte | word | text | words | property | remove | insert | set | clear => rfl

namespace Machine

variable {m m' m'' : Machine} {W : Write → Prop} {a : Nat} {w : Write}

/-! ## Bytes -/

/-- The bytes that a write stores in. It says nothing of writes that change attributes or links,
which are changes of the table as well. -/
def Write.Stores (m : Machine) : Write → Nat → Prop
  | .global index, a => m.globalAddress index ≤ a ∧ a < m.globalAddress index + 2
  | .byte address, a => a = address
  | .word address, a => address ≤ a ∧ a < address + 2
  | .objects (.putProperty id number _), a => ∃ p, m.objects.writableProperty id number = .ok p ∧
      p.address ≤ a ∧ a < p.address + p.length
  | .objects _, _ => False

/-- Where a write stores depends only on the header and on the objects. -/
theorem Write.stores_congr (header : m'.header = m.header) (objects : m'.objects = m.objects) :
    w.Stores m' a ↔ w.Stores m a := by
  cases w with
  | objects change => cases change <;> simp [Stores, objects]
  | global | byte | word => simp [Stores, globalAddress, header]

/-- The objects are the same, and a byte that is not was written by one of the writes in `W`. -/
structure StoresOnly (W : Write → Prop) (m m' : Machine) : Prop where
  header_eq : m'.header = m.header
  size_eq : m'.memory.size = m.memory.size
  objects_eq : m'.objects = m.objects
  changed : ∀ a, m'.memory.get a ≠ m.memory.get a → ∃ w, W w ∧ w.Stores m a

namespace StoresOnly

theorem refl (m : Machine) : StoresOnly W m m :=
  ⟨rfl, rfl, rfl, fun _ ne => absurd rfl ne⟩

theorem trans (h : StoresOnly W m m') (h' : StoresOnly W m' m'') : StoresOnly W m m'' := by
  refine ⟨h'.header_eq.trans h.header_eq, h'.size_eq.trans h.size_eq,
    h'.objects_eq.trans h.objects_eq, fun a ne => ?_⟩
  by_cases first : m'.memory.get a = m.memory.get a
  · rw [← first] at ne
    obtain ⟨w, may, stores⟩ := h'.changed a ne
    exact ⟨w, may, (Write.stores_congr h.header_eq h.objects_eq).mp stores⟩
  · exact h.changed a first

theorem mono {W' : Write → Prop} (h : StoresOnly W m m') (imp : ∀ w, W w → W' w) :
    StoresOnly W' m m' :=
  ⟨h.header_eq, h.size_eq, h.objects_eq,
    fun a ne => (h.changed a ne).imp fun w => And.imp_left (imp w)⟩

/-- Machines that differ in their stack, their program counter or their random numbers. -/
theorem of_memory_eq (header : m'.header = m.header) (objects : m'.objects = m.objects)
    (memory : m'.memory = m.memory) : StoresOnly W m m' :=
  ⟨header, by rw [memory], objects, fun _ ne => absurd (by rw [memory]) ne⟩

theorem of_sameButValues (h : m.SameButValues m') : StoresOnly W m m' := by
  obtain ⟨f, -, rfl⟩ := h
  exact of_memory_eq rfl rfl rfl

/-- A write of some bytes side by side. -/
theorem of_sameBut {memory : Memory} {address length : Nat} (may : W w)
    (same : m.memory.SameBut memory address length)
    (stores : ∀ a, address ≤ a → a < address + length → w.Stores m a) :
    StoresOnly W m { m with memory } := by
  refine ⟨rfl, same.size_eq, rfl, fun a ne => ⟨w, may, ?_⟩⟩
  by_contra apart
  exact ne (same.get_eq a (by
    by_contra inside
    exact apart (stores a (by omega) (by omega))))

/-- Where the bytes that are written hold no attributes or links, entries stay up to date. -/
theorem coherent (h : StoresOnly W m m') (coherent : m.objectStore.Coherent)
    (leaves : ∀ a w, m.objects.InEntry a → W w → w.Stores m a →
      m'.memory.get a = m.memory.get a) : m'.objectStore.Coherent :=
  coherent.congr h.objects_eq h.size_eq fun a place => by
    by_contra ne
    obtain ⟨w, may, stores⟩ := h.changed a ne
    exact ne (leaves a w place may stores)

end StoresOnly

/-! ## Effects -/

def KeepsEntries (m m' : Machine) : Prop :=
  m.objectStore.Coherent → m'.objectStore.Coherent

/-- An effect that changes no attributes and no links stores where its write does. -/
theorem Effect.storesOnly (h : Effect W m m') (links : ∀ w, W w → w.relinks = false) :
    StoresOnly W m m' := by
  cases h with
  | push | pop | assignLocal | sow => exact .of_memory_eq rfl rfl rfl
  | assignGlobal value may =>
    exact .of_sameBut may (Memory.sameBut_putWord ..) fun a low high => ⟨low, high⟩
  | writeByte value may =>
    refine .of_sameBut may (Memory.sameBut_put ..) fun a low high => ?_
    exact Nat.le_antisymm (Nat.le_of_lt_succ high) low
  | writeWord value may =>
    exact .of_sameBut may (Memory.sameBut_putWord ..) fun a low high => ⟨low, high⟩
  | objects change may =>
    cases change with
    | putProperty id number value =>
      have writes := ObjectStore.writesData_putProperty id number value m.objectStore
      exact ⟨rfl, writes.size_eq, writes.table_eq, fun a ne => ⟨_, may, writes.changed a ne⟩⟩
    | remove | insertInto | assignAttribute => cases links _ may

/-- So do effects in a row. -/
theorem Effects.storesOnly (h : Effects W m m') (links : ∀ w, W w → w.relinks = false) :
    StoresOnly W m m' := by
  induction h with
  | refl => exact .refl m
  | tail _ last ih => exact ih.trans (last.storesOnly links)

/-- Changes of attributes and links alone keep the entries in memory up to date. -/
theorem Effect.keepsEntries (h : Effect W m m') (links : ∀ w, W w → w.relinks = true) :
    m.KeepsEntries m' := by
  intro coherent
  cases h with
  | push | pop | assignLocal | sow => exact coherent
  | assignGlobal _ may | writeByte _ may | writeWord _ may => cases links _ may
  | objects change may =>
    cases change with
    | remove id => exact ObjectStore.leads_remove_coherent id m.objectStore coherent
    | insertInto id parent =>
      exact ObjectStore.leads_insertInto_coherent id parent m.objectStore coherent
    | assignAttribute id number value =>
      exact ObjectStore.leads_assignAttribute_coherent id number value m.objectStore coherent
    | putProperty => cases links _ may

/-- So do changes in a row. -/
theorem Effects.keepsEntries (h : Effects W m m') (links : ∀ w, W w → w.relinks = true) :
    m.KeepsEntries m' := by
  induction h with
  | refl => exact fun coherent => coherent
  | tail _ last ih => exact fun coherent => last.keepsEntries links (ih coherent)

/-! ## Leaving a routine -/

/-- What the running routine can write when it returns: its result, if the caller wants it in a
global. -/
inductive ResultOf (m : Machine) : Write → Prop
  | caller {f : Frame} {rest : List Frame} {w : Write} (calls : m.stack.calls = f :: rest)
      (wanted : w.InVariable f.result) : ResultOf m w

/-- The values of the running frame do not matter. -/
theorem ResultOf.of_setCurrent {f : Frame} (h : m'.ResultOf w) (same : m.stack.current.SameCall f)
    (stack : m'.stack = m.stack.setCurrent f) : m.ResultOf w := by
  cases h with
  | caller calls wanted =>
    rw [stack] at calls
    obtain ⟨top, below, current, rfl, -⟩ := CallStack.calls_of_setCurrent calls
    rw [current] at same
    exact .caller below (same.result ▸ wanted)

/-- Storing the value of a call stores nothing but the result. -/
theorem storesOnly_of_storeIn {result : Option Byte} {value : Word}
    (run : (storeIn result value).run m = .ok () m') :
    StoresOnly (Write.InVariable result) m m' := by
  have effects := acts_storeIn result value m
  rw [finalState_of_ok run] at effects
  exact effects.storesOnly fun _ => Write.InVariable.relinks_eq

/-- A variable is written as a whole or not at all. -/
theorem leavesIntact_storeIn (result : Option Byte) (value : Word) (m : Machine) :
    LeavesIntact (storeIn result value) m := by
  cases result with
  | none => exact Succeeds.leavesIntact ⟨(), m, rfl⟩
  | some b =>
    change LeavesIntact (writeVariable b value) m
    unfold writeVariable
    split
    · exact Succeeds.leavesIntact ⟨(), _, rfl⟩
    · exact .get_bind (.lift_bind fun f _ => Succeeds.leavesIntact ⟨(), _, rfl⟩)
    · exact .get_bind (.get_bind (.lift_bind fun _ _ => Succeeds.leavesIntact ⟨(), _, rfl⟩))

/-- Leaving a routine stores nothing but its result. -/
theorem storesOnly_of_leaveRoutine {value : Word} (run : (leaveRoutine value).run m = .ok () m') :
    StoresOnly m.ResultOf m m' := by
  obtain ⟨f, rest, calls, stored⟩ := exists_of_leaveRoutine run
  have left : StoresOnly m.ResultOf m
      { m with stack := ⟨m.stack.main, rest⟩, pc := f.returnAddress } :=
    .of_memory_eq rfl rfl rfl
  exact left.trans ((storesOnly_of_storeIn stored).mono fun _ => .caller calls)

/-- A routine that cannot be left, or whose result cannot be stored, writes nothing. -/
theorem storesOnly_of_leaveRoutine_error {value : Word} {e : Error}
    (run : (leaveRoutine value).run m = .error e m') : StoresOnly W m m' := by
  rw [run_leaveRoutine] at run
  cases popped : m.stack.pop with
  | error reason =>
    rw [popped] at run
    cases run
    exact .refl m
  | ok top =>
    obtain ⟨f, stack⟩ := top
    rw [popped] at run
    obtain rfl := leavesIntact_storeIn f.result value _ e m' run
    exact .of_memory_eq rfl rfl rfl

/-- Only a return writes anything at the end of an instruction. -/
theorem Ends.storesOnly {out : Except Error Outcome} (h : Ends m out m') :
    StoresOnly (fun w => (∃ value, out = .ok (.returned value)) ∧ m.ResultOf w) m m' := by
  cases h with
  | advanced | quit | failed => exact .refl m
  | branched target => exact .of_memory_eq rfl rfl rfl
  | @returned value _ run =>
    exact (storesOnly_of_leaveRoutine run).mono fun _ result => ⟨⟨value, rfl⟩, result⟩
  | returnFailed run => exact storesOnly_of_leaveRoutine_error run

end Machine
end ZMachine
