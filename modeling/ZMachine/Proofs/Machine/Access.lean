import ZMachine.Machine.Objects
import ZMachine.Machine.Typing
import ZMachine.Proofs.Dictionary.Token
import ZMachine.Proofs.Machine.Routine
import ZMachine.Proofs.Object.Footprint
import ZMachine.Proofs.Object.Store

/-!
# Access without a check

Where a place is known to be good, the data there can be reached without a check. An access without
a check may do anything at a bad place, and it may fail there for any reason. This is never seen:
every action below does the same with any accesses that are right at good places, provided that the
running frame has a value for each of its locals.

## Main definitions

* `Frame.Sound`, `Machine.Sound` — no more locals than a routine may have, and a value for each; no
  more objects than there may be.
* `Unchecked` — accesses without a check, and `Unchecked.Agrees` — that they are right at good
  places.
* `Unchecked.Serves` — the actions of a machine do the same with them.

## Main statements

* `Unchecked.Agrees.serves` — accesses that are right at good places serve a sound machine.
-/

namespace ZMachine

structure Frame.Sound (f : Frame) : Prop where
  few : f.localCount ≤ Frame.maxLocals
  room : f.localCount ≤ f.values.size

def CallStack.frames (s : CallStack) : List Frame :=
  s.calls ++ [s.main]

structure Machine.Sound (m : Machine) : Prop where
  frames : ∀ f ∈ m.stack.frames, f.Sound
  objects : m.objects.size ≤ ObjectTable.maxObjects

def TypedLine.Printable (c : Char) : Prop :=
  ' ' ≤ c ∧ c ≤ '~'

instance : DecidablePred TypedLine.Printable :=
  fun _ => inferInstanceAs (Decidable (_ ∧ _))

/-- How data is reached without a check of the place. -/
structure Unchecked where
  value : (values : Array Word) → (index : Nat) → Except Error Word
  assign : (values : Array Word) → (index : Nat) → Word → Except Error (Array Word)
  object : (t : ObjectTable) → (id : Nat) → Except Error Object
  change : (t : ObjectTable) → (id : Nat) → (Object → Object) → Except Error ObjectTable
  globalIndex : Byte → Except Error Nat
  /-- All values but the first. -/
  rest : List Word → Except Error (List Word)
  words : (separators : List Byte) → (line : String) → Except Error (List Token)

namespace Unchecked

/-- At good places the data is reached; nothing is said about others. -/
structure Agrees (u : Unchecked) : Prop where
  value {values : Array Word} {index : Nat} : index < values.size →
    u.value values index = .ok (values.getD index 0)
  assign {values : Array Word} {index : Nat} {value : Word} : index < values.size →
    u.assign values index value = .ok (values.setIfInBounds index value)
  object {t : ObjectTable} {id : Nat} {o : Object} : t.get? id = some o → u.object t id = .ok o
  change {t : ObjectTable} {id : Nat} {f : Object → Object} : t.Has id →
    u.change t id f = .ok (t.modify id f)
  globalIndex {b : Byte} : 16 ≤ b → u.globalIndex b = .ok (b.toNat - 16)
  rest {value : Word} {values : List Word} : u.rest (value :: values) = .ok values
  words {separators : List Byte} {line : String} : (∀ c ∈ line.toList, TypedLine.Printable c) →
    u.words separators line = Token.ofLine separators line

def strict (fault : Error) : Unchecked where
  value values index := if index < values.size then .ok (values.getD index 0) else .error fault
  assign values index value :=
    if index < values.size then .ok (values.setIfInBounds index value) else .error fault
  object t id := ((t.get? id).map .ok).getD (.error fault)
  change t id f := if t.Has id then .ok (t.modify id f) else .error fault
  globalIndex b := if 16 ≤ b then .ok (b.toNat - 16) else .error fault
  rest
    | [] => .error fault
    | _ :: values => .ok values
  words separators line :=
    if line.toList.all (TypedLine.Printable ·) then Token.ofLine separators line else .error fault

/-- The accesses that fail at bad places agree at good ones. -/
theorem agrees_strict (fault : Error) : (strict fault).Agrees where
  value inside := if_pos inside
  assign inside := if_pos inside
  object found := by simp [strict, found]
  change has := if_pos has
  globalIndex high := if_pos high
  rest := rfl
  words printable := if_pos (by simpa using printable)

variable (u : Unchecked)

/-! ## Variables -/

def readLocal (number : Nat) : MachineM Word := do
  let f := (← get).stack.current
  f.requireLocal number
  u.value f.values (number - 1)

def writeLocal (number : Nat) (value : Word) : MachineM Unit := do
  let f := (← get).stack.current
  f.requireLocal number
  let values ← u.assign f.values (number - 1) value
  modify fun m => { m with stack := m.stack.setCurrent { f with values } }

def readVariable (b : Byte) : MachineM Word :=
  match Variable.ofByte b with
  | .stackTop => Machine.popValue
  | .localVar number => u.readLocal number
  | .globalVar _ => do Machine.readGlobal (← u.globalIndex b)

def writeVariable (b : Byte) (value : Word) : MachineM Unit :=
  match Variable.ofByte b with
  | .stackTop => Machine.pushValue value
  | .localVar number => u.writeLocal number value
  | .globalVar _ => do Machine.writeGlobal (← u.globalIndex b) value

/-! ## Calls -/

def call (i : Instruction) (values : List Word) : MachineM Outcome := do
  let packed ← operand values 0
  if packed = 0 then
    Machine.storeResult i 0
    return .advanced
  Machine.enterRoutine (2 * packed.toNat) (← u.rest values) i.store
  return .called

/-! ## Objects -/

def alter (id : Nat) (f : Object → Object) : ObjectM Unit := do
  let table ← u.change (← get).table id f
  modify fun s => { s with table }

def syncAttributes (id : Nat) : ObjectM Unit := do
  let attributes := (← u.object (← get).table id).attributes
  let entry := (← get).table.entryAddress id
  ObjectStore.setByte entry (attributes.byte 0)
  ObjectStore.setByte (entry + 1) (attributes.byte 1)
  ObjectStore.setByte (entry + 2) (attributes.byte 2)
  ObjectStore.setByte (entry + 3) (attributes.byte 3)

def assignAttribute (id number : Nat) (value : Bool) : ObjectM Unit := do
  ObjectTable.requireAttribute number
  let _ ← (← get).table.get id
  u.alter id fun o => { o with attributes := o.attributes.assign number value }
  u.syncAttributes id

def syncLinks (id : Nat) : ObjectM Unit := do
  let object ← u.object (← get).table id
  let entry := (← get).table.entryAddress id
  ObjectStore.setByte (entry + 4) object.parent
  ObjectStore.setByte (entry + 5) object.sibling
  ObjectStore.setByte (entry + 6) object.child

def unchain (id parent : Nat) (next : Byte) : ObjectM Unit := do
  let table := (← get).table
  let first := (← table.get parent).child
  if first.toNat = id then
    u.alter parent fun o => { o with child := next }
    u.syncLinks parent
  else
    let before ← ObjectStore.siblingBefore table id parent (table.size + 1) first.toNat
    u.alter before fun o => { o with sibling := next }
    u.syncLinks before

def remove (id : Nat) : ObjectM Unit := do
  let object ← (← get).table.get id
  if object.parent ≠ 0 then
    u.unchain id object.parent.toNat object.sibling
  u.alter id fun o => { o with parent := 0, sibling := 0 }
  u.syncLinks id

def insertInto (id parent : Nat) : ObjectM Unit := do
  if id = parent then
    throw (.invalidOperand (.ownParent id))
  let _ ← (← get).table.get parent
  let _ ← (← get).table.get id
  u.remove id
  let oldest := (← u.object (← get).table parent).child
  u.alter id fun o => { o with sibling := oldest, parent := UInt8.ofNat parent }
  u.alter parent fun o => { o with child := UInt8.ofNat id }
  u.syncLinks id
  u.syncLinks parent

/-! ## Typed lines -/

def acceptLine (textBuffer parseBuffer : Nat) (line : String) : MachineM Unit := do
  let capacity := (← Machine.readByte textBuffer).toNat - 1
  let text := (TypedLine.normalise line).take capacity
  Machine.writeText textBuffer text
  let words ← u.words (← get).dictionary.separators (String.ofList text)
  let maxWords := (← Machine.readByte parseBuffer).toNat
  let kept := words.take maxWords
  Machine.writeByte (parseBuffer + 1) (UInt8.ofNat kept.length)
  Machine.writeRecords (parseBuffer + 2) kept

/-! ## Any access will do -/

/-- The actions of a machine do the same with these accesses. -/
structure Serves (m : Machine) : Prop where
  readVariable : ∀ b, (u.readVariable b).run m = (Machine.readVariable b).run m
  writeVariable : ∀ b value, (u.writeVariable b value).run m = (Machine.writeVariable b value).run m
  call : ∀ i values, (u.call i values).run m = (Machine.call i values).run m
  assignAttribute : ∀ id number value, (u.assignAttribute id number value).run m.objectStore =
    (ObjectStore.assignAttribute id number value).run m.objectStore
  remove : ∀ id, (u.remove id).run m.objectStore = (ObjectStore.remove id).run m.objectStore
  insertInto : ∀ id parent, (u.insertInto id parent).run m.objectStore =
    (ObjectStore.insertInto id parent).run m.objectStore
  acceptLine : ∀ textBuffer parseBuffer line, (u.acceptLine textBuffer parseBuffer line).run m =
    (Machine.acceptLine textBuffer parseBuffer line).run m

end Unchecked

/-- A local that the frame has is among its values. -/
theorem Frame.Sound.index_lt {f : Frame} {number : Nat} (sound : f.Sound)
    (required : f.requireLocal number = .ok ()) : number - 1 < f.values.size := by
  unfold requireLocal at required
  split at required
  · have := sound.room
    omega
  · cases required

namespace Frame

variable {f f' : Frame}

theorem sound_initial (address : Nat) : (initial address).Sound :=
  ⟨Nat.zero_le _, Nat.zero_le _⟩

theorem Sound.push (sound : f.Sound) (value : Word) : (f.push value).Sound := by
  refine ⟨sound.few, ?_⟩
  have := sound.room
  simp only [Frame.push, Array.size_push]
  omega

/-- A frame from which a value was taken still has all its locals. -/
theorem Sound.pop (sound : f.Sound) {value : Word} (popped : f.pop = .ok (value, f')) :
    f'.Sound := by
  unfold Frame.pop at popped
  split at popped
  · next above =>
    cases popped
    refine ⟨sound.few, ?_⟩
    change f.localCount ≤ f.values.pop.size
    rw [Array.size_pop]
    omega
  · cases popped

theorem Sound.setLocal (sound : f.Sound) {number : Nat} {value : Word}
    (set : f.setLocal number value = .ok f') : f'.Sound := by
  obtain ⟨-, -, set⟩ := Except.bind_eq_ok.mp set
  cases set
  refine ⟨sound.few, ?_⟩
  rw [Array.size_setIfInBounds]
  exact sound.room

/-- A call makes a frame with a value for each local. -/
theorem sound_of_forCall {m : Memory} {routine returnAddress start : Nat} {arguments : List Word}
    {result : Option Byte}
    (made : forCall m routine arguments returnAddress result = .ok (f, start)) :
    f.Sound := by
  have entry := entryOf_of_forCall made
  refine ⟨entry.few, ?_⟩
  have length := entry.length_locals
  rw [locals, List.length_take, Array.length_toList] at length
  omega

end Frame

namespace CallStack

theorem mem_frames_setCurrent {s : CallStack} {f g : Frame} (mem : g ∈ (s.setCurrent f).frames) :
    g = f ∨ g ∈ s.frames := by
  obtain ⟨main, calls⟩ := s
  cases calls <;> simp only [setCurrent, frames, List.mem_append, List.mem_cons] at mem ⊢ <;> tauto

end CallStack

theorem Machine.Sound.current {m : Machine} (sound : m.Sound) : m.stack.current.Sound := by
  refine sound.frames _ ?_
  obtain ⟨main, calls⟩ := m.stack
  cases calls <;> simp [CallStack.current, CallStack.frames]

/-- A sound frame in place of the running one keeps the machine sound. -/
theorem Machine.Sound.withFrame {m : Machine} (sound : m.Sound) {f : Frame} (h : f.Sound) :
    (m.withFrame f).Sound where
  frames g mem := by
    rcases CallStack.mem_frames_setCurrent mem with rfl | mem
    · exact h
    · exact sound.frames g mem
  objects := sound.objects

namespace Unchecked.Agrees

variable {u : Unchecked} (agrees : u.Agrees) {m : Machine} {s : ObjectStore} {id : Nat}
  {f : Object → Object}
include agrees

/-! ## Variables -/

theorem run_readLocal (sound : m.Sound) (number : Nat) :
    (u.readLocal number).run m = (Machine.readLocal number).run m := by
  rw [Unchecked.readLocal, Machine.readLocal, EStateM.run_bind, EStateM.run_bind, EStateM.run_get]
  dsimp only
  rw [EStateM.run_bind, EStateM.run_lift, EStateM.run_lift, Frame.getLocal]
  cases required : m.stack.current.requireLocal number with
  | error e => rfl
  | ok =>
    dsimp only
    rw [EStateM.run_lift, agrees.value (sound.current.index_lt required)]
    rfl

theorem run_writeLocal (sound : m.Sound) (number : Nat) (value : Word) :
    (u.writeLocal number value).run m = (Machine.writeLocal number value).run m := by
  rw [Unchecked.writeLocal, EStateM.run_bind, EStateM.run_get, Machine.run_writeLocal]
  dsimp only
  rw [EStateM.run_bind, EStateM.run_lift, Frame.setLocal]
  cases required : m.stack.current.requireLocal number with
  | error e => rfl
  | ok =>
    dsimp only
    rw [EStateM.run_bind, EStateM.run_lift, agrees.assign (sound.current.index_lt required)]
    rfl

theorem run_readVariable (sound : m.Sound) (b : Byte) :
    (u.readVariable b).run m = (Machine.readVariable b).run m := by
  unfold Unchecked.readVariable Machine.readVariable
  cases named : Variable.ofByte b with
  | stackTop => rfl
  | localVar number => exact agrees.run_readLocal sound number
  | globalVar index =>
    obtain ⟨high, rfl⟩ := Machine.ofByte_eq_globalVar named
    dsimp only
    rw [agrees.globalIndex high]
    rfl

theorem run_writeVariable (sound : m.Sound) (b : Byte) (value : Word) :
    (u.writeVariable b value).run m = (Machine.writeVariable b value).run m := by
  unfold Unchecked.writeVariable Machine.writeVariable
  cases named : Variable.ofByte b with
  | stackTop => rfl
  | localVar number => exact agrees.run_writeLocal sound number value
  | globalVar index =>
    obtain ⟨high, rfl⟩ := Machine.ofByte_eq_globalVar named
    dsimp only
    rw [agrees.globalIndex high]
    rfl

/-! ## Calls -/

theorem run_call (i : Instruction) (values : List Word) :
    (u.call i values).run m = (Machine.call i values).run m := by
  cases values with
  | nil => rfl
  | cons packed arguments =>
    rw [Unchecked.call, agrees.rest]
    rfl

/-! ## Objects -/

theorem run_alter (has : s.table.Has id) :
    (u.alter id f).run s = (ObjectStore.change id f).run s := by
  rw [Unchecked.alter, EStateM.run_bind, EStateM.run_get]
  dsimp only
  rw [EStateM.run_bind, EStateM.run_lift, agrees.change has]
  rfl

theorem run_syncLinks (has : s.table.Has id) :
    (u.syncLinks id).run s = (ObjectStore.syncLinks id).run s := by
  obtain ⟨o, found⟩ := has.exists_get?
  rw [Unchecked.syncLinks, ObjectStore.syncLinks, EStateM.run_bind, EStateM.run_bind,
    EStateM.run_get]
  dsimp only
  rw [EStateM.run_bind, EStateM.run_bind, EStateM.run_lift, EStateM.run_lift, agrees.object found,
    ObjectTable.get_eq_ok.mpr found]

theorem run_syncAttributes (has : s.table.Has id) :
    (u.syncAttributes id).run s = (ObjectStore.syncAttributes id).run s := by
  obtain ⟨o, found⟩ := has.exists_get?
  rw [Unchecked.syncAttributes, ObjectStore.syncAttributes, EStateM.run_bind, EStateM.run_bind,
    EStateM.run_get]
  dsimp only
  rw [EStateM.run_bind, EStateM.run_bind, EStateM.run_lift, EStateM.run_lift, agrees.object found,
    ObjectTable.get_eq_ok.mpr found]

/-- A change of an object that the table has, and of its entry. -/
theorem run_alter_sync {sync sync' : ObjectM Unit} (has : s.table.Has id)
    (synced : ∀ s : ObjectStore, s.table.Has id → sync'.run s = sync.run s) :
    (do u.alter id f; sync').run s = (do ObjectStore.change id f; sync).run s := by
  refine run_bind_congr (agrees.run_alter has) fun _ s' changed => ?_
  cases changed
  exact synced _ (ObjectTable.has_modify.mpr has)

theorem run_alter_syncLinks (has : s.table.Has id) :
    (do u.alter id f; u.syncLinks id).run s =
      (do ObjectStore.change id f; ObjectStore.syncLinks id).run s :=
  agrees.run_alter_sync has fun _ => agrees.run_syncLinks

theorem run_assignAttribute (id number : Nat) (value : Bool) :
    (u.assignAttribute id number value).run s =
      (ObjectStore.assignAttribute id number value).run s := by
  refine run_lift_bind_congr fun _ _ => ?_
  refine run_get_bind_congr (run_lift_bind_congr fun o found => ?_)
  exact agrees.run_alter_sync (ObjectTable.has_of_get found) fun _ => agrees.run_syncAttributes

theorem run_unchain (id parent : Nat) (next : Byte) :
    (u.unchain id parent next).run s = (ObjectStore.unchain id parent next).run s := by
  refine run_get_bind_congr (run_lift_bind_congr fun o found => ?_)
  dsimp only
  split
  · exact agrees.run_alter_syncLinks (ObjectTable.has_of_get found)
  · exact run_lift_bind_congr fun before search =>
      agrees.run_alter_syncLinks (ObjectStore.finds_of_siblingBefore search).has

theorem run_remove (id : Nat) : (u.remove id).run s = (ObjectStore.remove id).run s := by
  refine run_get_bind_congr (run_lift_bind_congr fun o found => ?_)
  have has := ObjectTable.has_of_get found
  dsimp only
  split
  · refine run_bind_congr (agrees.run_unchain id _ _) fun _ s' run => ?_
    exact agrees.run_alter_syncLinks (ObjectStore.Touches.has
      (finalState_of_ok run ▸ ObjectStore.leads_unchain id _ _ s) has)
  · exact agrees.run_alter_syncLinks has

/-- The new links of an object and its parent. -/
theorem run_link {g : Object → Object → Object} {parent : Nat} (has : s.table.Has id)
    (hasParent : s.table.Has parent) :
    (do
      let o ← u.object (← get).table parent
      u.alter id (g o)
      u.alter parent f
      u.syncLinks id
      u.syncLinks parent : ObjectM Unit).run s =
    (do
      let o ← (← get).table.get parent
      ObjectStore.change id (g o)
      ObjectStore.change parent f
      ObjectStore.syncLinks id
      ObjectStore.syncLinks parent : ObjectM Unit).run s := by
  obtain ⟨o, found⟩ := hasParent.exists_get?
  refine run_get_bind_congr ?_
  rw [agrees.object found, ObjectTable.get_eq_ok.mpr found]
  refine run_lift_bind_congr fun _ _ => run_bind_congr (agrees.run_alter has) fun _ s' first => ?_
  cases first
  refine run_bind_congr (agrees.run_alter (ObjectTable.has_modify.mpr hasParent))
    fun _ s' second => ?_
  cases second
  refine run_bind_congr (agrees.run_syncLinks ?_) fun _ s' synced => agrees.run_syncLinks ?_
  · simpa using has
  · have touches := finalState_of_ok synced ▸ ObjectStore.leads_syncLinks id _
    exact touches.has (by simpa using hasParent)

/-- Inserting an object does the same, the walk to the sibling before it included. -/
theorem run_insertInto (id parent : Nat) :
    (u.insertInto id parent).run s = (ObjectStore.insertInto id parent).run s := by
  have move : (do
      let _ ← (← get).table.get parent
      let _ ← (← get).table.get id
      u.remove id
      let oldest := (← u.object (← get).table parent).child
      u.alter id fun o => { o with sibling := oldest, parent := UInt8.ofNat parent }
      u.alter parent fun o => { o with child := UInt8.ofNat id }
      u.syncLinks id
      u.syncLinks parent : ObjectM Unit).run s =
    (do
      let _ ← (← get).table.get parent
      let _ ← (← get).table.get id
      ObjectStore.remove id
      let oldest := (← (← get).table.get parent).child
      ObjectStore.change id fun o => { o with sibling := oldest, parent := UInt8.ofNat parent }
      ObjectStore.change parent fun o => { o with child := UInt8.ofNat id }
      ObjectStore.syncLinks id
      ObjectStore.syncLinks parent : ObjectM Unit).run s := by
    refine run_get_bind_congr (run_lift_bind_congr fun p foundParent => ?_)
    refine run_get_bind_congr (run_lift_bind_congr fun o found => ?_)
    refine run_bind_congr (agrees.run_remove id) fun _ s' run => ?_
    have touches := finalState_of_ok run ▸ ObjectStore.leads_remove id s
    exact agrees.run_link
      (g := fun p o => { o with sibling := p.child, parent := UInt8.ofNat parent })
      (touches.has (ObjectTable.has_of_get found))
      (touches.has (ObjectTable.has_of_get foundParent))
  rw [Unchecked.insertInto, ObjectStore.insertInto]
  split
  · refine run_bind_congr rfl fun _ _ refused => ?_
    cases refused
  · exact move

/-- Taking a line of printable characters does the same. -/
theorem run_acceptLine (textBuffer parseBuffer : Nat) (line : String) :
    (u.acceptLine textBuffer parseBuffer line).run m =
      (Machine.acceptLine textBuffer parseBuffer line).run m := by
  refine run_bind_congr rfl fun capacity m _ => ?_
  dsimp only
  refine run_bind_congr rfl fun _ m _ => ?_
  have printable : ∀ c ∈ (String.ofList
      ((TypedLine.normalise line).take (capacity.toNat - 1))).toList, TypedLine.Printable c := by
    intro c mem
    rw [String.toList_ofList] at mem
    exact TypedLine.printable_normalise c (List.mem_of_mem_take mem)
  refine run_bind_congr rfl fun m' m' got => ?_
  rw [agrees.words printable]
  rfl

/-- On a sound machine, accesses that agree at good places do for every action. -/
theorem serves (sound : m.Sound) : u.Serves m where
  readVariable := agrees.run_readVariable sound
  writeVariable := agrees.run_writeVariable sound
  call := agrees.run_call
  assignAttribute := agrees.run_assignAttribute
  remove := agrees.run_remove
  insertInto := agrees.run_insertInto
  acceptLine := agrees.run_acceptLine

end Unchecked.Agrees
end ZMachine
