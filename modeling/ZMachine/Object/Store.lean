import ZMachine.Object.Property

/-!
# Changing objects

Each change is made twice: in the table as loaded, and in the entry in memory, where a program that
reads bytes finds it. Moving an object relinks the chain of siblings it leaves and the one it joins.
-/

namespace ZMachine

structure ObjectStore where
  memory : Memory
  table : ObjectTable
  deriving DecidableEq

/-- A change to objects. What was done before a failure stays done. -/
abbrev ObjectM := EStateM Error ObjectStore

namespace ObjectStore

def setByte (address : Nat) (value : Byte) : ObjectM Unit := do
  (← get).memory.check address 1
  modify fun s => { s with memory := s.memory.put address value }

def setWord (address : Nat) (value : Word) : ObjectM Unit := do
  (← get).memory.check address 2
  modify fun s => { s with memory := s.memory.putWord address value }

def change (id : Nat) (f : Object → Object) : ObjectM Unit :=
  modify fun s => { s with table := s.table.modify id f }

/-! ## Attributes and properties -/

def syncAttributes (id : Nat) : ObjectM Unit := do
  let attributes := (← (← get).table.get id).attributes
  let entry := (← get).table.entryAddress id
  setByte entry (attributes.byte 0)
  setByte (entry + 1) (attributes.byte 1)
  setByte (entry + 2) (attributes.byte 2)
  setByte (entry + 3) (attributes.byte 3)

def assignAttribute (id number : Nat) (value : Bool) : ObjectM Unit := do
  ObjectTable.requireAttribute number
  let _ ← (← get).table.get id
  change id fun o => { o with attributes := o.attributes.assign number value }
  syncAttributes id

/-- Overwrites a property; of a value for a single byte only the low byte counts. -/
def putProperty (id number : Nat) (value : Word) : ObjectM Unit := do
  let p ← (← get).table.writableProperty id number
  if p.length = 1 then setByte p.address (Word.lowByte value)
  else setWord p.address value

/-! ## Moving objects -/

def syncLinks (id : Nat) : ObjectM Unit := do
  let object ← (← get).table.get id
  let entry := (← get).table.entryAddress id
  setByte (entry + 4) object.parent
  setByte (entry + 5) object.sibling
  setByte (entry + 6) object.child

/-- The object before `id` in the chain of siblings from `current` on. A chain that has not led to
`id` after more steps than there are objects runs in a circle without it, and following it without a
bound would never come to an end. -/
def siblingBefore (t : ObjectTable) (id parent : Nat) : (steps current : Nat) → Except Error Nat
  | 0, _ => .error (.invalidOperand (.missingFromChildren id parent))
  | steps + 1, current =>
    if current = 0 then .error (.invalidOperand (.missingFromChildren id parent))
    else do
      let object ← t.get current
      if object.sibling.toNat = id then return current
      siblingBefore t id parent steps object.sibling.toNat

/-- Takes an object out of the children of `parent`, where `next` comes after it. -/
def unchain (id parent : Nat) (next : Byte) : ObjectM Unit := do
  let table := (← get).table
  let first := (← table.get parent).child
  if first.toNat = id then
    change parent fun o => { o with child := next }
    syncLinks parent
  else
    let before ← siblingBefore table id parent (table.size + 1) first.toNat
    change before fun o => { o with sibling := next }
    syncLinks before

/-- Takes an object away from its parent. It keeps its own children. -/
def remove (id : Nat) : ObjectM Unit := do
  let object ← (← get).table.get id
  if object.parent ≠ 0 then
    unchain id object.parent.toNat object.sibling
  change id fun o => { o with parent := 0, sibling := 0 }
  syncLinks id

/-- Makes an object the first child of another. -/
def insertInto (id parent : Nat) : ObjectM Unit := do
  if id = parent then
    throw (.invalidOperand (.ownParent id))
  let _ ← (← get).table.get parent
  let _ ← (← get).table.get id
  remove id
  let oldest := (← (← get).table.get parent).child
  change id fun o => { o with sibling := oldest, parent := UInt8.ofNat parent }
  change parent fun o => { o with child := UInt8.ofNat id }
  syncLinks id
  syncLinks parent

end ObjectStore
end ZMachine
