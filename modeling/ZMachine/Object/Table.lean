import ZMachine.Header
import ZMachine.Object.Attributes
import ZMachine.Text.ZString

/-!
# The object table

The table opens with 31 default property values. After them come the entries of the objects, nine
bytes each, and objects are numbered from 1 in that order. An entry holds the attributes, the
numbers of parent, sibling and child (0 for none), and a pointer to the object's properties.

Nothing says how many objects there are. Property blocks follow the last entry, so entries are
counted up to the first of the blocks they point to.
-/

namespace ZMachine

/-- One property of an object: where its data lies and how many bytes of it there are. The size byte
lies just before the data. -/
structure Property where
  id : Byte
  address : Nat
  length : Nat
  deriving DecidableEq, Repr

structure Object where
  attributes : Attributes
  parent : Byte
  sibling : Byte
  child : Byte
  propertiesAddress : Nat
  name : Option String
  properties : List Property
  deriving DecidableEq

/-- The objects as they were read when the story was loaded, kept up to date by each change that
goes through the table. -/
structure ObjectTable where
  address : Nat
  objects : Array Object
  deriving DecidableEq

namespace Object

def nameText (o : Object) : String :=
  o.name.getD ""

def property? (o : Object) (id : Nat) : Option Property :=
  o.properties.find? fun p => p.id.toNat = id

end Object

namespace Property

/-- Adds a property at the end of a list; a repeated number keeps its first place and takes the last
data. -/
def insert (properties : List Property) (p : Property) : List Property :=
  if properties.any (·.id = p.id) then
    properties.map fun q => if q.id = p.id then p else q
  else
    properties ++ [p]

/-- The size byte before the data: three bits of length less one, five bits of number. -/
def ofSizeByte (size : Byte) (address : Nat) : Property :=
  ⟨size &&& 31, address, (size >>> 5).toNat + 1⟩

/-- The properties from `address` on, up to a size byte of zero. -/
def readRecords (m : Memory) (address : Nat) : Except Error (List Property) :=
  if address < m.size then
    let size := m.get address
    if size = 0 then .ok []
    else
      let p := ofSizeByte size (address + 1)
      (p :: ·) <$> readRecords m (address + 1 + p.length)
  else
    .error (.memoryOutOfRange address m.size)
termination_by m.size - address

end Property

namespace ObjectTable

def maxObjects : Nat := 255
def maxProperty : Nat := 31
def defaultsLength : Nat := 2 * maxProperty
def entryLength : Nat := 9

/-- Where the entry of an object lies in the table at `table`. -/
def entryAt (table id : Nat) : Nat :=
  table + defaultsLength + (id - 1) * entryLength

/-- Counts the entries from `address` on, at most `room` of them. No entry begins at or past
`lowest`, the lowest property block so far, and a block never begins before the end of the entry
that points to it. -/
def countFrom (m : Memory) : (room address : Nat) → (lowest : Option Nat) → Except Error Nat
  | 0, _, _ => .ok 0
  | room + 1, address, lowest =>
    if lowest.any (· ≤ address) then .ok 0
    else do
      let block := (← m.wordAt (address + 7)).toNat
      if block < address + entryLength then return 0
      let rest ← countFrom m room (address + entryLength)
        (some (lowest.elim block (min block)))
      return rest + 1

def countEntries (m : Memory) (table : Nat) : Except Error Nat :=
  countFrom m maxObjects (table + defaultsLength) none

/-- The fixed part of an entry. -/
def readEntry : Scan (Attributes × Byte × Byte × Byte × Nat) := do
  let attributes ← Scan.long
  let parent ← Scan.byte
  let sibling ← Scan.byte
  let child ← Scan.byte
  let propertiesAddress ← Scan.word
  return (attributes.toBitVec, parent, sibling, child, propertiesAddress.toNat)

/-- The entry of an object and the block it points to: the length of the name in words, the name,
and the properties. -/
def objectAt (m : Memory) (abbreviations : AbbreviationTable) (table id : Nat) :
    Except Error Object := do
  let ((attributes, parent, sibling, child, propertiesAddress), _) ←
    readEntry.runFrom m (entryAt table id)
  let nameWords := (← m.byteAt propertiesAddress).toNat
  let name ←
    if nameWords = 0 then pure none
    else some <$> ZString.read m abbreviations (propertiesAddress + 1)
  let records ← Property.readRecords m (propertiesAddress + 1 + 2 * nameWords)
  return {
    attributes, parent, sibling, child, propertiesAddress, name
    properties := records.foldl Property.insert [] }

def load (m : Memory) (table : Nat) (abbreviations : AbbreviationTable) :
    Except Error ObjectTable := do
  let count ← countEntries m table
  let objects ← (List.range count).mapM fun i => objectAt m abbreviations table (i + 1)
  return ⟨table, objects.toArray⟩

/-! ## Looking at objects -/

def size (t : ObjectTable) : Nat :=
  t.objects.size

/-- The object with a number, counted from 1. -/
def get? (t : ObjectTable) : Nat → Option Object
  | 0 => none
  | index + 1 => t.objects[index]?

def get (t : ObjectTable) (id : Nat) : Except Error Object :=
  match t.get? id with
  | some object => .ok object
  | none => .error (.invalidOperand (.noObject id t.size))

def parent (t : ObjectTable) (id : Nat) : Except Error Byte :=
  (·.parent) <$> t.get id

def sibling (t : ObjectTable) (id : Nat) : Except Error Byte :=
  (·.sibling) <$> t.get id

def child (t : ObjectTable) (id : Nat) : Except Error Byte :=
  (·.child) <$> t.get id

def requireAttribute (number : Nat) : Except Error Unit :=
  if number < Attributes.count then .ok () else .error (.invalidOperand (.noAttribute number))

def hasAttribute (t : ObjectTable) (id number : Nat) : Except Error Bool := do
  requireAttribute number
  return (← t.get id).attributes.has number

/-- Where the entry of an object lies. -/
def entryAddress (t : ObjectTable) (id : Nat) : Nat :=
  entryAt t.address id

/-- Changes one object; nothing happens outside the table. -/
def modify (t : ObjectTable) (id : Nat) (change : Object → Object) : ObjectTable :=
  match id with
  | 0 => t
  | index + 1 => { t with objects := t.objects.modify index change }

end ObjectTable
end ZMachine
