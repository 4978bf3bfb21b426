import ZMachine.Object.Table

/-!
# Properties

A property of one or two bytes can be read and overwritten as a value. One that an object lacks is
read from the table of defaults. The places of properties were fixed when the table was loaded;
their data and the defaults are read from memory each time.
-/

namespace ZMachine.ObjectTable

def requireProperty (number : Nat) : Except Error Unit :=
  if 0 < number ∧ number ≤ maxProperty then .ok ()
  else .error (.invalidOperand (.noProperty number))

def defaultValue (t : ObjectTable) (m : Memory) (number : Nat) : Except Error Word := do
  requireProperty number
  m.wordAt (t.address + 2 * (number - 1))

def propertyValue (t : ObjectTable) (m : Memory) (id number : Nat) : Except Error Word := do
  let object ← t.get id
  requireProperty number
  match object.property? number with
  | some p =>
    if p.length = 1 then return (← m.byteAt p.address).toUInt16
    else if p.length = 2 then m.wordAt p.address
    else throw (.propertyTooLong id number p.length)
  | none => t.defaultValue m number

/-- The property of an object that a value can be written to. -/
def writableProperty (t : ObjectTable) (id number : Nat) : Except Error Property := do
  let object ← t.get id
  requireProperty number
  match object.property? number with
  | some p =>
    if p.length = 1 ∨ p.length = 2 then return p
    else throw (.propertyTooLong id number p.length)
  | none => throw (.propertyNotFound id number)

/-- Where the data of a property lies, 0 if the object lacks it. -/
def dataAddress (t : ObjectTable) (id number : Nat) : Except Error Nat := do
  let object ← t.get id
  return ((object.property? number).map (·.address)).getD 0

/-- The length that the size byte before a property's data gives. Address 0 has length 0. -/
def dataLength (m : Memory) (address : Nat) : Except Error Nat :=
  if address = 0 then .ok 0
  else do return ((← m.byteAt (address - 1)) >>> 5).toNat + 1

/-- The number of the property after one in the order of storage, 0 after the last one. What follows
0 is the first property. -/
def propertyAfter (t : ObjectTable) (id number : Nat) : Except Error Nat := do
  let object ← t.get id
  let following :=
    if number = 0 then some object.properties
    else (object.properties.dropWhile fun p => p.id.toNat ≠ number).tail?
  match following with
  | some rest => return (rest.head?.map (·.id.toNat)).getD 0
  | none => throw (.propertyNotFound id (number % 256))

end ZMachine.ObjectTable
