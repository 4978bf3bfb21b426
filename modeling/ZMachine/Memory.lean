import ZMachine.Error
import ZMachine.Word

/-!
# Story memory

The whole story file lies in one array of bytes. Words have their high byte first. An access that
does not lie inside the array is an error and never wraps around.
-/

namespace ZMachine

structure Memory where
  bytes : Array Byte
  deriving DecidableEq

namespace Memory

def size (m : Memory) : Nat :=
  m.bytes.size

/-- The byte at an address, zero outside memory. -/
def get (m : Memory) (address : Nat) : Byte :=
  m.bytes.getD address 0

/-- Overwrites one byte; nothing happens outside memory. -/
def put (m : Memory) (address : Nat) (value : Byte) : Memory :=
  ⟨m.bytes.setIfInBounds address value⟩

/-- Refuses an access of `width` bytes unless all of them lie in memory. -/
def check (m : Memory) (address width : Nat) : Except Error Unit :=
  if address + width ≤ m.size then .ok () else .error (.memoryOutOfRange address m.size)

/-! ## Reading -/

def byteAt (m : Memory) (address : Nat) : Except Error Byte := do
  m.check address 1
  return m.get address

def wordAt (m : Memory) (address : Nat) : Except Error Word := do
  m.check address 2
  return Word.ofBytes (m.get address) (m.get (address + 1))

/-- Four bytes as one number, the highest first. -/
def longAt (m : Memory) (address : Nat) : Except Error UInt32 := do
  m.check address 4
  return Word.join (Word.ofBytes (m.get address) (m.get (address + 1)))
    (Word.ofBytes (m.get (address + 2)) (m.get (address + 3)))

def slice (m : Memory) (address length : Nat) : Except Error (List Byte) := do
  m.check address length
  return (List.range length).map fun i => m.get (address + i)

/-! ## Writing -/

def putWord (m : Memory) (address : Nat) (value : Word) : Memory :=
  (m.put address (Word.highByte value)).put (address + 1) (Word.lowByte value)

def setByte (m : Memory) (address : Nat) (value : Byte) : Except Error Memory := do
  m.check address 1
  return m.put address value

def setWord (m : Memory) (address : Nat) (value : Word) : Except Error Memory := do
  m.check address 2
  return m.putWord address value

/-! ## What a write leaves as it was -/

@[simp] theorem size_put (m : Memory) (address : Nat) (value : Byte) :
    (m.put address value).size = m.size := by
  simp [put, size]

@[simp] theorem size_putWord (m : Memory) (address : Nat) (value : Word) :
    (m.putWord address value).size = m.size := by
  simp [putWord]

theorem get_put (m : Memory) (address other : Nat) (value : Byte) (h : address < m.size) :
    (m.put address value).get other = if other = address then value else m.get other := by
  unfold put get
  simp only [Array.getD_eq_getD_getElem?, Array.getElem?_setIfInBounds]
  by_cases eq : other = address
  · subst eq; simp [size] at h; simp [h]
  · simp [eq, Ne.symm eq]

end Memory
end ZMachine
