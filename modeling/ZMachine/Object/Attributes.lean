import ZMachine.Word

/-!
# Attributes

An object has 32 flags, kept in four bytes. Attribute 0 is the top bit of the first byte.
-/

namespace ZMachine

abbrev Attributes := BitVec 32

namespace Attributes

def count : Nat := 32

def has (a : Attributes) (number : Nat) : Bool :=
  a.getMsbD number

def assign (a : Attributes) (number : Nat) (value : Bool) : Attributes :=
  let bit : Attributes := BitVec.twoPow 32 (31 - number)
  if value then a ||| bit else a &&& ~~~bit

def toList (a : Attributes) : List Nat :=
  (List.range count).filter a.has

/-- The attributes of a list. -/
def ofList (numbers : List Nat) : Attributes :=
  numbers.foldl (fun a number => a.assign number true) 0

/-- One of the four bytes that hold the attributes, the first being byte 0. -/
def byte (a : Attributes) (index : Nat) : Byte :=
  ⟨a.extractLsb' (8 * (3 - index)) 8⟩

end Attributes
end ZMachine
