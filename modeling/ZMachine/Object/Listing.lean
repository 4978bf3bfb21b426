import ZMachine.Object.Table

/-!
# Listings of objects

One object is listed with its fields and the data of its properties. The tree lists each object
without a parent, and below it, one level further in, its children and theirs.
-/

namespace ZMachine
open Numeral

namespace ObjectTable

/-- A property with its data as memory holds it now. -/
def propertyLine (m : Memory) (p : Property) : String :=
  let data :=
    match m.slice p.address p.length with
    | .ok bytes => String.join (bytes.map fun (b : Byte) => hex 2 b.toNat ++ " ")
    | .error _ => ""
  s!"              [{column 2 p.id.toNat}] {data}\n"

def objectListing (m : Memory) (o : Object) : String :=
  let attributes :=
    match o.attributes.toList with
    | [] => "None"
    | numbers => ", ".intercalate (numbers.map toString)
  let parent := column 3 o.parent.toNat
  let sibling := column 3 o.sibling.toNat
  let child := column 3 o.child.toNat
  s!"Attributes: {attributes}\n" ++
  s!"     Parent object: {parent}  Sibling object: {sibling}  Child object: {child}\n" ++
  s!"     Property address: {hex 4 o.propertiesAddress}\n" ++
  s!"         Description: \"{o.nameText}\"\n" ++
  "          Properties:\n" ++
  String.join (o.properties.map (propertyLine m))

def listObject (t : ObjectTable) (m : Memory) (id : Nat) : Except Error String :=
  objectListing m <$> t.get id

/-! ## The tree -/

/-- One line of the tree: how far in an object stands, its number and its name. -/
structure TreeLine where
  depth : Nat
  id : Nat
  name : String
  deriving DecidableEq, Repr

def TreeLine.text (l : TreeLine) : String :=
  String.join (List.replicate l.depth " . ") ++ s!"[{column 3 l.id}] \"{l.name}\"\n"

/-- The chain of siblings from an object on, each followed by its children. Links that run in
circles are followed through so many objects of a chain, and so many levels down. -/
def chainLines (t : ObjectTable) (levels budget depth first : Nat) : List TreeLine :=
  match budget with
  | 0 => []
  | budget + 1 =>
    if first = 0 then []
    else
      match t.get first with
      | .error _ => []
      | .ok object =>
        let below :=
          match levels with
          | 0 => []
          | levels + 1 =>
            if object.child = 0 then []
            else chainLines t levels t.size (depth + 1) object.child.toNat
        ⟨depth, first, object.nameText⟩ :: below ++
          chainLines t levels budget depth object.sibling.toNat
termination_by (levels, budget)

/-- An object without a parent, and all below it. -/
def rootLines (t : ObjectTable) (id : Nat) (object : Object) : List TreeLine :=
  let below :=
    if object.child = 0 then []
    else chainLines t (maxObjects - 1) t.size 1 object.child.toNat
  ⟨0, id, object.nameText⟩ :: below

def treeLines (t : ObjectTable) : List TreeLine :=
  t.objects.toList.zipIdx.flatMap fun (object, index) =>
    if object.parent = 0 then t.rootLines (index + 1) object else []

def treeListing (t : ObjectTable) : String :=
  String.join (t.treeLines.map TreeLine.text)

end ObjectTable
end ZMachine
