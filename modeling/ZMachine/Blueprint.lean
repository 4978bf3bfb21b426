import ZMachine.Dictionary
import ZMachine.Frame
import ZMachine.Object.Table

/-!
# Blueprints of stories

A blueprint says what a small story of version 3 is made of, and `image` lays it out. Each kind of
content has a place of its own:

* from `0x0000` the header, and from `0x0040` the abbreviation table,
* from `0x0100` objects and their properties, from `0x0600` the globals,
* from `0x0800` scratch space, up to `0x0900`, where dynamic memory ends,
* from `0x0A00` the dictionary, from `0x0B00` the strings of abbreviations,
* from `0x1000` the code.

Whatever is placed at an address of its own is written last and overrides the rest.
-/

namespace ZMachine

structure ObjectPlan where
  name : String
  attributes : List Nat
  parent : Byte
  sibling : Byte
  child : Byte
  properties : List (Nat × List Byte)

inductive Placement where
  | routine (address : Nat) (locals : List Word) (code : List Byte)
  | string (address : Nat) (text : String)
  | bytes (address : Nat) (data : List Byte)

structure Blueprint where
  objects : List ObjectPlan
  defaults : List (Nat × Word)
  globals : List (Nat × Word)
  abbreviations : List (Nat × String)
  separators : List Byte
  words : List String
  code : List Byte
  placements : List Placement

/-- Why a blueprint cannot be laid out. -/
inductive BlueprintFault where
  | attribute (number : Nat)
  | propertyNumber (number : Nat)
  | propertyLength (length : Nat)
  | globalIndex (index : Nat)
  | abbreviationIndex (index : Nat)
  | oddRoutine (address : Nat)
  | tooManyLocals (count : Nat)
  | text (cause : Error)
  | abbreviationsOverflow
  | objectsOverflow
  | dictionaryOverflow

namespace Blueprint

def abbreviationsAddress : Nat := 0x0040
def objectsAddress : Nat := 0x0100
def globalsAddress : Nat := 0x0600
def dynamicLimit : Nat := 0x0900
def dictionaryAddress : Nat := 0x0A00
def abbreviationStringsAddress : Nat := 0x0B00
def stringsAddress : Nat := 0x0C00
def codeAddress : Nat := 0x1000
def minSize : Nat := 0x1100
def entryLength : Nat := 7
def globalCount : Nat := 240

/-- Bytes to be written at an address. -/
structure Patch where
  address : Nat
  bytes : List Byte

namespace Patch

def ofWord (address : Nat) (value : Nat) : Patch :=
  ⟨address, Word.toBytes [UInt16.ofNat value]⟩

def stop (p : Patch) : Nat :=
  p.address + p.bytes.length

/-- An image grows with zeros until a patch fits. -/
def apply (image : Array Byte) (p : Patch) : Array Byte :=
  let grown := image ++ Array.replicate (p.stop - image.size) 0
  (p.bytes.zipIdx p.address).foldl (fun a (b, i) => a.setIfInBounds i b) grown

end Patch

def encodeText (text : String) : Except BlueprintFault (List Byte) :=
  match ZString.encode text with
  | .ok ws => .ok (Word.toBytes ws)
  | .error e => .error (.text e)

def header : List Patch :=
  [⟨0x00, [3]⟩, .ofWord 0x02 1, .ofWord 0x04 codeAddress, .ofWord 0x06 codeAddress,
    .ofWord 0x08 dictionaryAddress, .ofWord 0x0A objectsAddress, .ofWord 0x0C globalsAddress,
    .ofWord 0x0E dynamicLimit, ⟨0x12, "261018".toUTF8.data.toList⟩,
    .ofWord 0x18 abbreviationsAddress]

/-- The strings of abbreviations one after another from `next` on, and their table entries. -/
def abbreviationPatches (next : Nat) : List (Nat × String) → Except BlueprintFault (List Patch)
  | [] => return []
  | (index, text) :: rest => do
    if index ≥ AbbreviationTable.count then
      throw (.abbreviationIndex index)
    let string : Patch := ⟨next, ← encodeText text⟩
    if string.stop > stringsAddress then
      throw .abbreviationsOverflow
    let others ← abbreviationPatches string.stop rest
    return string :: .ofWord (abbreviationsAddress + 2 * index) (next / 2) :: others

def defaultPatch : Nat × Word → Except BlueprintFault Patch
  | (number, value) =>
    if number = 0 then .error (.propertyNumber number)
    else .ok (.ofWord (objectsAddress + 2 * (number - 1)) value.toNat)

def propertyBytes : Nat × List Byte → Except BlueprintFault (List Byte)
  | (number, data) => do
    if number = 0 ∨ number > ObjectTable.maxProperty then
      throw (.propertyNumber number)
    if data.isEmpty ∨ data.length > 8 then
      throw (.propertyLength data.length)
    return UInt8.ofNat (32 * (data.length - 1) + number) :: data

def nameBytes (name : String) : Except BlueprintFault (List Byte) := do
  if name.isEmpty then
    return [0]
  let text ← encodeText name
  return UInt8.ofNat (text.length / 2) :: text

/-- Name and properties of an object, the properties with the highest number first. -/
def propertyBlock (o : ObjectPlan) : Except BlueprintFault (List Byte) := do
  let name ← nameBytes o.name
  let properties ← (o.properties.mergeSort fun p q => p.1 ≥ q.1).mapM propertyBytes
  return name ++ properties.flatten ++ [0]

def entryBytes (o : ObjectPlan) (block : Nat) : Except BlueprintFault (List Byte) := do
  match o.attributes.find? (· ≥ Attributes.count) with
  | some number => throw (.attribute number)
  | none =>
    let attributes := Attributes.ofList o.attributes
    return (List.range 4).map attributes.byte ++ [o.parent, o.sibling, o.child] ++
      Word.toBytes [UInt16.ofNat block]

/-- The entries of objects from `entry` on, and their blocks one after another from `block` on. -/
def objectPatches (entry block : Nat) : List ObjectPlan → Except BlueprintFault (List Patch)
  | [] => return []
  | o :: rest => do
    let fixed ← entryBytes o block
    let properties : Patch := ⟨block, ← propertyBlock o⟩
    if properties.stop > globalsAddress then
      throw .objectsOverflow
    let others ← objectPatches (entry + ObjectTable.entryLength) properties.stop rest
    return ⟨entry, fixed⟩ :: properties :: others

def globalPatch : Nat × Word → Except BlueprintFault Patch
  | (index, value) =>
    if index ≥ globalCount then .error (.globalIndex index)
    else .ok (.ofWord (globalsAddress + 2 * index) value.toNat)

def keyOf (word : String) : Except BlueprintFault UInt32 :=
  match DictionaryKey.clipped word entryLength with
  | .ok key => .ok key
  | .error e => .error (.text e)

def entryOfKey (key : UInt32) : List Byte :=
  Word.toBytes [(key >>> 16).toUInt16, key.toUInt16] ++ List.replicate (entryLength - 4) 0

/-- Words that share a key share an entry. -/
def dictionaryPatch (separators : List Byte) (words : List String) :
    Except BlueprintFault Patch := do
  let keys := ((← words.mapM keyOf).mergeSort fun a b => a ≤ b).eraseReps
  let dictionary : Patch := ⟨dictionaryAddress,
    UInt8.ofNat separators.length :: separators ++ UInt8.ofNat entryLength ::
      Word.toBytes [UInt16.ofNat keys.length] ++ keys.flatMap entryOfKey⟩
  if dictionary.stop > abbreviationStringsAddress then
    throw .dictionaryOverflow
  return dictionary

def placementPatch : Placement → Except BlueprintFault Patch
  | .routine address locals code =>
    if address % 2 ≠ 0 then .error (.oddRoutine address)
    else if locals.length > Frame.maxLocals then .error (.tooManyLocals locals.length)
    else .ok ⟨address, UInt8.ofNat locals.length :: Word.toBytes locals ++ code⟩
  | .string address text => return ⟨address, ← encodeText text⟩
  | .bytes address data => return ⟨address, data⟩

/-- All that is written, in this order. -/
def patches (b : Blueprint) : Except BlueprintFault (List Patch) := do
  let abbreviations ← abbreviationPatches abbreviationStringsAddress b.abbreviations
  let defaults ← b.defaults.mapM defaultPatch
  let entries := objectsAddress + ObjectTable.defaultsLength
  let blocks := entries + ObjectTable.entryLength * b.objects.length
  let objects ← objectPatches entries blocks b.objects
  let globals ← b.globals.mapM globalPatch
  let dictionary ← dictionaryPatch b.separators b.words
  let placements ← b.placements.mapM placementPatch
  return header ++ abbreviations ++ defaults ++ objects ++ globals ++
    dictionary :: ⟨codeAddress, b.code⟩ :: placements

/-- Pads an image to an even length and writes half of that into the header. -/
def finish (image : Array Byte) : Array Byte :=
  let padded := image ++ Array.replicate (image.size % 2) 0
  Patch.apply padded (.ofWord 0x1A (padded.size / 2))

/-- The story that a blueprint describes. -/
def image (b : Blueprint) : Except BlueprintFault (Array Byte) := do
  return finish ((← b.patches).foldl Patch.apply (Array.replicate minSize 0))

end Blueprint
end ZMachine
