import ZMachine.Memory.Scan

/-!
# The story header

The first 64 bytes of a story say where everything else in it lies. Memory up to `dynamicLimit` is
dynamic: a program may write there.
-/

namespace ZMachine

structure Header where
  version : Byte
  flags : Byte
  release : Word
  highBase : Nat
  start : Nat
  dictionary : Nat
  objects : Nat
  globals : Nat
  dynamicLimit : Nat
  serial : List Byte
  abbreviations : Nat
  fileLength : Nat
  checksum : Word
  deriving DecidableEq

namespace Header

def length : Nat := 64
def maxVersion : Byte := 3
def maxFileLength : Nat := 128 * 1024

/-- The fields, as they lie in the first 64 bytes. The file length is stored halved. -/
def read (m : Memory) : Except Error Header := do
  let address (place : Nat) : Except Error Nat := UInt16.toNat <$> m.wordAt place
  return {
    version := ← m.byteAt 0x00
    flags := ← m.byteAt 0x01
    release := ← m.wordAt 0x02
    highBase := ← address 0x04
    start := ← address 0x06
    dictionary := ← address 0x08
    objects := ← address 0x0A
    globals := ← address 0x0C
    dynamicLimit := ← address 0x0E
    serial := ← m.slice 0x12 6
    abbreviations := ← address 0x18
    fileLength := 2 * (← address 0x1A)
    checksum := ← m.wordAt 0x1C }

/-- The first fault that keeps a story of `size` bytes with this header from being played. -/
def fault? (h : Header) (size : Nat) : Option Error :=
  if h.version = 0 ∨ h.version > maxVersion then
    some (.unsupportedVersion h.version.toNat)
  else if h.dynamicLimit < length then
    some (.invalidDynamicMemory h.dynamicLimit)
  else if h.highBase < h.dynamicLimit then
    some (.overlappingMemoryRegions h.highBase h.dynamicLimit)
  else if max h.fileLength size > maxFileLength then
    some (.fileTooLarge (max h.fileLength size))
  else
    none

/-- The header of a story that can be played. -/
def parse (m : Memory) : Except Error Header := do
  if m.size < length then
    throw (.truncatedStory m.size)
  let h ← read m
  match h.fault? m.size with
  | some fault => throw fault
  | none => return h

/-- The serial number, each byte as the character with that code. -/
def serialText (h : Header) : String :=
  String.ofList (h.serial.map fun b => Char.ofNat b.toNat)

open Numeral in
/-- The header as a listing shows it. -/
def listing (h : Header) : String :=
  let status := if h.flags &&& 2 = 0 then "Display score/turns" else "Display hours:min"
  "\n    **** Story file header ****\n\n" ++
  s!"  Z-code version:           {h.version}\n" ++
  s!"  Interpreter flags:        {status}\n" ++
  s!"  Release number:           {h.release}\n" ++
  s!"  Size of resident memory:  {hex 4 h.highBase}\n" ++
  s!"  Start PC:                 {hex 4 h.start}\n" ++
  s!"  Dictionary address:       {hex 4 h.dictionary}\n" ++
  s!"  Object table address:     {hex 4 h.objects}\n" ++
  s!"  Global variables address: {hex 4 h.globals}\n" ++
  s!"  Size of dynamic memory:   {hex 4 h.dynamicLimit}\n" ++
  s!"  Serial number:            {h.serialText}\n" ++
  s!"  Abbreviations address:    {hex 4 h.abbreviations}\n" ++
  s!"  File size:                {hex 5 h.fileLength}\n" ++
  s!"  Checksum:                 {hex 4 h.checksum.toNat}\n"

end Header
end ZMachine
