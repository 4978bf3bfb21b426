import ZMachine.Memory

/-!
# Reading onward

A `Scan` reads memory from a position and moves past what it reads. A failed read does not move,
and the position it failed at is kept.
-/

namespace ZMachine

abbrev Scan := ReaderT Memory (EStateM Error Nat)

namespace Scan

/-- Reads a value of `width` bytes at the position and moves past it. -/
def take {α : Type} (read : Memory → Nat → Except Error α) (width : Nat) : Scan α :=
  fun m position =>
    match read m position with
    | .ok value => .ok value (position + width)
    | .error e => .error e position

def byte : Scan Byte := take Memory.byteAt 1
def word : Scan Word := take Memory.wordAt 2
def long : Scan UInt32 := take Memory.longAt 4

/-- The same scan so many times over. -/
def times {α : Type} (scan : Scan α) : Nat → Scan (List α)
  | 0 => pure []
  | n + 1 => do
    let first ← scan
    let rest ← times scan n
    return first :: rest

def position : Scan Nat := get

/-- What the scan reads from `start` on, and where it stops. -/
def runFrom {α : Type} (scan : Scan α) (m : Memory) (start : Nat) : Except Error (α × Nat) :=
  match scan m start with
  | .ok value stop => .ok (value, stop)
  | .error e _ => .error e

end Scan
end ZMachine
