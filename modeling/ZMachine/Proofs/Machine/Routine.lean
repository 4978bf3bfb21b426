import ZMachine.Proofs.Machine.Frames
import ZMachine.Proofs.Scan

/-!
# Frames of routines

The frame of a call has as many locals as the header of the routine says, with the values given
there but for the arguments, which come first. Its stack is empty, and the routine begins after its
header.

## Main definitions

* `Frame.EntryOf` — the frame of a call and where the routine begins.

## Main statements

* `Frame.entryOf_of_forCall` — the frame that a call makes.
-/

namespace ZMachine

/-- A word of those that memory holds one after another. -/
theorem Memory.Holds.wordAt {m : Memory} {address index : Nat} {words : List Word} {w : Word}
    (h : m.Holds address (Word.toBytes words)) (found : words[index]? = some w) :
    m.wordAt (address + 2 * index) = .ok w := by
  induction words generalizing address index with
  | nil => cases found
  | cons first rest ih =>
    rw [Word.toBytes_cons, holds_cons, holds_cons] at h
    obtain ⟨inside, high, inside', low, after⟩ := h
    cases index with
    | zero =>
      cases found
      exact wordAt_eq_ok.mpr ⟨inside, high, inside', low, trivial⟩
    | succ index =>
      rw [List.getElem?_cons_succ] at found
      rw [← ih after found]
      congr 1
      omega

namespace Frame

variable {m : Memory} {routine returnAddress start : Nat} {arguments : List Word}
  {result : Option Byte} {f : Frame}

/-- The frame `f` of a call of the routine, whose instructions begin at `start`. -/
structure EntryOf (m : Memory) (routine : Nat) (arguments : List Word) (returnAddress : Nat)
    (result : Option Byte) (f : Frame) (start : Nat) : Prop where
  routine_eq : f.routine = routine
  returnAddress_eq : f.returnAddress = returnAddress
  result_eq : f.result = result
  header : ∃ count : Byte, m.byteAt routine = .ok count ∧ f.localCount = count.toNat
  few : f.localCount ≤ maxLocals
  length_locals : f.locals.length = f.localCount
  /-- A local has the value of the argument, if there is one, and else the one in the header. -/
  locals : ∀ j < f.localCount, ∃ default, m.wordAt (routine + 1 + 2 * j) = .ok default ∧
    f.locals[j]? = some (arguments[j]?.getD default)
  stack_eq : f.stack = []
  start_eq : start = routine + 1 + 2 * f.localCount

theorem length_bind (locals arguments : List Word) :
    (bind locals arguments).length = locals.length := by
  simp only [bind, List.length_append, List.length_take, List.length_drop]
  omega

/-- A local has its argument if there is one, and else its value in the header. -/
theorem getElem?_bind {locals arguments : List Word} {j : Nat} {default : Word}
    (h : locals[j]? = some default) :
    (bind locals arguments)[j]? = some (arguments[j]?.getD default) := by
  obtain ⟨inside, -⟩ := List.getElem?_eq_some_iff.mp h
  rw [bind, List.getElem?_append, List.length_take, List.getElem?_take, List.getElem?_drop]
  by_cases given : j < arguments.length
  · rw [if_pos (by omega), if_pos inside, List.getElem?_eq_getElem given, Option.getD_some]
  · rw [if_neg (by omega), List.getElem?_eq_none (Nat.not_lt.mp given), Option.getD_none, ← h]
    congr 1
    omega

/-- The header of a routine is a number of locals, and their values. -/
theorem scanLocals_eq_ok {stop : Nat} {locals : List Word}
    (h : (scanLocals routine).runFrom m start = .ok (locals, stop)) :
    ∃ count : Byte, m.byteAt start = .ok count ∧ count.toNat ≤ maxLocals ∧
      locals.length = count.toNat ∧ m.Holds (start + 1) (Word.toBytes locals) ∧
      stop = start + 1 + 2 * count.toNat := by
  rw [Scan.runFrom_eq_ok, scanLocals, Scan.bind_apply] at h
  split at h
  · next count p first =>
    obtain ⟨_, rfl, holds, rfl⟩ := (Scan.Reads.byte m start count p).mp first
    have found := Memory.byteAt_eq_ok.mpr holds
    split at h
    · cases h
    · next few =>
      obtain ⟨_, ⟨length, rfl⟩, holds, rfl⟩ :=
        (Scan.Reads.word.times count.toNat m _ locals stop).mp h
      change m.Holds _ (Word.toBytes locals) at holds
      refine ⟨count, found, by omega, length, holds, ?_⟩
      change _ + (Word.toBytes locals).length = _
      rw [Word.length_toBytes, length, List.length_singleton]
  · cases h

/-- The frame that is made for a call is one of its routine. -/
theorem entryOf_of_forCall
    (h : forCall m routine arguments returnAddress result = .ok (f, start)) :
    EntryOf m routine arguments returnAddress result f start := by
  rw [forCall, Except.bind_eq_ok] at h
  obtain ⟨⟨locals, stop⟩, scanned, h⟩ := h
  cases h
  obtain ⟨count, found, few, length, holds, rfl⟩ := scanLocals_eq_ok scanned
  have length_le := Nat.le_of_eq (length_bind locals arguments)
  have allLocals : (bind locals arguments).take locals.length = bind locals arguments :=
    List.take_of_length_le length_le
  exact {
    routine_eq := rfl
    returnAddress_eq := rfl
    result_eq := rfl
    header := ⟨count, found, length⟩
    few := by simpa only [length] using few
    length_locals := by simp only [Frame.locals, allLocals, length_bind]
    locals := by
      intro j inside
      have given := List.getElem?_eq_getElem (l := locals) inside
      refine ⟨_, holds.wordAt given, ?_⟩
      simp only [Frame.locals, allLocals]
      exact getElem?_bind given
    stack_eq := by simp only [Frame.stack, List.drop_of_length_le length_le, List.reverse_nil]
    start_eq := by simp only [length] }

end Frame
end ZMachine
