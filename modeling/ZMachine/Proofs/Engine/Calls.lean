import Mathlib.Tactic.IntervalCases
import ZMachine.Host.Script
import ZMachine.Proofs.Engine.Step
import ZMachine.Proofs.Instruction.Decode
import ZMachine.Proofs.Machine.Frames

/-!
# Calls and returns over a run

While a call is open, each step keeps the frames below it as they are. The step that first leads
back to their depth is a return from this call: it goes on after the instruction that called, and
the value goes to the variable that this instruction names.

## Main definitions

* `Engine.after` — the engine after a number of steps.
* `Machine.Stored` — what became of the frames of a caller when a result was stored.

## Main statements

* `Engine.step_above` — what a step does to the frames below an open call.
* `Engine.above_of_deeper` — what a run does to them.
* `Engine.return_to_caller` — a call and its return.
-/

namespace ZMachine

namespace Machine

variable {m m' : Machine} {base : CallStack} {next : Nat} {result : Option Byte}

/-- A step leaves a call open, or comes back from it as the caller wanted. -/
theorem Cycle.above {out : Except Error Outcome} (h : Cycle m out m')
    (above : base.Above next result m.stack) : OpenOrBack base next result out m' := by
  cases h with
  | refused e => exact .inl above
  | @unresolved i e _ decoded run =>
    have effects := acts_resolveAll (W := Write.Any) i.operands { m with pc := i.next }
    rw [finalState_of_error run] at effects
    exact .inl (effects.above above)
  | @ended i values ready mid _ _ decoded run effects ends =>
    have before := acts_resolveAll (W := Write.Any) i.operands { m with pc := i.next }
    rw [finalState_of_ok run] at before
    exact ends.above (effects.above (before.above above))
  | @called i values ready _ decoded isCall run calls =>
    have before := acts_resolveAll (W := Write.Any) i.operands { m with pc := i.next }
    rw [finalState_of_ok run] at before
    exact .inl (calls.above (before.above above))

/-- What a value written to a variable makes of the frames it was written above. -/
def Stored (variableByte : Byte) (value : Word) (base : CallStack) (m : Machine) : Prop :=
  match Variable.ofByte variableByte with
  | .stackTop => m.stack = base.setCurrent (base.current.push value)
  | .localVar number =>
    ∃ f, base.current.setLocal number value = .ok f ∧ m.stack = base.setCurrent f
  | .globalVar index => m.stack = base ∧ m.memory.wordAt (m.globalAddress index) = .ok value

/-- Writing a result changes no frame below the one that it is written in. -/
theorem stored_of_writeVariable {b : Byte} {value : Word}
    (run : (writeVariable b value).run m = .ok () m') : Stored b value m.stack m' := by
  rw [Stored]
  rw [writeVariable] at run
  cases named : Variable.ofByte b with
  | stackTop =>
    simp only [named, run_pushValue] at run
    cases run
    rfl
  | localVar number =>
    simp only [named, run_writeLocal] at run
    cases set : m.stack.current.setLocal number value with
    | error e => simp [set] at run
    | ok f =>
      simp only [set] at run
      cases run
      exact ⟨f, set, rfl⟩
  | globalVar index =>
    simp only [named, writeGlobal, EStateM.run_bind, EStateM.run_get, run_setWord] at run
    by_cases inside : m.globalAddress index + 2 ≤ m.memory.size
    · rw [if_pos inside] at run
      cases run
      exact ⟨rfl, Memory.wordAt_putWord inside⟩
    · rw [if_neg inside] at run
      cases run

end Machine

namespace Instruction

/-- A call always names a variable for its result. -/
theorem exists_store_of_call {m : Memory} {address : Nat} {i : Instruction}
    (decoded : decode m address = .ok i) (isCall : i.opcode? = some .call) :
    ∃ b, i.store = some b := by
  obtain ⟨-, bytes, ⟨opcode, _, store, _, _, known, _, named, _⟩, -⟩ := decode_eq_ok.mp decoded
  obtain rfl := Option.some.inj (known.symm.trans isCall)
  cases wanted : i.store with
  | some b => exact ⟨b, rfl⟩
  | none =>
    rw [wanted] at named
    exact nomatch named.1

end Instruction

namespace Engine

variable {η : Type} [Host η]

open Machine

def after (e : Engine η) : Nat → Engine η
  | 0 => e
  | n + 1 => finalState step (e.after n)

variable {base : CallStack} {next : Nat} {result : Option Byte}

/-- A step keeps the frames below an open call, or comes back to them. -/
theorem step_above {e : Engine η} (above : base.Above next result e.machine.stack) :
    OpenOrBack base next result (answer step e) (finalState step e).machine := by
  rcases step_cases e with ⟨-, -, stopped⟩ | ⟨-, out, cycle, answered⟩
  · rw [stopped]
    exact .inl above
  · rcases cycle.above above with still | ⟨depth, back⟩
    · exact .inl still
    · refine .inr ⟨depth, fun value returned => back value ?_⟩
      rcases answered with same | ⟨-, fault, failed⟩
      · rw [← same, returned]
      · exact nomatch failed.symm.trans returned

/-- A step that enters a routine executes a call. -/
theorem calls_of_step {e : Engine η} (called : answer step e = .ok .called) :
    ∃ i values ready, Instruction.decode e.machine.memory e.machine.pc = .ok i ∧
      i.opcode? = some .call ∧
      (resolveAll i.operands).run { e.machine with pc := i.next } = .ok values ready ∧
      Calls i values ready (finalState step e).machine := by
  rcases step_cases e with ⟨-, quit, -⟩ | ⟨-, out, cycle, answered⟩
  · exact nomatch quit.symm.trans called
  · have outcome : out = .ok .called := by
      rcases answered with same | ⟨-, fault, failed⟩
      · rw [← same, called]
      · exact nomatch failed.symm.trans called
    subst outcome
    cases cycle with
    | ended _ _ _ ends => cases ends
    | called decoded isCall run calls => exact ⟨_, _, _, decoded, isCall, run, calls⟩

/-- As long as a run does not lead back to the depth of the caller, the call stays open. -/
theorem above_of_deeper {e : Engine η} {n k : Nat}
    (above : base.Above next result (e.after n).machine.stack)
    (deeper : ∀ j, n < j → j ≤ k → (e.after j).machine.stack.depth ≠ base.depth) :
    ∀ j, n ≤ j → j ≤ k → base.Above next result (e.after j).machine.stack := by
  intro j from_call
  induction j, from_call using Nat.le_induction with
  | base => exact fun _ => above
  | succ j from_call ih =>
    intro before
    rcases step_above (ih (by omega)) with still | ⟨depth, -⟩
    · exact still
    · exact absurd depth (deeper (j + 1) (by omega) before)

/-- A call and its return. Say that a step enters a routine, and that a later one is the first to
lead back to the depth of the caller, and returns a value. Then the call is that of the instruction
at the program counter, which names a variable for the result. In between, all frames up to the
depth of the caller are as they were when the operands had been looked up. At the end the program
goes on after the instruction, and these frames are as before but for the value written to the
variable. -/
theorem return_to_caller (e : Engine η) {n k : Nat} {v : Word}
    (called : answer step (e.after n) = .ok .called) (later : n < k)
    (deeper : ∀ j, n < j → j ≤ k →
      (e.after j).machine.stack.depth ≠ (e.after n).machine.stack.depth)
    (back : (e.after (k + 1)).machine.stack.depth = (e.after n).machine.stack.depth)
    (returned : answer step (e.after k) = .ok (.returned v)) :
    ∃ i values ready variableByte,
      Instruction.decode (e.after n).machine.memory (e.after n).machine.pc = .ok i ∧
      i.opcode? = some .call ∧ i.store = some variableByte ∧
      (resolveAll i.operands).run { (e.after n).machine with pc := i.next } = .ok values ready ∧
      (e.after (n + 1)).machine.stack.depth = (e.after n).machine.stack.depth + 1 ∧
      (∀ j, n < j → j ≤ k →
        (e.after j).machine.stack.bottom (e.after n).machine.stack.depth = ready.stack) ∧
      (e.after (k + 1)).machine.pc = i.next ∧
      (∃ left : Machine, left.stack = ready.stack ∧ left.pc = i.next ∧
        (writeVariable variableByte v).run left = .ok () (e.after (k + 1)).machine) ∧
      Stored variableByte v ready.stack (e.after (k + 1)).machine := by
  obtain ⟨i, values, ready, decoded, isCall, run, calls⟩ := calls_of_step called
  obtain ⟨variableByte, named⟩ := Instruction.exists_store_of_call decoded isCall
  have resolved :=
    acts_resolveAll (W := Write.Any) i.operands { (e.after n).machine with pc := i.next }
  rw [finalState_of_ok run] at resolved
  have pc : ready.pc = i.next := resolved.stack.1
  have depth : ready.stack.depth = (e.after n).machine.stack.depth := resolved.depth_eq
  obtain ⟨above, entered⟩ := calls.enters
  rw [← depth] at deeper back ⊢
  have still := above_of_deeper (n := n + 1) (k := k) above fun j after before =>
    deeper j (by omega) before
  refine ⟨i, values, ready, variableByte, decoded, isCall, named, run, entered,
    fun j after before => (still j after before).bottom_eq, ?_⟩
  rcases step_above (still k later (Nat.le_refl k)) with open_ | ⟨-, stored⟩
  · exact absurd back (Nat.ne_of_gt open_.depth_lt)
  · obtain ⟨left, stack, leftPc, write⟩ := stored v returned
    rw [named] at write
    change (writeVariable variableByte v).run left = _ at write
    have effects := acts_writeVariable (b := variableByte) v .any left
    rw [finalState_of_ok write] at effects
    refine ⟨effects.stack.1.trans (leftPc.trans pc), ⟨left, stack, leftPc.trans pc, write⟩, ?_⟩
    rw [← stack]
    exact stored_of_writeVariable write

/-- A routine with one local calls another one with the top of its stack as argument, and wants the
result in the local. The routine it calls has its own result pushed by a third one. -/
def nestedCalls : Engine Script :=
  ofMachine {
      memory := ⟨#[0xE0, 0x2F, 0x00, 0x08, 0x00, 0x01, 0, 0, 0, 0, 0, 0, 0, 0, 0, 0,
        0x00, 0xE0, 0x3F, 0x00, 0x0C, 0x00, 0xB8, 0, 0x01, 0x00, 0x05, 0xB0]⟩
      header := ⟨3, 0, 0, 0, 0, 0, 0, 0, 0, [], 0, 0, 0⟩
      abbreviations := ⟨0⟩
      objects := ⟨0, #[]⟩
      dictionary := ⟨0, [], 0, 0, #[], #[]⟩
      stack := ⟨Frame.initial 0, [⟨0, 0, none, 1, #[7, 8, 9]⟩]⟩
      pc := 0
      random := Random.predictable 0 }
    (Script.ofLines [])

theorem return_to_caller_nested :
    answer step (nestedCalls.after 0) = .ok .called ∧
    answer step (nestedCalls.after 3) = .ok (.returned 1) ∧
    (nestedCalls.after 4).machine.stack.current.values = #[1, 8] ∧
    ∃ i values ready variableByte,
      Instruction.decode (nestedCalls.after 0).machine.memory (nestedCalls.after 0).machine.pc =
        .ok i ∧
      (resolveAll i.operands).run { (nestedCalls.after 0).machine with pc := i.next } =
        .ok values ready ∧
      (∀ j, 0 < j → j ≤ 3 → (nestedCalls.after j).machine.stack.bottom
        (nestedCalls.after 0).machine.stack.depth = ready.stack) ∧
      (nestedCalls.after (3 + 1)).machine.pc = i.next ∧
      Stored variableByte 1 ready.stack (nestedCalls.after (3 + 1)).machine := by
  have called : answer step (nestedCalls.after 0) = .ok .called := by decide +kernel
  have returned : answer step (nestedCalls.after 3) = .ok (.returned 1) := by decide +kernel
  have deeper : ∀ j, 0 < j → j ≤ 3 → (nestedCalls.after j).machine.stack.depth ≠
      (nestedCalls.after 0).machine.stack.depth := by
    intro j positive bound
    interval_cases j <;> decide +kernel
  have back : (nestedCalls.after (3 + 1)).machine.stack.depth =
      (nestedCalls.after 0).machine.stack.depth := by decide +kernel
  have values : (nestedCalls.after 4).machine.stack.current.values = #[1, 8] := by decide +kernel
  obtain ⟨i, operands, ready, b, decoded, -, -, run, -, below, pc, -, stored⟩ :=
    return_to_caller nestedCalls called (by decide) deeper back returned
  exact ⟨called, returned, values, i, operands, ready, b, decoded, run, below, pc, stored⟩

end Engine
end ZMachine
