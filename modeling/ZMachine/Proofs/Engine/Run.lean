import ZMachine.Proofs.Engine.Calls

/-!
# What holds along a run

All that happens to a machine is a sequence of turns: effects of instructions, and going on
elsewhere. What each turn keeps is kept by a run, of which some steps may fail. In particular this
is so for a relation between machines that every effect keeps to and that does not look at the stack
or the program counter.

## Main definitions

* `Machine.Turn`, `Machine.Turns` — one thing that can happen to a machine, and many of them.
* `Machine.Tracks` — a relation that all effects keep to.

## Main statements

* `Engine.turns_step`, `Engine.turns_after` — a step is a sequence of turns, and so is a run.
* `Machine.Tracks.step`, `Machine.Tracks.after` — one step, and a run.
-/

namespace ZMachine

namespace Machine

variable {W : Write → Prop} {m m' : Machine}

/-- One thing that can happen to a machine: an effect, or going on elsewhere, in this routine, in
one that is called or in the one that called this one. -/
inductive Turn (m : Machine) : Machine → Prop
  | effect {W : Write → Prop} {m' : Machine} (h : Effect W m m') : Turn m m'
  | goOn (pc : Nat) : Turn m { m with pc }
  | enter {routine returnAddress start : Nat} {arguments : List Word} {result : Option Byte}
      {f : Frame}
      (made : Frame.forCall m.memory routine arguments returnAddress result = .ok (f, start)) :
      Turn m { m with stack := m.stack.push f, pc := start }
  | leave {f : Frame} {rest : CallStack} (popped : m.stack.pop = .ok (f, rest)) :
      Turn m { m with stack := rest, pc := f.returnAddress }

abbrev Turns : Machine → Machine → Prop :=
  Relation.ReflTransGen Turn

/-! ## A step in turns -/

theorem Effects.turns (h : Effects W m m') : Turns m m' :=
  Relation.ReflTransGen.mono (fun _ _ => Turn.effect) _ _ h

/-- Leaving a routine is going on elsewhere, and perhaps a write. -/
theorem turns_leaveRoutine (m : Machine) (value : Word) :
    Turns m (finalState (leaveRoutine value) m) := by
  rw [finalState, run_leaveRoutine]
  cases popped : m.stack.pop with
  | error e => exact .refl
  | ok top =>
    obtain ⟨f, rest⟩ := top
    exact .trans (.single (.leave popped)) (acts_storeIn f.result value _).turns

theorem Ends.turns {out : Except Error Outcome} (h : Ends m out m') : Turns m m' := by
  cases h with
  | advanced | quit | failed => exact .refl
  | branched target => exact .single (.goOn target)
  | returned run => exact finalState_of_ok run ▸ turns_leaveRoutine m _
  | returnFailed run => exact finalState_of_error run ▸ turns_leaveRoutine m _

/-- Looking up operands, from the program counter after the instruction. -/
theorem turns_resolveAll (m : Machine) (next : Nat) (operands : List Operand) :
    Turns m (finalState (resolveAll operands) { m with pc := next }) :=
  .trans (.single (.goOn next)) (acts_resolveAll (W := Write.Any) operands _).turns

theorem Cycle.turns {out : Except Error Outcome} (h : Cycle m out m') : Turns m m' := by
  cases h with
  | refused e => exact .refl
  | @unresolved i _ _ _ run => exact finalState_of_error run ▸ turns_resolveAll m i.next i.operands
  | @ended i _ ready _ _ _ _ run effects ends =>
    have resolved : Turns m ready := finalState_of_ok run ▸ turns_resolveAll m i.next i.operands
    exact resolved.trans (effects.turns.trans ends.turns)
  | @called i _ ready _ _ _ run calls =>
    have resolved : Turns m ready := finalState_of_ok run ▸ turns_resolveAll m i.next i.operands
    obtain ⟨packed, f, start, -, -, made, rfl⟩ := calls
    exact resolved.tail (.enter made)

end Machine

namespace Engine

open Machine

variable {η : Type} [Host η]

/-- A step is made of turns. -/
theorem turns_step (e : Engine η) : Turns e.machine (finalState step e).machine := by
  rcases step_cases e with ⟨-, -, stopped⟩ | ⟨-, out, cycle, -⟩
  · rw [stopped]
  · exact cycle.turns

/-- So is a run. -/
theorem turns_after (e : Engine η) (n : Nat) : Turns e.machine (e.after n).machine := by
  induction n with
  | zero => exact .refl
  | succ n ih => exact ih.trans (turns_step (e.after n))

end Engine

/-! ## Relations that hold along a run -/

namespace Machine

/-- Every effect keeps to the relation, and it does not matter where the program goes on. -/
structure Tracks (R : Machine → Machine → Prop) : Prop where
  effect : ∀ {W m m'}, Effect W m m' → R m m'
  control : ∀ m stack pc, R m { m with stack, pc }

namespace Tracks

variable {R : Machine → Machine → Prop} {m m' : Machine}

theorem turn (tracks : Tracks R) (h : Turn m m') : R m m' := by
  cases h with
  | effect h => exact tracks.effect h
  | goOn pc => exact tracks.control m m.stack pc
  | enter | leave => exact tracks.control m _ _

variable [Std.Refl R] [IsTrans Machine R]

theorem turns (tracks : Tracks R) (h : Turns m m') : R m m' := by
  induction h with
  | refl => exact refl_of R m
  | tail _ last ih => exact trans_of R ih (tracks.turn last)

variable {η : Type} [Host η]

theorem step (tracks : Tracks R) (e : Engine η) :
    R e.machine (finalState Engine.step e).machine :=
  tracks.turns (Engine.turns_step e)

/-- What every turn keeps to, a run keeps to. -/
theorem after (tracks : Tracks R) (e : Engine η) (n : Nat) :
    R e.machine (e.after n).machine :=
  tracks.turns (Engine.turns_after e n)

end Tracks
end Machine
end ZMachine
