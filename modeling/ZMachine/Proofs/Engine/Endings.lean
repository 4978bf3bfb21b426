import ZMachine.Engine.Execute
import ZMachine.Proofs.Engine.Execute

/-!
# How instructions can end

Most opcodes always go on after the instruction. Only a branch or a jump goes on elsewhere, only a
call enters a routine, and only a few opcodes leave one or end the story.

## Main definitions

* `Opcode.MayEnd` — the outcomes that an opcode can have.

## Main statements

* `Machine.yields_branch` — how a branch ends.
* `Engine.yields_perform` — every opcode has one of its outcomes, or fails.
-/

namespace ZMachine

/-- The outcomes of an opcode, on any operands and in any state. -/
def Opcode.MayEnd (opcode : Opcode) : Outcome → Prop
  | .advanced => opcode ∉ [rtrue, rfalse, printRet, retPopped, ret, jump, quit]
  | .branched => opcode.branches = true ∨ opcode = jump
  | .called => opcode = call
  | .returned _ => opcode.branches = true ∨ opcode ∈ [rtrue, rfalse, printRet, retPopped, ret]
  | .quit => opcode = quit ∨ opcode = sread

instance (opcode : Opcode) : (out : Outcome) → Decidable (opcode.MayEnd out)
  | .advanced => inferInstanceAs (Decidable (_ ∉ _))
  | .branched => inferInstanceAs (Decidable (_ ∨ _))
  | .called => inferInstanceAs (Decidable (_ = _))
  | .returned _ => inferInstanceAs (Decidable (_ ∨ _))
  | .quit => inferInstanceAs (Decidable (_ ∨ _))

def Outcome.IsReturn (out : Outcome) : Prop :=
  ∃ value, out = .returned value

def Outcome.IsBranch (out : Outcome) : Prop :=
  out = .advanced ∨ out = .branched ∨ out.IsReturn

namespace Opcode

open Outcome

variable {opcode : Opcode} {out : Outcome}

/-- An opcode that returns may end with any value. -/
theorem mayEnd_of_isReturn (h : opcode ∈ [rtrue, rfalse, printRet, retPopped, ret]) :
    out.IsReturn → opcode.MayEnd out := by
  rintro ⟨value, rfl⟩
  exact .inr h

/-- An opcode with branch data may end as a branch does. -/
theorem mayEnd_of_isBranch (h : opcode.branches = true) : out.IsBranch → opcode.MayEnd out := by
  rintro (rfl | rfl | ⟨value, rfl⟩)
  · revert h
    cases opcode <;> decide
  · exact .inl h
  · exact .inl h

end Opcode

namespace Machine

open Outcome

variable (i : Instruction) (values : List Word)

/-! ## Instructions of the machine -/

theorem yields_returnWith (value : Word) : Yields IsReturn (returnWith value) :=
  .bind fun _ => .pure ⟨value, rfl⟩

theorem yields_jumpBy (offset : Int) (fault : Int → OperandFault) :
    Yields (· = .branched) (jumpBy offset fault) := by
  refine .bind fun m => ?_
  dsimp only
  split
  · exact .throw _
  · exact .bind fun _ => .pure rfl

/-- A branch goes on at the next instruction or elsewhere, or returns 0 or 1. -/
theorem yields_branch (condition : Bool) : Yields IsBranch (branch i condition) := by
  have returns (value : Word) : Yields IsBranch (returnWith value) :=
    (yields_returnWith value).mono fun _ => .inr ∘ .inr
  unfold branch
  split
  · exact .pure (.inl rfl)
  · split_ifs
    · exact .pure (.inl rfl)
    · exact returns 0
    · exact returns 1
    · exact (yields_jumpBy _ _).mono fun _ => .inr ∘ .inl

theorem yields_branchIfEqual : Yields IsBranch (branchIfEqual i values) := by
  unfold branchIfEqual
  split
  · exact yields_branch i _
  · exact .throw _

/-- A call goes on after itself or enters a routine. -/
theorem yields_call : Yields (fun out => out = .advanced ∨ out = .called) (call i values) := by
  refine .bind fun packed => ?_
  split
  · exact .bind fun _ => .pure (.inl rfl)
  · exact .bind fun _ => .pure (.inr rfl)

end Machine

namespace Engine

open Machine Outcome

variable {η : Type}

theorem yields_onMachine {P : Outcome → Prop} {x : MachineM Outcome} (h : Yields P x) :
    Yields P (onMachine x : EngineM η Outcome) := by
  intro e out answered
  rw [answer_onMachine] at answered
  exact h e.machine out answered

variable [Host η]

theorem yields_printInlineAndReturn (i : Instruction) :
    Yields IsReturn (printInlineAndReturn i : EngineM η Outcome) :=
  .bind fun _ => .bind fun _ => yields_onMachine (yields_returnWith 1)

theorem yields_readInput (values : List Word) :
    Yields (fun out => out = .advanced ∨ out = .quit) (readInput values : EngineM η Outcome) := by
  refine .bind fun _ => .bind fun _ => .bind fun _ => .bind fun line => ?_
  split
  · exact .pure (.inr rfl)
  · exact .bind fun _ => .pure (.inl rfl)

/-- Every opcode ends in one of its ways. Those that only go on after themselves differ in how much
they do before. -/
theorem yields_perform (opcode : Opcode) (i : Instruction) (values : List Word) :
    Yields opcode.MayEnd (perform opcode i values : EngineM η Outcome) := by
  have returns {opcode : Opcode} {x : MachineM Outcome} (h : Yields IsReturn x)
      (isReturn : opcode ∈ [.rtrue, .rfalse, .printRet, .retPopped, .ret]) :
      Yields opcode.MayEnd (onMachine x : EngineM η Outcome) :=
    yields_onMachine (h.mono fun _ => Opcode.mayEnd_of_isReturn isReturn)
  have branches {opcode : Opcode} {x : MachineM Outcome} (h : Yields IsBranch x)
      (branches : opcode.branches = true) :
      Yields opcode.MayEnd (onMachine x : EngineM η Outcome) :=
    yields_onMachine (h.mono fun _ => Opcode.mayEnd_of_isBranch branches)
  cases opcode with
  | rtrue => exact returns (yields_returnWith 1) (by decide)
  | rfalse => exact returns (yields_returnWith 0) (by decide)
  | retPopped => exact returns (.bind yields_returnWith) (by decide)
  | ret => exact .bind fun value => returns (yields_returnWith value) (by decide)
  | printRet =>
    exact (yields_printInlineAndReturn i).mono fun _ => Opcode.mayEnd_of_isReturn (by decide)
  | jz => exact branches (.bind fun _ => yields_branch i _) rfl
  | je => exact branches (yields_branchIfEqual i values) rfl
  | jl | jg | decChk | incChk | test =>
    exact branches (.bind fun _ => .bind fun _ => yields_branch i _) rfl
  | getSibling | getChild | jin | testAttr =>
    exact branches
      (.bind fun _ => .bind fun _ => .bind fun _ => .bind fun _ => yields_branch i _) rfl
  | jump =>
    exact yields_onMachine
      (.bind fun _ => (yields_jumpBy _ _).mono (by rintro _ rfl; exact .inr rfl))
  | call =>
    exact yields_onMachine ((yields_call i values).mono (by rintro _ (rfl | rfl) <;> decide))
  | quit => exact .pure (.inl rfl)
  | sread => exact (yields_readInput values).mono (by rintro _ (rfl | rfl) <;> decide)
  | nop => exact .pure (by decide)
  | print | newLine => exact .bind fun _ => .pure (by decide)
  | printNum => exact .bind fun _ => .bind fun _ => .pure (by decide)
  | printChar =>
    refine .bind fun code => ?_
    split
    · exact .bind fun _ => .pure (by decide)
    · exact .pure (by decide)
  | printAddr | printPaddr => exact .bind fun _ => .bind fun _ => .bind fun _ => .pure (by decide)
  | printObj =>
    exact .bind fun _ => .bind fun _ => .bind fun _ => .bind fun _ => .pure (by decide)
  | pop | inc | dec => exact yields_onMachine (.bind fun _ => .pure (by decide))
  | not | push | removeObj =>
    exact yields_onMachine (.bind fun _ => .bind fun _ => .pure (by decide))
  | insertObj | setAttr | clearAttr | store | storew | storeb | pull | load | loadw | loadb
  | random =>
    exact yields_onMachine (.bind fun _ => .bind fun _ => .bind fun _ => .pure (by decide))
  | getParent | getPropLen | putProp | or | and | add | sub | mul | div | mod =>
    exact yields_onMachine
      (.bind fun _ => .bind fun _ => .bind fun _ => .bind fun _ => .pure (by decide))
  | getProp | getPropAddr | getNextProp =>
    exact yields_onMachine
      (.bind fun _ => .bind fun _ => .bind fun _ => .bind fun _ => .bind fun _ =>
        .pure (by decide))

end Engine
end ZMachine
