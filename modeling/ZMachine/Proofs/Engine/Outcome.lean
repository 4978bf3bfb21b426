import ZMachine.Proofs.Engine.Confinement
import ZMachine.Proofs.Engine.Endings
import ZMachine.Proofs.Machine.Condition
import ZMachine.Proofs.Machine.Routine

/-!
# What the outcome of a step says

The outcome of a step tells what has happened to the program counter and to the call stack, and why.
No address is large enough to wrap around, because a story that loads is small.

## Main definitions

* `Engine.Explains` — what an outcome says about the step.
* `Engine.Executes` — a step executes this instruction on these values.

## Main statements

* `Engine.step_explained` — each step of a story that was loaded is as its outcome says.
-/

namespace ZMachine

namespace Machine

variable {m m' : Machine}

/-- What became of the frames of a caller: the value was stored in the variable, if there is one. -/
def Returned (result : Option Byte) (value : Word) (base : CallStack) (m : Machine) : Prop :=
  match result with
  | some variableByte => Stored variableByte value base m
  | none => m.stack = base

theorem Ends.eq_of_advanced (h : Ends m (.ok .advanced) m') : m' = m := by
  cases h
  rfl

theorem Ends.eq_of_quit (h : Ends m (.ok .quit) m') : m' = m := by
  cases h
  rfl

theorem Ends.run_of_returned {value : Word} (h : Ends m (.ok (.returned value)) m') :
    (leaveRoutine value).run m = .ok () m' := by
  cases h with
  | returned run => exact run

/-- A routine that is left has a caller, which goes on where it wanted to, with the result where it
wanted it. -/
theorem returned_of_leaveRoutine {value : Word} (run : (leaveRoutine value).run m = .ok () m') :
    ∃ frame rest, m.stack.calls = frame :: rest ∧ m'.pc = frame.returnAddress ∧
      m'.stack.depth = rest.length + 1 ∧ Returned frame.result value ⟨m.stack.main, rest⟩ m' := by
  obtain ⟨frame, rest, calls, stored⟩ := exists_of_leaveRoutine run
  have effects := acts_storeIn frame.result value
    { m with stack := ⟨m.stack.main, rest⟩, pc := frame.returnAddress }
  rw [finalState_of_ok stored] at effects
  refine ⟨frame, rest, calls, effects.stack.1, effects.depth_eq, ?_⟩
  cases wanted : frame.result with
  | some b =>
    rw [wanted] at stored
    exact stored_of_writeVariable stored
  | none =>
    rw [wanted] at stored
    cases stored
    rfl

end Machine

namespace Engine

variable {η : Type} [Host η]

open Machine

/-- What the outcome of a step of `e` says about the engine `e'` after it, where the step executed
the instruction `i` on these values, and `ready` is the machine when they had been looked up. -/
def Explains (e e' : Engine η) (i : Instruction) (values : List Word) (ready : Machine) :
    Outcome → Prop
  | .advanced =>
    e'.machine.pc = i.next ∧ e'.machine.stack.depth = e.machine.stack.depth
  | .branched =>
    e'.machine.stack.depth = e.machine.stack.depth ∧
      ((∃ opcode b, i.opcode? = some opcode ∧ i.branch = some b ∧ b.offset ≠ 0 ∧ b.offset ≠ 1 ∧
          ready.condition? opcode values = some b.onTrue ∧
          (e'.machine.pc : Int) = i.next + b.offset - 2) ∨
        ∃ offset, i.opcode? = some .jump ∧ values[0]? = some offset ∧
          (e'.machine.pc : Int) = i.next + offset.signed - 2)
  | .called =>
    i.opcode? = some .call ∧ e'.machine.stack.depth = e.machine.stack.depth + 1 ∧
      ∃ packed arguments frame, values = packed :: arguments ∧ packed ≠ 0 ∧
        e'.machine.stack = ready.stack.push frame ∧
        frame.EntryOf e.machine.memory (2 * packed.toNat) arguments i.next i.store e'.machine.pc
  | .returned value =>
    e'.machine.stack.depth + 1 = e.machine.stack.depth ∧
      ∃ frame rest, e.machine.stack.calls = frame :: rest ∧
        e'.machine.pc = frame.returnAddress ∧
        Returned frame.result value ⟨e.machine.stack.main, rest⟩ e'.machine
  | .quit =>
    e'.machine.pc = i.next ∧ e'.machine.stack.depth = e.machine.stack.depth ∧ e'.halted = true ∧
      (i.opcode? = some .quit ∨ i.opcode? = some .sread ∧
        ∃ host, (Host.flush : HostM η Unit).run e.host = .ok () host ∧
          answer Host.readLine host = .error .endOfInput)

/-! ## The instruction of a step -/

/-- The step of `e` executes the instruction `i` with this opcode on these values, and `ready` is
the machine when they had been looked up. -/
structure Executes (e : Engine η) (i : Instruction) (opcode : Opcode) (values : List Word)
    (ready : Machine) (out : Outcome) : Prop where
  decoded : Instruction.decode e.machine.memory e.machine.pc = .ok i
  known : i.opcode? = some opcode
  looked : (resolveAll i.operands).run { e.machine with pc := i.next } = .ok values ready
  performed : answer (perform opcode i values) { e with machine := ready, count := e.count + 1 } =
    .ok out
  machine : (finalState step e).machine = (finalState (perform opcode i values)
    { e with machine := ready, count := e.count + 1 }).machine

/-- A step that has an outcome has executed an instruction. -/
theorem exists_executes {e : Engine η} {out : Outcome} (running : e.halted = false)
    (answered : answer step e = .ok out) :
    ∃ i opcode values ready, Executes e i opcode values ready out := by
  obtain ⟨machine, same, -⟩ := step_of_running running
  have cycled : answer cycle e = .ok out := by
    rcases same with same | ⟨-, fault, failed⟩
    · rw [← same, answered]
    · exact nomatch failed.symm.trans answered
  rcases cycle_cases e with ⟨fault, failed, -⟩ | ⟨i, values, ready, decoded, run, answer', final⟩
  · exact nomatch failed.symm.trans cycled
  · obtain ⟨opcode, known⟩ := Instruction.exists_opcode_of_decode decoded
    have executed : execute i values = (perform opcode i values : EngineM η Outcome) := by
      rw [execute, known]
    rw [executed] at answer' final
    exact ⟨i, opcode, values, ready, decoded, known, run, answer'.symm.trans cycled,
      by rw [machine, final]⟩

/-! ## Branches and jumps -/

/-- Every opcode with branch data ends as a branch on its condition. -/
theorem exists_branchesIf {opcode : Opcode} (branches : opcode.branches = true) (i : Instruction)
    (values : List Word) :
    ∃ x : MachineM Outcome, (perform opcode i values : EngineM η Outcome) = onMachine x ∧
      ∀ m, BranchesIf i (m.condition? opcode values) x m := by
  cases opcode with
  | jz => exact ⟨_, rfl, fun m => branchesIf_branchIfZero i m values⟩
  | je => exact ⟨_, rfl, fun m => branchesIf_branchIfEqual i m values⟩
  | jl | jg => exact ⟨_, rfl, fun m => branchesIf_compare i m values fun _ _ _ => rfl⟩
  | decChk =>
    refine ⟨_, rfl, fun m => branchesIf_adjust i m values fun _ _ _ => ?_⟩
    simp only [condition?, UInt16.sub_eq_add_neg]
  | incChk => exact ⟨_, rfl, fun m => branchesIf_adjust i m values fun _ _ _ => rfl⟩
  | test => exact ⟨_, rfl, fun m => branchesIf_branchIfBitsSet i m values⟩
  | getSibling | getChild =>
    exact ⟨_, rfl, fun m => branchesIf_followLink i m values fun _ _ => rfl⟩
  | jin => exact ⟨_, rfl, fun m => branchesIf_branchIfInside i m values⟩
  | testAttr => exact ⟨_, rfl, fun m => branchesIf_branchIfAttribute i m values⟩
  | _ => cases branches

/-- A jump from an address in a story is not wrapped around. -/
theorem pc_of_jumpBy {m m' : Machine} {offset : Int} {fault : Int → OperandFault}
    (run : (jumpBy offset fault).run m = .ok .branched m') (small : m.pc ≤ Header.maxFileLength)
    (low : -0x8000 ≤ offset) (high : offset < 0x8000) :
    (m'.pc : Int) = m.pc + offset - 2 ∧ m'.stack = m.stack := by
  obtain ⟨inside, rfl⟩ := branched_of_jumpBy run
  have bound : Header.maxFileLength = 131072 := rfl
  rw [signedTarget_eq_self (by omega) (by omega)] at inside ⊢
  exact ⟨Int.toNat_of_nonneg inside, rfl⟩

/-- A branch or a jump that is taken. -/
theorem branched_of_perform {opcode : Opcode} {i : Instruction} {values : List Word}
    {e : Engine η} (answered : answer (perform opcode i values) e = .ok .branched)
    (small : e.machine.pc ≤ Header.maxFileLength)
    (offsets : ∀ b, i.branch = some b → -0x2000 ≤ b.offset ∧ b.offset < 0x2000) :
    let after := (finalState (perform opcode i values) e).machine
    after.stack.depth = e.machine.stack.depth ∧
      ((∃ b, i.branch = some b ∧ b.offset ≠ 0 ∧ b.offset ≠ 1 ∧
          e.machine.condition? opcode values = some b.onTrue ∧
          (after.pc : Int) = e.machine.pc + b.offset - 2) ∨
        ∃ offset, opcode = .jump ∧ values[0]? = some offset ∧
          (after.pc : Int) = e.machine.pc + offset.signed - 2) := by
  intro after
  rcases yields_perform opcode i values e .branched answered with branches | rfl
  · obtain ⟨x, same, ends⟩ := exists_branchesIf (η := η) branches i values
    simp only [after, same, machine_onMachine]
    rw [same, answer_onMachine] at answered
    obtain ⟨holds, mid, tested, effects, taken, final⟩ := ends _ _ answered
    obtain ⟨b, data, rfl, notFalse, notTrue, jumped⟩ := branched_of_branch (run_of_answer taken)
    obtain ⟨low, high⟩ := offsets b data
    rw [← effects.stack.1] at small ⊢
    obtain ⟨pc, stack⟩ := pc_of_jumpBy jumped small (by omega) (by omega)
    rw [final, stack]
    exact ⟨effects.depth_eq, .inl ⟨b, data, notFalse, notTrue, tested, pc⟩⟩
  · have isJump : (perform .jump i values : EngineM η Outcome) = onMachine (jump values) := rfl
    simp only [after, isJump, machine_onMachine]
    rw [isJump, answer_onMachine, jump] at answered
    obtain ⟨offset, first, taken, final⟩ := exists_of_answer_lift_bind answered
    rw [jump, final]
    obtain ⟨pc, stack⟩ := pc_of_jumpBy (run_of_answer taken) small offset.toInt16.le_toInt
      offset.toInt16.toInt_lt
    rw [stack]
    exact ⟨rfl, .inr ⟨offset, trivial, operand_eq_ok.mp first, pc⟩⟩

/-! ## Reading a line -/

/-- Reading a line takes the next one of the host. It ends the story only if the host has none. -/
theorem exists_of_readInput {values : List Word} {e : Engine η} {out : Outcome}
    (answered : answer (readInput values) e = .ok out) :
    ∃ flushed, (Host.flush : HostM η Unit).run e.host = .ok () flushed ∧
      ((out = .quit ∧ answer Host.readLine flushed = .error .endOfInput) ∨
        out = .advanced ∧ ∃ text parse line asked,
          values[0]? = some text ∧ values[1]? = some parse ∧
          (Host.readLine : HostM η String).run flushed = .ok line asked ∧
          answer (acceptLine text.toNat parse.toNat line) e.machine = .ok () ∧
          (finalState (readInput values) e).machine =
            finalState (acceptLine text.toNat parse.toNat line) e.machine) := by
  rw [readInput] at answered ⊢
  obtain ⟨text, first, answered, left⟩ := exists_of_answer_lift_bind answered
  rw [left]
  obtain ⟨parse, second, answered, left⟩ := exists_of_answer_lift_bind answered
  rw [left]
  obtain ⟨_, _, flushed, answered, left⟩ := exists_of_answer_bind answered
  rw [left]
  obtain ⟨line, _, asked, answered, left⟩ := exists_of_answer_bind answered
  rw [left]
  rw [run_onHost] at flushed
  split at flushed
  case h_2 => cases flushed
  next host called =>
  cases flushed
  refine ⟨host, called, ?_⟩
  rw [run_readLine?] at asked
  cases read : (Host.readLine : HostM η String).run host with
  | error fault asked' =>
    simp only [read] at asked
    cases fault with
    | endOfInput =>
      cases asked
      cases answered
      exact .inl ⟨rfl, answer_of_error read⟩
    | failed reason => cases asked
  | ok line asked' =>
    simp only [read] at asked
    cases asked
    obtain ⟨_, _, accepted, answered, left⟩ := exists_of_answer_bind answered
    cases answered
    rw [left]
    have done := answer_onMachine (acceptLine text.toNat parse.toNat line) { e with host := asked' }
    have machine :=
      machine_onMachine (acceptLine text.toNat parse.toNat line) { e with host := asked' }
    exact .inr ⟨rfl, text, parse, line, asked', operand_eq_ok.mp first,
      operand_eq_ok.mp second, rfl, done.symm.trans (answer_of_ok accepted),
      (congrArg Engine.machine (finalState_of_ok accepted).symm).trans machine⟩

/-! ## All outcomes -/

/-- A story that was loaded is small, and stays as small as it is. -/
theorem size_le_of_load {m : Memory} {random : Random} {e : Engine η}
    (loaded : Machine.load m random = .ok e.machine) (n : Nat) :
    (e.after n).machine.memory.size ≤ Header.maxFileLength := by
  obtain ⟨h, _, _, parsed, -, -, start⟩ := load_iff.mp loaded
  rw [(tracks_confined.after e n).size_eq, start]
  exact Header.size_le_of_parse parsed

namespace Executes

variable {e : Engine η} {i : Instruction} {opcode : Opcode} {values : List Word} {ready : Machine}
  {out : Outcome}

/-- Looking up the operands can only take values off the stack of the running frame. -/
theorem sameButValues (h : Executes e i opcode values ready out) :
    SameButValues { e.machine with pc := i.next } ready :=
  finalState_of_ok h.looked ▸ leads_resolveAll i.operands _

/-- Looking up operands changes neither memory nor the depth of the stack. -/
theorem ready_eq (h : Executes e i opcode values ready out) : ready.pc = i.next ∧
    ready.memory = e.machine.memory ∧ ready.stack.depth = e.machine.stack.depth := by
  obtain ⟨f, -, rfl⟩ := h.sameButValues
  exact ⟨rfl, rfl, by simp [withFrame]⟩

/-- An instruction ends the step, or enters a routine. -/
theorem ends (h : Executes e i opcode values ready out) :
    (∃ mid, Effects (i.Writes values) ready mid ∧ Ends mid (.ok out) (finalState step e).machine) ∨
      i.opcode? = some .call ∧ out = .called ∧
        Calls i values ready (finalState step e).machine := by
  have executed : execute i values = (perform opcode i values : EngineM η Outcome) := by
    rw [execute, h.known]
  have ways := execute_ends i values { e with machine := ready, count := e.count + 1 }
  rw [executed, h.performed, ← h.machine] at ways
  simpa using ways

theorem explains_advanced (h : Executes e i opcode values ready .advanced) :
    Explains e (finalState step e) i values ready .advanced := by
  obtain ⟨pc, -, depth⟩ := h.ready_eq
  obtain ⟨mid, effects, ends⟩ | ⟨-, called, -⟩ := h.ends
  · rw [Explains, ends.eq_of_advanced]
    exact ⟨effects.stack.1.trans pc, effects.depth_eq.trans depth⟩
  · cases called

/-- A step that goes on elsewhere has taken a branch, or was a jump. -/
theorem explains_branched (h : Executes e i opcode values ready .branched)
    (small : e.machine.memory.size ≤ Header.maxFileLength) :
    Explains e (finalState step e) i values ready .branched := by
  obtain ⟨pc, -, depth⟩ := h.ready_eq
  have offsets := fun b => Instruction.offset_bounds_of_decode (b := b) h.decoded
  have next := Instruction.next_le_of_decode h.decoded
  obtain ⟨depth', why⟩ := branched_of_perform h.performed (by simp only [pc]; omega) offsets
  simp only [← h.machine, pc] at depth' why
  refine ⟨depth'.trans depth, why.imp ?_ ?_⟩
  · rintro ⟨b, branch⟩
    exact ⟨opcode, b, h.known, branch⟩
  · rintro ⟨offset, rfl, jump⟩
    exact ⟨offset, h.known, jump⟩

theorem explains_called (h : Executes e i opcode values ready .called) :
    Explains e (finalState step e) i values ready .called := by
  obtain ⟨pc, memory, depth⟩ := h.ready_eq
  obtain ⟨mid, effects, ends⟩ | ⟨isCall, -, calls⟩ := h.ends
  · cases ends
  · obtain ⟨packed, frame, start, first, ne, made, entered⟩ := calls
    obtain ⟨arguments, rfl⟩ := exists_cons_of_operand (operand_eq_ok.mpr first)
    have entry := Frame.entryOf_of_forCall made
    rw [pc, memory] at entry
    rw [Explains, entered]
    exact ⟨isCall, congrArg (· + 1) depth, packed, arguments, frame, rfl, ne, rfl, entry⟩

/-- A step that returns goes back to the caller, with its value where the caller wanted it. -/
theorem explains_returned {value : Word} (h : Executes e i opcode values ready (.returned value)) :
    Explains e (finalState step e) i values ready (.returned value) := by
  obtain ⟨f, same, isReady⟩ := h.sameButValues
  obtain ⟨mid, effects, ends⟩ | ⟨-, called, -⟩ := h.ends
  · obtain ⟨frame, rest, calls, pc', depth', stored⟩ :=
      returned_of_leaveRoutine ends.run_of_returned
    -- The frame that is left is the running one, which only its stack of values may tell apart.
    obtain ⟨-, g, same', stack⟩ := effects.stack
    simp only [isReady, withFrame, CallStack.current_setCurrent,
      CallStack.setCurrent_setCurrent] at same' stack
    rw [stack] at calls stored
    obtain ⟨top, open_, current, rfl, main⟩ := CallStack.calls_of_setCurrent calls
    have sameCall := same.trans same'
    rw [current] at sameCall
    rw [sameCall.returnAddress] at pc'
    rw [sameCall.result, main] at stored
    refine ⟨?_, top, rest, open_, pc', stored⟩
    rw [depth', CallStack.depth, open_, List.length_cons]
  · cases called

theorem explains_quit (h : Executes e i opcode values ready .quit) (running : e.halted = false)
    (answered : answer step e = .ok .quit) :
    Explains e (finalState step e) i values ready .quit := by
  obtain ⟨pc, -, depth⟩ := h.ready_eq
  obtain ⟨mid, effects, ends⟩ | ⟨-, called, -⟩ := h.ends
  · obtain ⟨-, -, stopped⟩ := step_of_running running
    refine ⟨?_, ?_, stopped (.inr answered), ?_⟩
    · rw [ends.eq_of_quit]
      exact effects.stack.1.trans pc
    · rw [ends.eq_of_quit]
      exact effects.depth_eq.trans depth
    · have performed := h.performed
      rcases yields_perform opcode i values _ .quit performed with rfl | rfl
      · exact .inl h.known
      · obtain ⟨host, flushed, ⟨-, ended⟩ | ⟨other, -⟩⟩ := exists_of_readInput performed
        · exact .inr ⟨h.known, host, flushed, ended⟩
        · cases other
  · cases called

end Executes

/-- A step of an engine whose memory is small is as its outcome says. -/
theorem explains_of_step {e : Engine η} {out : Outcome} (running : e.halted = false)
    (small : e.machine.memory.size ≤ Header.maxFileLength) (answered : answer step e = .ok out) :
    ∃ i values ready, Instruction.decode e.machine.memory e.machine.pc = .ok i ∧
      (resolveAll i.operands).run { e.machine with pc := i.next } = .ok values ready ∧
      SameButValues { e.machine with pc := i.next } ready ∧
      Explains e (finalState step e) i values ready out := by
  obtain ⟨i, opcode, values, ready, h⟩ := exists_executes running answered
  refine ⟨i, values, ready, h.decoded, h.looked, h.sameButValues, ?_⟩
  cases out with
  | advanced => exact h.explains_advanced
  | branched => exact h.explains_branched small
  | called => exact h.explains_called
  | returned value => exact h.explains_returned
  | quit => exact h.explains_quit running answered

/-- Let a story be loaded. Then each step of a run that has not stopped executes the instruction at
the program counter, and its outcome tells what this has done. Looking up the operands before can
only have taken values off the stack of the running frame.

* If it goes on after the instruction, no routine was entered or left.
* If it branched, then the instruction has branch data, which does not mean a return; the outcome of
  its condition is the one that they want, and they tell where the program goes on. Or it jumped,
  and the operand tells. No routine was entered or left.
* If it called, then the instruction is a call of a routine, and the new frame is the one that the
  header of this routine and the arguments ask for.
* If it returned a value, then the running frame is gone, the program goes on where this frame was
  called, and the value was stored where the caller wanted it.
* If it quit, then the engine has stopped after the instruction, which ends the story, or which
  wanted a line of input when there were no more. -/
theorem step_explained {m : Memory} {random : Random} {e : Engine η}
    (loaded : Machine.load m random = .ok e.machine) (n : Nat)
    (running : (e.after n).halted = false) {out : Outcome}
    (answered : answer step (e.after n) = .ok out) :
    ∃ i values ready,
      Instruction.decode (e.after n).machine.memory (e.after n).machine.pc = .ok i ∧
      (resolveAll i.operands).run { (e.after n).machine with pc := i.next } = .ok values ready ∧
      SameButValues { (e.after n).machine with pc := i.next } ready ∧
      Explains (e.after n) (e.after (n + 1)) i values ready out :=
  explains_of_step running (size_le_of_load loaded n) answered

/-- The second step of the story stores the child of an object, and branches because there is
one. -/
theorem step_explained_boxStory :
    let e : Engine Script := ofMachine boxMachine (Script.ofLines [])
    Machine.load boxStory (Random.predictable 0) = .ok e.machine ∧
      (e.after 1).halted = false ∧ answer step (e.after 1) = .ok .branched ∧
      (e.after 1).machine.pc = 103 ∧ (e.after 2).machine.pc = 108 ∧
      ∃ i values ready,
        Instruction.decode (e.after 1).machine.memory (e.after 1).machine.pc = .ok i ∧
        Explains (e.after 1) (e.after 2) i values ready .branched := by
  intro e
  have running : (e.after 1).halted = false := by decide +kernel
  have answered : answer step (e.after 1) = .ok .branched := by decide +kernel
  obtain ⟨i, values, ready, decoded, -, -, explained⟩ :=
    step_explained (e := e) load_boxStory 1 running answered
  exact ⟨load_boxStory, running, answered, by decide +kernel, by decide +kernel, i, values, ready,
    decoded, explained⟩

end Engine
end ZMachine
