import ZMachine.Engine.Run
import ZMachine.Proofs.Engine.Execute

/-!
# What a step does

A step of an engine that has not stopped reads an instruction, looks up its operands, and then
either enters a routine or has effects on the machine and ends in one of the other ways. The host
only matters for which of them it is.

## Main definitions

* `Machine.Cycle` — what a step does to the machine, with its outcome.
* `Engine.settle` — what follows the instruction.

## Main statements

* `Engine.cycle_cases`, `Engine.cycle_spec` — the part of a step that executes the instruction.
* `Engine.run_step` — a step settles what the instruction did.
* `Engine.step_of_running`, `Engine.step_cases` — a step of an engine that has not stopped, and of
  any engine.
* `Engine.cases_of_answer_step` — a step that fails.
-/

namespace ZMachine

/-- What a step does to a machine, up to how it ends. -/
inductive Machine.Cycle (m : Machine) : Except Error Outcome → Machine → Prop
  | refused (e : Error) : Cycle m (.error e) m
  | unresolved {i : Instruction} {e : Error} {m' : Machine}
      (decoded : Instruction.decode m.memory m.pc = .ok i)
      (run : (resolveAll i.operands).run { m with pc := i.next } = .error e m') :
      Cycle m (.error e) m'
  | ended {i : Instruction} {values : List Word} {ready mid m' : Machine}
      {out : Except Error Outcome} (decoded : Instruction.decode m.memory m.pc = .ok i)
      (run : (resolveAll i.operands).run { m with pc := i.next } = .ok values ready)
      (effects : Effects (i.Writes values) ready mid) (ends : Ends mid out m') : Cycle m out m'
  | called {i : Instruction} {values : List Word} {ready m' : Machine}
      (decoded : Instruction.decode m.memory m.pc = .ok i) (isCall : i.opcode? = some .call)
      (run : (resolveAll i.operands).run { m with pc := i.next } = .ok values ready)
      (calls : Calls i values ready m') : Cycle m (.ok .called) m'

namespace Engine

variable {η : Type}

open Machine

/-- Fetching decodes the instruction and moves on past it. -/
theorem run_fetch (m : Machine) :
    fetch.run m =
      match Instruction.decode m.memory m.pc with
      | .ok i => .ok i { m with pc := i.next }
      | .error e => .error e m := by
  rw [fetch, EStateM.run_bind, EStateM.run_get]
  dsimp only
  rw [EStateM.run_bind, EStateM.run_lift]
  cases Instruction.decode m.memory m.pc <;> rfl

/-- The limit is only checked. -/
theorem run_checkLimit (e : Engine η) :
    checkLimit.run e = .ok () e ∨ ∃ fault, checkLimit.run e = .error fault e := by
  rw [checkLimit, EStateM.run_bind, EStateM.run_get]
  dsimp only
  split
  · split
    · exact .inr ⟨_, rfl⟩
    · exact .inl rfl
  · exact .inl rfl

variable [Host η]

/-- The part of a step that executes the instruction. It is refused, or its operands cannot be
looked up, or what happens is what the instruction does on the values of its operands. -/
theorem cycle_cases (e : Engine η) :
    (∃ fault, answer cycle e = .error fault ∧ ((finalState cycle e).machine = e.machine ∨
      ∃ i, Instruction.decode e.machine.memory e.machine.pc = .ok i ∧
        (resolveAll i.operands).run { e.machine with pc := i.next } =
          .error fault (finalState cycle e).machine)) ∨
    ∃ i values ready, Instruction.decode e.machine.memory e.machine.pc = .ok i ∧
      (resolveAll i.operands).run { e.machine with pc := i.next } = .ok values ready ∧
      answer cycle e =
        answer (execute i values) { e with machine := ready, count := e.count + 1 } ∧
      finalState cycle e =
        finalState (execute i values) { e with machine := ready, count := e.count + 1 } := by
  rcases run_checkLimit e with allowed | ⟨fault, refused⟩
  · rw [cycle, answer_bind_of_ok allowed, finalState_bind_of_ok allowed]
    have fetched := (run_onMachine fetch e).trans (by rw [run_fetch])
    change (monadLift fetch : EngineM η Instruction).run e = _ at fetched
    cases decoded : Instruction.decode e.machine.memory e.machine.pc with
    | error fault =>
      rw [decoded] at fetched
      rw [answer_bind_of_error fetched, finalState_bind_of_error fetched]
      exact .inl ⟨fault, rfl, .inl rfl⟩
    | ok i =>
      rw [decoded] at fetched
      rw [answer_bind_of_ok fetched, finalState_bind_of_ok fetched]
      have resolved := run_onMachine (resolveAll i.operands)
        { e with machine := { e.machine with pc := i.next } }
      change (monadLift (resolveAll i.operands) : EngineM η (List Word)).run _ = _ at resolved
      cases run : (resolveAll i.operands).run { e.machine with pc := i.next } with
      | error fault m =>
        rw [run] at resolved
        rw [answer_bind_of_error resolved, finalState_bind_of_error resolved]
        exact .inl ⟨fault, rfl, .inr ⟨i, rfl, run⟩⟩
      | ok values ready =>
        rw [run] at resolved
        rw [answer_bind_of_ok resolved, finalState_bind_of_ok resolved]
        have counted (e' : Engine η) :
            (modify fun e => { e with count := e.count + 1 } : EngineM η Unit).run e' =
              .ok () { e' with count := e'.count + 1 } := rfl
        rw [answer_bind_of_ok (counted _), finalState_bind_of_ok (counted _)]
        exact .inr ⟨i, values, ready, rfl, run, rfl, rfl⟩
  · rw [cycle, answer_bind_of_error refused, finalState_bind_of_error refused]
    exact .inl ⟨fault, rfl, .inl rfl⟩

/-- The part of a step that executes the instruction does so in one of the ways of `Cycle`. -/
theorem cycle_spec (e : Engine η) :
    Cycle e.machine (answer cycle e) (finalState cycle e).machine := by
  rcases cycle_cases e with ⟨fault, failed, same | ⟨i, decoded, run⟩⟩ |
    ⟨i, values, ready, decoded, run, answered, left⟩
  · rw [failed, same]
    exact .refused fault
  · rw [failed]
    exact .unresolved decoded run
  · rw [answered, left]
    rcases execute_ends i values { e with machine := ready, count := e.count + 1 } with
      ⟨mid, effects, ends⟩ | ⟨isCall, called, calls⟩
    · exact .ended decoded run effects ends
    · rw [called]
      exact .called decoded isCall run calls

/-- What a step makes of what the instruction did. A failure stops the engine, whether the host can
flush or not, and so does the end of the story; only then can the host add a failure of its own. -/
def settle : EStateM.Result Error (Engine η) Outcome → EStateM.Result Error (Engine η) Outcome
  | .error fault e =>
    .error fault { e with halted := true, host := finalState (Host.flush : HostM η Unit) e.host }
  | .ok .quit e =>
    match (Host.flush : HostM η Unit).run e.host with
    | .ok _ host => .ok .quit { e with halted := true, host }
    | .error fault host => .error (.host fault) { e with halted := true, host }
  | .ok out e => .ok out e

omit [Host η] in
theorem run_halt (e : Engine η) : halt.run e = .ok () { e with halted := true } := rfl

/-- Whether the host could flush is not seen. -/
theorem run_flushAnyway (e : Engine η) :
    (flushAnyway : EngineM η Unit).run e =
      .ok () { e with host := finalState (Host.flush : HostM η Unit) e.host } := by
  have flushed := run_onHost (Host.flush : HostM η Unit) e
  cases run : (Host.flush : HostM η Unit).run e.host with
  | ok u host =>
    rw [run] at flushed
    rw [finalState_of_ok run]
    exact EStateM.run_tryCatch_of_ok flushed
  | error fault host =>
    rw [run] at flushed
    rw [finalState_of_error run]
    exact EStateM.run_tryCatch_of_error flushed

/-- A step of an engine that has stopped does nothing, and any other settles what an instruction
did. -/
theorem run_step (e : Engine η) :
    step.run e = if e.halted then .ok .quit e else settle (cycle.run e) := by
  rw [step, EStateM.run_bind, EStateM.run_get]
  dsimp only
  split
  · rfl
  · rw [EStateM.run_bind]
    cases run : cycle.run e with
    | error fault e' =>
      rw [EStateM.run_tryCatch_of_error run, EStateM.run_bind, run_halt]
      dsimp only
      rw [EStateM.run_bind, run_flushAnyway]
      rfl
    | ok out e' =>
      rw [EStateM.run_tryCatch_of_ok run]
      dsimp only
      cases out with
      | quit =>
        rw [if_pos rfl, EStateM.run_bind, run_halt]
        dsimp only
        rw [EStateM.run_bind, run_onHost, settle]
        cases (Host.flush : HostM η Unit).run e'.host <;> rfl
      | advanced | branched | called | returned value => rfl

/-- A step of a running engine is a cycle, after which the engine is settled. -/
theorem run_step_of_running {e : Engine η} (running : e.halted = false) :
    step.run e = settle (cycle.run e) := by
  rw [run_step, running]
  rfl

/-- A step of an engine that has not stopped executes an instruction. A failure stops it, and so
does the end of the story; only then can the host add a failure of its own. -/
theorem step_of_running {e : Engine η} (running : e.halted = false) :
    (finalState step e).machine = (finalState cycle e).machine ∧
    (answer step e = answer cycle e ∨
      answer cycle e = .ok .quit ∧ ∃ fault, answer step e = .error fault) ∧
    ((∃ fault, answer step e = .error fault) ∨ answer step e = .ok .quit →
      (finalState step e).halted = true) := by
  rw [answer, finalState, run_step_of_running running, answer, finalState]
  cases cycle.run e with
  | error fault e' => exact ⟨rfl, .inl rfl, fun _ => rfl⟩
  | ok out e' =>
    cases out with
    | quit =>
      rw [settle]
      cases (Host.flush : HostM η Unit).run e'.host with
      | ok u host => exact ⟨rfl, .inl rfl, fun _ => rfl⟩
      | error fault host => exact ⟨rfl, .inr ⟨rfl, _, rfl⟩, fun _ => rfl⟩
    | advanced | branched | called | returned value => exact ⟨rfl, .inl rfl, by simp [settle]⟩

/-- A step fails for what its instruction fails for, or because the host cannot flush at the end. -/
theorem cases_of_answer_step {e : Engine η} {fault : Error}
    (failed : answer step e = .error fault) :
    (∃ reason, fault = .host reason) ∨ answer cycle e = .error fault := by
  cases halted : e.halted with
  | true =>
    rw [answer, run_step, if_pos halted] at failed
    cases failed
  | false =>
    obtain ⟨-, same | ⟨quit, -⟩, -⟩ := step_of_running halted
    · exact .inr (same.symm.trans failed)
    · rw [answer, run_step_of_running halted, run_of_answer quit, settle] at failed
      cases flushed : (Host.flush : HostM η Unit).run (finalState cycle e).host with
      | ok u host => simp [flushed] at failed
      | error reason host =>
        simp only [flushed] at failed
        cases failed
        exact .inl ⟨reason, rfl⟩

/-- A step of any engine does to the machine one of the things in `Cycle`. -/
theorem step_cases (e : Engine η) :
    e.halted = true ∧ answer step e = .ok .quit ∧ finalState step e = e ∨
    e.halted = false ∧ ∃ out, Cycle e.machine out (finalState step e).machine ∧
      (answer step e = out ∨ out = .ok .quit ∧ ∃ fault, answer step e = .error fault) := by
  cases stopped : e.halted with
  | true =>
    have run : step.run e = .ok .quit e := by rw [run_step, if_pos stopped]
    exact .inl ⟨rfl, answer_of_ok run, finalState_of_ok run⟩
  | false =>
    obtain ⟨machine, answered, -⟩ := step_of_running stopped
    rw [machine]
    exact .inr ⟨rfl, answer cycle e, cycle_spec e, answered⟩

end Engine
end ZMachine
