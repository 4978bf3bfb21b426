import ZMachine.Proofs.Engine.Step
import ZMachine.Proofs.Machine.Faults

/-!
# The books of an engine

An engine keeps books: whether it has stopped, how many instructions it has executed, and how many
it may execute. What an instruction does depends on the machine and on the host, but not on the
books, and it leaves them alone.

## Main definitions

* `Engine.Plays` — an action that has nothing to do with the books.
* `Engine.act` — what follows the check of the limit.

## Main statements

* `Engine.plays_perform` — every opcode.
* `Engine.books_of_act` — an instruction that does not fail is counted once.
* `Engine.fails_step` — what a step can fail for.
-/

namespace ZMachine

open Error (Ordinary)

namespace Engine

variable {η α β : Type}

open Machine

/-! ## Actions that leave the books alone -/

def withBooks (halted : Bool) (count : Nat) (limit : Option Nat) (e : Engine η) : Engine η :=
  { e with halted, count, limit }

/-- An action that does the same whatever the books say, does not change them, and fails for
ordinary reasons. -/
structure Plays (x : EngineM η α) : Prop where
  ignores : ∀ halted count limit, Ignores (withBooks halted count limit) x
  fails : Fails Ordinary x

namespace Plays

theorem pure (a : α) : Plays (Pure.pure a : EngineM η α) :=
  ⟨fun _ _ _ => .pure a, .pure a⟩

theorem lift {x : Except Error α} (h : Except.Fails Ordinary x) :
    Plays (monadLift x : EngineM η α) :=
  ⟨fun _ _ _ => .lift x, .lift h⟩

theorem bind {x : EngineM η α} {f : α → EngineM η β} (hx : Plays x) (hf : ∀ a, Plays (f a)) :
    Plays (x >>= f) :=
  ⟨fun halted count limit => .bind (hx.ignores halted count limit) fun a =>
    (hf a).ignores halted count limit, .bind hx.fails fun a => (hf a).fails⟩

theorem onMachine {x : MachineM α} (h : Fails Ordinary x) :
    Plays (onMachine x : EngineM η α) := by
  refine ⟨fun halted count limit e => ?_, fun e fault failed => ?_⟩
  · have same : (withBooks halted count limit e).machine = e.machine := rfl
    rw [run_onMachine, run_onMachine, same]
    cases x.run e.machine <;> rfl
  · rw [answer_onMachine] at failed
    exact h e.machine fault failed

theorem onHost (x : HostM η α) : Plays (onHost x : EngineM η α) := by
  refine ⟨fun halted count limit e => ?_, fun e fault failed => ?_⟩
  · have same : (withBooks halted count limit e).host = e.host := rfl
    rw [run_onHost, run_onHost, same]
    cases x.run e.host <;> rfl
  · rw [answer, run_onHost] at failed
    cases run : x.run e.host with
    | ok a host => simp [run] at failed
    | error reason host =>
      simp only [run] at failed
      cases failed
      trivial

/-- The books are as they were. -/
theorem books {x : EngineM η α} (h : Plays x) (e : Engine η) :
    finalState x e = withBooks e.halted e.count e.limit (finalState x e) := by
  have same : x.run e = withState (withBooks e.halted e.count e.limit) (x.run e) :=
    h.ignores e.halted e.count e.limit e
  rw [finalState]
  cases run : x.run e with
  | ok a e' =>
    rw [run] at same
    exact (EStateM.Result.ok.inj same).2
  | error fault e' =>
    rw [run] at same
    exact (EStateM.Result.error.inj same).2

end Plays

theorem plays_operand (values : List Word) (index : Nat) :
    Plays (monadLift (operand values index) : EngineM η Word) :=
  .lift (fails_operand values index)

variable [Host η]

theorem plays_print (text : String) : Plays (print text : EngineM η Unit) :=
  .onHost _

theorem plays_showText (i : Instruction) : Plays (showText i : EngineM η Unit) := by
  refine .bind (.onMachine ?_) plays_print
  unfold inlineText
  split
  · exact fails_readString _
  · exact .throw trivial

theorem plays_printObject (values : List Word) :
    Plays (printObject values : EngineM η Outcome) := by
  refine .bind (plays_operand values 0) fun id => ⟨fun halted count limit => ?_, ?_⟩
  · exact .get_bind (fun e => rfl) fun e => .bind (.lift _) fun o =>
      .bind ((plays_print _).ignores halted count limit) fun _ => .pure _
  · exact .bind .get fun e => .bind (.lift (e.machine.objects.fails_get _)) fun o =>
      .bind (plays_print _).fails fun _ => .pure _

theorem plays_printCharacter (values : List Word) :
    Plays (printCharacter values : EngineM η Outcome) := by
  refine .bind (plays_operand values 0) fun code => ?_
  split
  · exact .bind (plays_print _) fun _ => .pure _
  · exact .bind (.pure ()) fun _ => .pure _

theorem plays_readInput (values : List Word) : Plays (readInput values : EngineM η Outcome) := by
  refine .bind (plays_operand values 0) fun textBuffer =>
    .bind (plays_operand values 1) fun parseBuffer => .bind (.onHost _) fun _ =>
      .bind (.onHost _) fun line => ?_
  split
  · exact .pure _
  · exact .bind (.onMachine (fails_acceptLine _ _ _)) fun _ => .pure _

/-- No opcode looks at the books. -/
theorem plays_perform (opcode : Opcode) (i : Instruction) (values : List Word) :
    Plays (perform opcode i values : EngineM η Outcome) := by
  cases opcode with
  | rtrue => exact .onMachine (fails_returnWith 1)
  | rfalse => exact .onMachine (fails_returnWith 0)
  | print => exact .bind (plays_showText i) fun _ => .pure _
  | printRet =>
    exact .bind (plays_showText i) fun _ => .bind (plays_print _) fun _ =>
      .onMachine (fails_returnWith 1)
  | nop => exact .pure _
  | retPopped => exact .onMachine fails_returnPopped
  | pop => exact .onMachine fails_pop
  | quit => exact .pure _
  | newLine => exact .bind (plays_print _) fun _ => .pure _
  | jz => exact .onMachine (fails_branchIfZero i values)
  | getSibling | getChild =>
    exact .onMachine (fails_followLink i values fun t id => (t.fails_get id).map)
  | getParent => exact .onMachine (fails_getParent i values)
  | getPropLen => exact .onMachine (fails_storeDataLength i values)
  | inc => exact .onMachine (fails_increment values)
  | dec => exact .onMachine (fails_decrement values)
  | printAddr =>
    exact .bind (plays_operand values 0) fun _ => .bind (.onMachine (fails_readString _)) fun _ =>
      .bind (plays_print _) fun _ => .pure _
  | removeObj => exact .onMachine (fails_removeObject values)
  | printObj => exact plays_printObject values
  | ret => exact .bind (plays_operand values 0) fun value => .onMachine (fails_returnWith value)
  | jump => exact .onMachine (fails_jump values)
  | printPaddr =>
    exact .bind (plays_operand values 0) fun _ => .bind (.onMachine (fails_readPackedString _))
      fun _ => .bind (plays_print _) fun _ => .pure _
  | load => exact .onMachine (fails_loadVariable i values)
  | not => exact .onMachine (fails_unary i values _)
  | je => exact .onMachine (fails_branchIfEqual i values)
  | jl | jg => exact .onMachine (fails_compare i values _)
  | decChk => exact .onMachine (fails_decrementAndCheck i values)
  | incChk => exact .onMachine (fails_incrementAndCheck i values)
  | jin => exact .onMachine (fails_branchIfInside i values)
  | test => exact .onMachine (fails_branchIfBitsSet i values)
  | or | and | add | sub | mul => exact .onMachine (fails_binary i values fun _ _ => .ok _)
  | div => exact .onMachine (fails_binary i values fails_divide)
  | mod => exact .onMachine (fails_binary i values fails_remainder)
  | testAttr => exact .onMachine (fails_branchIfAttribute i values)
  | setAttr | clearAttr => exact .onMachine (fails_assignAttribute values _)
  | store => exact .onMachine (fails_storeVariable values)
  | insertObj => exact .onMachine (fails_insertObject values)
  | loadw => exact .onMachine (fails_loadWord i values)
  | loadb => exact .onMachine (fails_loadByte i values)
  | getProp =>
    exact .onMachine (fails_askProperty i values fun m id number =>
      m.objects.fails_propertyValue m.memory id number)
  | getPropAddr =>
    exact .onMachine (fails_askProperty i values fun m id number =>
      (m.objects.fails_dataAddress id number).map)
  | getNextProp =>
    exact .onMachine (fails_askProperty i values fun m id number =>
      (m.objects.fails_propertyAfter id number).map)
  | call => exact .onMachine (fails_call i values)
  | storew => exact .onMachine (fails_storeWord values)
  | storeb => exact .onMachine (fails_storeByte values)
  | putProp => exact .onMachine (fails_putProperty values)
  | sread => exact plays_readInput values
  | printChar => exact plays_printCharacter values
  | printNum =>
    exact .bind (plays_operand values 0) fun _ => .bind (plays_print _) fun _ => .pure _
  | random => exact .onMachine (fails_randomNumber i values)
  | push => exact .onMachine (fails_push values)
  | pull => exact .onMachine (fails_pull values)

theorem plays_execute (i : Instruction) (values : List Word) :
    Plays (execute i values : EngineM η Outcome) := by
  unfold execute
  split
  · exact plays_perform _ i values
  · exact ⟨fun _ _ _ => .throw _, .throw trivial⟩

/-! ## A step within the limit -/

def act : EngineM η Outcome := do
  let i ← fetch
  let values ← Machine.resolveAll i.operands
  modify fun e => { e with count := e.count + 1 }
  execute i values

omit [Host η] in
theorem plays_fetch : Plays (onMachine fetch : EngineM η Instruction) :=
  .onMachine (.bind .get fun m => .bind (.lift (Instruction.fails_decode m.memory m.pc)) fun _ =>
    .bind .modify fun _ => .pure _)

omit [Host η] in
theorem plays_resolveAll (operands : List Operand) :
    Plays (onMachine (Machine.resolveAll operands) : EngineM η (List Word)) :=
  .onMachine (fails_resolveAll operands)

/-- A cycle checks the limit, if there is one, and then acts. -/
theorem run_cycle (e : Engine η) :
    cycle.run e =
      match e.limit with
      | some limit => if e.count ≥ limit then .error (.instructionLimit limit) e else act.run e
      | none => act.run e := by
  have checked : cycle = checkLimit >>= fun _ => (act : EngineM η Outcome) := rfl
  rw [checked, EStateM.run_bind, checkLimit, EStateM.run_bind, EStateM.run_get]
  cases limited : e.limit with
  | none =>
    dsimp only
    rw [limited]
    rfl
  | some limit =>
    dsimp only
    rw [limited]
    dsimp only
    by_cases reached : e.count ≥ limit
    · rw [if_pos reached, if_pos reached]
      rfl
    · rw [if_neg reached, if_neg reached]
      rfl

/-- What follows the check of the limit fails for ordinary reasons. -/
theorem fails_act : Fails Ordinary (act : EngineM η Outcome) :=
  .bind plays_fetch.fails fun i => .bind (plays_resolveAll i.operands).fails fun values =>
    .bind .modify fun _ => (plays_execute i values).fails

omit [Host η] in
/-- What does the same whatever the books say leaves them as they are. -/
theorem Plays.keeps {x : EngineM η α} (h : Plays x) {e e' : Engine η} {a : α}
    (run : x.run e = .ok a e') :
    e'.halted = e.halted ∧ e'.count = e.count ∧ e'.limit = e.limit := by
  have books := h.books e
  rw [finalState_of_ok run] at books
  rw [books]
  exact ⟨rfl, rfl, rfl⟩

/-- An instruction that does not fail is counted once. -/
theorem books_of_act {e e' : Engine η} {out : Outcome} (run : act.run e = .ok out e') :
    e'.halted = e.halted ∧ e'.count = e.count + 1 ∧ e'.limit = e.limit := by
  have answered := answer_of_ok run
  rw [← finalState_of_ok run]
  obtain ⟨i, fetchedAt, fetched, answered, left⟩ := exists_of_answer_bind answered
  obtain ⟨values, resolvedAt, resolved, answered, leftAfter⟩ := exists_of_answer_bind answered
  obtain ⟨_, counted, ⟨⟩, answered, leftAtLast⟩ := exists_of_answer_bind answered
  rw [act, left, leftAfter, leftAtLast]
  obtain ⟨fetchedHalted, fetchedCount, fetchedLimit⟩ := plays_fetch.keeps fetched
  obtain ⟨halted, count, limit⟩ := (plays_resolveAll i.operands).keeps resolved
  obtain ⟨executedHalted, executedCount, executedLimit⟩ :=
    (plays_execute i values).keeps (run_of_answer answered)
  exact ⟨executedHalted.trans (halted.trans fetchedHalted),
    by rw [executedCount, ← fetchedCount, ← count], executedLimit.trans (limit.trans fetchedLimit)⟩

/-- What a step settles is what the instruction did, or that the limit has been reached. -/
theorem run_cycle_cases (e : Engine η) :
    cycle.run e = act.run e ∨
      ∃ limit, e.limit = some limit ∧ limit ≤ e.count ∧
        cycle.run e = .error (.instructionLimit limit) e := by
  rw [run_cycle]
  cases e.limit with
  | none => exact .inl rfl
  | some limit =>
    dsimp only
    split
    · exact .inr ⟨limit, rfl, ‹_›, rfl⟩
    · exact .inl rfl

/-- A step fails for an ordinary reason, or because the limit has been reached. -/
theorem fails_step {e : Engine η} {fault : Error} (failed : answer step e = .error fault) :
    Ordinary fault ∨ ∃ limit, e.limit = some limit ∧ limit ≤ e.count ∧
      fault = .instructionLimit limit := by
  obtain ⟨reason, rfl⟩ | cycled := cases_of_answer_step failed
  · exact .inl trivial
  · rw [answer] at cycled
    obtain run | ⟨limit, limited, reached, run⟩ := run_cycle_cases e
    · rw [run] at cycled
      exact .inl (fails_act e fault cycled)
    · rw [run] at cycled
      cases cycled
      exact .inr ⟨limit, limited, reached, rfl⟩

end Engine
end ZMachine
