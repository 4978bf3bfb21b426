import ZMachine.Host.Terminal
import ZMachine.Proofs.Engine.Halting

/-!
# Hosts that do alike

All that a story sees of a host is what the host answers. If two hosts answer alike, and go on to do
so whatever they are asked, then a story plays alike on them.

## Main definitions

* `Host.Agree` — hosts that are related answer alike, and stay related.
* `Engine.Alike` — engines that differ in their hosts, which are related.

## Main statements

* `Engine.parallel_perform` — every opcode does alike on alike engines.
* `Engine.parallel_step`, `Engine.parallel_runFor` — so does a step, and so does a run.
-/

namespace ZMachine

variable {η θ α : Type}

structure Host.Agree [Host η] [Host θ] (R : η → θ → Prop) : Prop where
  print : ∀ text, Parallel R (Host.print text : HostM η Unit) (Host.print text : HostM θ Unit)
  readLine : Parallel R (Host.readLine : HostM η String) (Host.readLine : HostM θ String)
  flush : Parallel R (Host.flush : HostM η Unit) (Host.flush : HostM θ Unit)

namespace Engine

structure Alike (R : η → θ → Prop) (e : Engine η) (e' : Engine θ) : Prop where
  machine : e'.machine = e.machine
  host : R e.host e'.host
  halted : e'.halted = e.halted
  count : e'.count = e.count
  limit : e'.limit = e.limit

variable {R : η → θ → Prop}

theorem Alike.withHost {e : Engine η} {e' : Engine θ} (alike : Alike R e e') {host : η} {host' : θ}
    (h : R host host') : Alike R { e with host } { e' with host := host' } :=
  ⟨alike.machine, h, alike.halted, alike.count, alike.limit⟩

/-- A machine does the same on either host. -/
theorem parallel_onMachine (x : MachineM α) :
    Parallel (Alike R) (onMachine x) (onMachine x) := by
  intro e e' alike
  rw [run_onMachine, run_onMachine, alike.machine]
  cases x.run e.machine with
  | ok a m => exact .ok a ⟨rfl, alike.host, alike.halted, alike.count, alike.limit⟩
  | error fault m => exact .error fault ⟨rfl, alike.host, alike.halted, alike.count, alike.limit⟩

theorem parallel_onHost {x : HostM η α} {y : HostM θ α} (h : Parallel R x y) :
    Parallel (Alike R) (onHost x) (onHost y) := by
  intro e e' alike
  have both := h e.host e'.host alike.host
  rw [run_onHost, run_onHost]
  generalize x.run e.host = r, y.run e'.host = r' at both ⊢
  cases both with
  | ok a h => exact .ok a (alike.withHost h)
  | error fault h => exact .error (Error.host fault) (alike.withHost h)

theorem parallel_halt : Parallel (Alike R) (halt : EngineM η Unit) halt :=
  .modify fun _ _ alike => ⟨alike.machine, alike.host, rfl, alike.count, alike.limit⟩

theorem parallel_checkLimit : Parallel (Alike R) (checkLimit : EngineM η Unit) checkLimit := by
  refine .get_bind fun e e' alike => ?_
  rw [alike.limit, alike.count]
  cases e.limit with
  | none => exact .ok () alike
  | some limit =>
    dsimp only
    split
    · exact .error _ alike
    · exact .ok () alike

variable [Host η] [Host θ] (agree : Host.Agree R)
include agree

/-! ## Opcodes -/

theorem parallel_print (text : String) :
    Parallel (Alike R) (print text : EngineM η Unit) (print text) :=
  parallel_onHost (agree.print text)

theorem parallel_showText (i : Instruction) :
    Parallel (Alike R) (showText i : EngineM η Unit) (showText i) :=
  .bind (parallel_onMachine _) fun _ => parallel_print agree _

theorem parallel_readLine? :
    Parallel (Alike R) (readLine? : EngineM η (Option String)) readLine? := by
  intro e e' alike
  have both := agree.readLine e.host e'.host alike.host
  rw [run_readLine?, run_readLine?]
  generalize (Host.readLine : HostM η String).run e.host = r,
    (Host.readLine : HostM θ String).run e'.host = r' at both ⊢
  cases both with
  | ok line h => exact .ok (some line) (alike.withHost h)
  | error fault h =>
    cases fault with
    | endOfInput => exact .ok none (alike.withHost h)
    | failed reason => exact .error _ (alike.withHost h)

theorem parallel_printObject (values : List Word) :
    Parallel (Alike R) (printObject values : EngineM η Outcome) (printObject values) := by
  refine .bind (.lift _) fun id => .get_bind fun e e' alike => ?_
  rw [alike.machine]
  exact Parallel.bind (.lift _) (fun o => .bind (parallel_print agree _) fun _ => .pure _)
    e e' alike

theorem parallel_printCharacter (values : List Word) :
    Parallel (Alike R) (printCharacter values : EngineM η Outcome) (printCharacter values) := by
  refine .bind (.lift _) fun code => ?_
  split
  · exact .bind (parallel_print agree _) fun _ => .pure _
  · exact .bind (.pure ()) fun _ => .pure _

theorem parallel_readInput (values : List Word) :
    Parallel (Alike R) (readInput values : EngineM η Outcome) (readInput values) := by
  refine .bind (.lift _) fun textBuffer => .bind (.lift _) fun parseBuffer =>
    .bind (parallel_onHost agree.flush) fun _ => .bind (parallel_readLine? agree) fun line => ?_
  cases line with
  | none => exact .pure _
  | some line => exact .bind (parallel_onMachine _) fun _ => .pure _

/-- Every opcode does the same on either host. -/
theorem parallel_perform (opcode : Opcode) (i : Instruction) (values : List Word) :
    Parallel (Alike R) (perform opcode i values : EngineM η Outcome) (perform opcode i values) := by
  cases opcode with
  | print => exact .bind (parallel_showText agree i) fun _ => .pure _
  | printRet =>
    exact .bind (parallel_showText agree i) fun _ => .bind (parallel_print agree _) fun _ =>
      parallel_onMachine _
  | nop | quit => exact .pure _
  | newLine => exact .bind (parallel_print agree _) fun _ => .pure _
  | printAddr | printPaddr =>
    exact .bind (.lift _) fun _ => .bind (parallel_onMachine _) fun _ =>
      .bind (parallel_print agree _) fun _ => .pure _
  | printObj => exact parallel_printObject agree values
  | ret => exact .bind (.lift _) fun value => parallel_onMachine _
  | sread => exact parallel_readInput agree values
  | printChar => exact parallel_printCharacter agree values
  | printNum =>
    exact .bind (.lift _) fun _ => .bind (parallel_print agree _) fun _ => .pure _
  | rtrue | rfalse | retPopped | pop | jz | getSibling | getChild | getParent | getPropLen | inc
  | dec | removeObj | jump | load | not | je | jl | jg | decChk | incChk | jin | test | or | and
  | testAttr | setAttr | clearAttr | store | insertObj | loadw | loadb | getProp | getPropAddr
  | getNextProp | add | sub | mul | div | mod | call | storew | storeb | putProp | random | push
  | pull => exact parallel_onMachine _

theorem parallel_execute (i : Instruction) (values : List Word) :
    Parallel (Alike R) (execute i values : EngineM η Outcome) (execute i values) := by
  unfold execute
  split
  · exact parallel_perform agree _ i values
  · exact .throw _

/-! ## Steps and runs -/

theorem parallel_cycle : Parallel (Alike R) (cycle : EngineM η Outcome) cycle :=
  .bind parallel_checkLimit fun _ => .bind (parallel_onMachine _) fun i =>
    .bind (parallel_onMachine _) fun values => .bind
      (.modify fun _ _ alike => ⟨alike.machine, alike.host, alike.halted,
        congrArg (· + 1) alike.count, alike.limit⟩)
      fun _ => parallel_execute agree i values

/-- Steps of engines that are alike have the same outcome and leave them alike. -/
theorem parallel_step : Parallel (Alike R) (step : EngineM η Outcome) step := by
  have flush := parallel_onHost agree.flush
  refine .get_bind fun e e' alike => ?_
  rw [alike.halted]
  split
  · exact .ok _ alike
  · refine Parallel.bind (.tryCatch (parallel_cycle agree) fun fault => ?_) (fun outcome => ?_)
      e e' alike
    · exact .bind parallel_halt fun _ => .bind (.tryCatch flush fun _ => .pure ()) fun _ =>
        .throw fault
    · dsimp only
      split
      · exact .bind parallel_halt fun _ => .bind flush fun _ => .pure outcome
      · exact .pure outcome

/-- Runs of engines that are alike have the same answer and leave them alike. -/
theorem parallel_runFor (fuel : Nat) :
    Parallel (Alike R) (runFor fuel : EngineM η Bool) (runFor fuel) := by
  induction fuel with
  | zero =>
    refine .get_bind fun e e' alike => ?_
    rw [alike.halted]
    exact .ok _ alike
  | succ fuel ih =>
    refine .get_bind fun e e' alike => ?_
    rw [alike.halted]
    split
    · exact .ok _ alike
    · exact Parallel.bind (parallel_step agree) (fun _ => ih) e e' alike

end Engine
end ZMachine
