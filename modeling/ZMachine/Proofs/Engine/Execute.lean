import ZMachine.Engine.Execute
import ZMachine.Proofs.Machine.Writes

/-!
# Executing an instruction

Actions of the machine do the same as part of an engine, and actions of the host leave the machine
alone. So what is known of the handlers of the opcodes carries over to engines on any host.

## Main statements

* `Engine.acts_onMachine`, `Engine.finishes_onMachine`, `Engine.acts_onHost` — the two parts of an
  engine.
* `Engine.finishes_perform` — every opcode but a call ends in one of the known ways, and writes only
  what it can write.
* `Engine.execute_ends` — every instruction.
-/

namespace ZMachine.Engine

variable {η α : Type} {W : Write → Prop}

open Machine

/-- An action of the machine leaves the host and the books alone. -/
theorem run_onMachine (x : MachineM α) (e : Engine η) :
    (onMachine x : EngineM η α).run e =
      match x.run e.machine with
      | .ok a m => .ok a { e with machine := m }
      | .error fault m => .error fault { e with machine := m } := by
  rfl

theorem run_onMachine_of_ok {x : MachineM α} {e : Engine η} {a : α} {m : Machine}
    (run : x.run e.machine = .ok a m) :
    (onMachine x : EngineM η α).run e = .ok a { e with machine := m } := by
  rw [run_onMachine, run]

theorem run_onHost (x : HostM η α) (e : Engine η) :
    (onHost x : EngineM η α).run e =
      match x.run e.host with
      | .ok a host => .ok a { e with host }
      | .error fault host => .error (.host fault) { e with host } := by
  rfl

theorem answer_onMachine (x : MachineM α) (e : Engine η) :
    answer (onMachine x) e = answer x e.machine := by
  rw [answer, answer, run_onMachine]
  cases x.run e.machine <;> rfl

theorem machine_onMachine (x : MachineM α) (e : Engine η) :
    (finalState (onMachine x) e).machine = finalState x e.machine := by
  rw [finalState, finalState, run_onMachine]
  cases x.run e.machine <;> rfl

theorem acts_onMachine {x : MachineM α} (h : Acts W id x) :
    Acts W Engine.machine (onMachine x : EngineM η α) := by
  intro e
  rw [machine_onMachine]
  exact h e.machine

theorem finishes_onMachine {x : MachineM Outcome} (h : Finishes W id x) :
    Finishes W Engine.machine (onMachine x : EngineM η Outcome) := by
  intro e
  rw [machine_onMachine, answer_onMachine]
  exact h e.machine

/-- What a host does has no effect on the machine. -/
theorem acts_onHost (x : HostM η α) : Acts W Engine.machine (onHost x) := by
  intro e
  rw [finalState, run_onHost]
  cases x.run e.host <;> exact .refl

variable [Host η]

theorem run_readLine? (e : Engine η) :
    (readLine? : EngineM η (Option String)).run e =
      match (Host.readLine : HostM η String).run e.host with
      | .ok line host => .ok (some line) { e with host }
      | .error .endOfInput host => .ok none { e with host }
      | .error fault host => .error (.host fault) { e with host } := by
  obtain ⟨machine, host, halted, count, limit⟩ := e
  simp only [readLine?, onHost, EStateM.run, bind, EStateM.bind, tryCatch, tryCatchThe,
    MonadExceptOf.tryCatch, EStateM.tryCatch, Functor.map, EStateM.map]
  cases asked : (Host.readLine : HostM η String) host with
  | ok line host' => rfl
  | error fault host' => cases fault <;> rfl

theorem acts_print (text : String) : Acts W Engine.machine (print text : EngineM η Unit) :=
  acts_onHost _

/-! ## Instructions that call the host -/

theorem acts_inlineText (i : Instruction) : Acts W id (inlineText i) := by
  unfold inlineText
  split
  · exact acts_readString _
  · exact .throw _

theorem acts_showText (i : Instruction) : Acts W Engine.machine (showText i : EngineM η Unit) :=
  .bind (acts_onMachine (acts_inlineText i)) acts_print

theorem finishes_printInline (i : Instruction) :
    Finishes W Engine.machine (printInline i : EngineM η Outcome) :=
  .bind (acts_showText i) fun _ => .advanced

theorem finishes_printInlineAndReturn (i : Instruction) :
    Finishes W Engine.machine (printInlineAndReturn i : EngineM η Outcome) :=
  .bind (acts_showText i) fun _ => .bind (acts_print _) fun _ =>
    finishes_onMachine (finishes_returnWith 1)

theorem finishes_printNewline : Finishes W Engine.machine (printNewline : EngineM η Outcome) :=
  .bind (acts_print _) fun _ => .advanced

theorem finishes_printString (values : List Word) :
    Finishes W Engine.machine (printString values : EngineM η Outcome) :=
  .bind (.lift _) fun _ => .bind (acts_onMachine (acts_readString _)) fun text =>
    .bind (acts_print text) fun _ => .advanced

theorem finishes_printPackedString (values : List Word) :
    Finishes W Engine.machine (printPackedString values : EngineM η Outcome) :=
  .bind (.lift _) fun _ => .bind (acts_onMachine (acts_readPackedString _)) fun text =>
    .bind (acts_print text) fun _ => .advanced

theorem finishes_printObject (values : List Word) :
    Finishes W Engine.machine (printObject values : EngineM η Outcome) :=
  .bind (.lift _) fun _ => .bind .get fun _ => .bind (.lift _) fun _ =>
    .bind (acts_print _) fun _ => .advanced

theorem finishes_printCharacter (values : List Word) :
    Finishes W Engine.machine (printCharacter values : EngineM η Outcome) := by
  refine .bind (.lift _) fun code => ?_
  split
  · exact .bind (acts_print _) fun _ => .advanced
  · exact .bind (.pure ()) fun _ => .advanced

theorem finishes_printNumber (values : List Word) :
    Finishes W Engine.machine (printNumber values : EngineM η Outcome) :=
  .bind (.lift _) fun _ => .bind (acts_print _) fun _ => .advanced

/-- The line is put into the buffers that the first two operands name. -/
theorem finishes_readInput {values : List Word}
    (text : ∀ (buffer : Word) a, values[0]? = some buffer → buffer.toNat < a →
      a ≤ buffer.toNat + 255 → W (.byte a))
    (parse : ∀ (buffer : Word) a, values[1]? = some buffer → buffer.toNat < a →
      a < buffer.toNat + 2 + recordLength * 255 → W (.byte a) ∧ W (.word a)) :
    Finishes W Engine.machine (readInput values : EngineM η Outcome) := by
  refine .lift_bind fun textBuffer first => .lift_bind fun parseBuffer second =>
    .bind (acts_onHost _) fun _ => .bind (acts_onHost _) fun line => ?_
  split
  · exact .quit
  · exact .bind (acts_onMachine (acts_acceptLine _
      (fun a => text textBuffer a (operand_eq_ok.mp first))
      fun a => parse parseBuffer a (operand_eq_ok.mp second))) fun _ => .advanced

/-! ## All opcodes -/

/-- Every opcode but a call has the effects of its handler, writes what the opcode can write, and
ends as an instruction does. -/
theorem finishes_perform {opcode : Opcode} (ne : opcode ≠ .call) (i : Instruction)
    (values : List Word) :
    Finishes (opcode.Writes i values) Engine.machine
      (perform opcode i values : EngineM η Outcome) := by
  have result {opcode : Opcode} (stores : opcode.stores = true) :
      Covers (opcode.Writes i values) i.store :=
    fun _ => .result stores
  have assigned {opcode : Opcode} (assigns : opcode.assigns = true) :
      Covers (opcode.Writes i values) (named? values) :=
    fun _ => .assigned assigns
  cases opcode with
  | call => exact absurd rfl ne
  | rtrue => exact finishes_onMachine (finishes_returnWith 1)
  | rfalse => exact finishes_onMachine (finishes_returnWith 0)
  | print => exact finishes_printInline i
  | printRet => exact finishes_printInlineAndReturn i
  | nop => exact .advanced
  | retPopped => exact finishes_onMachine finishes_returnPopped
  | pop => exact finishes_onMachine finishes_pop
  | quit => exact .quit
  | newLine => exact finishes_printNewline
  | jz => exact finishes_onMachine finishes_branchIfZero
  | getSibling | getChild => exact finishes_onMachine (finishes_followLink _ (result rfl))
  | getParent => exact finishes_onMachine (finishes_getParent (result rfl))
  | getPropLen => exact finishes_onMachine (finishes_storeDataLength (result rfl))
  | inc => exact finishes_onMachine (finishes_increment (assigned rfl))
  | dec => exact finishes_onMachine (finishes_decrement (assigned rfl))
  | printAddr => exact finishes_printString values
  | removeObj => exact finishes_onMachine (finishes_removeObject fun _ => .remove)
  | printObj => exact finishes_printObject values
  | ret => exact .bind (.lift _) fun value => finishes_onMachine (finishes_returnWith value)
  | jump => exact finishes_onMachine finishes_jump
  | printPaddr => exact finishes_printPackedString values
  | load => exact finishes_onMachine (finishes_loadVariable (result rfl))
  | not => exact finishes_onMachine (finishes_unary _ (result rfl))
  | je => exact finishes_onMachine finishes_branchIfEqual
  | jl | jg => exact finishes_onMachine (finishes_compare _)
  | decChk => exact finishes_onMachine (finishes_decrementAndCheck (assigned rfl))
  | incChk => exact finishes_onMachine (finishes_incrementAndCheck (assigned rfl))
  | jin => exact finishes_onMachine finishes_branchIfInside
  | test => exact finishes_onMachine finishes_branchIfBitsSet
  | or | and | add | sub | mul | div | mod =>
    exact finishes_onMachine (finishes_binary _ (result rfl))
  | testAttr => exact finishes_onMachine finishes_branchIfAttribute
  | setAttr => exact finishes_onMachine (finishes_assignAttribute true fun _ _ => .set)
  | clearAttr => exact finishes_onMachine (finishes_assignAttribute false fun _ _ => .clear)
  | store => exact finishes_onMachine (finishes_storeVariable (assigned rfl))
  | insertObj => exact finishes_onMachine (finishes_insertObject fun _ _ => .insert)
  | loadw => exact finishes_onMachine (finishes_loadWord (result rfl))
  | loadb => exact finishes_onMachine (finishes_loadByte (result rfl))
  | getProp | getPropAddr | getNextProp =>
    exact finishes_onMachine (finishes_askProperty _ (result rfl))
  | storew => exact finishes_onMachine (finishes_storeWord fun _ => .word)
  | storeb => exact finishes_onMachine (finishes_storeByte fun _ => .byte)
  | putProp => exact finishes_onMachine (finishes_putProperty fun _ _ _ => .property)
  | sread =>
    exact finishes_readInput (fun _ _ => .text) fun _ _ second low high =>
      ⟨.words second low high (.inl rfl), .words second low high (.inr rfl)⟩
  | printChar => exact finishes_printCharacter values
  | printNum => exact finishes_printNumber values
  | random => exact finishes_onMachine (finishes_randomNumber (result rfl))
  | push => exact finishes_onMachine finishes_push
  | pull => exact finishes_onMachine (finishes_pull (assigned rfl))

/-- An instruction writes what it can write and then ends, or enters a routine. -/
theorem execute_ends (i : Instruction) (values : List Word) (e : Engine η) :
    (∃ m, Effects (i.Writes values) e.machine m ∧
      Ends m (answer (execute i values) e) (finalState (execute i values) e).machine) ∨
    i.opcode? = some .call ∧ answer (execute i values) e = .ok .called ∧
      Calls i values e.machine (finalState (execute i values) e).machine := by
  unfold execute
  cases known : i.opcode? with
  | none => exact .inl (Finishes.throw _ e)
  | some opcode =>
    have writes (w : Write) : opcode.Writes i values w → i.Writes values w :=
      fun h => ⟨opcode, known, h⟩
    by_cases isCall : opcode = .call
    · subst isCall
      have result : Covers (i.Writes values) i.store := fun w => writes w ∘ .result rfl
      have ends := call_ends values result e.machine
      rw [← answer_onMachine _ e, ← machine_onMachine _ e] at ends
      exact ends.imp_right fun calls => ⟨rfl, calls⟩
    · obtain ⟨m, effects, ends⟩ := finishes_perform isCall i values e
      exact .inl ⟨m, effects.mono writes, ends⟩

end ZMachine.Engine
