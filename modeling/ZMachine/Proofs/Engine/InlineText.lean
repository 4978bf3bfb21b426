import ZMachine.Proofs.Engine.Limit
import ZMachine.Proofs.Engine.Outcome
import ZMachine.Proofs.Text.Expansion
import ZMachine.Proofs.Text.Unpacking

/-!
# Instructions with a text

Two opcodes carry the text that they show. The decoder only measures this text to find the next
instruction; it is read when the instruction is executed, by another scan of the same words. Both
scans stop at the same word, so the words that are shown are those that were skipped, and once the
instruction has been decoded they can all be read.

## Main definitions

* `Instruction.Carries` — the words from an address up to the next instruction are its text.
* `ZString.Blames` — an abbreviation that a text refers to cannot be read.
* `Engine.Shows` — what an instruction does with its words.
* `Engine.HasShown` — the text of some words is on the host.
* `Engine.Prints`, `Engine.PrintsAndReturns` — the steps of the two instructions.

## Main statements

* `Instruction.exists_carries` — every instruction that is decoded and has a text.
* `ZString.blames_of_read_error` — why a text cannot be read whose own words can.
* `Engine.run_showText` — showing the text of an instruction.
* `Engine.prints_of_carries`, `Engine.printsAndReturns_of_carries` — both instructions show their
  words.
* `Engine.skipped_text_shown` — what is skipped is what is shown.
-/

namespace ZMachine

/-! ## Instructions that are decoded -/

/-- Only opcodes without operands have a text. -/
theorem Opcode.class_eq_zero_of_hasText {opcodeClass : OpcodeClass} {number : Nat} {opcode : Opcode}
    (known : ofNumber? opcodeClass number = some opcode) (text : opcode.hasText = true) :
    opcodeClass = .zero := by
  have listed : some opcode ∈ table opcodeClass :=
    List.mem_of_getElem? (Option.join_eq_some_iff.mp known)
  have silent : ∀ c, c ≠ .zero → ∀ entry ∈ table c, entry.any hasText = false := by
    intro c other
    cases c with
    | zero => exact absurd rfl other
    | one | two | several => decide
  by_contra other
  have none := silent opcodeClass other (some opcode) listed
  rw [Option.any_some, text] at none
  cases none

namespace Instruction

/-- The words `ws` at `start` are the text of the instruction, and the next instruction lies right
after them. -/
structure Carries (m : Memory) (i : Instruction) (start : Nat) (ws : List Word) : Prop where
  text : i.text = some start
  isText : IsText ws
  holds : m.Holds start (Word.toBytes ws)
  next : i.next = start + (Word.toBytes ws).length

variable {m : Memory} {address start : Nat} {i : Instruction} {opcode : Opcode} {ws : List Word}

/-- The z-characters of the text are those of its words. -/
theorem Carries.zcharsAt (h : i.Carries m start ws) :
    m.zcharsAt start = .ok (ws.flatMap unpackWord) :=
  Memory.zcharsAt_of_holds h.isText h.holds

/-- An instruction of an opcode with a text carries one, of some words at some place. -/
theorem exists_carries (decoded : decode m address = .ok i) (known : i.opcode? = some opcode)
    (hasText : opcode.hasText = true) : ∃ start ws, i.Carries m start ws := by
  obtain ⟨rfl, bytes, ⟨opcode', opening, store, branch, text, known', -, -, -, laidOut, rfl, size⟩,
    holds⟩ := decode_eq_ok.mp decoded
  obtain rfl := Option.some.inj (known.symm.trans known')
  cases own : i.text with
  | none =>
    rw [own] at laidOut
    exact absurd hasText (Bool.eq_false_iff.mp laidOut.1)
  | some start =>
    rw [own] at laidOut
    obtain ⟨-, rfl, ws, isText, rfl⟩ := laidOut
    refine ⟨_, ws, own, isText, (Memory.holds_append.mp holds).2, ?_⟩
    rw [next, size, List.length_append, Nat.add_assoc]

/-- The first bytes of an instruction without operands tell no kinds. -/
theorem Opening.kinds_eq_nil {form : InstructionForm} {number : Nat} {kinds : List OperandKind}
    {bytes : List Byte} (h : Opening form .zero number kinds bytes) : kinds = [] := by
  cases h
  rfl

/-- An instruction with a text has no operands. -/
theorem operands_eq_nil (decoded : decode m address = .ok i) (known : i.opcode? = some opcode)
    (hasText : opcode.hasText = true) : i.operands = [] := by
  obtain ⟨-, bytes, ⟨opcode', opening, _, _, _, known', opens, -⟩, -⟩ := decode_eq_ok.mp decoded
  rw [Opcode.class_eq_zero_of_hasText known hasText] at opens
  exact List.map_eq_nil_iff.mp opens.kinds_eq_nil

end Instruction

/-! ## Texts that cannot be read -/

namespace ZString

variable {m : Memory} {t : AbbreviationTable} {address : Nat} {zs : List ZChar} {fault : Error}

/-- These z-characters refer to an abbreviation that cannot be read, for this reason. -/
def Blames (m : Memory) (t : AbbreviationTable) (zs : List ZChar) (fault : Error) : Prop :=
  ∃ table index, Names zs table index ∧ t.get m (32 * table + index) = .error fault

/-- Nothing but an abbreviation can be wrong with a string whose own z-characters can be read. -/
theorem blames_of_read_error (found : m.zcharsAt address = .ok zs)
    (failed : read m t address = .error fault) : Blames m t zs fault := by
  rw [read, maxDepth, readWithin, found] at failed
  change String.ofList <$> Piece.expand _ (Piece.ofZChars zs) = _ at failed
  cases expanded : Piece.expand (fun table index => do
      let target ← t.stringAddress m (32 * table + index)
      readWithin m t 3 target) (Piece.ofZChars zs) with
  | ok cs =>
    rw [expanded] at failed
    cases failed
  | error reason =>
    rw [expanded] at failed
    cases failed
    obtain ⟨table, index, mem, own⟩ := Piece.exists_of_expand_error expanded
    refine ⟨table, index, mem_pieces_iff_names.mp mem, ?_⟩
    rw [AbbreviationTable.get, maxDepth]
    cases pointer : t.stringAddress m (32 * table + index) with
    | error e =>
      rw [pointer] at own
      cases own
      rfl
    | ok target =>
      rw [pointer] at own
      exact congrArg (String.ofList <$> ·) own

end ZString

namespace Engine

variable {η : Type} [Host η] {e : Engine η} {i : Instruction} {opcode : Opcode} {start : Nat}
  {ws : List Word} {fault : Error}

/-! ## Showing a text -/

/-- The text of an instruction is read, and the machine stays as it is. -/
theorem run_inlineText (text : i.text = some start) (m : Machine) :
    (inlineText i).run m =
      match ZString.read m.memory m.abbreviations start with
      | .ok text => .ok text m
      | .error fault => .error fault m := by
  have looked : inlineText i = Machine.readString start := by rw [inlineText, text]
  rw [looked, Machine.readString, EStateM.run_bind, EStateM.run_get]
  dsimp only
  cases ZString.read m.memory m.abbreviations start <;> rfl

/-- What is shown is the text that was read; a text that cannot be read is not shown in part. -/
theorem run_showText (text : i.text = some start) (e : Engine η) :
    (showText i).run e =
      match ZString.read e.machine.memory e.machine.abbreviations start with
      | .ok text => (print text).run e
      | .error fault => .error fault e := by
  have looked := run_onMachine (inlineText i) e
  rw [run_inlineText text] at looked
  change (liftM (inlineText i) : EngineM η String).run e = _ at looked
  rw [showText, EStateM.run_bind, looked]
  cases ZString.read e.machine.memory e.machine.abbreviations start <;> rfl

/-- What a host fails for is its own. -/
theorem eq_host_of_print {text : String} (failed : answer (print text) e = .error fault) :
    ∃ reason, fault = .host reason := by
  rw [answer, print, run_onHost] at failed
  cases printed : (Host.print text : HostM η Unit).run e.host with
  | ok u host => simp [printed] at failed
  | error reason host =>
    simp only [printed] at failed
    cases failed
    exact ⟨reason, rfl⟩

/-- A text that was printed is on the host, and nothing else has happened. -/
theorem exists_host_of_print {text : String} {after : Engine η}
    (run : (print text).run e = .ok () after) :
    ∃ host, (Host.print text : HostM η Unit).run e.host = .ok () host ∧
      after = { e with host } := by
  rw [print, run_onHost] at run
  cases printed : (Host.print text : HostM η Unit).run e.host with
  | ok u host =>
    rw [printed] at run
    cases run
    exact ⟨host, rfl, rfl⟩
  | error reason host =>
    rw [printed] at run
    cases run

/-- Either the host refuses the text, or an abbreviation in it cannot be read. -/
theorem blames_of_showText (carries : i.Carries e.machine.memory start ws)
    (failed : answer (showText i) e = .error fault) :
    (∃ reason, fault = .host reason) ∨
      ZString.Blames e.machine.memory e.machine.abbreviations (ws.flatMap unpackWord) fault := by
  rw [answer, run_showText carries.text] at failed
  cases found : ZString.read e.machine.memory e.machine.abbreviations start with
  | ok text =>
    rw [found] at failed
    exact .inl (eq_host_of_print failed)
  | error reason =>
    rw [found] at failed
    cases failed
    exact .inr (ZString.blames_of_read_error carries.zcharsAt found)

/-! ## Steps that show a text -/

def past (i : Instruction) (e : Engine η) : Engine η :=
  { e with machine := { e.machine with pc := i.next }, count := e.count + 1 }

/-- An instruction with a text has no operands, so that nothing comes before its opcode. -/
theorem run_act_of_hasText (decoded : Instruction.decode e.machine.memory e.machine.pc = .ok i)
    (known : i.opcode? = some opcode) (hasText : opcode.hasText = true) :
    act.run e = (perform opcode i []).run (e.past i) := by
  have fetched := run_onMachine fetch e
  rw [run_fetch, decoded] at fetched
  change (liftM fetch : EngineM η Instruction).run e = _ at fetched
  have executed : execute i [] = (perform opcode i [] : EngineM η Outcome) := by
    rw [execute, known]
  rw [act, EStateM.run_bind, fetched, ← executed]
  dsimp only
  rw [Instruction.operands_eq_nil decoded known hasText]
  rfl

/-- A step with a text settles what its opcode does, unless the limit has been reached. -/
theorem run_step_of_hasText (decoded : Instruction.decode e.machine.memory e.machine.pc = .ok i)
    (known : i.opcode? = some opcode) (hasText : opcode.hasText = true) (running : e.halted = false)
    (allowed : MayGoOn e.limit e.count) :
    step.run e = settle ((perform opcode i []).run (e.past i)) := by
  rw [run_step_of_running running, run_cycle_of_mayGoOn allowed,
    run_act_of_hasText decoded known hasText]

/-- A step with a text that has an outcome has done what its opcode does. -/
theorem run_step_of_answer (decoded : Instruction.decode e.machine.memory e.machine.pc = .ok i)
    (known : i.opcode? = some opcode) (hasText : opcode.hasText = true) (running : e.halted = false)
    {out : Outcome} (answered : answer step e = .ok out) :
    step.run e = settle ((perform opcode i []).run (e.past i)) := by
  obtain run | ⟨limit, -, -, run⟩ := run_cycle_cases e
  · rw [run_step_of_running running, run, run_act_of_hasText decoded known hasText]
  · rw [answer, run_step_of_running running, run] at answered
    cases answered

/-- A step with a text that fails outside memory has failed while it executed the instruction. -/
theorem answer_perform_of_step (decoded : Instruction.decode e.machine.memory e.machine.pc = .ok i)
    (known : i.opcode? = some opcode) (hasText : opcode.hasText = true) {place size : Nat}
    (failed : answer step e = .error (.memoryOutOfRange place size)) :
    answer (perform opcode i []) (e.past i) = .error (.memoryOutOfRange place size) := by
  obtain ⟨reason, own⟩ | cycled := cases_of_answer_step failed
  · cases own
  rw [answer] at cycled
  obtain run | ⟨limit, -, -, run⟩ := run_cycle_cases e
  · rwa [run, run_act_of_hasText decoded known hasText] at cycled
  · rw [run] at cycled
    cases cycled

/-- The instruction shows the text of the words `ws` at `start`. Its z-characters are read wherever
these words lie, and nowhere else; only an abbreviation among them can lie outside memory. -/
structure Shows (e : Engine η) (i : Instruction) (start : Nat) (ws : List Word) : Prop where
  own : e.machine.memory.zcharsAt start = .ok (ws.flatMap unpackWord)
  onlyWords : ∀ m : Memory,
    m.zcharsAt start = .ok (ws.flatMap unpackWord) ↔ m.Holds start (Word.toBytes ws)
  shown : (showText i).run (e.past i) =
    match ZString.read e.machine.memory e.machine.abbreviations start with
    | .ok text => (print text).run (e.past i)
    | .error fault => .error fault (e.past i)
  spelled : ∀ text, ZString.read e.machine.memory e.machine.abbreviations start = .ok text →
    ∃ textOf, ZString.Spells e.machine.memory e.machine.abbreviations start text
      (ws.flatMap unpackWord) textOf
  blamed : ∀ place size, answer (showText i) (e.past i) = .error (.memoryOutOfRange place size) →
    ZString.Blames e.machine.memory e.machine.abbreviations (ws.flatMap unpackWord)
      (.memoryOutOfRange place size)

/-- Showing the text of an instruction reads the words that it carries, and no other bytes but
abbreviations. -/
theorem shows_of_carries (carries : i.Carries e.machine.memory start ws) : Shows e i start ws where
  own := carries.zcharsAt
  onlyWords m := Memory.zcharsAt_eq_ok_iff_holds carries.isText
  shown := run_showText carries.text (e.past i)
  spelled text found := by
    obtain ⟨zs, textOf, spells⟩ := ZString.exists_spells_of_read found
    obtain rfl := Except.ok.inj (carries.zcharsAt.symm.trans spells.zchars)
    exact ⟨textOf, spells⟩
  blamed place size failed := by
    have same : i.Carries (e.past i).machine.memory start ws := carries
    obtain ⟨reason, refused⟩ | blames := blames_of_showText same failed
    · cases refused
    · exact blames

/-- The host of `e` was given the text of the words `ws` at `start`, and was then as `host` is. -/
def HasShown (e : Engine η) (start : Nat) (ws : List Word) (host : η) : Prop :=
  ∃ text textOf, ZString.Spells e.machine.memory e.machine.abbreviations start text
      (ws.flatMap unpackWord) textOf ∧
    (Host.print text : HostM η Unit).run e.host = .ok () host

/-- A text that was shown is that of the words. -/
theorem exists_hasShown (carries : i.Carries e.machine.memory start ws) {after : Engine η}
    (run : (showText i).run (e.past i) = .ok () after) :
    ∃ host, HasShown e start ws host ∧ after = { e.past i with host } := by
  have shows := shows_of_carries carries
  rw [shows.shown] at run
  cases found : ZString.read e.machine.memory e.machine.abbreviations start with
  | ok text =>
    rw [found] at run
    obtain ⟨host, printed, rfl⟩ := exists_host_of_print run
    obtain ⟨textOf, spells⟩ := shows.spelled text found
    exact ⟨host, ⟨text, textOf, spells, printed⟩, rfl⟩
  | error fault =>
    rw [found] at run
    cases run

/-- A step that shows the text of the words `ws` goes on right after the last of them. -/
structure Prints (e : Engine η) (i : Instruction) (start : Nat) (ws : List Word) : Prop where
  shows : e.halted = false → MayGoOn e.limit e.count → ∀ after,
    (showText i).run (e.past i) = .ok () after → step.run e = .ok .advanced after
  shown : e.halted = false → ∀ out, answer step e = .ok out →
    HasShown e start ws (finalState step e).host
  goesOn : e.halted = false → ∀ out, answer step e = .ok out → out = .advanced ∧
    (finalState step e).machine = { e.machine with pc := start + (Word.toBytes ws).length }
  blamed : ∀ place size, answer step e = .error (.memoryOutOfRange place size) →
    ZString.Blames e.machine.memory e.machine.abbreviations (ws.flatMap unpackWord)
      (.memoryOutOfRange place size)

/-- A step that has an outcome has shown the words and gone on. -/
theorem exists_run_of_print (decoded : Instruction.decode e.machine.memory e.machine.pc = .ok i)
    (known : i.opcode? = some .print) (carries : i.Carries e.machine.memory start ws)
    (running : e.halted = false) {out : Outcome} (answered : answer step e = .ok out) :
    ∃ host, HasShown e start ws host ∧ step.run e = .ok .advanced { e.past i with host } := by
  have stepped := run_step_of_answer decoded known rfl running answered
  change _ = settle ((printInline i).run (e.past i)) at stepped
  rw [printInline, EStateM.run_bind] at stepped
  cases shown : (showText i).run (e.past i) with
  | ok u after =>
    rw [shown] at stepped
    obtain ⟨host, hasShown, rfl⟩ := exists_hasShown carries shown
    exact ⟨host, hasShown, stepped⟩
  | error fault after =>
    rw [shown] at stepped
    cases (answer_of_error stepped).symm.trans answered

/-- A step of `print` shows the text of its words and goes on after the last of them. -/
theorem prints_of_carries (decoded : Instruction.decode e.machine.memory e.machine.pc = .ok i)
    (known : i.opcode? = some .print) (carries : i.Carries e.machine.memory start ws) :
    Prints e i start ws where
  shows running allowed after shown := by
    have stepped := run_step_of_hasText decoded known rfl running allowed
    change _ = settle ((printInline i).run (e.past i)) at stepped
    rw [stepped, printInline, EStateM.run_bind, shown]
    rfl
  shown running out answered := by
    obtain ⟨host, hasShown, run⟩ := exists_run_of_print decoded known carries running answered
    rwa [finalState_of_ok run]
  goesOn running out answered := by
    obtain ⟨host, -, run⟩ := exists_run_of_print decoded known carries running answered
    rw [answer_of_ok run] at answered
    rw [finalState_of_ok run, ← carries.next]
    exact ⟨(Except.ok.inj answered).symm, rfl⟩
  blamed place size failed := by
    have performed := answer_perform_of_step decoded known rfl failed
    change answer (printInline i) (e.past i) = _ at performed
    rw [printInline] at performed
    obtain refused | ⟨_, after, -, last⟩ := cases_of_answer_bind performed
    · exact (shows_of_carries carries).blamed place size refused
    · cases last

/-- Everything has been shown, but the value cannot be returned, for this reason. -/
def CannotReturn (e : Engine η) (i : Instruction) (fault : Error) : Prop :=
  ∃ shown ended, (showText i).run (e.past i) = .ok () shown ∧
    (print "\n").run shown = .ok () ended ∧
    answer (Machine.returnWith 1) ended.machine = .error fault

theorem blames_or_cannotReturn (decoded : Instruction.decode e.machine.memory e.machine.pc = .ok i)
    (known : i.opcode? = some .printRet) (carries : i.Carries e.machine.memory start ws)
    {place size : Nat} (failed : answer step e = .error (.memoryOutOfRange place size)) :
    ZString.Blames e.machine.memory e.machine.abbreviations (ws.flatMap unpackWord)
      (.memoryOutOfRange place size) ∨ CannotReturn e i (.memoryOutOfRange place size) := by
  have performed := answer_perform_of_step decoded known rfl failed
  change answer (printInlineAndReturn i) (e.past i) = _ at performed
  rw [printInlineAndReturn] at performed
  obtain refused | ⟨_, shown, first, performed⟩ := cases_of_answer_bind performed
  · exact .inl ((shows_of_carries carries).blamed place size refused)
  obtain refused | ⟨_, ended, second, performed⟩ := cases_of_answer_bind performed
  · obtain ⟨reason, own⟩ := eq_host_of_print refused
    cases own
  · refine .inr ⟨shown, ended, first, second, ?_⟩
    rw [← answer_onMachine]
    exact performed

/-- A step that shows the text of the words `ws`, ends the line and returns 1. When it has an
outcome, all of this was done, and the machine has left its routine after the last of the words. -/
structure PrintsAndReturns (e : Engine η) (i : Instruction) (start : Nat) (ws : List Word) :
    Prop where
  shows : e.halted = false → MayGoOn e.limit e.count →
    step.run e = settle (EStateM.run (do
      showText i
      print "\n"
      Machine.returnWith 1) (e.past i))
  shown : e.halted = false → ∀ out, answer step e = .ok out → out = .returned 1 ∧
    ∃ host, HasShown e start ws host ∧
      (Host.print "\n" : HostM η Unit).run host = .ok () (finalState step e).host ∧
      (Machine.leaveRoutine 1).run { e.machine with pc := start + (Word.toBytes ws).length } =
        .ok () (finalState step e).machine
  blamed : ∀ place size, answer step e = .error (.memoryOutOfRange place size) →
    ZString.Blames e.machine.memory e.machine.abbreviations (ws.flatMap unpackWord)
      (.memoryOutOfRange place size) ∨ CannotReturn e i (.memoryOutOfRange place size)

/-- Showing the words, ending the line and returning, each with what it leaves. -/
theorem exists_of_printInlineAndReturn (carries : i.Carries e.machine.memory start ws)
    {out : Outcome} {after : Engine η}
    (run : (printInlineAndReturn i).run (e.past i) = .ok out after) :
    out = .returned 1 ∧ ∃ host, HasShown e start ws host ∧
      (Host.print "\n" : HostM η Unit).run host = .ok () after.host ∧
      (Machine.leaveRoutine 1).run { e.machine with pc := i.next } = .ok () after.machine := by
  have acted := answer_of_ok run
  have final := finalState_of_ok run
  rw [printInlineAndReturn] at acted final
  obtain ⟨_, shown, first, acted, same⟩ := exists_of_answer_bind acted
  rw [same] at final
  obtain ⟨_, ended, second, acted, same⟩ := exists_of_answer_bind acted
  rw [same] at final
  obtain ⟨host, hasShown, rfl⟩ := exists_hasShown carries first
  obtain ⟨host', printed, rfl⟩ := exists_host_of_print second
  have answered : answer (Machine.returnWith 1) { e.machine with pc := i.next } = .ok out :=
    (answer_onMachine _ { e.past i with host := host' }).symm.trans acted
  obtain ⟨_, m, left, last, -⟩ := exists_of_answer_bind answered
  cases last
  have returned : (Machine.returnWith 1).run { e.machine with pc := i.next } =
      .ok (.returned 1) m := by
    rw [Machine.returnWith, EStateM.run_bind, left]
    rfl
  have done := run_onMachine_of_ok (e := { e.past i with host := host' }) returned
  obtain rfl := (finalState_of_ok done).symm.trans final
  exact ⟨rfl, host, hasShown, printed, left⟩

/-- A step of `print_ret` shows the text of its words, ends the line and returns 1. -/
theorem printsAndReturns_of_carries
    (decoded : Instruction.decode e.machine.memory e.machine.pc = .ok i)
    (known : i.opcode? = some .printRet) (carries : i.Carries e.machine.memory start ws) :
    PrintsAndReturns e i start ws where
  shows := run_step_of_hasText decoded known rfl
  shown running out answered := by
    have stepped := run_step_of_answer decoded known rfl running answered
    change _ = settle ((printInlineAndReturn i).run (e.past i)) at stepped
    cases performed : (printInlineAndReturn i).run (e.past i) with
    | error fault after =>
      rw [performed] at stepped
      cases (answer_of_error stepped).symm.trans answered
    | ok out' after =>
      obtain ⟨rfl, shown⟩ := exists_of_printInlineAndReturn carries performed
      rw [performed] at stepped
      rw [answer_of_ok stepped] at answered
      rw [finalState_of_ok stepped, ← carries.next]
      exact ⟨(Except.ok.inj answered).symm, shown⟩
  blamed place size := blames_or_cannotReturn decoded known carries

/-- The words that are skipped when an instruction is decoded are those that it shows.

* Measuring a text and reading it succeed at the same places, and fail for the same reason at all
  others. There are three z-characters for every two bytes.
* Both instructions with a text carry words that reach up to the next instruction. The text is that
  of these words. They can all be read, so only an abbreviation in them can lie outside memory.
* The step of each of them shows this text. The one that goes on does so right after its last word.
  The other one may find no place in memory for the value that it returns, but then it has shown
  everything. -/
theorem skipped_text_shown :
    (∀ (m : Memory) (address : Nat),
      (∀ fault, m.textLength address = .error fault ↔ m.zcharsAt address = .error fault) ∧
      (∀ n, m.textLength address = .ok n ↔
        ∃ zs, m.zcharsAt address = .ok zs ∧ 2 * zs.length = 3 * n)) ∧
    ∀ (e : Engine η) (i : Instruction),
      Instruction.decode e.machine.memory e.machine.pc = .ok i →
      i.opcode? = some .print ∨ i.opcode? = some .printRet →
      ∃ start ws, i.Carries e.machine.memory start ws ∧ Shows e i start ws ∧
        (i.opcode? = some .print → Prints e i start ws) ∧
        (i.opcode? = some .printRet → PrintsAndReturns e i start ws) := by
  refine ⟨fun m address => ⟨fun fault => m.textLength_eq_error, fun n => m.textLength_eq_ok_iff⟩,
    fun e i decoded opcode => ?_⟩
  obtain ⟨start, ws, carries⟩ : ∃ start ws, i.Carries e.machine.memory start ws := by
    obtain known | known := opcode
    · exact Instruction.exists_carries decoded known rfl
    · exact Instruction.exists_carries decoded known rfl
  exact ⟨start, ws, carries, shows_of_carries carries,
    fun known => prints_of_carries decoded known carries,
    fun known => printsAndReturns_of_carries decoded known carries⟩

/-- A pointer to the string at 8, two instructions from 2 on, of which the second one begins where
the pointer of another abbreviation should lie, and a third one in a routine that goes back to the
first. Each has a text that refers to one of the two abbreviations. -/
def inlineMachine : Machine :=
  { Machine.boxMachine with
    memory := ⟨#[0, 4, 0xB2, 0x84, 0x06, 0xB3, 0x84, 0x25, 0x9C, 0xA5, 0xB3, 0x84, 0x06]⟩
    abbreviations := ⟨0⟩
    stack := ⟨Frame.initial 0, [⟨0, 2, none, 0, #[]⟩]⟩
    pc := 10 }

/-- The text in the routine is shown with the end of a line, and then the one after it. The last one
refers to a string outside memory, but it lies in memory itself. -/
theorem skipped_text_shown_inlineMachine :
    let e : Engine Script := ofMachine inlineMachine (Script.ofLines [])
    answer step e = .ok (.returned 1) ∧ (e.after 1).machine.pc = 2 ∧
      (∃ start ws host, HasShown e start ws host ∧
        (Host.print "\n" : HostM Script Unit).run host = .ok () (e.after 1).host) ∧
      (e.after 1).host.output = "ba\n" ∧
      answer step (e.after 1) = .ok .advanced ∧ (e.after 2).machine.pc = 5 ∧
      (e.after 2).host.output = "ba\nba" ∧
      answer step (e.after 2) = .error (.memoryOutOfRange 91400 13) ∧
      ZString.Blames (e.after 2).machine.memory ⟨0⟩ [1, 1, 5] (.memoryOutOfRange 91400 13) := by
  intro e
  let ended : Instruction := ⟨10, .zero, 3, .short, [], none, none, some 11, 3⟩
  let shown : Instruction := ⟨2, .zero, 2, .short, [], none, none, some 3, 3⟩
  let refused : Instruction := ⟨5, .zero, 3, .short, [], none, none, some 6, 3⟩
  have returned : answer step e = .ok (.returned 1) := by decide +kernel
  have answered : answer step (e.after 1) = .ok .advanced := by decide +kernel
  have failed : answer step (e.after 2) = .error (.memoryOutOfRange 91400 13) := by decide +kernel
  obtain ⟨-, carried⟩ := skipped_text_shown (η := Script)
  obtain ⟨start, ws, -, -, -, returns⟩ := carried e ended (by decide +kernel) (.inr rfl)
  obtain ⟨-, host, hasShown, newline, -⟩ := (returns rfl).shown rfl _ returned
  obtain ⟨start', ws', carries', -, prints, -⟩ :=
    carried (e.after 1) shown (by decide +kernel) (.inl rfl)
  obtain ⟨-, landed⟩ := (prints rfl).goesOn (by decide +kernel) _ answered
  obtain ⟨start'', ws'', carries'', shows, -⟩ :=
    carried (e.after 2) refused (by decide +kernel) (.inr rfl)
  obtain rfl : 6 = start'' := Option.some.inj carries''.text
  have table : (e.after 2).machine.abbreviations = ⟨0⟩ := by decide +kernel
  have words : (e.after 2).machine.memory.zcharsAt 6 = .ok [1, 1, 5] := by decide +kernel
  have blames := shows.blamed 91400 13 (by decide +kernel)
  rw [table, Except.ok.inj (shows.own.symm.trans words)] at blames
  refine ⟨returned, by decide +kernel, ⟨start, ws, host, hasShown, newline⟩, by decide +kernel,
    answered, ?_, by decide +kernel, failed, blames⟩
  calc (finalState step (e.after 1)).machine.pc
      = start' + (Word.toBytes ws').length := by rw [landed]
    _ = shown.next := carries'.next.symm
    _ = 5 := rfl

end Engine
end ZMachine
