import ZMachine.Host.Script
import ZMachine.Proofs.Engine.Hosts
import ZMachine.Proofs.Engine.Limit
import ZMachine.Proofs.Text.Bytes

/-!
# A terminal and a script

Lines that are typed at a terminal are the lines of a script, each followed by a newline. A story
that is played on a terminal goes as it goes with the script, and what the terminal shows is the
output there.

## Main definitions

* `Terminal.Typable` — a line that can be typed and comes back as it is.
* `Terminal.typed` — the bytes of lines that were typed.
* `Terminal.Plays` — a terminal at which a script is typed.

## Main statements

* `Terminal.agree` — a terminal and the script that is typed there answer alike.
* `Engine.terminal_plays_script` — a story goes alike on both.
-/

namespace ZMachine

namespace Terminal

/-! ## The bytes of a line -/

/-- A line without a newline that does not end in a carriage return, which would be taken as a part
of the end of the line. -/
def Typable (line : String) : Prop :=
  '\n' ∉ line.toList ∧ line.toList.getLast? ≠ some '\r'

instance : DecidablePred Typable :=
  fun _ => inferInstanceAs (Decidable (_ ∧ _))

def typed (lines : List String) : List Byte :=
  lines.flatMap fun line => (line ++ "\n").toUTF8.data.toList

/-- A line is split after its newline. -/
theorem splitLine_append {line : List Byte} (own : newline ∉ line) (rest : List Byte) :
    splitLine (line ++ newline :: rest) = (line ++ [newline], rest) := by
  induction line with
  | nil => rfl
  | cons b line ih =>
    obtain ⟨first, own⟩ := not_or.mp (mt List.mem_cons.mpr own)
    rw [List.cons_append, splitLine, if_neg (Ne.symm first), ih own]
    rfl

theorem trimEnd_append {cs : List Char} (own : '\n' ∉ cs) (last : cs.getLast? ≠ some '\r') :
    trimEnd (cs ++ ['\n']) = cs := by
  have ending : trimEnd (cs ++ ['\n']) = trimEnd cs := by
    rw [trimEnd, List.reverse_concat, List.dropWhile_cons_of_pos (by decide), trimEnd]
  rw [ending]
  rcases List.eq_nil_or_concat' cs with rfl | ⟨rest, c, rfl⟩
  · rfl
  · have newline : c ≠ '\n' := fun same => own (by simp [same])
    have carriage : c ≠ '\r' := fun same => last (by simp [same])
    rw [trimEnd, List.reverse_concat, List.dropWhile_cons_of_neg (by simp [newline, carriage]),
      List.reverse_cons, List.reverse_reverse]

/-! ## Agreement -/

/-- A terminal at which the rest of a script is typed. What was written before is followed by the
output with the script. -/
structure Plays (before : ByteArray) (script : Script) (terminal : Terminal) : Prop where
  typable : ∀ line ∈ script.input, Typable line
  input : terminal.input = typed script.input
  room : terminal.sink.room = none
  written : terminal.sink.written = before ++ script.output.toUTF8

/-- A sink without a limit takes any text. -/
theorem run_write {sink : Sink} (room : sink.room = none) (text : String) :
    (Sink.write text).run sink = .ok () { sink with written := sink.written ++ text.toUTF8 } := by
  rw [Sink.write, EStateM.run_bind, EStateM.run_get]
  dsimp only
  split
  · next empty =>
    have none : text.toUTF8 = .empty := by
      rwa [ByteArray.isEmpty, beq_iff_eq, ByteArray.size_eq_zero_iff] at empty
    rw [none, ByteArray.append_empty]
    rfl
  · rw [if_pos (by rw [Sink.fits, room]; rfl)]
    rfl

variable {before : ByteArray}

theorem parallel_print (text : String) :
    Parallel (Plays before) (Host.print text : HostM Script Unit)
      (Host.print text : HostM Terminal Unit) := by
  intro script terminal plays
  have shown : (Host.print text : HostM Terminal Unit).run terminal = .ok () { terminal with
      sink := { terminal.sink with written := terminal.sink.written ++ text.toUTF8 } } := by
    change onSink (Sink.write text) terminal = _
    rw [onSink, show Sink.write text terminal.sink = _ from run_write plays.room text]
  rw [shown]
  refine .ok () ⟨plays.typable, plays.input, plays.room, ?_⟩
  change terminal.sink.written ++ text.toUTF8 = before ++ (script.output ++ text).toUTF8
  rw [plays.written, String.toUTF8_eq_toByteArray, String.toUTF8_eq_toByteArray,
    String.toUTF8_eq_toByteArray, String.toByteArray_append, ByteArray.append_assoc]

theorem parallel_flush :
    Parallel (Plays before) (Host.flush : HostM Script Unit) (Host.flush : HostM Terminal Unit) :=
  fun _ _ plays => .ok () ⟨plays.typable, plays.input, plays.room, plays.written⟩

/-- What is typed first is read first. -/
theorem splitLine_typed {line : String} (typable : Typable line) (rest : List String) :
    splitLine (typed (line :: rest)) = ((line ++ "\n").toUTF8.data.toList, typed rest) := by
  have bytes : (line ++ "\n").toUTF8.data.toList = line.toUTF8.data.toList ++ [newline] := by
    rw [toList_toUTF8, String.toList_append, List.flatMap_append, ← toList_toUTF8]
    rfl
  have own : newline ∉ line.toUTF8.data.toList := by
    rw [toList_toUTF8]
    intro mem
    obtain ⟨c, inside, mem⟩ := List.mem_flatMap.mp mem
    have same : c = '\n' := Char.toNat_inj.mp (toNat_of_mem_utf8EncodeChar mem (by decide))
    exact typable.1 (same ▸ inside)
  rw [typed, List.flatMap_cons, bytes, List.append_assoc]
  exact splitLine_append own _

/-- A terminal gives the line that was typed, without its end. -/
theorem run_readLine_typed {line : String} (typable : Typable line) (rest : List String)
    (sink : Sink) :
    readLine.run ⟨typed (line :: rest), sink⟩ =
      .ok line ⟨typed rest, { sink with flushes := sink.flushes + 1 }⟩ := by
  have nonempty : (line ++ "\n").toUTF8.data.toList.isEmpty = false := by
    rw [toList_toUTF8, String.toList_append, List.flatMap_append]
    exact List.isEmpty_eq_false_iff.mpr (List.append_ne_nil_of_right_ne_nil _ (by decide))
  have bytes : (⟨(line ++ "\n").toUTF8.data.toList.toArray⟩ : ByteArray) = (line ++ "\n").toUTF8 :=
    congrArg ByteArray.mk Array.toArray_toList
  rw [readLine, EStateM.run_bind]
  change EStateM.run _
    (Terminal.mk (typed (line :: rest)) { sink with flushes := sink.flushes + 1 }) = _
  rw [EStateM.run_bind, EStateM.run_get]
  dsimp only
  rw [splitLine_typed typable]
  dsimp only
  rw [if_neg (by rw [nonempty]; decide), bytes, fromUTF8?_toUTF8]
  dsimp only
  have trimmed : trimEnd (line ++ "\n").toList = line.toList := by
    rw [String.toList_append]
    exact trimEnd_append typable.1 typable.2
  rw [trimmed, String.ofList_toList]
  rfl

theorem parallel_readLine :
    Parallel (Plays before) (Host.readLine : HostM Script String)
      (Host.readLine : HostM Terminal String) := by
  rintro ⟨input, output⟩ ⟨bytes, sink⟩ ⟨typable, rfl, room, written⟩
  cases input with
  | nil => exact .error HostError.endOfInput ⟨typable, rfl, room, written⟩
  | cons line rest =>
    have read := run_readLine_typed (typable line List.mem_cons_self) rest sink
    change Matches _ _ (readLine.run ⟨typed (line :: rest), sink⟩)
    rw [read]
    exact .ok line ⟨fun other mem => typable other (List.mem_cons_of_mem _ mem), rfl, room, written⟩

/-- A terminal where a script is typed does as the script does. -/
theorem agree (before : ByteArray) : Host.Agree (Plays before) :=
  ⟨parallel_print, parallel_readLine, parallel_flush⟩

end Terminal

namespace Engine

open Machine

/-- From any machine, and under any limit, a run goes alike with a script and on a terminal at which
the script is typed: it takes as many steps, ends for the same reason if it ends, and leaves the
same machine and the same lines. What the terminal has written is the output with the script in
UTF-8. -/
theorem terminal_plays_script (m : Machine) (limit : Option Nat) {lines : List String}
    (typable : ∀ line ∈ lines, Terminal.Typable line) {sink : Sink} (unlimited : sink.room = none)
    (fuel : Nat) :
    let script := (ofMachine m (Script.ofLines lines)).withLimit limit
    let terminal := (ofMachine m (Terminal.mk (Terminal.typed lines) sink)).withLimit limit
    let played := finalState (runFor fuel) script
    let shown := finalState (runFor fuel) terminal
    answer (runFor fuel) terminal = answer (runFor fuel) script ∧
      shown.machine = played.machine ∧ shown.halted = played.halted ∧ shown.count = played.count ∧
      shown.host.input = Terminal.typed played.host.input ∧
      shown.host.sink.written = sink.written ++ played.host.output.toUTF8 := by
  intro script terminal played shown
  have alike : Alike (Terminal.Plays sink.written) script terminal :=
    ⟨rfl, ⟨typable, rfl, unlimited, ByteArray.append_empty.symm⟩, rfl, rfl, rfl⟩
  have parallel := parallel_runFor (Terminal.agree sink.written) fuel
  have left := parallel.rel_finalState alike
  exact ⟨(parallel.answer_eq alike).symm, left.machine, left.halted, left.count, left.host.input,
    left.host.written⟩

/-- Two lines are typed, one of them empty. When a third one is asked for, the story ends. -/
theorem terminal_plays_script_promptMachine :
    let lines := ["go, gø", ""]
    let script : Engine Script := (ofMachine promptMachine (Script.ofLines lines)).withLimit none
    let terminal : Engine Terminal :=
      (ofMachine promptMachine ⟨Terminal.typed lines, Sink.unlimited⟩).withLimit none
    (∀ line ∈ lines, Terminal.Typable line) ∧ Sink.unlimited.room = none ∧
      Terminal.typed lines = "go, gø\n\n".toUTF8.data.toList ∧
      answer (runFor 20) script = .ok true ∧ answer (runFor 20) terminal = .ok true ∧
      (finalState (runFor 20) script).count = 8 ∧ (finalState (runFor 20) terminal).count = 8 ∧
      (finalState (runFor 20) terminal).host.input = [] ∧
      (finalState (runFor 20) terminal).host.sink.written = ">>>".toUTF8 := by
  intro lines script terminal
  have typable : ∀ line ∈ lines, Terminal.Typable line := by decide +kernel
  have unlimited : Sink.unlimited.room = none := rfl
  obtain ⟨same, -, -, count, input, written⟩ :=
    terminal_plays_script promptMachine none typable unlimited 20
  have answered : answer (runFor 20) script = .ok true := by decide +kernel
  have counted : (finalState (runFor 20) script).count = 8 := by decide +kernel
  have used : (finalState (runFor 20) script).host.input = [] := by decide +kernel
  have output : (finalState (runFor 20) script).host.output = ">>>" := by decide +kernel
  refine ⟨typable, unlimited, by decide +kernel, answered, same.trans answered, counted,
    count.trans counted, ?_, ?_⟩
  · rw [input, used]
    rfl
  · rw [written, output]
    rfl

end Engine
end ZMachine
