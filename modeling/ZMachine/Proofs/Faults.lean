import ZMachine.Instruction.Decode
import ZMachine.Machine
import ZMachine.Proofs.Dictionary.Token

/-!
# What reading a story can fail for

All that is read from a story, and all that is looked up in what was read, fails for a reason of its
own. No word of it is cut inside a character, and no limit is reached.

## Main definitions

* `Error.Ordinary` — the faults that the parts of a machine may have.

## Main statements

* `Instruction.fails_decode`, `Machine.fails_load` — reading an instruction, and a whole story.
* `Dictionary.fails_tokenise` — cutting a line of ASCII into words.
-/

namespace ZMachine

/-- Neither a word that is cut inside a character nor the limit of a run. -/
def Error.Ordinary : Error → Prop
  | .splitCharacter _ | .instructionLimit _ => False
  | _ => True

open Error (Ordinary)

/-! ## Memory -/

namespace Memory

variable (m : Memory) (address : Nat)

theorem fails_check (width : Nat) : Except.Fails Ordinary (m.check address width) := by
  unfold check
  split
  · exact .ok ()
  · exact .error trivial

theorem fails_byteAt : Except.Fails Ordinary (m.byteAt address) :=
  .bind (m.fails_check address 1) fun _ => .ok _

theorem fails_wordAt : Except.Fails Ordinary (m.wordAt address) :=
  .bind (m.fails_check address 2) fun _ => .ok _

theorem fails_longAt : Except.Fails Ordinary (m.longAt address) :=
  .bind (m.fails_check address 4) fun _ => .ok _

theorem fails_slice (length : Nat) : Except.Fails Ordinary (m.slice address length) :=
  .bind (m.fails_check address length) fun _ => .ok _

theorem fails_zcharsAt : Except.Fails Ordinary (m.zcharsAt address) := by
  fun_induction m.zcharsAt address with
  | case1 address inside w last => exact .ok _
  | case2 address inside w last ih => exact ih.map
  | case3 address outside => exact .error trivial

theorem fails_textLength : Except.Fails Ordinary (m.textLength address) := by
  fun_induction m.textLength address with
  | case1 address inside last => exact .ok _
  | case2 address inside last ih => exact ih.map
  | case3 address outside => exact .error trivial

end Memory

namespace Scan

variable {α β : Type}

def Sane (scan : Scan α) : Prop :=
  ∀ m, Fails Ordinary (scan m)

namespace Sane

theorem pure (a : α) : Sane (Pure.pure a) :=
  fun _ => .pure a

theorem throw {e : Error} (h : Ordinary e) : Sane (MonadExcept.throw e : Scan α) :=
  fun _ => .throw h

/-- Scans in a row fail for what one of them fails for. -/
theorem bind {scan : Scan α} {f : α → Scan β} (h : Sane scan) (hf : ∀ a, Sane (f a)) :
    Sane (scan >>= f) :=
  fun m => .bind (h m) fun a => hf a m

theorem take {read : Memory → Nat → Except Error α} (h : ∀ m a, Except.Fails Ordinary (read m a))
    (width : Nat) : Sane (Scan.take read width) := by
  intro m position e failed
  cases found : read m position with
  | ok value => simp [answer, EStateM.run, Scan.take, found] at failed
  | error fault =>
    simp only [answer, EStateM.run, Scan.take, found] at failed
    cases failed
    exact h m position _ found

theorem byte : Sane Scan.byte := take Memory.fails_byteAt 1
theorem word : Sane Scan.word := take Memory.fails_wordAt 2
theorem long : Sane Scan.long := take Memory.fails_longAt 4

theorem times {scan : Scan α} (h : Sane scan) (count : Nat) : Sane (scan.times count) := by
  induction count with
  | zero => exact .pure []
  | succ count ih => exact .bind h fun _ => .bind ih fun _ => .pure _

theorem runFrom {scan : Scan α} (h : Sane scan) (m : Memory) (start : Nat) :
    Except.Fails Ordinary (scan.runFrom m start) := by
  intro e failed
  rw [Scan.runFrom] at failed
  cases run : scan m start with
  | ok value stop => simp [run] at failed
  | error fault stop =>
    simp only [run, Except.error.injEq] at failed
    exact h m start e (failed ▸ answer_of_error run)

end Sane
end Scan

/-! ## Text -/

namespace ZString

variable (m : Memory) (abbreviations : AbbreviationTable)

theorem fails_stringAddress (index : Nat) :
    Except.Fails Ordinary (abbreviations.stringAddress m index) :=
  (m.fails_wordAt _).map

/-- Spelling out fails only where an abbreviation does. -/
theorem fails_expand {abbreviation : Nat → Nat → Except Error (List Char)}
    (h : ∀ table index, Except.Fails Ordinary (abbreviation table index)) (pieces : List Piece) :
    Except.Fails Ordinary (Piece.expand abbreviation pieces) := by
  induction pieces with
  | nil => exact .ok []
  | cons piece rest ih =>
    cases piece with
    | char c => exact ih.map
    | abbreviation table index => exact .bind (h table index) fun _ => .bind ih fun _ => .ok _

/-- Reading fails for ordinary reasons, however deep its references lead. -/
theorem fails_readWithin (depth address : Nat) :
    Except.Fails Ordinary (readWithin m abbreviations depth address) := by
  induction depth generalizing address with
  | zero => exact .error trivial
  | succ depth ih =>
    exact .bind (m.fails_zcharsAt address) fun _ =>
      fails_expand (fun _ _ => .bind (fails_stringAddress m abbreviations _) fun _ => ih _) _

theorem fails_read (address : Nat) : Except.Fails Ordinary (read m abbreviations address) :=
  (fails_readWithin m abbreviations _ address).map

theorem fails_readPacked (packed : Word) :
    Except.Fails Ordinary (readPacked m abbreviations packed) :=
  fails_read m abbreviations _

end ZString

/-! ## Objects -/

/-- Property records are read or fail for ordinary reasons. They end with memory at the latest. -/
theorem Property.fails_readRecords (m : Memory) (address : Nat) :
    Except.Fails Ordinary (readRecords m address) := by
  fun_induction readRecords m address with
  | case1 => exact .ok []
  | case2 address inside size some p ih => exact ih.map
  | case3 => exact .error trivial

namespace ObjectTable

variable (t : ObjectTable) (m : Memory) (id number : Nat)

theorem fails_countFrom (room address : Nat) (lowest : Option Nat) :
    Except.Fails Ordinary (countFrom m room address lowest) := by
  induction room generalizing address lowest with
  | zero => exact .ok 0
  | succ room ih =>
    rw [countFrom]
    split
    · exact .ok 0
    · refine .bind (m.fails_wordAt _) fun block => ?_
      dsimp only
      split
      · exact .ok 0
      · exact .bind (ih _ _) fun rest => .ok _

theorem sane_readEntry : readEntry.Sane :=
  .bind .long fun _ => .bind .byte fun _ => .bind .byte fun _ => .bind .byte fun _ =>
    .bind .word fun _ => .pure _

theorem fails_objectAt (abbreviations : AbbreviationTable) (table : Nat) :
    Except.Fails Ordinary (objectAt m abbreviations table id) := by
  refine .bind (sane_readEntry.runFrom m _) fun entry => .bind (m.fails_byteAt _) fun words => ?_
  dsimp only
  split
  · exact .bind (.ok none) fun _ => .bind (Property.fails_readRecords m _) fun _ => .ok _
  · exact .bind (ZString.fails_read m abbreviations _).map fun _ =>
      .bind (Property.fails_readRecords m _) fun _ => .ok _

theorem fails_load (table : Nat) (abbreviations : AbbreviationTable) :
    Except.Fails Ordinary (load m table abbreviations) :=
  .bind (fails_countFrom m _ _ none) fun _ =>
    .bind (.mapM fun i _ => fails_objectAt m (i + 1) abbreviations table) fun _ => .ok _

theorem fails_get : Except.Fails Ordinary (t.get id) := by
  unfold get
  split
  · exact .ok _
  · exact .error trivial

theorem fails_requireAttribute : Except.Fails Ordinary (requireAttribute number) := by
  unfold requireAttribute
  split
  · exact .ok ()
  · exact .error trivial

theorem fails_hasAttribute : Except.Fails Ordinary (t.hasAttribute id number) :=
  .bind (fails_requireAttribute number) fun _ => .bind (t.fails_get id) fun _ => .ok _

theorem fails_requireProperty : Except.Fails Ordinary (requireProperty number) := by
  unfold requireProperty
  split
  · exact .ok ()
  · exact .error trivial

theorem fails_propertyValue : Except.Fails Ordinary (t.propertyValue m id number) := by
  refine .bind (t.fails_get id) fun object => .bind (fails_requireProperty number) fun _ => ?_
  split
  · split
    · exact .bind (m.fails_byteAt _) fun _ => .ok _
    · split
      · exact m.fails_wordAt _
      · exact .error trivial
  · exact .bind (fails_requireProperty number) fun _ => m.fails_wordAt _

theorem fails_writableProperty : Except.Fails Ordinary (t.writableProperty id number) := by
  refine .bind (t.fails_get id) fun object => .bind (fails_requireProperty number) fun _ => ?_
  split
  · split
    · exact .ok _
    · exact .error trivial
  · exact .error trivial

theorem fails_dataAddress : Except.Fails Ordinary (t.dataAddress id number) :=
  .bind (t.fails_get id) fun _ => .ok _

theorem fails_dataLength (address : Nat) : Except.Fails Ordinary (dataLength m address) := by
  unfold dataLength
  split
  · exact .ok 0
  · exact .bind (m.fails_byteAt _) fun _ => .ok _

theorem fails_propertyAfter : Except.Fails Ordinary (t.propertyAfter id number) := by
  refine .bind (t.fails_get id) fun object => ?_
  dsimp only
  split
  · exact .ok _
  · exact .error trivial

end ObjectTable

/-! ## The dictionary -/

namespace Dictionary

theorem sane_readHeading : readHeading.Sane :=
  .bind .byte fun _ => .bind (Scan.Sane.byte.times _) fun _ => .bind .byte fun _ =>
    .bind .word fun _ => .pure _

theorem fails_load (m : Memory) (address : Nat) (abbreviations : AbbreviationTable) :
    Except.Fails Ordinary (load m address abbreviations) :=
  .bind (sane_readHeading.runFrom m address) fun _ =>
    .bind (.mapM fun _ _ => .bind (m.fails_longAt _) fun _ =>
      .bind (ZString.fails_read m abbreviations _) fun _ => .ok _) fun _ => .ok _

/-- A line of ASCII can be cut. -/
theorem fails_tokenise (d : Dictionary) {text : List Char} (ascii : ∀ c ∈ text, c.toNat < 128) :
    Except.Fails Ordinary (d.tokenise (String.ofList text)) := by
  obtain ⟨words, cut, -⟩ := Token.ofLine_ascii d.separators ascii
  rw [tokenise, cut]
  exact .ok words

end Dictionary

/-! ## Frames -/

namespace Frame

variable (f : Frame)

theorem sane_scanLocals (routine : Nat) : (scanLocals routine).Sane := by
  refine .bind .byte fun count => ?_
  dsimp only
  split
  · exact .bind (.throw trivial) fun _ => Scan.Sane.word.times _
  · exact .bind (.pure _) fun _ => Scan.Sane.word.times _

theorem fails_forCall (m : Memory) (routine : Nat) (arguments : List Word) (returnAddress : Nat)
    (result : Option Byte) :
    Except.Fails Ordinary (forCall m routine arguments returnAddress result) :=
  .bind ((sane_scanLocals routine).runFrom m routine) fun _ => .ok _

theorem fails_peek : Except.Fails Ordinary f.peek := by
  unfold peek
  split
  · exact .ok _
  · exact .error trivial

theorem fails_pop : Except.Fails Ordinary f.pop := by
  unfold pop
  split
  · exact .ok _
  · exact .error trivial

theorem fails_requireLocal (number : Nat) : Except.Fails Ordinary (f.requireLocal number) := by
  unfold requireLocal
  split
  · exact .ok ()
  · exact .error trivial

theorem fails_getLocal (number : Nat) : Except.Fails Ordinary (f.getLocal number) :=
  .bind (f.fails_requireLocal number) fun _ => .ok _

theorem fails_setLocal (number : Nat) (value : Word) :
    Except.Fails Ordinary (f.setLocal number value) :=
  .bind (f.fails_requireLocal number) fun _ => .ok _

end Frame

theorem CallStack.fails_pop (s : CallStack) : Except.Fails Ordinary s.pop := by
  unfold pop
  split
  · exact .error trivial
  · exact .ok _

/-! ## Instructions -/

theorem OperandKind.sane_scan (kind : OperandKind) : kind.scan.Sane := by
  cases kind with
  | large => exact .bind .word fun _ => .pure _
  | small => exact .bind .byte fun _ => .pure _
  | var => exact .bind .byte fun _ => .pure _

theorem OperandKind.sane_scanAll (kinds : List OperandKind) : (scanAll kinds).Sane := by
  induction kinds with
  | nil => exact .pure []
  | cons kind rest ih => exact .bind kind.sane_scan fun _ => .bind ih fun _ => .pure _

theorem Branch.sane_scan : scan.Sane := by
  refine .bind .byte fun first => ?_
  dsimp only
  split
  · exact .pure _
  · exact .bind .byte fun _ => .pure _

namespace Instruction

theorem sane_scanKinds (address : Nat) (b : Byte) (form : InstructionForm) :
    (scanKinds address b form).Sane := by
  cases form with
  | long => exact .pure _
  | short => exact .pure _
  | variadic =>
    refine .bind .byte fun _ => ?_
    split
    · exact .pure _
    · exact .throw trivial

theorem sane_scanIf {α : Type} (present : Bool) {scan : Scan α} (h : scan.Sane) :
    (scanIf present scan).Sane := by
  unfold scanIf
  split
  · exact .bind h fun _ => .pure _
  · exact .pure none

theorem sane_scanText : scanText.Sane :=
  .bind (fun _ => .get) fun _ => .bind (fun _ => .pure _) fun m =>
    .bind (fun _ => .lift (m.fails_textLength _)) fun _ => .bind (fun _ => .modify) fun _ => .pure _

theorem sane_scan (address : Nat) : (scan address).Sane := by
  refine .bind .byte fun first => ?_
  dsimp only
  refine .bind (sane_scanKinds address first _) fun kinds =>
    .bind (OperandKind.sane_scanAll kinds) fun operands => ?_
  split
  · exact .throw trivial
  · exact .bind (sane_scanIf _ .byte) fun _ => .bind (sane_scanIf _ Branch.sane_scan) fun _ =>
      .bind (sane_scanIf _ sane_scanText) fun _ => .bind (fun _ => .get) fun _ => .pure _

theorem fails_decode (m : Memory) (address : Nat) : Except.Fails Ordinary (decode m address) :=
  ((sane_scan address).runFrom m address).map

end Instruction

/-! ## Loading -/

theorem Header.fails_parse (m : Memory) : Except.Fails Ordinary (parse m) := by
  have field (place : Nat) : Except.Fails Ordinary (UInt16.toNat <$> m.wordAt place) :=
    (m.fails_wordAt place).map
  have read : Except.Fails Ordinary (read m) :=
    .bind (m.fails_byteAt _) fun _ => .bind (m.fails_byteAt _) fun _ =>
      .bind (m.fails_wordAt _) fun _ => .bind (field _) fun _ => .bind (field _) fun _ =>
        .bind (field _) fun _ => .bind (field _) fun _ => .bind (field _) fun _ =>
          .bind (field _) fun _ => .bind (m.fails_slice _ _) fun _ => .bind (field _) fun _ =>
            .bind (field _) fun _ => .bind (m.fails_wordAt _) fun _ => .ok _
  have fault (h : Header) : ∀ e, h.fault? m.size = some e → Ordinary e := by
    intro e found
    unfold fault? at found
    split_ifs at found <;> cases found <;> trivial
  unfold parse
  split
  · exact .error trivial
  · refine .bind read fun h => ?_
    split
    · next e found => exact .error (fault h e found)
    · exact .ok h

/-- Whatever the bytes are, a story is loaded or refused for an ordinary reason. -/
theorem Machine.fails_load (m : Memory) (random : Random) :
    Except.Fails Ordinary (load m random) :=
  .bind (Header.fails_parse m) fun h =>
    .bind (ObjectTable.fails_load m h.objects ⟨h.abbreviations⟩) fun _ =>
      .bind (Dictionary.fails_load m h.dictionary ⟨h.abbreviations⟩) fun _ => .ok _

end ZMachine
