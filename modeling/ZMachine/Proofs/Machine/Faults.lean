import ZMachine.Machine.Arithmetic
import ZMachine.Machine.Chance
import ZMachine.Machine.Objects
import ZMachine.Machine.Storage
import ZMachine.Machine.Typing
import ZMachine.Proofs.Faults

/-!
# What instructions can fail for

The handlers of the opcodes that concern the machine alone fail for ordinary reasons. The only place
where a word is cut is after a line has been typed, and what is cut there is printable ASCII.

## Main statements

* `Machine.fails_acceptLine` — storing a typed line.
* `Machine.fails_compare`, … — the families of instructions.
-/

namespace ZMachine

open Error (Ordinary)

/-! ## Changes to objects -/

namespace ObjectStore

variable (id number : Nat)

theorem fails_setByte (address : Nat) (value : Byte) : Fails Ordinary (setByte address value) :=
  .bind .get fun s => .bind (.lift (s.memory.fails_check address 1)) fun _ => .modify

theorem fails_setWord (address : Nat) (value : Word) : Fails Ordinary (setWord address value) :=
  .bind .get fun s => .bind (.lift (s.memory.fails_check address 2)) fun _ => .modify

theorem fails_syncAttributes : Fails Ordinary (syncAttributes id) :=
  .bind .get fun s => .bind (.lift (s.table.fails_get id)) fun _ => .bind .get fun _ =>
    .bind (fails_setByte _ _) fun _ => .bind (fails_setByte _ _) fun _ =>
      .bind (fails_setByte _ _) fun _ => fails_setByte _ _

theorem fails_assignAttribute (value : Bool) :
    Fails Ordinary (assignAttribute id number value) :=
  .bind (.lift (ObjectTable.fails_requireAttribute number)) fun _ => .bind .get fun s =>
    .bind (.lift (s.table.fails_get id)) fun _ => .bind .modify fun _ => fails_syncAttributes id

theorem fails_putProperty (value : Word) : Fails Ordinary (putProperty id number value) := by
  refine .bind .get fun s => .bind (.lift (s.table.fails_writableProperty id number)) fun p => ?_
  split
  · exact fails_setByte _ _
  · exact fails_setWord _ _

theorem fails_syncLinks : Fails Ordinary (syncLinks id) :=
  .bind .get fun s => .bind (.lift (s.table.fails_get id)) fun _ => .bind .get fun _ =>
    .bind (fails_setByte _ _) fun _ => .bind (fails_setByte _ _) fun _ => fails_setByte _ _

theorem fails_siblingBefore (t : ObjectTable) (parent steps current : Nat) :
    Except.Fails Ordinary (siblingBefore t id parent steps current) := by
  induction steps generalizing current with
  | zero => exact .error trivial
  | succ steps ih =>
    rw [siblingBefore]
    split
    · exact .error trivial
    · refine .bind (t.fails_get current) fun object => ?_
      split
      · exact .ok _
      · exact ih _

theorem fails_unchain (parent : Nat) (next : Byte) : Fails Ordinary (unchain id parent next) := by
  refine .bind .get fun s => .bind (.lift (s.table.fails_get parent)) fun p => ?_
  dsimp only
  split
  · exact .bind .modify fun _ => fails_syncLinks _
  · exact .bind (.lift (fails_siblingBefore id s.table parent _ _)) fun _ =>
      .bind .modify fun _ => fails_syncLinks _

theorem fails_remove : Fails Ordinary (remove id) := by
  refine .bind .get fun s => .bind (.lift (s.table.fails_get id)) fun o => ?_
  dsimp only
  split
  · exact .bind (fails_unchain id _ _) fun _ => .bind .modify fun _ => fails_syncLinks id
  · exact .bind .modify fun _ => fails_syncLinks id

theorem fails_insertInto (parent : Nat) : Fails Ordinary (insertInto id parent) := by
  have rest : Fails Ordinary (do
      let _ ← (← get).table.get parent
      let _ ← (← get).table.get id
      remove id
      let oldest := (← (← get).table.get parent).child
      change id fun o => { o with sibling := oldest, parent := UInt8.ofNat parent }
      change parent fun o => { o with child := UInt8.ofNat id }
      syncLinks id
      syncLinks parent : ObjectM Unit) :=
    .bind .get fun s => .bind (.lift (s.table.fails_get parent)) fun _ => .bind .get fun s =>
      .bind (.lift (s.table.fails_get id)) fun _ => .bind (fails_remove id) fun _ =>
        .bind .get fun s => .bind (.lift (s.table.fails_get parent)) fun _ =>
          .bind .modify fun _ => .bind .modify fun _ => .bind (fails_syncLinks id) fun _ =>
            fails_syncLinks parent
  unfold insertInto
  split
  · exact .bind (.throw trivial) fun _ => rest
  · exact rest

end ObjectStore

/-! ## Operands -/

theorem fails_operand (values : List Word) (index : Nat) :
    Except.Fails Ordinary (operand values index) := by
  unfold operand
  split
  · exact .ok _
  · exact .error trivial

/-- The value of an operand, as part of an action. -/
theorem Fails.operand {σ : Type} (values : List Word) (index : Nat) :
    Fails Ordinary (monadLift (operand values index) : EStateM Error σ Word) :=
  .lift (fails_operand values index)

namespace Machine

variable (i : Instruction) (values : List Word)

/-! ## Memory, text and objects -/

theorem fails_readByte (address : Nat) : Fails Ordinary (readByte address) :=
  .bind .get fun m => .lift (m.memory.fails_byteAt address)

theorem fails_readWord (address : Nat) : Fails Ordinary (readWord address) :=
  .bind .get fun m => .lift (m.memory.fails_wordAt address)

theorem fails_setWord (address : Nat) (value : Word) : Fails Ordinary (setWord address value) :=
  .bind .get fun m => .bind (.lift (m.memory.fails_check address 2)) fun _ => .modify

theorem fails_requireDynamic (address width : Nat) :
    Fails Ordinary (requireDynamic address width) := by
  refine .bind .get fun m => ?_
  split
  · exact .throw trivial
  · exact .pure _

theorem fails_writeByte (address : Nat) (value : Byte) : Fails Ordinary (writeByte address value) :=
  .bind (fails_requireDynamic address 1) fun _ => .bind .get fun m =>
    .bind (.lift (m.memory.fails_check address 1)) fun _ => .modify

theorem fails_writeWord (address : Nat) (value : Word) : Fails Ordinary (writeWord address value) :=
  .bind (fails_requireDynamic address 2) fun _ => fails_setWord address value

theorem fails_readString (address : Nat) : Fails Ordinary (readString address) :=
  .bind .get fun m => .lift (ZString.fails_read m.memory m.abbreviations address)

theorem fails_readPackedString (packed : Word) : Fails Ordinary (readPackedString packed) :=
  .bind .get fun m => .lift (ZString.fails_readPacked m.memory m.abbreviations packed)

/-- A change of objects fails for the same reasons as part of a machine. -/
theorem fails_onObjects {α : Type} {x : ObjectM α} (h : Fails Ordinary x) :
    Fails Ordinary (onObjects x) := by
  intro m e failed
  cases run : x.run ⟨m.memory, m.objects⟩ with
  | ok a s =>
    change x ⟨m.memory, m.objects⟩ = _ at run
    simp [answer, EStateM.run, onObjects, run] at failed
  | error fault s =>
    refine h ⟨m.memory, m.objects⟩ e ?_
    rw [answer_of_error run]
    change x ⟨m.memory, m.objects⟩ = _ at run
    simpa [answer, EStateM.run, onObjects, run] using failed

/-! ## Variables -/

theorem fails_popValue : Fails Ordinary popValue :=
  .bind .get fun m => .bind (.lift m.stack.current.fails_pop) fun _ =>
    .bind .modify fun _ => .pure _

theorem fails_readVariable (b : Byte) : Fails Ordinary (readVariable b) := by
  unfold readVariable
  split
  · exact fails_popValue
  · exact .bind .get fun m => .lift (m.stack.current.fails_getLocal _)
  · exact .bind .get fun m => fails_readWord _

theorem fails_writeVariable (b : Byte) (value : Word) : Fails Ordinary (writeVariable b value) := by
  unfold writeVariable
  split
  · exact .modify
  · exact .bind .get fun m => .bind (.lift (m.stack.current.fails_setLocal _ _)) fun _ => .modify
  · exact .bind .get fun m => fails_setWord _ _

theorem fails_readVariableInPlace (b : Byte) : Fails Ordinary (readVariableInPlace b) := by
  unfold readVariableInPlace
  split
  · exact .bind .get fun m => .lift m.stack.current.fails_peek
  · exact fails_readVariable b

theorem fails_writeVariableInPlace (b : Byte) (value : Word) :
    Fails Ordinary (writeVariableInPlace b value) := by
  unfold writeVariableInPlace
  split
  · exact .bind fails_popValue fun _ => .modify
  · exact fails_writeVariable b value

theorem fails_resolveAll (operands : List Operand) : Fails Ordinary (resolveAll operands) := by
  have resolves (o : Operand) : Fails Ordinary (resolve o) := by
    cases o with
    | large value => exact .pure _
    | small value => exact .pure _
    | var number => exact fails_readVariable number
  induction operands with
  | nil => exact .pure []
  | cons o rest ih => exact .bind (resolves o) fun _ => .bind ih fun _ => .pure _

theorem fails_storeResult (value : Word) : Fails Ordinary (storeResult i value) := by
  unfold storeResult
  split
  · exact fails_writeVariable _ _
  · exact .pure _

/-! ## Control -/

theorem fails_leaveRoutine (value : Word) : Fails Ordinary (leaveRoutine value) := by
  refine .bind .get fun m => .bind (.lift m.stack.fails_pop) fun popped => ?_
  dsimp only
  refine .bind .modify fun _ => ?_
  split
  · exact fails_writeVariable _ _
  · exact .pure _

theorem fails_returnWith (value : Word) : Fails Ordinary (returnWith value) :=
  .bind (fails_leaveRoutine value) fun _ => .pure _

theorem fails_call : Fails Ordinary (call i values) := by
  have enters (routine : Nat) (arguments : List Word) (result : Option Byte) :
      Fails Ordinary (enterRoutine routine arguments result) :=
    .bind .get fun m =>
      .bind (.lift (Frame.fails_forCall m.memory routine arguments m.pc result)) fun _ => .modify
  refine .bind (.operand values 0) fun packed => ?_
  split
  · exact .bind (fails_storeResult i 0) fun _ => .pure _
  · exact .bind (enters _ _ _) fun _ => .pure _

theorem fails_jumpBy (offset : Int) (fault : Int → OperandFault) :
    Fails Ordinary (jumpBy offset fault) := by
  refine .bind .get fun m => ?_
  dsimp only
  split
  · exact .bind (.throw trivial) fun _ => .bind .modify fun _ => .pure _
  · exact .bind .modify fun _ => .pure _

theorem fails_branch (condition : Bool) : Fails Ordinary (branch i condition) := by
  unfold branch
  split
  · exact .pure _
  · split
    · exact .pure _
    · split
      · exact fails_returnWith 0
      · split
        · exact fails_returnWith 1
        · exact fails_jumpBy _ _

theorem fails_jump : Fails Ordinary (jump values) :=
  .bind (.operand values 0) fun _ => fails_jumpBy _ _

theorem fails_returnPopped : Fails Ordinary returnPopped :=
  .bind fails_popValue fails_returnWith

/-! ## Arithmetic, comparison and chance -/

theorem fails_unary (f : Word → Word) : Fails Ordinary (unary i values f) :=
  .bind (.operand values 0) fun _ => .bind (fails_storeResult i _) fun _ => .pure _

theorem fails_binary {f : Word → Word → Except Error Word}
    (h : ∀ a b, Except.Fails Ordinary (f a b)) : Fails Ordinary (binary i values f) :=
  .bind (.operand values 0) fun a => .bind (.operand values 1) fun b =>
    .bind (.lift (h a b)) fun _ => .bind (fails_storeResult i _) fun _ => .pure _

theorem fails_divide (a b : Word) : Except.Fails Ordinary (Word.divide a b) := by
  unfold Word.divide
  split
  · exact .error trivial
  · exact .ok _

theorem fails_remainder (a b : Word) : Except.Fails Ordinary (Word.remainder a b) := by
  unfold Word.remainder
  split
  · exact .error trivial
  · exact .ok _

theorem fails_compare (holds : Word → Word → Bool) : Fails Ordinary (compare i values holds) :=
  .bind (.operand values 0) fun _ => .bind (.operand values 1) fun _ => fails_branch i _

theorem fails_branchIfEqual : Fails Ordinary (branchIfEqual i values) := by
  unfold branchIfEqual
  split
  · exact fails_branch i _
  · exact .throw trivial

theorem fails_branchIfZero : Fails Ordinary (branchIfZero i values) :=
  .bind (.operand values 0) fun _ => fails_branch i _

theorem fails_branchIfBitsSet : Fails Ordinary (branchIfBitsSet i values) :=
  .bind (.operand values 1) fun _ => .bind (.operand values 0) fun _ => fails_branch i _

theorem fails_randomNumber : Fails Ordinary (randomNumber i values) := by
  have draws (range : Word) : Fails Ordinary (drawOrReseed range) := by
    unfold drawOrReseed
    split
    · exact .bind .get fun _ => .bind .modify fun _ => .pure _
    · split
      · exact .bind .modify fun _ => .pure _
      · exact .bind .modify fun _ => .pure _
  exact .bind (.operand values 0) fun range => .bind (draws range) fun _ =>
    .bind (fails_storeResult i _) fun _ => .pure _

/-! ## Objects -/

theorem fails_followLink {link : ObjectTable → Nat → Except Error Byte}
    (h : ∀ t id, Except.Fails Ordinary (link t id)) : Fails Ordinary (followLink i values link) :=
  .bind (.operand values 0) fun _ => .bind .get fun _ => .bind (.lift (h _ _)) fun _ =>
    .bind (fails_storeResult i _) fun _ => fails_branch i _

theorem fails_getParent : Fails Ordinary (getParent i values) :=
  .bind (.operand values 0) fun _ => .bind .get fun m => .bind (.lift (m.objects.fails_get _).map)
    fun _ => .bind (fails_storeResult i _) fun _ => .pure _

theorem fails_branchIfInside : Fails Ordinary (branchIfInside i values) :=
  .bind (.operand values 0) fun _ => .bind .get fun m => .bind (.lift (m.objects.fails_get _).map)
    fun _ => .bind (.operand values 1) fun _ => fails_branch i _

theorem fails_removeObject : Fails Ordinary (removeObject values) :=
  .bind (.operand values 0) fun id =>
    .bind (fails_onObjects (ObjectStore.fails_remove id.toNat)) fun _ => .pure _

theorem fails_insertObject : Fails Ordinary (insertObject values) :=
  .bind (.operand values 0) fun id => .bind (.operand values 1) fun parent =>
    .bind (fails_onObjects (ObjectStore.fails_insertInto id.toNat parent.toNat)) fun _ => .pure _

theorem fails_branchIfAttribute : Fails Ordinary (branchIfAttribute i values) :=
  .bind (.operand values 0) fun _ => .bind (.operand values 1) fun _ => .bind .get fun m =>
    .bind (.lift (m.objects.fails_hasAttribute _ _)) fun _ => fails_branch i _

theorem fails_assignAttribute (value : Bool) : Fails Ordinary (assignAttribute values value) :=
  .bind (.operand values 0) fun id => .bind (.operand values 1) fun number =>
    .bind (fails_onObjects (ObjectStore.fails_assignAttribute id.toNat number.toNat value))
      fun _ => .pure _

theorem fails_askProperty {ask : Machine → (id number : Nat) → Except Error Word}
    (h : ∀ m id number, Except.Fails Ordinary (ask m id number)) :
    Fails Ordinary (askProperty i values ask) :=
  .bind (.operand values 0) fun _ => .bind (.operand values 1) fun _ => .bind .get fun m =>
    .bind (.lift (h m _ _)) fun _ => .bind (fails_storeResult i _) fun _ => .pure _

theorem fails_storeDataLength : Fails Ordinary (storeDataLength i values) :=
  .bind (.operand values 0) fun _ => .bind .get fun m =>
    .bind (.lift (ObjectTable.fails_dataLength m.memory _)) fun _ =>
      .bind (fails_storeResult i _) fun _ => .pure _

theorem fails_putProperty : Fails Ordinary (putProperty values) :=
  .bind (.operand values 0) fun id => .bind (.operand values 1) fun number =>
    .bind (.operand values 2) fun value =>
      .bind (fails_onObjects (ObjectStore.fails_putProperty id.toNat number.toNat value))
        fun _ => .pure _

/-! ## Arrays, variables and the value stack -/

theorem fails_wordElement : Except.Fails Ordinary (wordElement values) :=
  .bind (fails_operand values 0) fun _ => .bind (fails_operand values 1) fun _ => .ok _

theorem fails_byteElement : Except.Fails Ordinary (byteElement values) :=
  .bind (fails_operand values 0) fun _ => .bind (fails_operand values 1) fun _ => .ok _

theorem fails_loadWord : Fails Ordinary (loadWord i values) :=
  .bind (.lift (fails_wordElement values)) fun _ => .bind (fails_readWord _) fun _ =>
    .bind (fails_storeResult i _) fun _ => .pure _

theorem fails_loadByte : Fails Ordinary (loadByte i values) :=
  .bind (.lift (fails_byteElement values)) fun _ => .bind (fails_readByte _) fun _ =>
    .bind (fails_storeResult i _) fun _ => .pure _

theorem fails_storeWord : Fails Ordinary (storeWord values) :=
  .bind (.lift (fails_wordElement values)) fun _ => .bind (.operand values 2) fun _ =>
    .bind (fails_writeWord _ _) fun _ => .pure _

theorem fails_storeByte : Fails Ordinary (storeByte values) :=
  .bind (.lift (fails_byteElement values)) fun _ => .bind (.operand values 2) fun _ =>
    .bind (fails_writeByte _ _) fun _ => .pure _

theorem fails_loadVariable : Fails Ordinary (loadVariable i values) :=
  .bind (.operand values 0) fun _ => .bind (fails_readVariableInPlace _) fun _ =>
    .bind (fails_storeResult i _) fun _ => .pure _

theorem fails_storeVariable : Fails Ordinary (storeVariable values) :=
  .bind (.operand values 0) fun _ => .bind (.operand values 1) fun _ =>
    .bind (fails_writeVariable _ _) fun _ => .pure _

theorem fails_adjust (amount : Word) : Fails Ordinary (adjust values amount) :=
  .bind (.operand values 0) fun _ => .bind (fails_readVariableInPlace _) fun _ =>
    .bind (fails_writeVariableInPlace _ _) fun _ => .pure _

theorem fails_increment : Fails Ordinary (increment values) :=
  .bind (fails_adjust values 1) fun _ => .pure _

theorem fails_decrement : Fails Ordinary (decrement values) :=
  .bind (fails_adjust values (-1)) fun _ => .pure _

theorem fails_incrementAndCheck : Fails Ordinary (incrementAndCheck i values) :=
  .bind (fails_adjust values 1) fun _ => .bind (.operand values 1) fun _ => fails_branch i _

theorem fails_decrementAndCheck : Fails Ordinary (decrementAndCheck i values) :=
  .bind (fails_adjust values (-1)) fun _ => .bind (.operand values 1) fun _ => fails_branch i _

theorem fails_push : Fails Ordinary (push values) :=
  .bind (.operand values 0) fun _ => .bind .modify fun _ => .pure _

theorem fails_pull : Fails Ordinary (pull values) :=
  .bind (.operand values 0) fun _ => .bind fails_popValue fun _ =>
    .bind (fails_writeVariable _ _) fun _ => .pure _

theorem fails_pop : Fails Ordinary pop :=
  .bind fails_popValue fun _ => .pure _

/-! ## Typed lines -/

theorem fails_writeBytes (address : Nat) (bytes : List Byte) :
    Fails Ordinary (writeBytes address bytes) := by
  induction bytes generalizing address with
  | nil => exact .pure ()
  | cons b rest ih => exact .bind (fails_writeByte address b) fun _ => ih (address + 1)

theorem fails_writeRecords (address : Nat) (words : List Token) :
    Fails Ordinary (writeRecords address words) := by
  induction words generalizing address with
  | nil => exact .pure ()
  | cons word rest ih =>
    exact .bind (.bind .get fun _ => .bind (fails_writeWord _ _) fun _ =>
      .bind (fails_writeByte _ _) fun _ => fails_writeByte _ _) fun _ => ih _

/-- Whatever is typed, and whatever the dictionary has for separators, the line can be cut. -/
theorem fails_acceptLine (textBuffer parseBuffer : Nat) (line : String) :
    Fails Ordinary (acceptLine textBuffer parseBuffer line) := by
  refine .bind (fails_readByte _) fun capacity => ?_
  dsimp only
  have ascii : ∀ c ∈ (TypedLine.normalise line).take (capacity.toNat - 1), c.toNat < 128 :=
    fun c mem => TypedLine.ascii_normalise c (List.mem_of_mem_take mem)
  exact .bind (.bind (fails_writeBytes _ _) fun _ => fails_writeByte _ 0) fun _ =>
    .bind .get fun m => .bind (.lift (m.dictionary.fails_tokenise ascii)) fun _ =>
      .bind (fails_readByte _) fun _ => .bind (fails_writeByte _ _) fun _ => fails_writeRecords _ _

end Machine
end ZMachine
