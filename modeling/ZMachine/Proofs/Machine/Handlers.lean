import ZMachine.Machine.Arithmetic
import ZMachine.Machine.Chance
import ZMachine.Machine.Objects
import ZMachine.Machine.Storage
import ZMachine.Machine.Typing
import ZMachine.Proofs.Machine.Effect

/-!
# The instructions that concern the machine alone

Each of them except for a call has effects on the machine and then ends in one of the known ways. A
call either does so too, or it enters a routine. What an instruction writes is only what its family
writes: its result, the variable that its first operand names, an element of an array, a buffer, or
objects.

## Main definitions

* `Machine.Calls` — what an instruction does that enters a routine.

## Main statements

* `Machine.call_ends` — what a call does.
* `Machine.finishes_branch` — a branch ends an instruction, also where it leaves the routine.
* `Machine.finishes_compare`, … — the families of instructions.
-/

namespace ZMachine.Machine

variable {W : Write → Prop} {i : Instruction} {values : List Word}

/-! ## Control -/

/-- A return ends by leaving the routine, without another effect before that. -/
theorem finishes_returnWith (value : Word) : Finishes W id (returnWith value) := by
  intro m
  cases run : (leaveRoutine value).run m with
  | ok u m' =>
    rw [returnWith, answer_bind_of_ok run, finalState_bind_of_ok run]
    exact ⟨m, .refl, .returned run⟩
  | error e m' =>
    rw [returnWith, answer_bind_of_error run, finalState_bind_of_error run]
    exact ⟨m, .refl, .returnFailed run⟩

/-- A jump ends by going on elsewhere, and writes nothing. -/
theorem finishes_jumpBy (offset : Int) (fault : Int → OperandFault) :
    Finishes W id (jumpBy offset fault) := by
  refine .bind .get fun m => ?_
  dsimp only
  split
  · exact .throw _
  · exact fun s => ⟨s, .refl, .branched _⟩

/-- A branch ends an instruction, also where it leaves the routine. -/
theorem finishes_branch (condition : Bool) : Finishes W id (branch i condition) := by
  unfold branch
  split
  · exact .advanced
  · split
    · exact .advanced
    · split
      · exact finishes_returnWith 0
      · split
        · exact finishes_returnWith 1
        · exact finishes_jumpBy _ _

theorem finishes_jump : Finishes W id (jump values) :=
  .bind (.lift _) fun _ => finishes_jumpBy _ _

theorem finishes_returnPopped : Finishes W id returnPopped :=
  .bind acts_popValue finishes_returnWith

/-! ## Calls -/

/-- Entering the routine that the first value names, with the other values as arguments. -/
def Calls (i : Instruction) (values : List Word) (m m' : Machine) : Prop :=
  ∃ packed f start, values[0]? = some packed ∧ packed ≠ 0 ∧
    Frame.forCall m.memory (2 * packed.toNat) values.tail m.pc i.store = .ok (f, start) ∧
    m' = { m with stack := m.stack.push f, pc := start }

/-- An operand is taken iff there is a value for it. -/
theorem operand_eq_ok {values : List Word} {index : Nat} {value : Word} :
    operand values index = .ok value ↔ values[index]? = some value := by
  unfold operand
  split <;> simp_all

/-- A routine is entered with a new frame above the others, and nothing else changes. -/
theorem run_enterRoutine (routine : Nat) (arguments : List Word) (result : Option Byte)
    (m : Machine) :
    (enterRoutine routine arguments result).run m =
      match Frame.forCall m.memory routine arguments m.pc result with
      | .ok (f, start) => .ok () { m with stack := m.stack.push f, pc := start }
      | .error e => .error e m := by
  rw [enterRoutine, EStateM.run_bind, EStateM.run_get]
  dsimp only
  rw [EStateM.run_bind, EStateM.run_lift]
  cases Frame.forCall m.memory routine arguments m.pc result <;> rfl

/-- Only the call of address 0 writes anything: its result. -/
theorem call_ends (values : List Word) (result : Covers W i.store) (m : Machine) :
    (∃ m', Effects W m m' ∧ Ends m' (answer (call i values) m) (finalState (call i values) m)) ∨
      answer (call i values) m = .ok .called ∧ Calls i values m (finalState (call i values) m) := by
  cases first : operand values 0 with
  | error e =>
    have run : (monadLift (operand values 0) : MachineM Word).run m = .error e m := by
      rw [EStateM.run_lift, first]
    rw [call, answer_bind_of_error run, finalState_bind_of_error run]
    exact .inl ⟨m, .refl, .failed e⟩
  | ok packed =>
    have run : (monadLift (operand values 0) : MachineM Word).run m = .ok packed m := by
      rw [EStateM.run_lift, first]
    rw [call, answer_bind_of_ok run, finalState_bind_of_ok run]
    by_cases zero : packed = 0
    · rw [if_pos zero]
      exact .inl ((Finishes.bind (acts_storeResult 0 result) fun _ => .advanced) m)
    · rw [if_neg zero]
      cases made : Frame.forCall m.memory (2 * packed.toNat) values.tail m.pc i.store with
      | error e =>
        have run : (enterRoutine (2 * packed.toNat) values.tail i.store).run m = .error e m := by
          rw [run_enterRoutine, made]
        rw [answer_bind_of_error run, finalState_bind_of_error run]
        exact .inl ⟨m, .refl, .failed e⟩
      | ok entry =>
        obtain ⟨f, start⟩ := entry
        have run : (enterRoutine (2 * packed.toNat) values.tail i.store).run m =
            .ok () { m with stack := m.stack.push f, pc := start } := by
          rw [run_enterRoutine, made]
        rw [answer_bind_of_ok run, finalState_bind_of_ok run]
        exact .inr ⟨rfl, packed, f, start, operand_eq_ok.mp first, zero, made, rfl⟩

/-! ## Arithmetic and comparison -/

theorem finishes_unary (f : Word → Word) (result : Covers W i.store) :
    Finishes W id (unary i values f) :=
  .bind (.lift _) fun _ => .bind (acts_storeResult _ result) fun _ => .advanced

theorem finishes_binary (f : Word → Word → Except Error Word)
    (result : Covers W i.store) : Finishes W id (binary i values f) :=
  .bind (.lift _) fun _ => .bind (.lift _) fun _ => .bind (.lift _) fun _ =>
    .bind (acts_storeResult _ result) fun _ => .advanced

theorem finishes_compare (holds : Word → Word → Bool) :
    Finishes W id (compare i values holds) :=
  .bind (.lift _) fun _ => .bind (.lift _) fun _ => finishes_branch _

theorem finishes_branchIfEqual : Finishes W id (branchIfEqual i values) := by
  unfold branchIfEqual
  split
  · exact finishes_branch _
  · exact .throw _

theorem finishes_branchIfZero : Finishes W id (branchIfZero i values) :=
  .bind (.lift _) fun _ => finishes_branch _

theorem finishes_branchIfBitsSet : Finishes W id (branchIfBitsSet i values) :=
  .bind (.lift _) fun _ => .bind (.lift _) fun _ => finishes_branch _

/-! ## Chance -/

theorem acts_drawOrReseed (range : Word) : Acts W id (drawOrReseed range) := by
  unfold drawOrReseed
  split
  · exact fun m => .single (.sow _)
  · split
    · exact fun m => .single (.sow _)
    · exact fun m => .single (.sow _)

theorem finishes_randomNumber (result : Covers W i.store) :
    Finishes W id (randomNumber i values) :=
  .bind (.lift _) fun range => .bind (acts_drawOrReseed range) fun _ =>
    .bind (acts_storeResult _ result) fun _ => .advanced

/-! ## Objects -/

theorem finishes_followLink (link : ObjectTable → Nat → Except Error Byte)
    (result : Covers W i.store) : Finishes W id (followLink i values link) :=
  .bind (.lift _) fun _ => .bind .get fun _ => .bind (.lift _) fun _ =>
    .bind (acts_storeResult _ result) fun _ => finishes_branch _

theorem finishes_getParent (result : Covers W i.store) :
    Finishes W id (getParent i values) :=
  .bind (.lift _) fun _ => .bind .get fun _ => .bind (.lift _) fun _ =>
    .bind (acts_storeResult _ result) fun _ => .advanced

theorem finishes_branchIfInside : Finishes W id (branchIfInside i values) :=
  .bind (.lift _) fun _ => .bind .get fun _ => .bind (.lift _) fun _ =>
    .bind (.lift _) fun _ => finishes_branch _

theorem finishes_removeObject
    (may : ∀ object, values[0]? = some object → W (.objects (.remove object.toNat))) :
    Finishes W id (removeObject values) :=
  .lift_bind fun object first =>
    .bind (acts_onObjects (.remove object.toNat) (may object (operand_eq_ok.mp first))) fun _ =>
      .advanced

theorem finishes_insertObject
    (may : ∀ object parent, values[0]? = some object → values[1]? = some parent →
      W (.objects (.insertInto object.toNat parent.toNat))) :
    Finishes W id (insertObject values) :=
  .lift_bind fun object first => .lift_bind fun parent second =>
    .bind (acts_onObjects (.insertInto object.toNat parent.toNat)
      (may object parent (operand_eq_ok.mp first) (operand_eq_ok.mp second))) fun _ => .advanced

theorem finishes_branchIfAttribute : Finishes W id (branchIfAttribute i values) :=
  .bind (.lift _) fun _ => .bind (.lift _) fun _ => .bind .get fun _ =>
    .bind (.lift _) fun _ => finishes_branch _

theorem finishes_assignAttribute (value : Bool)
    (may : ∀ object number, values[0]? = some object → values[1]? = some number →
      W (.objects (.assignAttribute object.toNat number.toNat value))) :
    Finishes W id (assignAttribute values value) :=
  .lift_bind fun object first => .lift_bind fun number second =>
    .bind (acts_onObjects (.assignAttribute object.toNat number.toNat value)
      (may object number (operand_eq_ok.mp first) (operand_eq_ok.mp second))) fun _ => .advanced

theorem finishes_askProperty (ask : Machine → (id number : Nat) → Except Error Word)
    (result : Covers W i.store) : Finishes W id (askProperty i values ask) :=
  .bind (.lift _) fun _ => .bind (.lift _) fun _ => .bind .get fun _ =>
    .bind (.lift _) fun _ => .bind (acts_storeResult _ result) fun _ => .advanced

theorem finishes_storeDataLength (result : Covers W i.store) :
    Finishes W id (storeDataLength i values) :=
  .bind (.lift _) fun _ => .bind .get fun _ => .bind (.lift _) fun _ =>
    .bind (acts_storeResult _ result) fun _ => .advanced

theorem finishes_putProperty
    (may : ∀ object number value, values[0]? = some object → values[1]? = some number →
      W (.objects (.putProperty object.toNat number.toNat value))) :
    Finishes W id (putProperty values) :=
  .lift_bind fun object first => .lift_bind fun number second => .bind (.lift _) fun value =>
    .bind (acts_onObjects (.putProperty object.toNat number.toNat value)
      (may object number value (operand_eq_ok.mp first) (operand_eq_ok.mp second))) fun _ =>
      .advanced

/-! ## Arrays, variables and the value stack -/

def named? (values : List Word) : Option Byte :=
  values[0]?.map Word.lowByte

/-- The variable that an operand names is that of its value. -/
theorem Covers.of_operand {named : Word} (may : Covers W (named? values))
    (first : operand values 0 = .ok named) : Covers W (some named.lowByte) := by
  rwa [named?, operand_eq_ok.mp first] at may

theorem finishes_loadWord (result : Covers W i.store) :
    Finishes W id (loadWord i values) :=
  .bind (.lift _) fun _ => .bind (acts_readWord _) fun _ =>
    .bind (acts_storeResult _ result) fun _ => .advanced

theorem finishes_loadByte (result : Covers W i.store) :
    Finishes W id (loadByte i values) :=
  .bind (.lift _) fun _ => .bind (acts_readByte _) fun _ =>
    .bind (acts_storeResult _ result) fun _ => .advanced

theorem finishes_storeWord (may : ∀ address, wordElement values = .ok address → W (.word address)) :
    Finishes W id (storeWord values) :=
  .lift_bind fun address element => .bind (.lift _) fun _ =>
    .bind (acts_writeWord _ (may address element)) fun _ => .advanced

theorem finishes_storeByte (may : ∀ address, byteElement values = .ok address → W (.byte address)) :
    Finishes W id (storeByte values) :=
  .lift_bind fun address element => .bind (.lift _) fun _ =>
    .bind (acts_writeByte _ (may address element)) fun _ => .advanced

theorem finishes_loadVariable (result : Covers W i.store) :
    Finishes W id (loadVariable i values) :=
  .bind (.lift _) fun _ => .bind (acts_readVariableInPlace _) fun _ =>
    .bind (acts_storeResult _ result) fun _ => .advanced

theorem finishes_storeVariable
    (may : Covers W (named? values)) :
    Finishes W id (storeVariable values) :=
  .lift_bind fun _ first => .bind (.lift _) fun _ =>
    .bind (acts_writeVariable _ (may.of_operand first)) fun _ => .advanced

/-- The variable that the first operand names is written where it is. -/
theorem acts_adjust (amount : Word)
    (may : Covers W (named? values)) :
    Acts W id (adjust values amount) :=
  .lift_bind fun _ first => .bind (acts_readVariableInPlace _) fun _ =>
    .bind (acts_writeVariableInPlace _ (may.of_operand first)) fun _ => .pure _

theorem finishes_increment (may : Covers W (named? values)) :
    Finishes W id (increment values) :=
  .bind (acts_adjust 1 may) fun _ => .advanced

theorem finishes_decrement (may : Covers W (named? values)) :
    Finishes W id (decrement values) :=
  .bind (acts_adjust (-1) may) fun _ => .advanced

theorem finishes_incrementAndCheck
    (may : Covers W (named? values)) :
    Finishes W id (incrementAndCheck i values) :=
  .bind (acts_adjust 1 may) fun _ => .bind (.lift _) fun _ => finishes_branch _

theorem finishes_decrementAndCheck
    (may : Covers W (named? values)) :
    Finishes W id (decrementAndCheck i values) :=
  .bind (acts_adjust (-1) may) fun _ => .bind (.lift _) fun _ => finishes_branch _

theorem finishes_push : Finishes W id (push values) :=
  .bind (.lift _) fun _ => .bind (acts_pushValue _) fun _ => .advanced

theorem finishes_pull (may : Covers W (named? values)) :
    Finishes W id (pull values) :=
  .lift_bind fun _ first => .bind acts_popValue fun _ =>
    .bind (acts_writeVariable _ (may.of_operand first)) fun _ => .advanced

theorem finishes_pop : Finishes W id pop :=
  .bind acts_popValue fun _ => .advanced

/-! ## Typed lines -/

/-- Bytes are written one after another, as far as memory allows. -/
theorem acts_writeBytes {address : Nat} {bytes : List Byte}
    (may : ∀ a, address ≤ a → a < address + bytes.length → W (.byte a)) :
    Acts W id (writeBytes address bytes) := by
  induction bytes generalizing address with
  | nil => exact .pure ()
  | cons b rest ih =>
    rw [List.length_cons] at may
    exact .bind (acts_writeByte b (may address (Nat.le_refl _) (by omega))) fun _ =>
      ih fun a low high => may a (by omega) (by omega)

/-- A text and the zero after it lie behind the first byte of the buffer. -/
theorem acts_writeText {buffer : Nat} {text : List Char}
    (may : ∀ a, buffer < a → a ≤ buffer + 1 + text.length → W (.byte a)) :
    Acts W id (writeText buffer text) := by
  refine .bind (acts_writeBytes fun a low high => ?_) fun _ => acts_writeByte 0 ?_
  · rw [List.length_map] at high
    exact may a (by omega) (by omega)
  · exact may _ (by omega) (Nat.le_refl _)

/-- Records are written one after another, each as two bytes between words. -/
theorem acts_writeRecords {address : Nat} {words : List Token}
    (bytes : ∀ a, address ≤ a → a < address + recordLength * words.length → W (.byte a))
    (heads : ∀ a, address ≤ a → a < address + recordLength * words.length → W (.word a)) :
    Acts W id (writeRecords address words) := by
  induction words generalizing address with
  | nil => exact .pure ()
  | cons word rest ih =>
    rw [List.length_cons, Nat.mul_succ, recordLength] at bytes heads
    have record : Acts W id (writeRecord address word) :=
      .bind .get fun _ =>
        .bind (acts_writeWord _ (heads address (Nat.le_refl _) (by omega))) fun _ =>
          .bind (acts_writeByte _ (bytes _ (by omega) (by omega))) fun _ =>
            acts_writeByte _ (bytes _ (by omega) (by omega))
    refine .bind record fun _ => ih (fun a low high => bytes a ?_ ?_)
      fun a low high => heads a ?_ ?_ <;>
    · rw [recordLength] at low high
      omega

/-- Each of the two buffers holds up to 255 bytes or records, and is written behind its first
byte. -/
theorem acts_acceptLine {textBuffer parseBuffer : Nat} (line : String)
    (text : ∀ a, textBuffer < a → a ≤ textBuffer + 255 → W (.byte a))
    (parse : ∀ a, parseBuffer < a → a < parseBuffer + 2 + recordLength * 255 →
      W (.byte a) ∧ W (.word a)) :
    Acts W id (acceptLine textBuffer parseBuffer line) := by
  refine .bind (acts_readByte _) fun room => .bind (acts_writeText fun a low high => ?_) fun _ =>
    .bind .get fun _ => .bind (.lift _) fun words => .bind (acts_readByte _) fun most =>
      .bind (acts_writeByte _ ?_) fun _ => acts_writeRecords (fun a low high => ?_)
        fun a low high => ?_
  · have := room.toNat_lt
    rw [List.length_take] at high
    exact text a low (by omega)
  · exact (parse _ (by omega) (by rw [recordLength]; omega)).1
  all_goals
    have := most.toNat_lt
    rw [List.length_take, recordLength] at high
    have both := parse a (by omega) (by rw [recordLength]; omega)
  · exact both.1
  · exact both.2

end ZMachine.Machine
