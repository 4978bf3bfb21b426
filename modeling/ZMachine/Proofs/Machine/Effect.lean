import Mathlib.Logic.Relation
import ZMachine.Machine.Control
import ZMachine.Proofs.Action

/-!
# What an instruction can do to a machine

Whatever an instruction does to the machine before it decides where to go on is a sequence of a few
kinds of effects. How it then leaves the flow of control is one of a few ways as well. Facts about
all instructions follow from these two lists, and from what each instruction can write.

## Main definitions

* `Machine.Write` — what an effect can write other than the values of a frame.
* `Machine.Effect`, `Machine.Effects` — one change that an instruction can make, and many of them,
  where only certain writes are made.
* `Machine.Ends` — the ways in which an instruction other than a call ends.
* `Machine.Acts`, `Machine.Finishes` — an action has only effects, and ends in one of these ways.

## Main statements

* `Machine.Acts.bind`, `Machine.Finishes.bind` — an action made of parts.
* `Machine.acts_writeVariable`, … — the actions that the instructions are made of.
-/

namespace ZMachine

inductive ObjectChange where
  | remove (id : Nat)
  | insertInto (id parent : Nat)
  | assignAttribute (id number : Nat) (value : Bool)
  | putProperty (id number : Nat) (value : Word)

def ObjectChange.action : ObjectChange → ObjectM Unit
  | remove id => ObjectStore.remove id
  | insertInto id parent => ObjectStore.insertInto id parent
  | assignAttribute id number value => ObjectStore.assignAttribute id number value
  | putProperty id number value => ObjectStore.putProperty id number value

namespace Machine

variable {σ α β : Type}

/-! ## Effects -/

def objectStore (m : Machine) : ObjectStore :=
  ⟨m.memory, m.objects⟩

def withStore (m : Machine) (s : ObjectStore) : Machine :=
  { m with memory := s.memory, objects := s.table }

def withFrame (m : Machine) (f : Frame) : Machine :=
  { m with stack := m.stack.setCurrent f }

inductive Write where
  | global (index : Nat)
  | byte (address : Nat)
  | word (address : Nat)
  | objects (change : ObjectChange)

/-- One change to a machine, which writes nothing but what is in `W`. None of them moves the program
counter or the depth of the stack. -/
inductive Effect (W : Write → Prop) (m : Machine) : Machine → Prop
  | push (value : Word) : Effect W m (m.withFrame (m.stack.current.push value))
  | pop {value : Word} {f : Frame} (h : m.stack.current.pop = .ok (value, f)) :
      Effect W m (m.withFrame f)
  | assignLocal {number : Nat} {value : Word} {f : Frame}
      (h : m.stack.current.setLocal number value = .ok f) : Effect W m (m.withFrame f)
  | assignGlobal {index : Nat} (value : Word) (may : W (.global index)) (few : index < 240)
      (inside : m.globalAddress index + 2 ≤ m.memory.size) :
      Effect W m { m with memory := m.memory.putWord (m.globalAddress index) value }
  | writeByte {address : Nat} (value : Byte) (may : W (.byte address))
      (dynamic : address + 1 ≤ m.header.dynamicLimit) (inside : address + 1 ≤ m.memory.size) :
      Effect W m { m with memory := m.memory.put address value }
  | writeWord {address : Nat} (value : Word) (may : W (.word address))
      (dynamic : address + 2 ≤ m.header.dynamicLimit) (inside : address + 2 ≤ m.memory.size) :
      Effect W m { m with memory := m.memory.putWord address value }
  | objects (change : ObjectChange) (may : W (.objects change)) :
      Effect W m (m.withStore (finalState change.action m.objectStore))
  | sow (random : Random) : Effect W m { m with random }

abbrev Effects (W : Write → Prop) : Machine → Machine → Prop :=
  Relation.ReflTransGen (Effect W)

/-- Effects that make only certain writes make only the writes of a larger family. -/
theorem Effects.mono {W W' : Write → Prop} {m m' : Machine} (h : Effects W m m')
    (imp : ∀ w, W w → W' w) : Effects W' m m' := by
  refine Relation.ReflTransGen.mono (fun _ _ effect => ?_) _ _ h
  cases effect with
  | push value => exact .push value
  | pop popped => exact .pop popped
  | assignLocal set => exact .assignLocal set
  | assignGlobal value may few inside => exact .assignGlobal value (imp _ may) few inside
  | writeByte value may dynamic inside => exact .writeByte value (imp _ may) dynamic inside
  | writeWord value may dynamic inside => exact .writeWord value (imp _ may) dynamic inside
  | objects change may => exact .objects change (imp _ may)
  | sow random => exact .sow random

/-- How an instruction ends: by going on after itself or elsewhere, by leaving its routine, by
ending the story, or with a failure. A failure may also come after the routine was left. -/
inductive Ends (m : Machine) : Except Error Outcome → Machine → Prop
  | advanced : Ends m (.ok .advanced) m
  | quit : Ends m (.ok .quit) m
  | branched (target : Nat) : Ends m (.ok .branched) { m with pc := target }
  | returned {value : Word} {m' : Machine} (h : (leaveRoutine value).run m = .ok () m') :
      Ends m (.ok (.returned value)) m'
  | failed (e : Error) : Ends m (.error e) m
  | returnFailed {value : Word} {e : Error} {m' : Machine}
      (h : (leaveRoutine value).run m = .error e m') : Ends m (.error e) m'

/-! ## Actions -/

/-- The write to a variable, if there is one. Only a global lies in memory. -/
inductive Write.InVariable : Option Byte → Write → Prop
  | global {b : Byte} {index : Nat} (named : Variable.ofByte b = .globalVar index) :
      InVariable (some b) (.global index)

def Covers (W : Write → Prop) (variableByte : Option Byte) : Prop :=
  ∀ w, Write.InVariable variableByte w → W w

/-- No write is left out, where it does not matter what is written. -/
def Write.Any (_ : Write) : Prop :=
  True

theorem Covers.any {b : Option Byte} : Covers Write.Any b :=
  fun _ _ => trivial

/-- An action on a state with a machine in it only has effects on the machine, and makes only the
writes in `W`. -/
def Acts (W : Write → Prop) (view : σ → Machine) (x : EStateM Error σ α) : Prop :=
  ∀ s, Effects W (view s) (view (finalState x s))

/-- An action has effects on the machine, and then ends as an instruction does. -/
def Finishes (W : Write → Prop) (view : σ → Machine) (x : EStateM Error σ Outcome) : Prop :=
  ∀ s, ∃ m, Effects W (view s) m ∧ Ends m (answer x s) (view (finalState x s))

variable {W : Write → Prop} {view : σ → Machine} {x : EStateM Error σ α}
  {f : α → EStateM Error σ β}

namespace Acts

theorem pure (a : α) : Acts W view (Pure.pure a : EStateM Error σ α) :=
  fun _ => .refl

theorem throw (e : Error) : Acts W view (MonadExcept.throw e : EStateM Error σ α) :=
  fun _ => .refl

theorem get : Acts W view (MonadState.get : EStateM Error σ σ) :=
  fun _ => .refl

/-- A computation without a state. -/
theorem lift (x : Except Error α) : Acts W view (monadLift x : EStateM Error σ α) := by
  intro s
  rw [finalState, EStateM.run_lift]
  cases x <;> exact .refl

/-- Effects of one action and then of the next. -/
theorem bind (hx : Acts W view x) (hf : ∀ a, Acts W view (f a)) : Acts W view (x >>= f) := by
  intro s
  have first := hx s
  cases run : x.run s with
  | ok a s' =>
    rw [finalState_of_ok run] at first
    rw [finalState_bind_of_ok run]
    exact first.trans (hf a s')
  | error e s' =>
    rw [finalState_of_error run] at first
    rwa [finalState_bind_of_error run]

/-- A computation without a state, and what is done with its value. -/
theorem lift_bind {x : Except Error β} {f : β → EStateM Error σ α}
    (hf : ∀ b, x = .ok b → Acts W view (f b)) : Acts W view (monadLift x >>= f) := by
  cases x with
  | ok b => exact hf b rfl
  | error e => exact .throw e

end Acts

namespace Finishes

theorem advanced : Finishes W view (pure .advanced) :=
  fun _ => ⟨_, .refl, .advanced⟩

theorem quit : Finishes W view (pure .quit) :=
  fun _ => ⟨_, .refl, .quit⟩

theorem throw (e : Error) : Finishes W view (MonadExcept.throw e) :=
  fun _ => ⟨_, .refl, .failed e⟩

/-- Effects may come before the end of an instruction. -/
theorem bind {f : α → EStateM Error σ Outcome} (hx : Acts W view x)
    (hf : ∀ a, Finishes W view (f a)) : Finishes W view (x >>= f) := by
  intro s
  have first := hx s
  cases run : x.run s with
  | ok a s' =>
    rw [finalState_of_ok run] at first
    obtain ⟨m, effects, ends⟩ := hf a s'
    rw [finalState_bind_of_ok run, answer_bind_of_ok run]
    exact ⟨m, first.trans effects, ends⟩
  | error e s' =>
    rw [finalState_of_error run] at first
    rw [finalState_bind_of_error run, answer_bind_of_error run]
    exact ⟨_, first, .failed e⟩

theorem lift_bind {x : Except Error β} {f : β → EStateM Error σ Outcome}
    (hf : ∀ b, x = .ok b → Finishes W view (f b)) : Finishes W view (monadLift x >>= f) := by
  cases x with
  | ok b => exact hf b rfl
  | error e => exact .throw e

end Finishes

/-! ## The parts of instructions -/

theorem run_pushValue (m : Machine) (value : Word) :
    (pushValue value).run m = .ok () (m.withFrame (m.stack.current.push value)) := rfl

theorem run_popValue (m : Machine) :
    popValue.run m =
      match m.stack.current.pop with
      | .ok (value, f) => .ok value (m.withFrame f)
      | .error e => .error e m := by
  rw [popValue, EStateM.run_bind, EStateM.run_get]
  dsimp only
  rw [EStateM.run_bind, EStateM.run_lift]
  cases m.stack.current.pop <;> rfl

theorem run_writeLocal (m : Machine) (number : Nat) (value : Word) :
    (writeLocal number value).run m =
      match m.stack.current.setLocal number value with
      | .ok f => .ok () (m.withFrame f)
      | .error e => .error e m := by
  rw [writeLocal, EStateM.run_bind, EStateM.run_get]
  dsimp only
  rw [EStateM.run_bind, EStateM.run_lift]
  cases m.stack.current.setLocal number value <;> rfl

theorem run_setWord (m : Machine) (address : Nat) (value : Word) :
    (setWord address value).run m =
      if address + 2 ≤ m.memory.size then
        .ok () { m with memory := m.memory.putWord address value }
      else .error (.memoryOutOfRange address m.memory.size) m := by
  rw [setWord, EStateM.run_bind, EStateM.run_get]
  dsimp only
  rw [EStateM.run_bind, EStateM.run_lift, Memory.check]
  by_cases inside : address + 2 ≤ m.memory.size
  · rw [if_pos inside, if_pos inside]
    rfl
  · rw [if_neg inside, if_neg inside]

theorem run_requireDynamic (m : Machine) (address width : Nat) :
    (requireDynamic address width).run m =
      if address + width ≤ m.header.dynamicLimit then .ok () m
      else .error (.writeOutsideDynamicMemory address) m := by
  rw [requireDynamic, EStateM.run_bind, EStateM.run_get]
  dsimp only
  split <;> split <;> first | rfl | omega

/-- A byte is written inside dynamic memory, or nothing is. -/
theorem run_writeByte (m : Machine) (address : Nat) (value : Byte) :
    (writeByte address value).run m =
      if address + 1 ≤ m.header.dynamicLimit then
        if address + 1 ≤ m.memory.size then
          .ok () { m with memory := m.memory.put address value }
        else .error (.memoryOutOfRange address m.memory.size) m
      else .error (.writeOutsideDynamicMemory address) m := by
  rw [writeByte, EStateM.run_bind, run_requireDynamic]
  by_cases dynamic : address + 1 ≤ m.header.dynamicLimit
  · rw [if_pos dynamic, if_pos dynamic]
    dsimp only
    rw [EStateM.run_bind, EStateM.run_get]
    dsimp only
    rw [EStateM.run_bind, EStateM.run_lift, Memory.check]
    by_cases inside : address + 1 ≤ m.memory.size
    · rw [if_pos inside, if_pos inside]
      rfl
    · rw [if_neg inside, if_neg inside]
  · rw [if_neg dynamic, if_neg dynamic]

theorem run_writeWord (m : Machine) (address : Nat) (value : Word) :
    (writeWord address value).run m =
      if address + 2 ≤ m.header.dynamicLimit then
        if address + 2 ≤ m.memory.size then
          .ok () { m with memory := m.memory.putWord address value }
        else .error (.memoryOutOfRange address m.memory.size) m
      else .error (.writeOutsideDynamicMemory address) m := by
  rw [writeWord, EStateM.run_bind, run_requireDynamic]
  by_cases dynamic : address + 2 ≤ m.header.dynamicLimit
  · rw [if_pos dynamic, if_pos dynamic]
    exact run_setWord m address value
  · rw [if_neg dynamic, if_neg dynamic]

/-- What is done to objects changes the objects and memory, and nothing else. -/
theorem run_onObjects (m : Machine) (x : ObjectM α) :
    (onObjects x).run m =
      match x.run m.objectStore with
      | .ok a s => .ok a (m.withStore s)
      | .error e s => .error e (m.withStore s) := rfl

theorem acts_pushValue (value : Word) : Acts W id (pushValue value) :=
  fun _ => .single (.push value)

theorem acts_popValue : Acts W id popValue := by
  intro m
  rw [finalState, run_popValue]
  cases top : m.stack.current.pop with
  | ok popped => exact .single (.pop top)
  | error e => exact .refl

theorem acts_writeLocal (number : Nat) (value : Word) : Acts W id (writeLocal number value) := by
  intro m
  rw [finalState, run_writeLocal]
  cases set : m.stack.current.setLocal number value with
  | ok f => exact .single (.assignLocal set)
  | error e => exact .refl

/-- Writing a global that there is makes that one write. -/
theorem acts_writeGlobal {index : Nat} (value : Word) (few : index < 240)
    (may : W (.global index)) : Acts W id (writeGlobal index value) := by
  intro m
  rw [finalState, writeGlobal, EStateM.run_bind, EStateM.run_get]
  dsimp only
  rw [run_setWord]
  by_cases inside : m.globalAddress index + 2 ≤ m.memory.size
  · rw [if_pos inside]
    exact .single (.assignGlobal value may few inside)
  · simp only [if_neg inside]
    exact .refl

theorem acts_writeByte {address : Nat} (value : Byte) (may : W (.byte address)) :
    Acts W id (writeByte address value) := by
  intro m
  rw [finalState, run_writeByte]
  split_ifs with dynamic inside
  · exact .single (.writeByte value may dynamic inside)
  · exact .refl
  · exact .refl

theorem acts_writeWord {address : Nat} (value : Word) (may : W (.word address)) :
    Acts W id (writeWord address value) := by
  intro m
  rw [finalState, run_writeWord]
  split_ifs with dynamic inside
  · exact .single (.writeWord value may dynamic inside)
  · exact .refl
  · exact .refl

/-- A change of objects is one write, even when it fails half-way. -/
theorem acts_onObjects (change : ObjectChange) (may : W (.objects change)) :
    Acts W id (onObjects change.action) := by
  intro m
  have effect : Effects W m (m.withStore (finalState change.action m.objectStore)) :=
    .single (.objects change may)
  rw [finalState] at effect
  rw [finalState, run_onObjects]
  cases run : change.action.run m.objectStore <;> rw [run] at effect <;> exact effect

/-! ## Reading memory, variables and operands -/

theorem acts_readWord (address : Nat) : Acts W id (readWord address) :=
  .bind .get fun _ => .lift _

theorem acts_readByte (address : Nat) : Acts W id (readByte address) :=
  .bind .get fun _ => .lift _

theorem acts_readString (address : Nat) : Acts W id (readString address) :=
  .bind .get fun _ => .lift _

theorem acts_readPackedString (packed : Word) : Acts W id (readPackedString packed) :=
  .bind .get fun _ => .lift _

/-- Only the bytes from 16 on name globals. -/
theorem ofByte_eq_globalVar {b : Byte} {index : Nat} (h : Variable.ofByte b = .globalVar index) :
    16 ≤ b ∧ index = b.toNat - 16 := by
  unfold Variable.ofByte at h
  split at h
  · cases h
  · split at h
    · cases h
    · next high =>
      cases h
      exact ⟨UInt8.not_lt.mp high, rfl⟩

/-- A byte names no global that there is not. -/
theorem index_lt_of_ofByte {b : Byte} {index : Nat} (h : Variable.ofByte b = .globalVar index) :
    index < 240 := by
  obtain ⟨-, rfl⟩ := ofByte_eq_globalVar h
  have := b.toNat_lt
  omega

theorem acts_readVariable (b : Byte) : Acts W id (readVariable b) := by
  unfold readVariable
  split
  · exact acts_popValue
  · exact .bind .get fun _ => .lift _
  · exact .bind .get fun _ => acts_readWord _

/-- Writing a variable writes to memory only if it is a global. -/
theorem acts_writeVariable {b : Byte} (value : Word) (may : Covers W (some b)) :
    Acts W id (writeVariable b value) := by
  unfold writeVariable
  split
  · exact acts_pushValue value
  · exact acts_writeLocal _ value
  · next named => exact acts_writeGlobal value (index_lt_of_ofByte named) (may _ (.global named))

theorem acts_readVariableInPlace (b : Byte) : Acts W id (readVariableInPlace b) := by
  unfold readVariableInPlace
  split
  · exact .bind .get fun _ => .lift _
  · exact acts_readVariable b

theorem acts_writeVariableInPlace {b : Byte} (value : Word) (may : Covers W (some b)) :
    Acts W id (writeVariableInPlace b value) := by
  unfold writeVariableInPlace
  split
  · exact .bind acts_popValue fun _ => acts_pushValue value
  · exact acts_writeVariable value may

theorem acts_resolve (o : Operand) : Acts W id (resolve o) := by
  cases o with
  | large value => exact .pure _
  | small value => exact .pure _
  | var number => exact acts_readVariable number

theorem acts_resolveAll (operands : List Operand) : Acts W id (resolveAll operands) := by
  induction operands with
  | nil => exact .pure _
  | cons o rest ih => exact .bind (acts_resolve o) fun _ => .bind ih fun _ => .pure _

/-- Storing a result writes only to the variable that the instruction names. -/
theorem acts_storeResult {i : Instruction} (value : Word)
    (may : Covers W i.store) : Acts W id (storeResult i value) := by
  unfold storeResult
  split
  · next b wanted => exact acts_writeVariable value (wanted ▸ may)
  · exact .pure ()

end Machine
end ZMachine
