import Mathlib.Logic.Function.Basic
import ZMachine.Proofs.Machine.Access

/-!
# The spaces of variables

A program sees three kinds of variables: the locals of the running routine, its stack, and the
globals. The machine keeps the first two in one array for each frame, and the globals in memory. A
machine that keeps all of them apart gives the same answers.

## Main definitions

* `Scope` — the locals of a routine, and its stack, apart from each other.
* `Spaces` — the scopes of the open calls, and the globals.
* `Access` — what a program does with variables and frames, `Machine.access` and `Spaces.access` —
  what comes of it.
* `Machine.spaces` — the variables of a machine.

## Main statements

* `Frame.push_scope`, `Frame.pop_scope` — the locals of a frame are no part of its stack.
* `Machine.access_spaces` — an access does to the variables of a machine what it does to its spaces.
* `Machine.access_of_error` — an access that fails changes nothing.
-/

namespace ZMachine

/-! ## Variables kept apart -/

/-- The variables of a call of a routine. The top of the stack is its head. -/
structure Scope where
  routine : Nat
  locals : List Word
  stack : List Word

namespace Scope

def push (s : Scope) (value : Word) : Scope :=
  { s with stack := value :: s.stack }

def peek (s : Scope) : Except Error Word :=
  match s.stack with
  | value :: _ => .ok value
  | [] => .error (.stackUnderflow s.routine)

def pop (s : Scope) : Except Error (Word × Scope) :=
  match s.stack with
  | value :: rest => .ok (value, { s with stack := rest })
  | [] => .error (.stackUnderflow s.routine)

def requireLocal (s : Scope) (number : Nat) : Except Error Unit :=
  if 0 < number ∧ number ≤ s.locals.length then .ok ()
  else .error (.invalidOperand (.noLocal number s.routine s.locals.length))

def getLocal (s : Scope) (number : Nat) : Except Error Word := do
  s.requireLocal number
  return s.locals.getD (number - 1) 0

def setLocal (s : Scope) (number : Nat) (value : Word) : Except Error Scope := do
  s.requireLocal number
  return { s with locals := s.locals.set (number - 1) value }

end Scope

/-- The variables that there are. Below the running call lie those that it returns to, the one that
the story started in at the end. A global that does not lie in memory has no word, but a reason why
not. -/
structure Spaces where
  current : Scope
  below : List Scope
  globals : Fin 240 → Except Error Word

/-- The global with this number. Bytes name no others than there are. -/
def Variable.global (index : Nat) : Fin 240 :=
  Fin.ofNat 240 index

theorem Variable.val_global {index : Nat} (few : index < 240) : (global index).val = index :=
  Nat.mod_eq_of_lt few

namespace Spaces

def read (s : Spaces) (b : Byte) : Except Error (Word × Spaces) :=
  match Variable.ofByte b with
  | .stackTop => do
    let (value, current) ← s.current.pop
    return (value, { s with current })
  | .localVar number => do
    let value ← s.current.getLocal number
    return (value, s)
  | .globalVar index => do
    let value ← s.globals (Variable.global index)
    return (value, s)

def write (s : Spaces) (b : Byte) (value : Word) : Except Error Spaces :=
  match Variable.ofByte b with
  | .stackTop => return { s with current := s.current.push value }
  | .localVar number => do
    let current ← s.current.setLocal number value
    return { s with current }
  | .globalVar index => do
    let _ ← s.globals (Variable.global index)
    return { s with globals := Function.update s.globals (Variable.global index) (.ok value) }

def readInPlace (s : Spaces) (b : Byte) : Except Error (Word × Spaces) :=
  match Variable.ofByte b with
  | .stackTop => do
    let value ← s.current.peek
    return (value, s)
  | _ => s.read b

def writeInPlace (s : Spaces) (b : Byte) (value : Word) : Except Error Spaces :=
  match Variable.ofByte b with
  | .stackTop => do
    let (_, current) ← s.current.pop
    return { s with current := current.push value }
  | _ => s.write b value

def enter (s : Spaces) (scope : Scope) : Spaces :=
  { s with current := scope, below := s.current :: s.below }

def leave (s : Spaces) : Except Error Spaces :=
  match s.below with
  | [] => .error .returnFromMainRoutine
  | current :: below => .ok { s with current, below }

end Spaces

/-! ## Accesses -/

/-- What a program does with variables. The frames that it enters are sound, as those of calls
are. -/
inductive Access where
  | read (variableByte : Byte)
  | write (variableByte : Byte) (value : Word)
  | readInPlace (variableByte : Byte)
  | writeInPlace (variableByte : Byte) (value : Word)
  | enter (f : Frame) (sound : f.Sound)
  | leave

def Frame.scope (f : Frame) : Scope :=
  ⟨f.routine, f.locals, f.stack⟩

def Spaces.perform (s : Spaces) : Access → Except Error (Option Word × Spaces)
  | .read b => do
    let (value, s) ← s.read b
    return (some value, s)
  | .write b value => do
    let s ← s.write b value
    return (none, s)
  | .readInPlace b => do
    let (value, s) ← s.readInPlace b
    return (some value, s)
  | .writeInPlace b value => do
    let s ← s.writeInPlace b value
    return (none, s)
  | .enter f _ => return (none, s.enter f.scope)
  | .leave => do
    let s ← s.leave
    return (none, s)

def Spaces.access (s : Spaces) (a : Access) : Except Error (Option Word) × Spaces :=
  match s.perform a with
  | .ok (value, s) => (.ok value, s)
  | .error e => (.error e, s)

namespace Machine

def enterFrame (f : Frame) : MachineM Unit :=
  modify fun m => { m with stack := m.stack.push f }

def leaveFrame : MachineM Unit := do
  let (_, stack) ← (← get).stack.pop
  modify fun m => { m with stack }

end Machine

def Access.action : Access → MachineM (Option Word)
  | read b => do return some (← Machine.readVariable b)
  | write b value => do
    Machine.writeVariable b value
    return none
  | readInPlace b => do return some (← Machine.readVariableInPlace b)
  | writeInPlace b value => do
    Machine.writeVariableInPlace b value
    return none
  | enter f _ => do
    Machine.enterFrame f
    return none
  | leave => do
    Machine.leaveFrame
    return none

def Machine.access (m : Machine) (a : Access) : Except Error (Option Word) × Machine :=
  (answer a.action m, finalState a.action m)

def accessAll {σ : Type} (access : σ → Access → Except Error (Option Word) × σ) :
    σ → List Access → List (Except Error (Option Word)) × σ
  | s, [] => ([], s)
  | s, a :: rest =>
    let (answer, s) := access s a
    let (answers, s) := accessAll access s rest
    (answer :: answers, s)

theorem accessAll_cons {σ : Type} (access : σ → Access → Except Error (Option Word) × σ) (s : σ)
    (a : Access) (rest : List Access) :
    accessAll access s (a :: rest) =
      ((access s a).1 :: (accessAll access (access s a).2 rest).1,
        (accessAll access (access s a).2 rest).2) := rfl

/-! ## The variables of a machine -/

namespace Frame

variable {f : Frame}

theorem Sound.length_locals (sound : f.Sound) : f.locals.length = f.localCount := by
  rw [locals, List.length_take, Array.length_toList]
  exact Nat.min_eq_left sound.room

theorem requireLocal_scope (sound : f.Sound) (number : Nat) :
    f.scope.requireLocal number = f.requireLocal number := by
  rw [Scope.requireLocal, scope, sound.length_locals, requireLocal]

/-- A local of a frame is the same one among its variables. -/
theorem getLocal_scope (sound : f.Sound) (number : Nat) :
    f.scope.getLocal number = f.getLocal number := by
  rw [Scope.getLocal, getLocal, requireLocal_scope sound]
  cases required : f.requireLocal number with
  | error e => rfl
  | ok u =>
    refine congrArg Except.ok ?_
    unfold requireLocal at required
    split at required
    · simp only [scope, locals, List.getD_eq_getElem?_getD, Array.getD_eq_getD_getElem?]
      rw [List.getElem?_take_of_lt (by omega), Array.getElem?_toList]
    · cases required

theorem setLocal_scope (sound : f.Sound) (number : Nat) (value : Word) :
    f.scope.setLocal number value = scope <$> f.setLocal number value := by
  rw [Scope.setLocal, setLocal, requireLocal_scope sound]
  cases required : f.requireLocal number with
  | error e => rfl
  | ok u =>
    refine congrArg Except.ok ?_
    unfold requireLocal at required
    split at required
    · simp only [scope, locals, stack, Array.toList_setIfInBounds, List.take_set]
      rw [List.drop_set_of_lt (by omega)]
    · cases required

theorem push_scope (sound : f.Sound) (value : Word) :
    (f.push value).scope = f.scope.push value := by
  have room : f.localCount ≤ f.values.toList.length := by simpa using sound.room
  simp only [scope, push, locals, stack, Scope.push, Array.toList_push]
  rw [List.take_append_of_le_length room, List.drop_append_of_le_length room, List.reverse_concat]

/-- The stack is empty, or its top is the last value. -/
theorem stack_cases (f : Frame) :
    (¬f.localCount < f.values.size ∧ f.stack = []) ∨
      ∃ above : f.localCount < f.values.size,
        f.stack = f.values.back (Nat.zero_lt_of_lt above) ::
          ({ f with values := f.values.pop } : Frame).stack ∧
        ({ f with values := f.values.pop } : Frame).locals = f.locals := by
  by_cases above : f.localCount < f.values.size
  · refine .inr ⟨above, ?_, ?_⟩
    · have whole :
          f.values.pop.toList ++ [f.values.back (Nat.zero_lt_of_lt above)] = f.values.toList := by
        have := List.dropLast_concat_getLast (List.ne_nil_of_length_pos (Nat.zero_lt_of_lt above))
        rwa [← Array.toList_pop, List.getLast_eq_getElem, Array.getElem_toList] at this
      have room : f.localCount ≤ f.values.pop.toList.length := by
        rw [Array.length_toList, Array.size_pop]
        omega
      rw [stack, ← whole, List.drop_append_of_le_length room, List.reverse_concat]
      rfl
    · simp only [locals, Array.toList_pop]
      rw [List.dropLast_eq_take, List.take_take, Array.length_toList, Nat.min_eq_left (by omega)]
  · refine .inl ⟨above, ?_⟩
    rw [stack, List.drop_of_length_le (by simpa using above), List.reverse_nil]

theorem peek_scope (f : Frame) : f.scope.peek = f.peek := by
  rw [Scope.peek, peek, scope]
  rcases f.stack_cases with ⟨none, empty⟩ | ⟨above, top, -⟩
  · rw [dif_neg none, empty]
  · rw [dif_pos above, top]

/-- The top of the stack of a frame is the head of its stack among its variables. -/
theorem pop_scope (f : Frame) : f.scope.pop = (fun top => (top.1, top.2.scope)) <$> f.pop := by
  rw [Scope.pop, pop, scope]
  rcases f.stack_cases with ⟨none, empty⟩ | ⟨above, top, same⟩
  · rw [dif_neg none, empty]
    rfl
  · rw [dif_pos above, top]
    simp only [← same]
    rfl

end Frame

namespace CallStack

theorem frames_push (s : CallStack) (f : Frame) : (s.push f).frames = f :: s.frames := rfl

theorem frames_eq (s : CallStack) : s.frames = s.current :: s.frames.tail := by
  obtain ⟨main, calls⟩ := s
  cases calls <;> rfl

theorem tail_frames_setCurrent (s : CallStack) (f : Frame) :
    (s.setCurrent f).frames.tail = s.frames.tail := by
  obtain ⟨main, calls⟩ := s
  cases calls <;> rfl

/-- A return goes to the frame below, if there is one. -/
theorem pop_cases (s : CallStack) :
    (s.pop = .error .returnFromMainRoutine ∧ s.frames.tail = []) ∨
      ∃ rest, s.pop = .ok (s.current, rest) ∧ s.frames.tail = rest.frames := by
  obtain ⟨main, calls⟩ := s
  cases calls with
  | nil => exact .inl ⟨rfl, rfl⟩
  | cons f rest => exact .inr ⟨⟨main, rest⟩, rfl, rfl⟩

end CallStack

namespace Machine

variable {m : Machine}

def spaces (m : Machine) : Spaces where
  current := m.stack.current.scope
  below := m.stack.frames.tail.map Frame.scope
  globals i := m.memory.wordAt (m.globalAddress i)

/-- Another running frame is another running call among the variables. -/
theorem spaces_withFrame (m : Machine) (f : Frame) :
    (m.withFrame f).spaces = { m.spaces with current := f.scope } := by
  simp only [spaces, withFrame, CallStack.current_setCurrent, CallStack.tail_frames_setCurrent,
    globalAddress]

/-- Globals lie side by side, so that writing one leaves the others alone. -/
theorem spaces_putGlobal {index : Nat} (value : Word) (few : index < 240)
    (inside : m.globalAddress index + 2 ≤ m.memory.size) :
    ({ m with memory := m.memory.putWord (m.globalAddress index) value } : Machine).spaces =
      { m.spaces with
        globals := Function.update m.spaces.globals (Variable.global index) (.ok value) } := by
  have number := Variable.val_global few
  simp only [spaces, Spaces.mk.injEq, true_and]
  funext i
  change (m.memory.putWord (m.globalAddress index) value).wordAt (m.globalAddress i) = _
  by_cases same : i = Variable.global index
  · rw [same, Function.update_self, number, Memory.wordAt_putWord inside]
  · have ne : i.val ≠ index := fun eq => same (Fin.ext (eq.trans number.symm))
    rw [Function.update_of_ne same, (Memory.sameBut_putWord ..).wordAt]
    simp only [globalAddress]
    omega

/-! ## Actions on variables -/

/-- An action does to the variables of a machine what is done to them when they are kept apart. If
that is refused, the action has changed nothing. -/
def Mirrors {α : Type} (m : Machine) (x : MachineM α) : Except Error (α × Spaces) → Prop
  | .ok (a, s) => ∃ m', x.run m = .ok a m' ∧ m'.spaces = s
  | .error e => x.run m = .error e m

theorem run_readLocal (m : Machine) (number : Nat) :
    (readLocal number).run m =
      match m.stack.current.getLocal number with
      | .ok value => .ok value m
      | .error e => .error e m := by
  rw [readLocal, EStateM.run_bind, EStateM.run_get]
  dsimp only
  rw [EStateM.run_lift]
  cases m.stack.current.getLocal number <;> rfl

theorem run_readGlobal (m : Machine) (index : Nat) :
    (readGlobal index).run m =
      match m.memory.wordAt (m.globalAddress index) with
      | .ok value => .ok value m
      | .error e => .error e m := by
  rw [readGlobal, EStateM.run_bind, EStateM.run_get]
  dsimp only
  rw [readWord, EStateM.run_bind, EStateM.run_get]
  dsimp only
  rw [EStateM.run_lift]
  cases m.memory.wordAt (m.globalAddress index) <;> rfl

theorem run_writeGlobal (m : Machine) (index : Nat) (value : Word) :
    (writeGlobal index value).run m =
      if m.globalAddress index + 2 ≤ m.memory.size then
        .ok () { m with memory := m.memory.putWord (m.globalAddress index) value }
      else .error (.memoryOutOfRange (m.globalAddress index) m.memory.size) m := by
  rw [writeGlobal, EStateM.run_bind, EStateM.run_get]
  dsimp only
  rw [run_setWord]

/-- Reading a variable does to a machine what it does to the variables kept apart. -/
theorem mirrors_readVariable (sound : m.Sound) (b : Byte) :
    m.Mirrors (readVariable b) (m.spaces.read b) := by
  unfold readVariable Spaces.read
  cases named : Variable.ofByte b with
  | stackTop =>
    have run := run_popValue m
    simp only [spaces, Frame.pop_scope]
    cases popped : m.stack.current.pop with
    | error e =>
      rw [popped] at run
      exact run
    | ok top =>
      rw [popped] at run
      exact ⟨_, run, spaces_withFrame m top.2⟩
  | localVar number =>
    have run := run_readLocal m number
    simp only [spaces, Frame.getLocal_scope sound.current]
    cases found : m.stack.current.getLocal number with
    | error e =>
      rw [found] at run
      exact run
    | ok value =>
      rw [found] at run
      exact ⟨m, run, rfl⟩
  | globalVar index =>
    have run := run_readGlobal m index
    have number := Variable.val_global (index_lt_of_ofByte named)
    simp only [spaces, number]
    cases found : m.memory.wordAt (m.globalAddress index) with
    | error e =>
      rw [found] at run
      exact run
    | ok value =>
      rw [found] at run
      exact ⟨m, run, rfl⟩

/-- So does writing one. -/
theorem mirrors_writeVariable (sound : m.Sound) (b : Byte) (value : Word) :
    m.Mirrors (writeVariable b value) ((fun s => ((), s)) <$> m.spaces.write b value) := by
  unfold writeVariable Spaces.write
  cases named : Variable.ofByte b with
  | stackTop =>
    refine ⟨_, run_pushValue m value, ?_⟩
    rw [spaces_withFrame, Frame.push_scope sound.current]
    rfl
  | localVar number =>
    have run := run_writeLocal m number value
    simp only [spaces, Frame.setLocal_scope sound.current]
    cases set : m.stack.current.setLocal number value with
    | error e =>
      rw [set] at run
      exact run
    | ok f =>
      rw [set] at run
      exact ⟨_, run, spaces_withFrame m f⟩
  | globalVar index =>
    have run := run_writeGlobal m index value
    have few := index_lt_of_ofByte named
    have number := Variable.val_global few
    by_cases inside : m.globalAddress index + 2 ≤ m.memory.size
    · rw [if_pos inside] at run
      have found : m.spaces.globals (Variable.global index) = .ok _ :=
        (congrArg (fun i => m.memory.wordAt (m.globalAddress i)) number).trans
          (Memory.wordAt_of_le inside)
      dsimp only
      rw [found]
      exact ⟨_, run, spaces_putGlobal value few inside⟩
    · rw [if_neg inside] at run
      have missing : m.spaces.globals (Variable.global index) =
          .error (.memoryOutOfRange (m.globalAddress index) m.memory.size) := by
        simp only [spaces, number, Memory.wordAt, Memory.check, if_neg inside]
        rfl
      dsimp only
      rw [missing]
      exact run

theorem mirrors_readVariableInPlace (sound : m.Sound) (b : Byte) :
    m.Mirrors (readVariableInPlace b) (m.spaces.readInPlace b) := by
  have whole := mirrors_readVariable sound b
  unfold readVariableInPlace Spaces.readInPlace
  cases named : Variable.ofByte b with
  | stackTop =>
    simp only [spaces, Frame.peek_scope]
    cases top : m.stack.current.peek with
    | error e =>
      change (monadLift m.stack.current.peek : MachineM Word).run m = _
      rw [EStateM.run_lift, top]
    | ok value =>
      refine ⟨m, ?_, rfl⟩
      change (monadLift m.stack.current.peek : MachineM Word).run m = _
      rw [EStateM.run_lift, top]
  | localVar | globalVar => exact whole

theorem mirrors_writeVariableInPlace (sound : m.Sound) (b : Byte) (value : Word) :
    m.Mirrors (writeVariableInPlace b value)
      ((fun s => ((), s)) <$> m.spaces.writeInPlace b value) := by
  have whole := mirrors_writeVariable sound b value
  unfold writeVariableInPlace Spaces.writeInPlace
  cases named : Variable.ofByte b with
  | stackTop =>
    have run := run_popValue m
    simp only [spaces, Frame.pop_scope]
    cases popped : m.stack.current.pop with
    | error e =>
      rw [popped] at run
      change (popValue >>= fun _ => pushValue value).run m = _
      rw [EStateM.run_bind, run]
    | ok top =>
      rw [popped] at run
      refine ⟨(m.withFrame top.2).withFrame (top.2.push value), ?_, ?_⟩
      · change (popValue >>= fun _ => pushValue value).run m = _
        rw [EStateM.run_bind, run]
        dsimp only
        rw [run_pushValue]
        simp only [withFrame, CallStack.current_setCurrent]
      · rw [spaces_withFrame, spaces_withFrame, Frame.push_scope (sound.current.pop popped)]
        rfl
  | localVar | globalVar => exact whole

theorem mirrors_enterFrame (m : Machine) (f : Frame) :
    m.Mirrors (enterFrame f) (.ok ((), m.spaces.enter f.scope)) := by
  refine ⟨_, rfl, ?_⟩
  simp only [spaces, Spaces.enter, CallStack.current_push, CallStack.frames_push, List.tail_cons]
  rw [← List.map_cons, ← CallStack.frames_eq]
  rfl

theorem run_leaveFrame (m : Machine) :
    leaveFrame.run m =
      match m.stack.pop with
      | .ok (_, stack) => .ok () { m with stack }
      | .error e => .error e m := by
  rw [leaveFrame, EStateM.run_bind, EStateM.run_get]
  dsimp only
  rw [EStateM.run_bind, EStateM.run_lift]
  cases m.stack.pop <;> rfl

theorem mirrors_leaveFrame (m : Machine) :
    m.Mirrors leaveFrame ((fun s => ((), s)) <$> m.spaces.leave) := by
  have run := run_leaveFrame m
  unfold Spaces.leave
  rcases m.stack.pop_cases with ⟨main, below⟩ | ⟨rest, popped, below⟩
  · rw [main] at run
    simp only [spaces, below]
    exact run
  · rw [popped] at run
    simp only [spaces, below]
    rw [rest.frames_eq]
    exact ⟨_, run, rfl⟩

/-! ## Accesses -/

variable {α β : Type} {x : MachineM α} {y : Except Error (α × Spaces)}

theorem Mirrors.map (h : m.Mirrors x y) (f : α → β) :
    m.Mirrors (do return f (← x)) (do
      let (a, s) ← y
      return (f a, s)) := by
  cases y with
  | error e =>
    change (x >>= fun a => pure (f a)).run m = _
    rw [EStateM.run_bind, show x.run m = .error e m from h]
  | ok result =>
    obtain ⟨m', run, same⟩ := h
    refine ⟨m', ?_, same⟩
    rw [EStateM.run_bind, run]
    rfl

theorem Mirrors.silent {x : MachineM Unit} {y : Except Error Spaces}
    (h : m.Mirrors x ((fun s => ((), s)) <$> y)) :
    m.Mirrors (do
      x
      return none) (do
      let s ← y
      return ((none : Option Word), s)) := by
  have mapped := h.map fun _ => (none : Option Word)
  rwa [bind_map_left] at mapped

/-- Each access does to a machine what it does to the variables kept apart. -/
theorem mirrors_action (sound : m.Sound) (a : Access) :
    m.Mirrors a.action (m.spaces.perform a) := by
  cases a with
  | read b => exact (mirrors_readVariable sound b).map some
  | readInPlace b => exact (mirrors_readVariableInPlace sound b).map some
  | write b value => exact (mirrors_writeVariable sound b value).silent
  | writeInPlace b value => exact (mirrors_writeVariableInPlace sound b value).silent
  | enter f _ => exact (mirrors_enterFrame m f).map fun _ => none
  | leave => exact (mirrors_leaveFrame m).silent

/-- An access does to the variables of a machine what it does to them when they are kept apart. -/
theorem access_spaces (sound : m.Sound) (a : Access) :
    ((m.access a).1, (m.access a).2.spaces) = m.spaces.access a := by
  have mirrors := mirrors_action sound a
  unfold access Spaces.access
  cases performed : m.spaces.perform a with
  | error e =>
    rw [performed] at mirrors
    rw [answer_of_error mirrors, finalState_of_error mirrors]
  | ok result =>
    rw [performed] at mirrors
    obtain ⟨m', run, same⟩ := mirrors
    rw [answer_of_ok run, finalState_of_ok run, same]

/-- An access has the same answer when variables are kept apart. -/
theorem fst_access (sound : m.Sound) (a : Access) : (m.access a).1 = (m.spaces.access a).1 :=
  congrArg Prod.fst (access_spaces sound a)

/-- An access leaves the same variables when they are kept apart. -/
theorem spaces_access (sound : m.Sound) (a : Access) :
    (m.access a).2.spaces = (m.spaces.access a).2 :=
  congrArg Prod.snd (access_spaces sound a)

/-- An access that fails changes nothing. -/
theorem access_of_error (sound : m.Sound) {a : Access} {e : Error}
    (failed : (m.access a).1 = .error e) : (m.access a).2 = m := by
  have mirrors := mirrors_action sound a
  unfold access at failed ⊢
  cases performed : m.spaces.perform a with
  | error e =>
    rw [performed] at mirrors
    exact finalState_of_error mirrors
  | ok result =>
    rw [performed] at mirrors
    obtain ⟨m', run, -⟩ := mirrors
    rw [answer_of_ok run] at failed
    cases failed

end Machine
end ZMachine
