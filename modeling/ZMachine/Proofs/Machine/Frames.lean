import ZMachine.Proofs.Machine.Handlers

/-!
# What happens to frames

Effects change the values of the running frame and nothing else about the stack. So the frames below
a call keep their values until the call returns, and then the frame it was made from runs again.

## Main definitions

* `Frame.SameCall` — two frames of the same call, with values that may differ.
* `CallStack.Above` — a stack in which a call was entered from another stack and has not returned.
* `Machine.SameButValues` — machines that differ in the values of the running frame alone.

## Main statements

* `Machine.Effects.stack` — effects keep the program counter and all of the stack but the values of
  the running frame.
* `Machine.leads_resolveAll` — what looking up operands does.
* `Machine.Ends.above` — an instruction keeps a call open, or it returns from it to the frames
  below.
-/

namespace ZMachine

/-! ## The values of a frame -/

structure Frame.SameCall (f f' : Frame) : Prop where
  routine : f'.routine = f.routine
  returnAddress : f'.returnAddress = f.returnAddress
  result : f'.result = f.result
  localCount : f'.localCount = f.localCount

namespace Frame

variable {f f' f'' : Frame}

theorem SameCall.refl (f : Frame) : f.SameCall f :=
  ⟨rfl, rfl, rfl, rfl⟩

theorem SameCall.trans (h : f.SameCall f') (h' : f'.SameCall f'') : f.SameCall f'' :=
  ⟨h'.routine.trans h.routine, h'.returnAddress.trans h.returnAddress, h'.result.trans h.result,
    h'.localCount.trans h.localCount⟩

theorem sameCall_push (f : Frame) (value : Word) : f.SameCall (f.push value) :=
  ⟨rfl, rfl, rfl, rfl⟩

theorem sameCall_of_pop {value : Word} (h : f.pop = .ok (value, f')) : f.SameCall f' := by
  unfold pop at h
  split at h
  · cases h
    exact ⟨rfl, rfl, rfl, rfl⟩
  · cases h

theorem sameCall_of_setLocal {number : Nat} {value : Word}
    (h : f.setLocal number value = .ok f') : f.SameCall f' := by
  rw [setLocal, Except.bind_eq_ok] at h
  obtain ⟨_, -, h⟩ := h
  cases h
  exact ⟨rfl, rfl, rfl, rfl⟩

/-- A new frame goes back to where it was called. -/
theorem forCall_eq_ok {m : Memory} {routine returnAddress start : Nat} {arguments : List Word}
    {result : Option Byte} (h : forCall m routine arguments returnAddress result = .ok (f, start)) :
    f.returnAddress = returnAddress ∧ f.result = result := by
  rw [forCall, Except.bind_eq_ok] at h
  obtain ⟨_, -, h⟩ := h
  cases h
  exact ⟨rfl, rfl⟩

end Frame

/-! ## The frames below a call -/

namespace CallStack

@[simp] theorem setCurrent_current (s : CallStack) : s.setCurrent s.current = s := by
  obtain ⟨main, calls⟩ := s
  cases calls <;> rfl

@[simp] theorem setCurrent_setCurrent (s : CallStack) (f f' : Frame) :
    (s.setCurrent f).setCurrent f' = s.setCurrent f' := by
  obtain ⟨main, calls⟩ := s
  cases calls <;> rfl

/-- The frames below the running one are not changed with it. -/
theorem calls_of_setCurrent {s : CallStack} {f frame : Frame} {rest : List Frame}
    (calls : (s.setCurrent f).calls = frame :: rest) :
    ∃ top, s.calls = top :: rest ∧ s.current = top ∧ frame = f ∧
      (s.setCurrent f).main = s.main := by
  obtain ⟨main, _ | ⟨top, below⟩⟩ := s
  · cases calls
  · cases calls
    exact ⟨top, rfl, rfl, rfl, rfl⟩

def bottom (s : CallStack) (depth : Nat) : CallStack :=
  ⟨s.main, s.calls.drop (s.depth - depth)⟩

/-- In `s` a call from `base` is open: it lies right above the frames of `base`, will go back to
`next`, and its result is wanted in `result`. -/
def Above (base : CallStack) (next : Nat) (result : Option Byte) (s : CallStack) : Prop :=
  ∃ inner callee, s = ⟨base.main, inner ++ callee :: base.calls⟩ ∧
    callee.returnAddress = next ∧ callee.result = result

namespace Above

variable {base s rest : CallStack} {next : Nat} {result : Option Byte} {f : Frame}

/-- A call that was just entered is open. -/
theorem entered (base : CallStack) (callee : Frame) :
    base.Above callee.returnAddress callee.result (base.push callee) :=
  ⟨[], callee, rfl, rfl, rfl⟩

/-- An open call stays open when another one is entered. -/
theorem push (h : base.Above next result s) (f : Frame) : base.Above next result (s.push f) := by
  obtain ⟨inner, callee, rfl, address, wanted⟩ := h
  exact ⟨f :: inner, callee, rfl, address, wanted⟩

/-- An open call stays open while the running frame only changes its values. -/
theorem setCurrent (h : base.Above next result s) (same : s.current.SameCall f) :
    base.Above next result (s.setCurrent f) := by
  obtain ⟨inner, callee, rfl, address, wanted⟩ := h
  cases inner with
  | nil => exact ⟨[], f, rfl, same.returnAddress.trans address, same.result.trans wanted⟩
  | cons g inner => exact ⟨f :: inner, callee, rfl, address, wanted⟩

/-- A return leaves the call open, unless it returns from this call. -/
theorem pop (h : base.Above next result s) (popped : s.pop = .ok (f, rest)) :
    base.Above next result rest ∨ rest = base ∧ f.returnAddress = next ∧ f.result = result := by
  obtain ⟨inner, callee, rfl, address, wanted⟩ := h
  cases inner with
  | nil =>
    cases popped
    exact .inr ⟨rfl, address, wanted⟩
  | cons g inner =>
    cases popped
    exact .inl ⟨inner, callee, rfl, address, wanted⟩

theorem depth_lt (h : base.Above next result s) : base.depth < s.depth := by
  obtain ⟨inner, callee, rfl, -, -⟩ := h
  simp only [depth, List.length_append, List.length_cons]
  omega

/-- Up to the depth of the caller, the frames are those of the caller. -/
theorem bottom_eq (h : base.Above next result s) : s.bottom base.depth = base := by
  obtain ⟨inner, callee, rfl, -, -⟩ := h
  have length : (⟨base.main, inner ++ callee :: base.calls⟩ : CallStack).depth - base.depth =
      (inner ++ [callee]).length := by
    simp only [depth, List.length_append, List.length_cons, List.length_nil]
    omega
  rw [bottom, length, List.append_cons, List.drop_left]

end Above

end CallStack

/-! ## What instructions do to the stack -/

namespace Machine

variable {W : Write → Prop} {m m' : Machine}

/-- An effect changes only the values of the running frame. -/
theorem Effect.stack (h : Effect W m m') :
    m'.pc = m.pc ∧ ∃ f, m.stack.current.SameCall f ∧ m'.stack = m.stack.setCurrent f := by
  have unchanged : ∃ f, m.stack.current.SameCall f ∧ m.stack = m.stack.setCurrent f :=
    ⟨_, .refl _, m.stack.setCurrent_current.symm⟩
  cases h with
  | push value => exact ⟨rfl, _, Frame.sameCall_push _ value, rfl⟩
  | pop popped => exact ⟨rfl, _, Frame.sameCall_of_pop popped, rfl⟩
  | assignLocal set => exact ⟨rfl, _, Frame.sameCall_of_setLocal set, rfl⟩
  | assignGlobal | writeByte | writeWord | objects | sow => exact ⟨rfl, unchanged⟩

/-- Effects change only the values of the running frame. -/
theorem Effects.stack (h : Effects W m m') :
    m'.pc = m.pc ∧ ∃ f, m.stack.current.SameCall f ∧ m'.stack = m.stack.setCurrent f := by
  induction h with
  | refl => exact ⟨rfl, _, .refl _, m.stack.setCurrent_current.symm⟩
  | tail _ last ih =>
    obtain ⟨pc, f, same, stack⟩ := ih
    obtain ⟨pc', f', same', stack'⟩ := last.stack
    rw [stack, CallStack.current_setCurrent] at same'
    rw [stack, CallStack.setCurrent_setCurrent] at stack'
    exact ⟨pc'.trans pc, f', same.trans same', stack'⟩

theorem Effects.depth_eq (h : Effects W m m') : m'.stack.depth = m.stack.depth := by
  obtain ⟨-, f, -, stack⟩ := h.stack
  rw [stack, CallStack.depth_setCurrent]

def SameButValues (m m' : Machine) : Prop :=
  ∃ f, m.stack.current.SameCall f ∧ m' = m.withFrame f

namespace SameButValues

theorem refl (m : Machine) : m.SameButValues m :=
  ⟨_, .refl _, by simp [withFrame]⟩

theorem trans {m'' : Machine} (h : m.SameButValues m') (h' : m'.SameButValues m'') :
    m.SameButValues m'' := by
  obtain ⟨f, same, rfl⟩ := h
  obtain ⟨f', same', rfl⟩ := h'
  simp only [withFrame, CallStack.current_setCurrent] at same'
  exact ⟨f', same.trans same', by simp [withFrame]⟩

instance : Std.Refl SameButValues := ⟨refl⟩

instance : IsTrans Machine SameButValues := ⟨fun _ _ _ => trans⟩

end SameButValues

theorem leads_popValue : Leads SameButValues popValue := by
  intro m
  rw [finalState, run_popValue]
  cases top : m.stack.current.pop with
  | ok popped => exact ⟨_, Frame.sameCall_of_pop top, rfl⟩
  | error e => exact .refl m

theorem leads_readVariable (b : Byte) : Leads SameButValues (readVariable b) := by
  unfold readVariable
  split
  · exact leads_popValue
  · exact .bind .get fun _ => .lift _
  · exact .bind .get fun _ => .bind .get fun _ => .lift _

theorem leads_resolve (o : Operand) : Leads SameButValues (resolve o) := by
  cases o with
  | large | small => exact .pure _
  | var number => exact leads_readVariable number

/-- Looking up operands can only take values off the stack of the running frame. -/
theorem leads_resolveAll (operands : List Operand) :
    Leads SameButValues (resolveAll operands) := by
  induction operands with
  | nil => exact .pure _
  | cons o rest ih => exact .bind (leads_resolve o) fun _ => .bind ih fun _ => .pure _

variable {base : CallStack} {next : Nat} {result : Option Byte}

theorem Effects.above (h : Effects W m m') (above : base.Above next result m.stack) :
    base.Above next result m'.stack := by
  obtain ⟨-, f, same, stack⟩ := h.stack
  rw [stack]
  exact above.setCurrent same

def storeIn (result : Option Byte) (value : Word) : MachineM Unit :=
  match result with
  | some variableByte => writeVariable variableByte value
  | none => return

/-- Storing the value of a call writes only to the variable that the caller named. -/
theorem acts_storeIn (result : Option Byte) (value : Word) :
    Acts (Write.InVariable result) id (storeIn result value) := by
  cases result with
  | some b => exact acts_writeVariable value fun _ => id
  | none => exact .pure ()

/-- A routine is left by taking its frame off, going on where it was called from, and storing its
value. -/
theorem run_leaveRoutine (m : Machine) (value : Word) :
    (leaveRoutine value).run m =
      match m.stack.pop with
      | .ok (f, stack) => (storeIn f.result value).run { m with stack, pc := f.returnAddress }
      | .error e => .error e m := by
  rw [leaveRoutine, EStateM.run_bind, EStateM.run_get]
  dsimp only
  rw [EStateM.run_bind, EStateM.run_lift]
  cases m.stack.pop with
  | ok popped => rfl
  | error e => rfl

/-- A routine that was left has a caller. The machine goes on where that one wanted, and stores the
value for it. -/
theorem exists_of_leaveRoutine {value : Word} (run : (leaveRoutine value).run m = .ok () m') :
    ∃ f rest, m.stack.calls = f :: rest ∧ (storeIn f.result value).run
      { m with stack := ⟨m.stack.main, rest⟩, pc := f.returnAddress } = .ok () m' := by
  rw [run_leaveRoutine, CallStack.pop] at run
  cases calls : m.stack.calls with
  | nil =>
    rw [calls] at run
    cases run
  | cons f rest =>
    rw [calls] at run
    exact ⟨f, rest, rfl, run⟩

/-- The machine `m'` has come back from a call to the frames of `base`, and `value` was stored. -/
def CameBack (base : CallStack) (next : Nat) (result : Option Byte) (value : Word)
    (m' : Machine) : Prop :=
  ∃ left : Machine, left.stack = base ∧ left.pc = next ∧
    (storeIn result value).run left = .ok () m'

/-- What has become of an open call: it is still open, or only the frames below it are left. Then
the value it returned has been stored, unless that failed. -/
def OpenOrBack (base : CallStack) (next : Nat) (result : Option Byte)
    (out : Except Error Outcome) (m' : Machine) : Prop :=
  base.Above next result m'.stack ∨ m'.stack.depth = base.depth ∧
    ∀ value, out = .ok (.returned value) → CameBack base next result value m'

/-- Leaving a routine. -/
theorem above_of_leaveRoutine {value : Word} {out : Except Error Outcome}
    (above : base.Above next result m.stack)
    (left : finalState (leaveRoutine value) m = m')
    (stored : ∀ v, out = .ok (.returned v) → v = value ∧ (leaveRoutine value).run m = .ok () m') :
    OpenOrBack base next result out m' := by
  rw [finalState, run_leaveRoutine] at left
  rw [run_leaveRoutine] at stored
  cases popped : m.stack.pop with
  | error e =>
    rw [popped] at left
    exact .inl (left ▸ above)
  | ok top =>
    obtain ⟨f, rest⟩ := top
    rw [popped] at left stored
    have effects := acts_storeIn f.result value { m with stack := rest, pc := f.returnAddress }
    rw [finalState, left] at effects
    rcases above.pop popped with above' | ⟨rfl, rfl, rfl⟩
    · exact .inl (effects.above above')
    · refine .inr ⟨effects.depth_eq, fun v returned => ?_⟩
      obtain ⟨rfl, run⟩ := stored v returned
      exact ⟨_, rfl, rfl, run⟩

/-- An instruction ends with the call still open, or comes back from it. -/
theorem Ends.above {out : Except Error Outcome} (h : Ends m out m')
    (above : base.Above next result m.stack) : OpenOrBack base next result out m' := by
  cases h with
  | advanced | quit | branched | failed => exact .inl above
  | returned run =>
    refine above_of_leaveRoutine above (finalState_of_ok run) fun v returned => ?_
    cases returned
    exact ⟨rfl, run⟩
  | returnFailed run =>
    exact above_of_leaveRoutine above (finalState_of_error run) fun v returned => nomatch returned

theorem Calls.above {i : Instruction} {values : List Word} (h : Calls i values m m')
    (above : base.Above next result m.stack) : base.Above next result m'.stack := by
  obtain ⟨packed, f, start, -, -, -, rfl⟩ := h
  exact above.push f

/-- A call opens itself above the frames it was made from. -/
theorem Calls.enters {i : Instruction} {values : List Word} (h : Calls i values m m') :
    m.stack.Above m.pc i.store m'.stack ∧ m'.stack.depth = m.stack.depth + 1 := by
  obtain ⟨packed, f, start, -, -, made, rfl⟩ := h
  obtain ⟨address, result⟩ := Frame.forCall_eq_ok made
  refine ⟨?_, rfl⟩
  rw [← address, ← result]
  exact .entered m.stack f

end Machine
end ZMachine
