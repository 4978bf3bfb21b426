import ZMachine.Frame

/-!
# The call stack

The frame a story starts in stays at the bottom for good; above it lie the frames of the calls that
have not returned, the running one on top.
-/

namespace ZMachine

/-- The running call is the head of `calls`. -/
structure CallStack where
  main : Frame
  calls : List Frame
  deriving DecidableEq, Repr

namespace CallStack

def start (address : Nat) : CallStack :=
  ⟨Frame.initial address, []⟩

/-- The frame of the running routine. -/
def current (s : CallStack) : Frame :=
  s.calls.headD s.main

def setCurrent (s : CallStack) (f : Frame) : CallStack :=
  match s.calls with
  | [] => { s with main := f }
  | _ :: rest => { s with calls := f :: rest }

def push (s : CallStack) (f : Frame) : CallStack :=
  { s with calls := f :: s.calls }

def pop (s : CallStack) : Except Error (Frame × CallStack) :=
  match s.calls with
  | [] => .error .returnFromMainRoutine
  | f :: rest => .ok (f, { s with calls := rest })

/-- How many frames there are, the one at the bottom included. -/
def depth (s : CallStack) : Nat :=
  s.calls.length + 1

@[simp] theorem current_push (s : CallStack) (f : Frame) : (s.push f).current = f := rfl

@[simp] theorem current_setCurrent (s : CallStack) (f : Frame) : (s.setCurrent f).current = f := by
  unfold setCurrent current
  split <;> simp_all

@[simp] theorem depth_setCurrent (s : CallStack) (f : Frame) :
    (s.setCurrent f).depth = s.depth := by
  unfold setCurrent depth
  split <;> simp_all

end CallStack
end ZMachine
