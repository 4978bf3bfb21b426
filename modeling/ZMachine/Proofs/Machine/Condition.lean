import ZMachine.Proofs.Machine.Frames
import ZMachine.Proofs.Object.Links

/-!
# Conditions of branches

An instruction with branch data tests a condition on the values of its operands. It does so in the
state that it starts in, also where it stores a result or changes a variable before it branches.

## Main definitions

* `Machine.condition?` — the condition that an opcode tests.
* `Machine.BranchesIf` — an action that ends as a branch on a condition.

## Main statements

* `Machine.branched_of_branch` — where a branch leads if it is taken.
* `Machine.branchesIf_followLink`, … — the instructions that branch.
-/

namespace ZMachine

namespace Machine

def valueIn? (m : Machine) (b : Byte) : Option Word :=
  (answer (readVariableInPlace b) m).toOption

/-- The condition that an opcode with branch data tests, on the values of its operands in the state
`m`. None where there is no answer. -/
def condition? (m : Machine) : Opcode → List Word → Option Bool
  | .jz, a :: _ => some (a = 0)
  | .je, a :: b :: rest => some (a ∈ b :: rest)
  | .jl, a :: b :: _ => some (a.signed < b.signed)
  | .jg, a :: b :: _ => some (a.signed > b.signed)
  | .decChk, named :: bound :: _ =>
    (m.valueIn? named.lowByte).map fun value => Word.signed (value - 1) < bound.signed
  | .incChk, named :: bound :: _ =>
    (m.valueIn? named.lowByte).map fun value => Word.signed (value + 1) > bound.signed
  | .test, a :: bits :: _ => some (a &&& bits = bits)
  | .getSibling, id :: _ => (m.objects.get? id.toNat).map fun o => o.sibling ≠ 0
  | .getChild, id :: _ => (m.objects.get? id.toNat).map fun o => o.child ≠ 0
  | .jin, id :: parent :: _ => (m.objects.get? id.toNat).map fun o => o.parent.toUInt16 = parent
  | .testAttr, id :: number :: _ =>
    (m.objects.get? id.toNat).map fun o => o.attributes.has number.toNat
  | _, _ => none

/-! ## Actions that end as branches -/

/-- In the state `m`, if the action has an answer, then it is that of the branch on the condition,
after some effects. -/
def BranchesIf (i : Instruction) (condition : Option Bool) (x : MachineM Outcome) (m : Machine) :
    Prop :=
  ∀ out, answer x m = .ok out → ∃ holds mid, condition = some holds ∧ Effects Write.Any m mid ∧
    answer (branch i holds) mid = .ok out ∧ finalState x m = finalState (branch i holds) mid

namespace BranchesIf

variable {α : Type} {i : Instruction} {condition : Option Bool} {m : Machine}
  {f : α → MachineM Outcome}

/-- A branch on a condition that holds, or does not, is one on that condition. -/
theorem branch {holds : Bool} (eq : condition = some holds) :
    BranchesIf i condition (Machine.branch i holds) m :=
  fun _ answered => ⟨holds, m, eq, .refl, answered, rfl⟩

theorem throw (e : Error) : BranchesIf i condition (MonadExcept.throw e) m :=
  fun _ => nofun

theorem get {f : Machine → MachineM Outcome} (h : BranchesIf i condition (f m) m) :
    BranchesIf i condition (MonadState.get >>= f) m :=
  h

theorem lift {x : Except Error α} (h : ∀ a, x = .ok a → BranchesIf i condition (f a) m) :
    BranchesIf i condition ((monadLift x : MachineM α) >>= f) m := by
  intro out answered
  obtain ⟨a, found, rest, final⟩ := exists_of_answer_lift_bind answered
  rw [final]
  exact h a found out rest

/-- Effects may come before the branch, if the condition is told by the state before them. -/
theorem acts {x : MachineM α} (hx : Acts Write.Any id x)
    (h : ∀ a m', x.run m = .ok a m' → BranchesIf i condition (f a) m') :
    BranchesIf i condition (x >>= f) m := by
  intro out answered
  obtain ⟨a, m', run, rest, final⟩ := exists_of_answer_bind answered
  have first := hx m
  rw [finalState_of_ok run] at first
  obtain ⟨holds, mid, eq, effects, same, state⟩ := h a m' run out rest
  exact ⟨holds, mid, eq, first.trans effects, same, final.trans state⟩

end BranchesIf

/-! ## Instructions that branch -/

variable (i : Instruction) (m : Machine)

theorem exists_cons_of_operand {values : List Word} {a : Word} (h : operand values 0 = .ok a) :
    ∃ rest, values = a :: rest := by
  cases values with
  | nil => cases h
  | cons b rest =>
    cases h
    exact ⟨rest, rfl⟩

theorem exists_cons_cons_of_operand {values : List Word} {a b : Word}
    (first : operand values 0 = .ok a) (second : operand values 1 = .ok b) :
    ∃ rest, values = a :: b :: rest := by
  obtain ⟨rest, rfl⟩ := exists_cons_of_operand first
  cases rest with
  | nil => cases second
  | cons c rest =>
    cases second
    exact ⟨rest, rfl⟩

variable (values : List Word)

theorem branchesIf_branchIfZero :
    BranchesIf i (m.condition? .jz values) (branchIfZero i values) m := by
  refine .lift fun a first => .branch ?_
  obtain ⟨rest, rfl⟩ := exists_cons_of_operand first
  rfl

/-- Equality is asked of the first value and each of the others. -/
theorem branchesIf_branchIfEqual :
    BranchesIf i (m.condition? .je values) (branchIfEqual i values) m := by
  unfold branchIfEqual
  split
  · exact .branch rfl
  · exact .throw _

/-- Comparisons of two operands. -/
theorem branchesIf_compare {opcode : Opcode} {holds : Word → Word → Bool}
    (tests : ∀ a b rest, m.condition? opcode (a :: b :: rest) = some (holds a b)) :
    BranchesIf i (m.condition? opcode values) (compare i values holds) m := by
  refine .lift fun a first => .lift fun b second => .branch ?_
  obtain ⟨rest, rfl⟩ := exists_cons_cons_of_operand first second
  exact tests a b rest

theorem branchesIf_branchIfBitsSet :
    BranchesIf i (m.condition? .test values) (branchIfBitsSet i values) m := by
  refine .lift fun bits second => .lift fun a first => .branch ?_
  obtain ⟨rest, rfl⟩ := exists_cons_cons_of_operand first second
  rfl

/-- A link is stored before the branch; whether there is one does not depend on that. -/
theorem branchesIf_followLink {opcode : Opcode} {field : Object → Byte}
    (tests : ∀ id rest, m.condition? opcode (id :: rest) =
      (m.objects.get? id.toNat).map fun o => decide (field o ≠ 0)) :
    BranchesIf i (m.condition? opcode values)
      (followLink i values fun t id => field <$> t.get id) m := by
  refine .lift fun id first => .get <| .lift fun linked found =>
    .acts (acts_storeResult _ .any) fun _ _ _ => .branch ?_
  obtain ⟨rest, rfl⟩ := exists_cons_of_operand first
  obtain ⟨o, isObject, rfl⟩ := Except.map_eq_ok.mp found
  rw [tests, ObjectTable.get_eq_ok.mp isObject]
  rfl

/-- An object is inside another that is its parent. -/
theorem branchesIf_branchIfInside :
    BranchesIf i (m.condition? .jin values) (branchIfInside i values) m := by
  refine .lift fun id first => .get <| .lift fun parent found =>
    .lift fun expected second => .branch ?_
  obtain ⟨rest, rfl⟩ := exists_cons_cons_of_operand first second
  obtain ⟨o, isObject, rfl⟩ := Except.map_eq_ok.mp found
  rw [condition?, ObjectTable.get_eq_ok.mp isObject]
  rfl

theorem branchesIf_branchIfAttribute :
    BranchesIf i (m.condition? .testAttr values) (branchIfAttribute i values) m := by
  refine .lift fun id first => .lift fun number second => .get <| .lift fun isSet found =>
    .branch ?_
  obtain ⟨rest, rfl⟩ := exists_cons_cons_of_operand first second
  obtain ⟨_, -, found⟩ := Except.bind_eq_ok.mp found
  obtain ⟨o, isObject, found⟩ := Except.bind_eq_ok.mp found
  cases found
  rw [condition?, ObjectTable.get_eq_ok.mp isObject]
  rfl

/-- A variable is counted up or down before the branch; the condition is one on its value before. -/
theorem branchesIf_adjust {opcode : Opcode} {amount : Word} {holds : Word → Word → Bool}
    (tests : ∀ named bound rest, m.condition? opcode (named :: bound :: rest) =
      (m.valueIn? named.lowByte).map fun value => holds (value + amount) bound) :
    BranchesIf i (m.condition? opcode values) (do
      let value ← adjust values amount
      let bound ← operand values 1
      Machine.branch i (holds value bound)) m := by
  refine .acts (acts_adjust amount .any) fun value m' run => .lift fun bound second =>
    .branch ?_
  have answered := answer_of_ok run
  rw [adjust] at answered
  obtain ⟨named, first, answered, -⟩ := exists_of_answer_lift_bind answered
  obtain ⟨before, _, read, answered, -⟩ := exists_of_answer_bind answered
  obtain ⟨_, _, -, answered, -⟩ := exists_of_answer_bind answered
  cases answered
  obtain ⟨rest, rfl⟩ := exists_cons_cons_of_operand first second
  rw [tests, valueIn?, answer_of_ok read]
  rfl

/-! ## Where a branch leads -/

variable {i m} {m' : Machine}

/-- A jump goes as far as its offset says, counted from two bytes before the next instruction. -/
theorem branched_of_jumpBy {offset : Int} {fault : Int → OperandFault}
    (run : (jumpBy offset fault).run m = .ok .branched m') :
    0 ≤ signedTarget (m.pc + offset - 2) ∧
      m' = { m with pc := (signedTarget (m.pc + offset - 2)).toNat } := by
  rw [jumpBy, EStateM.run_bind, EStateM.run_get] at run
  dsimp only at run
  split at run
  · cases run
  · next inside =>
    cases run
    exact ⟨Int.not_lt.mp inside, rfl⟩

/-- A branch is only taken on the outcome that the branch data want, and to an offset that does not
mean a return. -/
theorem branched_of_branch {holds : Bool}
    (run : (Machine.branch i holds).run m = .ok .branched m') :
    ∃ b, i.branch = some b ∧ holds = b.onTrue ∧ b.offset ≠ 0 ∧ b.offset ≠ 1 ∧
      (jumpBy b.offset .branchBeforeMemory).run m = .ok .branched m' := by
  have returns (value : Word) (run : (returnWith value).run m = .ok .branched m') : False := by
    rw [returnWith, EStateM.run_bind] at run
    cases left : (leaveRoutine value).run m <;> rw [left] at run <;> cases run
  unfold Machine.branch at run
  split at run
  · cases run
  · next b data =>
    split_ifs at run with unwanted zero one
    · cases run
    · exact (returns 0 run).elim
    · exact (returns 1 run).elim
    · exact ⟨b, data, not_not.mp unwanted, zero, one, run⟩

end Machine
end ZMachine
