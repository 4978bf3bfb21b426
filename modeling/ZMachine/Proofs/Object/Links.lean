import Mathlib.Tactic.ByContra
import ZMachine.Object.Table

/-!
# Links between objects

The links of a table as functions on object numbers, and what changing one object does to them.

## Main definitions

* `ObjectTable.Has` — a number names an object of the table.
* `ObjectTable.parentOf`, `ObjectTable.siblingOf`, `ObjectTable.childOf` — where the links of an
  object lead, 0 for nowhere.
-/

namespace ZMachine.ObjectTable

variable {t : ObjectTable} {id other : Nat} {o : Object} {f : Object → Object}

def Has (t : ObjectTable) (id : Nat) : Prop :=
  0 < id ∧ id ≤ t.size

instance (t : ObjectTable) (id : Nat) : Decidable (t.Has id) :=
  inferInstanceAs (Decidable (_ ∧ _))

theorem Has.ne_zero (h : t.Has id) : id ≠ 0 :=
  Nat.pos_iff_ne_zero.mp h.1

/-! ## Looking up -/

/-- The numbers of objects are those from 1 to the size of the table. -/
theorem exists_get?_iff_has : (∃ o, t.get? id = some o) ↔ t.Has id := by
  cases id with
  | zero => simp [get?, Has]
  | succ index =>
    simp only [get?, Has, size]
    rw [← Option.isSome_iff_exists, isSome_getElem?]
    omega

theorem Has.exists_get? (h : t.Has id) : ∃ o, t.get? id = some o :=
  exists_get?_iff_has.mpr h

theorem get?_eq_none (h : ¬ t.Has id) : t.get? id = none := by
  cases eq : t.get? id with
  | none => rfl
  | some o => exact absurd (exists_get?_iff_has.mp ⟨o, eq⟩) h

theorem get_eq_ok : t.get id = .ok o ↔ t.get? id = some o := by
  unfold get
  cases t.get? id <;> simp

theorem has_of_get? (found : t.get? id = some o) : t.Has id :=
  exists_get?_iff_has.mp ⟨o, found⟩

theorem has_of_get (found : t.get id = .ok o) : t.Has id :=
  has_of_get? (get_eq_ok.mp found)

theorem get_eq_error (h : ¬ t.Has id) :
    t.get id = .error (.invalidOperand (.noObject id t.size)) := by
  simp [get, get?_eq_none h]

/-! ## Links -/

/-- Where one of the links of an object leads; 0 outside the table. -/
def linkOf (link : Object → Byte) (t : ObjectTable) (id : Nat) : Nat :=
  ((t.get? id).map fun o => (link o).toNat).getD 0

def parentOf : ObjectTable → Nat → Nat := linkOf Object.parent
def siblingOf : ObjectTable → Nat → Nat := linkOf Object.sibling
def childOf : ObjectTable → Nat → Nat := linkOf Object.child

theorem linkOf_eq {link : Object → Byte} (h : t.get? id = some o) :
    linkOf link t id = (link o).toNat := by
  simp [linkOf, h]

theorem parentOf_eq (h : t.get? id = some o) : t.parentOf id = o.parent.toNat := linkOf_eq h
theorem siblingOf_eq (h : t.get? id = some o) : t.siblingOf id = o.sibling.toNat := linkOf_eq h
theorem childOf_eq (h : t.get? id = some o) : t.childOf id = o.child.toNat := linkOf_eq h

/-- Only an object of the table has a parent. -/
theorem has_of_parentOf_ne_zero (h : t.parentOf id ≠ 0) : t.Has id := by
  by_contra no
  exact h (by simp [parentOf, linkOf, get?_eq_none no])

/-! ## Changing one object -/

@[simp] theorem size_modify : (t.modify id f).size = t.size := by
  cases id <;> simp [modify, size]

@[simp] theorem has_modify : (t.modify id f).Has other ↔ t.Has other := by
  simp [Has]

@[simp] theorem address_modify : (t.modify id f).address = t.address := by
  cases id <;> rfl

/-- A change of one object changes no other. -/
theorem get?_modify :
    (t.modify id f).get? other = if other = id then (t.get? other).map f else t.get? other := by
  cases id with
  | zero => cases other <;> simp [modify, get?]
  | succ i =>
    cases other with
    | zero => simp [get?]
    | succ j =>
      simp only [modify, get?, Array.getElem?_modify, Nat.add_right_cancel_iff, @eq_comm _ j i]

/-- A change that leaves a link of every object alone leaves the function of that link alone. -/
theorem linkOf_modify_of_same (link : Object → Byte) (same : ∀ o, link (f o) = link o) :
    linkOf link (t.modify id f) other = linkOf link t other := by
  unfold linkOf
  rw [get?_modify]
  split <;> simp [Function.comp_def, same]

/-- A change that gives a link of an object a new value. -/
theorem linkOf_modify (link : Object → Byte) (value : Byte) (new : ∀ o, link (f o) = value)
    (has : t.Has id) :
    linkOf link (t.modify id f) other =
      if other = id then value.toNat else linkOf link t other := by
  unfold linkOf
  rw [get?_modify]
  split
  · next eq =>
    obtain ⟨o, ho⟩ := has.exists_get?
    simp [eq, ho, new]
  · rfl

end ZMachine.ObjectTable
