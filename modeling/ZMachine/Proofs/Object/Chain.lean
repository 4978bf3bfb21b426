import Mathlib.Data.List.Nodup
import Mathlib.Data.List.Perm.Subperm
import ZMachine.Proofs.Object.Links

/-!
# Chains of siblings

The children of an object are a chain: the object names the first one, and each names the one after
it. A table is consistent when each chain ends and holds exactly the objects that name its parent.

## Main definitions

* `ObjectTable.Chain` — the walk from an object over its siblings, when it ends.
* `ObjectTable.children` — the chain of an object's children as a list.
* `ObjectTable.ChainConsistent` — chains and parent links tell the same tree.

## Main statements

* `ObjectTable.Chain.unlink` — passing an object by takes it out of the chain.
* `ObjectTable.chainConsistent_of_lists` — a table for which lists of children are known is
  consistent, and these are its children.
-/

namespace ZMachine.ObjectTable

variable {t t' : ObjectTable} {id first : Nat} {ids : List Nat}

/-- The walk from an object over sibling after sibling meets these objects and then ends. -/
inductive Chain (t : ObjectTable) : Nat → List Nat → Prop
  | nil : Chain t 0 []
  | cons {id : Nat} {ids : List Nat} (has : t.Has id) (rest : Chain t (t.siblingOf id) ids) :
      Chain t id (id :: ids)

namespace Chain

theorem has_of_mem (h : t.Chain first ids) (mem : id ∈ ids) : t.Has id := by
  induction h with
  | nil => cases mem
  | cons has _ ih =>
    rcases List.mem_cons.mp mem with rfl | mem
    · exact has
    · exact ih mem

/-- From one object, only one walk is possible. -/
theorem unique {other : List Nat} (h : t.Chain first ids) (g : t.Chain first other) :
    ids = other := by
  induction h generalizing other with
  | nil =>
    cases g with
    | nil => rfl
    | cons has _ => exact absurd rfl has.ne_zero
  | cons has _ ih =>
    cases g with
    | nil => exact absurd rfl has.ne_zero
    | cons _ rest => rw [ih rest]

/-- A chain is the same in a table with the same links on it. -/
theorem congr (h : t.Chain first ids) (size : t'.size = t.size)
    (same : ∀ id ∈ ids, t'.siblingOf id = t.siblingOf id) : t'.Chain first ids := by
  induction h with
  | nil => exact .nil
  | cons has _ ih =>
    have next := ih fun id mem => same id (List.mem_cons_of_mem _ mem)
    rw [← same _ List.mem_cons_self] at next
    exact .cons ⟨has.1, size ▸ has.2⟩ next

/-- What follows a place in a chain is a chain. -/
theorem drop {front back : List Nat} (h : t.Chain first (front ++ id :: back)) :
    t.Chain (t.siblingOf id) back := by
  induction front generalizing first with
  | nil =>
    cases h with
    | cons _ rest => exact rest
  | cons _ front ih =>
    cases h with
    | cons _ rest => exact ih rest

/-- When the object before one is made to name the object after it, the chain goes past it. -/
theorem unlink {before : Nat} {front back : List Nat}
    (h : t.Chain first (front ++ before :: id :: back)) (size : t'.size = t.size)
    (new : t'.siblingOf before = t.siblingOf id)
    (same : ∀ x ∈ front ++ back, t'.siblingOf x = t.siblingOf x) :
    t'.Chain first (front ++ before :: back) := by
  induction front generalizing first with
  | nil =>
    have after : t.Chain (t.siblingOf id) back := @drop t id first [before] back h
    cases h with
    | cons has _ =>
      refine .cons ⟨has.1, size ▸ has.2⟩ ?_
      rw [new]
      exact after.congr size same
  | cons x front ih =>
    cases h with
    | cons has rest =>
      have next := ih rest fun y mem => same y (List.mem_cons_of_mem _ mem)
      rw [← same x List.mem_cons_self] at next
      exact .cons ⟨has.1, size ▸ has.2⟩ next

end Chain

/-! ## Lists of children -/

def walk (t : ObjectTable) : (steps first : Nat) → List Nat
  | 0, _ => []
  | steps + 1, first => if t.Has first then first :: t.walk steps (t.siblingOf first) else []

def children (t : ObjectTable) (id : Nat) : List Nat :=
  t.walk t.size (t.childOf id)

/-- A walk of enough steps meets the whole chain. -/
theorem Chain.walk_eq {steps : Nat} (h : t.Chain first ids) (enough : ids.length ≤ steps) :
    t.walk steps first = ids := by
  induction h generalizing steps with
  | nil => cases steps <;> simp [walk, Has]
  | cons has _ ih =>
    cases steps with
    | zero => cases enough
    | succ steps => rw [walk, if_pos has, ih (Nat.le_of_succ_le_succ enough)]

/-- There are no more different objects than the table has. -/
theorem length_le_size (nodup : ids.Nodup) (has : ∀ id ∈ ids, t.Has id) : ids.length ≤ t.size := by
  have sub : ids ⊆ List.range' 1 t.size := fun id mem => by
    rw [List.mem_range'_1]
    exact ⟨(has id mem).1, by have := (has id mem).2; omega⟩
  simpa using (nodup.subperm sub).length_le

/-- A chain without a repeat is no longer than the table. -/
theorem Chain.length_le (h : t.Chain first ids) (nodup : ids.Nodup) : ids.length ≤ t.size :=
  length_le_size nodup fun _ => h.has_of_mem

/-- Every object has no parent or one in the table, and every walk from an object's child ends
without a repeat, after all the objects that name it as their parent and no others. -/
structure ChainConsistent (t : ObjectTable) : Prop where
  parent : ∀ id, t.Has id → t.parentOf id = 0 ∨ t.Has (t.parentOf id)
  chain : ∀ p, t.Has p → ∃ ids, t.Chain (t.childOf p) ids ∧ ids.Nodup ∧
    ∀ id, id ∈ ids ↔ t.Has id ∧ t.parentOf id = p

namespace ChainConsistent
variable {p : Nat}

/-- The chain from the first child meets the children. -/
theorem chain_children (h : t.ChainConsistent) (has : t.Has p) :
    t.Chain (t.childOf p) (t.children p) := by
  obtain ⟨ids, chain, nodup, -⟩ := h.chain p has
  rwa [children, chain.walk_eq (chain.length_le nodup)]

theorem nodup_children (h : t.ChainConsistent) (has : t.Has p) : (t.children p).Nodup := by
  obtain ⟨ids, chain, nodup, -⟩ := h.chain p has
  rwa [(h.chain_children has).unique chain]

/-- The children of an object are those that name it as their parent. -/
theorem mem_children (h : t.ChainConsistent) (has : t.Has p) :
    id ∈ t.children p ↔ t.Has id ∧ t.parentOf id = p := by
  obtain ⟨ids, chain, -, mem⟩ := h.chain p has
  rw [(h.chain_children has).unique chain, mem]

end ChainConsistent

/-- Lists that are the chains of a table, and hold the objects by parent, are its children. -/
theorem chainConsistent_of_lists (lists : Nat → List Nat)
    (parent : ∀ id, t.Has id → t.parentOf id = 0 ∨ t.Has (t.parentOf id))
    (chain : ∀ p, t.Has p → t.Chain (t.childOf p) (lists p))
    (nodup : ∀ p, t.Has p → (lists p).Nodup)
    (mem : ∀ p, t.Has p → ∀ id, id ∈ lists p ↔ t.Has id ∧ t.parentOf id = p) :
    t.ChainConsistent ∧ ∀ p, t.Has p → t.children p = lists p := by
  refine ⟨⟨parent, fun p has => ⟨lists p, chain p has, nodup p has, mem p has⟩⟩, fun p has => ?_⟩
  exact (chain p has).walk_eq ((chain p has).length_le (nodup p has))

end ZMachine.ObjectTable
