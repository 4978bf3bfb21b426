import Mathlib.Tactic.Tauto
import ZMachine.Proofs.Object.Chain

/-!
# Relinking

What happens to the lists of children when an object is taken out of its parent's chain, and when it
is put in front of another one. Both are said first of single links and then of the lists.

## Main definitions

* `ObjectTable.Unlinked`, `ObjectTable.Linked` — the links that the two changes write.
* `ObjectTable.Detached`, `ObjectTable.Reparented` — what the moves made of them do to the lists.

## Main statements

* `ObjectTable.Unlinked.detached` — in a consistent table, new links for the object before one take
  that object out of the list it was in and change no other list.
* `ObjectTable.Linked.children_eq` — an object without a parent becomes the first of a list.
-/

namespace ZMachine.ObjectTable

variable {t t' t'' : ObjectTable} {id p q : Nat}

/-! ## Out of a chain -/

/-- The links that lead past an object: none if it has no parent, its parent's link to the first
child, or the sibling link of the child before it. -/
inductive Bypassed (t t' : ObjectTable) (id : Nat) : Prop
  | root (noParent : t.parentOf id = 0)
      (child : ∀ x, t'.childOf x = t.childOf x)
      (sibling : ∀ x, x ≠ id → t'.siblingOf x = t.siblingOf x)
  | first (hasParent : t.Has (t.parentOf id)) (isFirst : t.childOf (t.parentOf id) = id)
      (child : ∀ x, t'.childOf x = if x = t.parentOf id then t.siblingOf id else t.childOf x)
      (sibling : ∀ x, x ≠ id → t'.siblingOf x = t.siblingOf x)
  | later (hasParent : t.Has (t.parentOf id)) {front back : List Nat} {before : Nat}
      (place : t.children (t.parentOf id) = front ++ before :: id :: back)
      (child : ∀ x, t'.childOf x = t.childOf x)
      (sibling : ∀ x, x ≠ id →
        t'.siblingOf x = if x = before then t.siblingOf id else t.siblingOf x)

/-- The object's own links do not matter for what leads past it. -/
theorem Bypassed.congr (h : Bypassed t t' id) (child : ∀ x, t''.childOf x = t'.childOf x)
    (sibling : ∀ x, x ≠ id → t''.siblingOf x = t'.siblingOf x) : Bypassed t t'' id := by
  cases h with
  | root noParent child' sibling' =>
    exact .root noParent (fun x => (child x).trans (child' x))
      fun x ne => (sibling x ne).trans (sibling' x ne)
  | first hasParent isFirst child' sibling' =>
    exact .first hasParent isFirst (fun x => (child x).trans (child' x))
      fun x ne => (sibling x ne).trans (sibling' x ne)
  | later hasParent place child' sibling' =>
    exact .later hasParent place (fun x => (child x).trans (child' x))
      fun x ne => (sibling x ne).trans (sibling' x ne)

structure Unlinked (t t' : ObjectTable) (id : Nat) : Prop where
  size_eq : t'.size = t.size
  parent : ∀ x, t'.parentOf x = if x = id then 0 else t.parentOf x
  sibling_self : t'.siblingOf id = 0
  bypassed : Bypassed t t' id

/-- An object has left the list of its parent, and nothing else about the lists has changed. -/
structure Detached (t t' : ObjectTable) (id : Nat) : Prop where
  size_eq : t'.size = t.size
  parent_self : t'.parentOf id = 0
  parent_other : ∀ x, x ≠ id → t'.parentOf x = t.parentOf x
  sibling_self : t'.siblingOf id = 0
  children_parent : ∀ p, t.Has p → p = t.parentOf id → t'.children p = (t.children p).erase id
  children_other : ∀ p, t.Has p → p ≠ t.parentOf id → t'.children p = t.children p

/-- An object has left the list of its parent and stands first in the list of another one, and
nothing else about the lists has changed. -/
structure Reparented (t t' : ObjectTable) (id q : Nat) : Prop where
  size_eq : t'.size = t.size
  parent_self : t'.parentOf id = q
  parent_other : ∀ x, x ≠ id → t'.parentOf x = t.parentOf x
  children_new : t'.children q = id :: (t.children q).erase id
  children_parent : ∀ p, t.Has p → p ≠ q → p = t.parentOf id →
    t'.children p = (t.children p).erase id
  children_other : ∀ p, t.Has p → p ≠ q → p ≠ t.parentOf id → t'.children p = t.children p

def listsWithout (t : ObjectTable) (id p : Nat) : List Nat :=
  if p = t.parentOf id then (t.children p).erase id else t.children p

/-- Without an object, its siblings are left in the list of its parent. -/
theorem mem_listsWithout (consistent : t.ChainConsistent) (has : t.Has p) {x : Nat} :
    x ∈ t.listsWithout id p ↔ t.Has x ∧ t.parentOf x = p ∧ x ≠ id := by
  unfold listsWithout
  split
  · rw [(consistent.nodup_children has).mem_erase_iff, consistent.mem_children has]
    tauto
  · next ne =>
    rw [consistent.mem_children has]
    constructor
    · rintro ⟨hx, rfl⟩
      exact ⟨hx, rfl, fun eq => ne (eq ▸ rfl)⟩
    · tauto

theorem nodup_listsWithout (consistent : t.ChainConsistent) (has : t.Has p) :
    (t.listsWithout id p).Nodup := by
  unfold listsWithout
  split
  · exact (consistent.nodup_children has).erase _
  · exact consistent.nodup_children has

theorem erase_second {front back : List Nat} {before : Nat}
    (nodup : (front ++ before :: id :: back).Nodup) :
    (front ++ before :: id :: back).erase id = front ++ before :: back := by
  rw [List.append_cons] at nodup ⊢
  have out := (List.nodup_cons.mp (List.nodup_middle.mp nodup)).1
  rw [List.erase_append_right _ fun mem => out (List.mem_append_left _ mem),
    List.erase_cons_head, ← List.append_cons]

/-- The chain of another object's children does not meet the links that have changed. -/
theorem Bypassed.chain_other (h : Bypassed t t' id) (size_eq : t'.size = t.size)
    (consistent : t.ChainConsistent) (has : t.Has p) (ne : p ≠ t.parentOf id) :
    t'.Chain (t'.childOf p) (t.children p) := by
  have chain := consistent.chain_children has
  have other (x : Nat) (mem : x ∈ t.children p) : t.parentOf x ≠ t.parentOf id := by
    rw [((consistent.mem_children has).mp mem).2]
    exact ne
  have ne_id (x : Nat) (mem : x ∈ t.children p) : x ≠ id :=
    fun eq => other x mem (eq ▸ rfl)
  cases h with
  | root _ child sibling =>
    rw [child]
    exact chain.congr size_eq fun x mem => sibling x (ne_id x mem)
  | first _ _ child sibling =>
    rw [child, if_neg ne]
    exact chain.congr size_eq fun x mem => sibling x (ne_id x mem)
  | later hasParent place child sibling =>
    rw [child]
    refine chain.congr size_eq fun x mem => ?_
    rw [sibling x (ne_id x mem), if_neg]
    rintro rfl
    have inPlace : x ∈ t.children (t.parentOf id) := by simp [place]
    exact other x mem ((consistent.mem_children hasParent).mp inPlace).2

/-- The chain of the parent's children is the one without the object. -/
theorem Bypassed.chain_parent (h : Bypassed t t' id) (size_eq : t'.size = t.size)
    (consistent : t.ChainConsistent) (has : t.Has (t.parentOf id)) :
    t'.Chain (t'.childOf (t.parentOf id)) ((t.children (t.parentOf id)).erase id) := by
  have chain := consistent.chain_children has
  have nodup := consistent.nodup_children has
  cases h with
  | root noParent => exact absurd noParent has.ne_zero
  | first _ isFirst child sibling =>
    rw [child, if_pos rfl]
    rw [isFirst] at chain
    generalize t.children (t.parentOf id) = ids at chain nodup
    cases chain with
    | nil => exact absurd rfl (has_of_parentOf_ne_zero has.ne_zero).ne_zero
    | cons _ rest =>
      rw [List.erase_cons_head]
      refine rest.congr size_eq fun x mem => sibling x ?_
      rintro rfl
      exact (List.nodup_cons.mp nodup).1 mem
  | @later _ front back before place child sibling =>
    rw [place] at chain nodup
    rw [child, place, erase_second nodup]
    -- Before and after the object, the list has neither it nor the object before it once more.
    have before_out := (List.nodup_cons.mp (List.nodup_middle.mp nodup)).1
    have id_out : id ∉ front ++ before :: back := by
      rw [← erase_second nodup]
      exact nodup.not_mem_erase
    simp only [List.mem_append, List.mem_cons, not_or] at before_out id_out
    refine chain.unlink size_eq ?_ fun x mem => ?_
    · rw [sibling before (Ne.symm id_out.2.1), if_pos rfl]
    · rw [List.mem_append] at mem
      rw [sibling x (by rintro rfl; tauto), if_neg (by rintro rfl; tauto)]

/-- In a consistent table, an object whose links are undone so leaves the list of its parent. -/
theorem Unlinked.detached (h : Unlinked t t' id) (consistent : t.ChainConsistent) :
    t'.ChainConsistent ∧ Detached t t' id := by
  obtain ⟨size_eq, parent, sibling_self, bypassed⟩ := h
  have has_iff (x : Nat) : t'.Has x ↔ t.Has x := by simp [Has, size_eq]
  have key := chainConsistent_of_lists (t := t') (t.listsWithout id)
    (fun x has => by
      rw [parent, has_iff]
      split
      · exact .inl rfl
      · exact consistent.parent x ((has_iff x).mp has))
    (fun p has => by
      rw [has_iff] at has
      unfold listsWithout
      split
      · next eq =>
        subst eq
        exact bypassed.chain_parent size_eq consistent has
      · next ne => exact bypassed.chain_other size_eq consistent has ne)
    (fun p has => nodup_listsWithout consistent ((has_iff p).mp has))
    (fun p has x => by
      rw [mem_listsWithout consistent ((has_iff p).mp has), has_iff, parent]
      have := has.ne_zero
      split <;> simp_all [Ne.symm])
  refine ⟨key.1, size_eq, by simp [parent], fun x ne => by simp [parent, ne], sibling_self, ?_, ?_⟩
  · intro p has eq
    rw [key.2 p ((has_iff p).mpr has), listsWithout, if_pos eq]
  · intro p has ne
    rw [key.2 p ((has_iff p).mpr has), listsWithout, if_neg ne]

/-! ## Into a chain -/

structure Linked (t t' : ObjectTable) (id q : Nat) : Prop where
  size_eq : t'.size = t.size
  parent : ∀ x, t'.parentOf x = if x = id then q else t.parentOf x
  sibling : ∀ x, t'.siblingOf x = if x = id then t.childOf q else t.siblingOf x
  child : ∀ x, t'.childOf x = if x = q then id else t.childOf x

/-- An object without a parent becomes the first child of another one. -/
theorem Linked.children_eq (h : Linked t t' id q) (consistent : t.ChainConsistent)
    (free : t.parentOf id = 0) (hasId : t.Has id) (hasNew : t.Has q) :
    t'.ChainConsistent ∧
      ∀ p, t.Has p → t'.children p = if p = q then id :: t.children p else t.children p := by
  have has_iff (x : Nat) : t'.Has x ↔ t.Has x := by simp [Has, h.size_eq]
  have out (p : Nat) (has : t.Has p) : id ∉ t.children p := fun mem =>
    has.ne_zero (((consistent.mem_children has).mp mem).2.symm.trans free)
  have same (p : Nat) (has : t.Has p) : t'.Chain (t.childOf p) (t.children p) := by
    refine (consistent.chain_children has).congr h.size_eq fun x mem => ?_
    rw [h.sibling, if_neg]
    rintro rfl
    exact out p has mem
  have key := chainConsistent_of_lists (t := t')
    (fun p => if p = q then id :: t.children p else t.children p)
    (fun x has => by
      rw [h.parent, has_iff]
      split
      · exact .inr hasNew
      · exact consistent.parent x ((has_iff x).mp has))
    (fun p has => by
      rw [h.child]
      rw [has_iff] at has
      split
      · next eq =>
        subst eq
        refine .cons ((has_iff id).mpr hasId) ?_
        rw [h.sibling, if_pos rfl]
        exact same p has
      · exact same p has)
    (fun p has => by
      rw [has_iff] at has
      split
      · exact (consistent.nodup_children has).cons (out p has)
      · exact consistent.nodup_children has)
    (fun p has x => by
      rw [has_iff] at has
      rw [has_iff, h.parent]
      by_cases eq : x = id
      · subst eq
        by_cases new : p = q
        · simp [new, hasId]
        · simp [new, out p has, Ne.symm new]
      · by_cases new : p = q <;> simp [new, eq, consistent.mem_children, hasNew, has])
  exact ⟨key.1, fun p has => key.2 p ((has_iff p).mpr has)⟩

/-- A move is the two changes one after the other. -/
theorem Detached.reparented (h : Detached t t' id) (linked : Linked t' t'' id q)
    (consistent : t.ChainConsistent) (consistent' : t'.ChainConsistent) (hasId : t.Has id)
    (hasNew : t.Has q) : t''.ChainConsistent ∧ Reparented t t'' id q := by
  have has_iff (x : Nat) : t'.Has x ↔ t.Has x := by simp [Has, h.size_eq]
  obtain ⟨consistent'', lists⟩ := linked.children_eq consistent' h.parent_self
    ((has_iff id).mpr hasId) ((has_iff q).mpr hasNew)
  refine ⟨consistent'', ?_, ?_, ?_, ?_, ?_, ?_⟩
  · rw [linked.size_eq, h.size_eq]
  · rw [linked.parent, if_pos rfl]
  · intro x ne
    rw [linked.parent, if_neg ne, h.parent_other x ne]
  · rw [lists q ((has_iff q).mpr hasNew), if_pos rfl]
    by_cases old : q = t.parentOf id
    · rw [h.children_parent q hasNew old]
    · have out : id ∉ t.children q := fun mem =>
        old ((consistent.mem_children hasNew).mp mem).2.symm
      rw [h.children_other q hasNew old, List.erase_of_not_mem out]
  · intro p has ne old
    rw [lists p ((has_iff p).mpr has), if_neg ne, h.children_parent p has old]
  · intro p has ne other
    rw [lists p ((has_iff p).mpr has), if_neg ne, h.children_other p has other]

end ZMachine.ObjectTable
