import Mathlib.Data.List.Nodup
import Mathlib.Logic.Function.Iterate
import ZMachine.Object.Store
import ZMachine.Proofs.Object.Chain

/-!
# The object before another one

An object that is taken out of the chain of its siblings is looked for by a walk over the chain. In
a table with corrupt links, the walk can run in a circle, so it is bounded by the number of objects.
No walk that comes to an end is longer than that. So whatever the links are, the bound makes no
difference unless the walk would never end.

## Main definitions

* `ObjectStore.Finds` — the walk without a bound, to the object before another one.
* `ObjectStore.Misses` — the walk without a bound, out of the table.
* `ObjectStore.Passes` — the first part of a walk.

## Main statements

* `ObjectStore.Passes.le_size` — a walk that ends has no more steps than the table has objects.
* `ObjectStore.siblingBefore_eq_ok_iff`, `ObjectStore.siblingBefore_of_misses` — the bounded walk
  gives what the walk without a bound gives.
* `ObjectStore.siblingBefore_of_endless` — it fails where the walk without a bound does not end.
-/

namespace ZMachine

open ObjectTable

namespace ObjectStore

variable {t : ObjectTable} {id parent current last before n steps : Nat}

/-- The walk over siblings from an object on, until one of them names `id`; it has no bound. -/
inductive Finds (t : ObjectTable) (id : Nat) : (current before : Nat) → Prop
  | here {current : Nat} (has : t.Has current) (names : t.siblingOf current = id) :
      Finds t id current current
  | next {current before : Nat} (has : t.Has current) (passes : t.siblingOf current ≠ id)
      (rest : Finds t id (t.siblingOf current) before) : Finds t id current before

/-- The walk over siblings from an object on, until it leads to `last`, which is no object; none of
them names `id`. -/
inductive Misses (t : ObjectTable) (id : Nat) : (current last : Nat) → Prop
  | here {current : Nat} (no : ¬ t.Has current) : Misses t id current current
  | next {current last : Nat} (has : t.Has current) (passes : t.siblingOf current ≠ id)
      (rest : Misses t id (t.siblingOf current) last) : Misses t id current last

def Passes (t : ObjectTable) (id n current : Nat) : Prop :=
  ∀ k < n, t.Has (t.siblingOf^[k] current) ∧ t.siblingOf (t.siblingOf^[k] current) ≠ id

theorem Finds.has (h : Finds t id current before) : t.Has before := by
  induction h with
  | here has _ => exact has
  | next _ _ _ ih => exact ih

/-! ## How long a walk is -/

/-- A walk that passes an object goes on from its sibling. -/
theorem Passes.cons (has : t.Has current) (passes : t.siblingOf current ≠ id)
    (rest : Passes t id n (t.siblingOf current)) : Passes t id (n + 1) current := by
  intro k small
  cases k with
  | zero => exact ⟨has, passes⟩
  | succ k => exact rest k (Nat.lt_of_succ_lt_succ small)

/-- A walk that ends at the object before `id` has passed all those before that one. -/
theorem Finds.exists_passes (h : Finds t id current before) :
    ∃ n, Passes t id n current ∧ t.siblingOf^[n] current = before ∧ t.siblingOf before = id := by
  induction h with
  | here _ names => exact ⟨0, fun _ => nofun, rfl, names⟩
  | next has passes _ ih =>
    obtain ⟨n, rest, ends, names⟩ := ih
    exact ⟨n + 1, rest.cons has passes, ends, names⟩

/-- A walk that runs out has passed every object on it. -/
theorem Misses.exists_passes (h : Misses t id current last) :
    ∃ n, Passes t id n current ∧ t.siblingOf^[n] current = last ∧ ¬ t.Has last := by
  induction h with
  | here no => exact ⟨0, fun _ => nofun, rfl, no⟩
  | next has passes _ ih =>
    obtain ⟨n, rest, ends, no⟩ := ih
    exact ⟨n + 1, rest.cons has passes, ends, no⟩

/-- A walk that comes to the same object twice goes on in a circle. So one that ends meets different
objects. -/
theorem Passes.ne_of_lt (h : Passes t id n current) (ends : ¬ Passes t id (n + 1) current)
    {i j : Nat} (before : i < j) (small : j < n) :
    t.siblingOf^[i] current ≠ t.siblingOf^[j] current := by
  intro same
  have again : t.siblingOf^[n] current = t.siblingOf^[n - j + i] current := calc
    t.siblingOf^[n] current = t.siblingOf^[n - j + j] current := by
      rw [Nat.sub_add_cancel (Nat.le_of_lt small)]
    _ = t.siblingOf^[n - j] (t.siblingOf^[i] current) := by rw [Function.iterate_add_apply, same]
    _ = t.siblingOf^[n - j + i] current := (Function.iterate_add_apply ..).symm
  refine ends fun k bound => ?_
  obtain bound | rfl := Nat.lt_succ_iff_lt_or_eq.mp bound
  · exact h k bound
  · rw [again]
    exact h (k - j + i) (by omega)

theorem Passes.le_size (h : Passes t id n current) (ends : ¬ Passes t id (n + 1) current) :
    n ≤ t.size := by
  have nodup : ((List.range n).map fun k => t.siblingOf^[k] current).Nodup := by
    refine List.Nodup.map_on (fun i memI j memJ same => ?_) List.nodup_range
    rw [List.mem_range] at memI memJ
    rcases Nat.lt_trichotomy i j with lt | eq | lt
    · exact absurd same (h.ne_of_lt ends lt memJ)
    · exact eq
    · exact absurd same.symm (h.ne_of_lt ends lt memI)
  have length := length_le_size nodup fun x mem => by
    obtain ⟨k, small, rfl⟩ := List.mem_map.mp mem
    exact (h k (List.mem_range.mp small)).1
  simpa using length

/-! ## The bounded walk -/

theorem siblingBefore_succ (has : t.Has current) :
    siblingBefore t id parent (steps + 1) current =
      if t.siblingOf current = id then .ok current
      else siblingBefore t id parent steps (t.siblingOf current) := by
  obtain ⟨o, ho⟩ := has.exists_get?
  rw [siblingBefore, if_neg has.ne_zero, get_eq_ok.mpr ho, siblingOf_eq ho]
  rfl

/-- While objects are passed, the bounded walk goes on. -/
theorem siblingBefore_of_passes (h : Passes t id n current) :
    siblingBefore t id parent (n + steps) current =
      siblingBefore t id parent steps (t.siblingOf^[n] current) := by
  induction n generalizing current with
  | zero => rw [Nat.zero_add, Function.iterate_zero_apply]
  | succ n ih =>
    obtain ⟨has, passes⟩ : t.Has current ∧ t.siblingOf current ≠ id := h 0 (Nat.succ_pos n)
    rw [Nat.add_right_comm, siblingBefore_succ has, if_neg passes, Function.iterate_succ_apply]
    exact ih fun k small => h (k + 1) (Nat.succ_lt_succ small)

/-- What the bounded walk gives, the unbounded one finds. -/
theorem finds_of_siblingBefore (found : siblingBefore t id parent steps current = .ok before) :
    Finds t id current before := by
  induction steps generalizing current with
  | zero => cases found
  | succ steps ih =>
    by_cases has : t.Has current
    · rw [siblingBefore_succ has] at found
      split at found
      · next names =>
        cases found
        exact .here has names
      · next passes => exact .next has passes (ih found)
    · rw [siblingBefore, get_eq_error has] at found
      split at found <;> cases found

/-- What the bounded walk finds is what the walk without a bound finds, in every table. -/
theorem siblingBefore_eq_ok_iff :
    siblingBefore t id parent (t.size + 1) current = .ok before ↔ Finds t id current before := by
  refine ⟨finds_of_siblingBefore, fun finds => ?_⟩
  obtain ⟨n, passes, rfl, names⟩ := finds.exists_passes
  have few := passes.le_size fun longer => (longer n (Nat.lt_succ_self n)).2 names
  obtain ⟨rest, size⟩ := Nat.exists_eq_add_of_le few
  rw [size, Nat.add_assoc, siblingBefore_of_passes passes, siblingBefore_succ finds.has,
    if_pos names]

/-- Where the walk without a bound leads out of the table, the bounded one fails for this reason. -/
theorem siblingBefore_of_misses (misses : Misses t id current last) :
    siblingBefore t id parent (t.size + 1) current =
      .error (.invalidOperand
        (if last = 0 then .missingFromChildren id parent else .noObject last t.size)) := by
  obtain ⟨n, passes, rfl, no⟩ := misses.exists_passes
  have few := passes.le_size fun longer => no (longer n (Nat.lt_succ_self n)).1
  obtain ⟨rest, size⟩ := Nat.exists_eq_add_of_le few
  have same : siblingBefore t id parent (t.size + 1) current =
      siblingBefore t id parent (rest + 1) (t.siblingOf^[n] current) := by
    rw [size, Nat.add_assoc, siblingBefore_of_passes passes]
  rw [same, siblingBefore, get_eq_error no]
  split <;> rfl

/-- In a circle that does not hold `id`, the bounded walk gives up. -/
theorem siblingBefore_of_endless (endless : ∀ n, Passes t id n current) :
    siblingBefore t id parent (t.size + 1) current =
      .error (.invalidOperand (.missingFromChildren id parent)) :=
  @siblingBefore_of_passes t id parent current (t.size + 1) 0 (endless (t.size + 1))

end ObjectStore

/-- On a chain that holds `id` further on, the walk ends at the object before it. -/
theorem ObjectTable.Chain.exists_finds {t : ObjectTable} {id first : Nat} {ids : List Nat}
    (chain : t.Chain first ids) (mem : id ∈ ids) (later : first ≠ id) :
    ∃ front before back, ids = front ++ before :: id :: back ∧
      ObjectStore.Finds t id first before := by
  induction chain with
  | nil => cases mem
  | @cons x rest has chain ih =>
    have mem := (List.mem_cons.mp mem).resolve_left (Ne.symm later)
    by_cases names : t.siblingOf x = id
    · rw [names] at chain
      cases chain with
      | nil => cases mem
      | cons _ _ => exact ⟨[], x, _, rfl, .here has names⟩
    · obtain ⟨front, before, back, rfl, finds⟩ := ih mem names
      exact ⟨x :: front, before, back, rfl, .next has names finds⟩

end ZMachine
