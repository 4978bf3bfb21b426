import Mathlib.Data.Finset.Range
import Mathlib.Data.Fintype.Card
import Mathlib.Data.Set.Finite.Basic
import ZMachine.Proofs.Object.Moves

/-!
# Forests of objects

The parent links of a table make a forest when no object is its own ancestor. A move never looks at
the ancestors of the object that it moves to, so that an object can be moved into one that lies
below it, and then the two are ancestors of each other. No other move makes such a circle.

## Main definitions

* `ObjectTable.Ancestor` — an object is reached from another one over parent links.
* `ObjectTable.Acyclic`, `ObjectTable.Rooted` — no object is its own ancestor; the parent links of
  an object come to an end.
* `Move.Sinks` — a move into an object that lies below the moved one.

## Main statements

* `ObjectTable.acyclic_iff_rooted` — circles are the only way in which links go on forever.
* `acyclic_move_iff` — a move keeps a forest exactly if the object does not sink.
* `forest_until_sinking` — as long as no object sinks, moves keep a forest.
-/

namespace ZMachine

namespace ObjectTable

variable {t t' : ObjectTable} {a b id q : Nat}

/-! ## Ancestors -/

/-- The object `a` is the parent of `id`, or the parent of its parent, and so on. -/
inductive Ancestor (t : ObjectTable) (a : Nat) : Nat → Prop
  | parent {id : Nat} (names : t.parentOf id = a) : Ancestor t a id
  | above {id : Nat} (rest : Ancestor t a (t.parentOf id)) : Ancestor t a id

def Acyclic (t : ObjectTable) : Prop :=
  ∀ id, t.Has id → ¬ t.Ancestor id id

inductive Rooted (t : ObjectTable) : Nat → Prop
  | nowhere : Rooted t 0
  | parent {id : Nat} (rest : Rooted t (t.parentOf id)) : Rooted t id

theorem parentOf_zero : t.parentOf 0 = 0 := by
  simp [parentOf, linkOf, get?]

theorem Ancestor.trans (h : t.Ancestor b id) (h' : t.Ancestor a b) : t.Ancestor a id := by
  induction h with
  | parent names =>
    subst names
    exact .above h'
  | above _ ih => exact .above ih

/-- Nothing is above the number 0, which stands for no object. -/
theorem Ancestor.eq_zero (h : t.Ancestor a id) (nowhere : id = 0) : a = 0 := by
  induction h with
  | parent names => simp [← names, nowhere, parentOf_zero]
  | above _ ih => exact ih (by simp [nowhere, parentOf_zero])

/-- An object from which the links come to an end does not lie below itself. -/
theorem Rooted.not_ancestor_self (h : t.Rooted id) (ne : id ≠ 0) : ¬ t.Ancestor id id := by
  induction h with
  | nowhere => exact absurd rfl ne
  | @parent id _ ih =>
    intro circle
    by_cases top : t.parentOf id = 0
    · cases circle with
      | parent names => exact ne (names.symm.trans top)
      | above rest => exact ne (rest.eq_zero top)
    · -- The parent lies on the circle too.
      refine ih top ?_
      cases circle with
      | parent names =>
        rw [names]
        exact .parent names
      | above rest => exact rest.trans (.parent rfl)

instance (t : ObjectTable) : Finite { id // t.Has id } :=
  Set.Finite.subset (Finset.finite_toSet (Finset.range (t.size + 1))) fun id has => by
    simpa using Nat.lt_succ_of_le has.2

/-- In a table without circles, of which there are only so many objects, parent links end. -/
theorem Acyclic.rooted (acyclic : t.Acyclic)
    (parents : ∀ id, t.Has id → t.parentOf id = 0 ∨ t.Has (t.parentOf id)) (has : t.Has id) :
    t.Rooted id := by
  let above (a b : { id // t.Has id }) : Prop := t.Ancestor a.1 b.1
  have : IsTrans _ above := ⟨fun _ _ _ h h' => h'.trans h⟩
  have : Std.Irrefl above := ⟨fun x => acyclic x.1 x.2⟩
  have wellFounded : WellFounded above := Finite.wellFounded_of_trans_of_irrefl above
  suffices ∀ x : { id // t.Has id }, t.Rooted x.1 from this ⟨id, has⟩
  intro x
  induction x using wellFounded.induction with
  | _ x ih =>
    rcases parents x.1 x.2 with none | hasParent
    · exact .parent (none ▸ .nowhere)
    · exact .parent (ih ⟨_, hasParent⟩ (.parent rfl))

/-- There is no circle iff the parent links from every object come to an end. -/
theorem acyclic_iff_rooted
    (parents : ∀ id, t.Has id → t.parentOf id = 0 ∨ t.Has (t.parentOf id)) :
    t.Acyclic ↔ ∀ id, t.Has id → t.Rooted id :=
  ⟨fun acyclic _ has => acyclic.rooted parents has,
    fun rooted id has => (rooted id has).not_ancestor_self has.ne_zero⟩

/-! ## One new parent -/

section NewParent

variable (same : ∀ x, x ≠ id → t'.parentOf x = t.parentOf x)
include same

/-- The links from an object that does not lie below `id` are the old ones. -/
theorem Rooted.of_not_below {x : Nat} (h : t.Rooted x) (ne : x ≠ id)
    (beside : ¬ t.Ancestor id x) : t'.Rooted x := by
  induction h with
  | nowhere => exact .nowhere
  | parent _ ih =>
    refine .parent ?_
    rw [same _ ne]
    exact ih (fun eq => beside (.parent eq)) fun ancestor => beside (.above ancestor)

theorem Rooted.of_rooted {x : Nat} (h : t.Rooted x) (top : t'.Rooted id) : t'.Rooted x := by
  induction h with
  | nowhere => exact .nowhere
  | @parent x _ ih =>
    by_cases eq : x = id
    · exact eq ▸ top
    · refine .parent ?_
      rwa [same x eq]

theorem Ancestor.of_ne {x : Nat} (h : t.Ancestor id x) (ne : x ≠ id) : t'.Ancestor id x := by
  induction h with
  | @parent x names => exact .parent ((same x ne).trans names)
  | @above x _ ih =>
    by_cases eq : t.parentOf x = id
    · exact .parent ((same x ne).trans eq)
    · refine .above ?_
      rw [same x ne]
      exact ih eq

end NewParent

end ObjectTable

open ObjectTable ObjectStore

variable {s : ObjectStore} {move : Move}

/-! ## Moves -/

/-- The move succeeds, and takes an object into one that lies below it. -/
def Move.Sinks (t : ObjectTable) : Move → Prop
  | .detach _ => False
  | .reparent id parent => (Move.reparent id parent).Allowed t ∧ t.Ancestor id parent

def NeverSinks (s : ObjectStore) : List Move → Prop
  | [] => True
  | move :: moves => ¬ move.Sinks s.table ∧ NeverSinks (finalState move.action s) moves

/-- What a move changes about ancestors: it cuts links, or closes a circle if the object sinks. -/
theorem Move.Changes.acyclic_iff {t t' : ObjectTable} (changes : move.Changes t t')
    (allowed : move.Allowed t) (consistent : t.ChainConsistent) (consistent' : t'.ChainConsistent)
    (acyclic : t.Acyclic) : t'.Acyclic ↔ ¬ move.Sinks t := by
  have rooted := (acyclic_iff_rooted consistent.parent).mp acyclic
  cases move with
  | detach id =>
    obtain ⟨size_eq, parent_self, same, -⟩ := changes
    have top : t'.Rooted id := .parent (parent_self ▸ .nowhere)
    refine iff_of_true ?_ (fun sinks => sinks)
    rw [acyclic_iff_rooted consistent'.parent]
    intro x has
    exact (rooted x ⟨has.1, size_eq ▸ has.2⟩).of_rooted same top
  | reparent id q =>
    obtain ⟨size_eq, parent_self, same, -⟩ := changes
    obtain ⟨hasId, hasNew, ne⟩ : t.Has id ∧ t.Has q ∧ id ≠ q := allowed
    constructor
    · rintro acyclic' ⟨-, below⟩
      refine acyclic' id ⟨hasId.1, size_eq ▸ hasId.2⟩ (.above ?_)
      rw [parent_self]
      exact below.of_ne same ne.symm
    · intro stays
      have beside : ¬ t.Ancestor id q := fun below => stays ⟨⟨hasId, hasNew, ne⟩, below⟩
      have top : t'.Rooted id :=
        .parent (parent_self ▸ (rooted q hasNew).of_not_below same ne.symm beside)
      rw [acyclic_iff_rooted consistent'.parent]
      intro x has
      exact (rooted x ⟨has.1, size_eq ▸ has.2⟩).of_rooted same top

/-- A move keeps a forest exactly if it does not take the object into one below it. -/
theorem acyclic_move_iff (fits : s.Fits) (consistent : s.table.ChainConsistent)
    (acyclic : s.table.Acyclic) :
    (finalState move.action s).table.Acyclic ↔ ¬ move.Sinks s.table := by
  by_cases allowed : move.Allowed s.table
  · obtain ⟨s', run, -, consistent', changes⟩ := run_allowed fits consistent allowed
    rw [finalState_of_ok run]
    exact changes.acyclic_iff allowed consistent consistent' acyclic
  · obtain ⟨fault, run⟩ := run_not_allowed allowed
    rw [finalState_of_error run]
    refine iff_of_true acyclic fun sinks => ?_
    cases move with
    | detach id => exact sinks
    | reparent id q => exact allowed sinks.1

/-- Moves that never take an object into one below it make no circle. -/
theorem acyclic_runMoves (fits : s.Fits) (consistent : s.table.ChainConsistent)
    (acyclic : s.table.Acyclic) {moves : List Move} (never : NeverSinks s moves) :
    (runMoves s moves).table.Acyclic := by
  induction moves generalizing s with
  | nil => exact acyclic
  | cons move moves ih =>
    obtain ⟨fits', consistent'⟩ := @chainConsistent_move _ move fits consistent
    exact ih fits' consistent' ((acyclic_move_iff fits consistent acyclic).mpr never.1) never.2

/-- For every table that is consistent and without circles when it is loaded, after every sequence
of moves none of which takes an object into one below it: no object is its own ancestor, and the
parent links of every object come to an end. The next move leaves it so exactly if it does not take
an object into one below it either. -/
theorem forest_until_sinking {m : Memory} {address : Nat} {abbreviations : AbbreviationTable}
    {t : ObjectTable} (loaded : load m address abbreviations = .ok t)
    (consistent : t.ChainConsistent) (acyclic : t.Acyclic) {moves : List Move}
    (never : NeverSinks ⟨m, t⟩ moves) (next : Move) :
    let s := runMoves ⟨m, t⟩ moves
    let s' := finalState next.action s
    s.table.Acyclic ∧ (∀ id, s.table.Has id → s.table.Rooted id) ∧
      (s'.table.Acyclic ↔ ¬ next.Sinks s.table) := by
  intro s s'
  have fits : ObjectStore.Fits ⟨m, t⟩ := fits_of_load loaded
  obtain ⟨fitsNow, consistentNow⟩ := chainConsistent_runMoves fits consistent moves
  have acyclicNow := acyclic_runMoves fits consistent acyclic never
  exact ⟨acyclicNow, (acyclic_iff_rooted consistentNow.parent).mp acyclicNow,
    acyclic_move_iff fitsNow consistentNow acyclicNow⟩

theorem acyclic_familyTable : familyTable.Acyclic := by
  rw [acyclic_iff_rooted chainConsistent_familyTable.parent]
  have first : familyTable.Rooted 1 := .parent .nowhere
  intro id has
  have mem := has_familyTable has
  simp only [List.mem_cons, List.not_mem_nil, or_false] at mem
  obtain rfl | rfl | rfl := mem
  · exact first
  · exact .parent first
  · exact .parent first

/-- The second object goes below the third, which does not lie below it; the third must not
follow. -/
theorem forest_of_family :
    let s := runMoves ⟨familyMemory, familyTable⟩ [.reparent 2 3]
    s.table.parentOf 2 = 3 ∧ s.table.Acyclic ∧ s.table.Rooted 2 ∧
      ¬ (finalState (Move.reparent 3 2).action s).table.Acyclic := by
  have loaded : load familyMemory 0 ⟨0⟩ = .ok familyTable := by decide +kernel
  have never : NeverSinks ⟨familyMemory, familyTable⟩ [.reparent 2 3] := by
    refine ⟨?_, trivial⟩
    -- The third object lies below the first only.
    rintro ⟨-, names | names | rest⟩
    · exact absurd names (by decide)
    · exact absurd names (by decide)
    · exact absurd (rest.eq_zero (by decide)) (by decide)
  obtain ⟨acyclic, rooted, next⟩ := forest_until_sinking loaded chainConsistent_familyTable
    acyclic_familyTable never (.reparent 3 2)
  have names : (runMoves ⟨familyMemory, familyTable⟩ [.reparent 2 3]).table.parentOf 2 = 3 := by
    decide +kernel
  refine ⟨names, acyclic, rooted 2 (by decide +kernel), fun still => ?_⟩
  have allowed : (Move.reparent 3 2).Allowed
      (runMoves ⟨familyMemory, familyTable⟩ [.reparent 2 3]).table :=
    ⟨by decide +kernel, by decide +kernel, by decide⟩
  exact next.mp still ⟨allowed, .parent names⟩

/-- The first object is moved into the second, its own child. The move succeeds, and each of the two
is then the parent of the other. -/
theorem circle_of_family :
    let s : ObjectStore := ⟨familyMemory, familyTable⟩
    let t := (runMoves s [.reparent 1 2]).table
    load familyMemory 0 ⟨0⟩ = .ok familyTable ∧ familyTable.ChainConsistent ∧
      familyTable.Acyclic ∧ answer (Move.reparent 1 2).action s = .ok () ∧
      t.parentOf 1 = 2 ∧ t.parentOf 2 = 1 ∧ ¬ t.Acyclic ∧ ¬ t.Rooted 1 := by
  intro s t
  have up : t.parentOf 1 = 2 := by decide +kernel
  have down : t.parentOf 2 = 1 := by decide +kernel
  have circle : t.Ancestor 1 1 := .above (up ▸ .parent down)
  exact ⟨by decide +kernel, chainConsistent_familyTable, acyclic_familyTable, by decide +kernel,
    up, down, fun acyclic => acyclic 1 (by decide +kernel) circle,
    fun rooted => rooted.not_ancestor_self (by decide) circle⟩

end ZMachine
