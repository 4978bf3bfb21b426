import Mathlib.Tactic.IntervalCases
import ZMachine.Proofs.Object.Loaded

/-!
# Sequences of moves

A program moves objects about in any order, and a move may name no object, an object twice, or an
object and one below it. Whatever it does, the chains of a table that was consistent when it was
loaded stay so, and each move changes the lists of children in the one way that its name says.

## Main definitions

* `Move` — taking an object away from its parent, or moving it into another one.
* `Move.Allowed`, `Move.Changes` — which moves succeed, and what these do to the lists.
* `runMoves` — the store after some moves, whether they have succeeded or not.

## Main statements

* `chainConsistent_runMoves` — any number of moves keeps a table consistent.
* `moves_act_on_children` — every move of every sequence acts on the lists of children as told.
-/

namespace ZMachine

open ObjectTable ObjectStore

inductive Move where
  | detach (id : Nat)
  | reparent (id parent : Nat)
  deriving DecidableEq, Repr

namespace Move

def action : Move → ObjectM Unit
  | detach id => remove id
  | reparent id parent => insertInto id parent

def object : Move → Nat
  | detach id => id
  | reparent id _ => id

def Allowed (t : ObjectTable) : Move → Prop
  | detach id => t.Has id
  | reparent id parent => t.Has id ∧ t.Has parent ∧ id ≠ parent

def Changes (t t' : ObjectTable) : Move → Prop
  | detach id => Detached t t' id
  | reparent id parent => Reparented t t' id parent

/-- If the moved object is not the first child of its parent, the walk over the children ends at the
object before it. The walk has no bound of its own; the bounded one gives the same object. -/
def WalkEnds (t : ObjectTable) (move : Move) : Prop :=
  let parent := t.parentOf move.object
  parent ≠ 0 → t.childOf parent ≠ move.object →
    ∃ before, Finds t move.object (t.childOf parent) before ∧
      siblingBefore t move.object parent (t.size + 1) (t.childOf parent) = .ok before

end Move

/-- The store after some moves. A move that is refused does not keep the next one from being
made. -/
def runMoves (s : ObjectStore) (moves : List Move) : ObjectStore :=
  moves.foldl (fun s move => finalState move.action s) s

variable {s : ObjectStore} {move : Move}

/-! ## One move -/

/-- Where chains are consistent, the walk before a move comes to an end. -/
theorem walkEnds_of_consistent {t : ObjectTable} (consistent : t.ChainConsistent) :
    move.WalkEnds t := by
  intro hasParent later
  have hasObject := has_of_parentOf_ne_zero hasParent
  have has := (consistent.parent _ hasObject).resolve_left hasParent
  obtain ⟨front, before, back, -, finds⟩ := (consistent.chain_children has).exists_finds
    ((consistent.mem_children has).mpr ⟨hasObject, rfl⟩) later
  exact ⟨before, finds, siblingBefore_eq_ok_iff.mpr finds⟩

/-- A move that is allowed succeeds and does to the lists what it should. -/
theorem run_allowed (fits : s.Fits) (consistent : s.table.ChainConsistent)
    (allowed : move.Allowed s.table) :
    ∃ s', move.action.run s = .ok () s' ∧ s'.Fits ∧ s'.table.ChainConsistent ∧
      move.Changes s.table s'.table := by
  cases move with
  | detach id =>
    obtain ⟨s', run, fits', -, unlinked⟩ := run_remove fits consistent allowed
    exact ⟨s', run, fits', unlinked.detached consistent⟩
  | reparent id parent =>
    obtain ⟨hasId, hasNew, ne⟩ := allowed
    obtain ⟨s', run, fits', -, changes⟩ := run_insertInto fits consistent hasId hasNew ne
    exact ⟨s', run, fits', changes⟩

/-- A move that is not allowed is refused, and leaves table and memory alone. -/
theorem run_not_allowed (no : ¬ move.Allowed s.table) :
    ∃ fault, move.action.run s = .error (.invalidOperand fault) s := by
  cases move with
  | detach id => exact ⟨_, run_remove_of_not_has no⟩
  | reparent id parent =>
    by_cases ne : id = parent
    · subst ne
      exact ⟨_, run_insertInto_self⟩
    · obtain ⟨bad, -, -, run⟩ := run_insertInto_of_not_has (s := s) ne fun has =>
        no ⟨has.1, has.2, ne⟩
      exact ⟨_, run⟩

/-! ## Many moves -/

/-- Whatever is moved, entries stay in memory and chains stay consistent. -/
theorem chainConsistent_move (fits : s.Fits) (consistent : s.table.ChainConsistent) :
    (finalState move.action s).Fits ∧ (finalState move.action s).table.ChainConsistent := by
  by_cases allowed : move.Allowed s.table
  · obtain ⟨s', run, fits', consistent', -⟩ := run_allowed fits consistent allowed
    rw [finalState_of_ok run]
    exact ⟨fits', consistent'⟩
  · obtain ⟨fault, run⟩ := run_not_allowed allowed
    rw [finalState_of_error run]
    exact ⟨fits, consistent⟩

/-- Moves keep chains consistent, whether they are refused or not. -/
theorem chainConsistent_runMoves (fits : s.Fits) (consistent : s.table.ChainConsistent)
    (moves : List Move) :
    (runMoves s moves).Fits ∧ (runMoves s moves).table.ChainConsistent := by
  induction moves generalizing s with
  | nil => exact ⟨fits, consistent⟩
  | cons move moves ih =>
    obtain ⟨fits', consistent'⟩ := @chainConsistent_move _ move fits consistent
    exact ih fits' consistent'

/-- For every table that is consistent when it is loaded, after every sequence of moves: the table
is consistent, and the next move leaves it so. The walk that this move makes ends. If the move is
allowed, it succeeds and acts on the lists of children as it should; if not, it fails and changes
nothing. -/
theorem moves_act_on_children {m : Memory} {address : Nat} {abbreviations : AbbreviationTable}
    {t : ObjectTable} (loaded : load m address abbreviations = .ok t)
    (consistent : t.ChainConsistent) (moves : List Move) (next : Move) :
    let s := runMoves ⟨m, t⟩ moves
    let s' := finalState next.action s
    s.table.ChainConsistent ∧ s'.table.ChainConsistent ∧ next.WalkEnds s.table ∧
      (next.Allowed s.table →
        answer next.action s = .ok () ∧ next.Changes s.table s'.table) ∧
      (¬ next.Allowed s.table →
        (∃ fault, answer next.action s = .error (.invalidOperand fault)) ∧ s' = s) := by
  intro s s'
  obtain ⟨fits, consistent⟩ :=
    chainConsistent_runMoves (s := ⟨m, t⟩) (fits_of_load loaded) consistent moves
  refine ⟨consistent, (chainConsistent_move fits consistent).2,
    walkEnds_of_consistent consistent, fun allowed => ?_, fun no => ?_⟩
  · obtain ⟨u, run, -, -, changes⟩ := run_allowed fits consistent allowed
    have after : s' = u := finalState_of_ok run
    rw [after]
    exact ⟨answer_of_ok run, changes⟩
  · obtain ⟨fault, run⟩ := run_not_allowed no
    exact ⟨⟨fault, answer_of_error run⟩, finalState_of_error run⟩

/-- A table of three objects, of which the second and the third are the children of the first. Their
entries begin after 62 bytes of defaults and share one block, without a name or properties. -/
def familyMemory : Memory :=
  ⟨(List.replicate 62 (0 : Byte) ++
    [0, 0, 0, 0, 0, 0, 2, 0, 89,
      0, 0, 0, 0, 1, 3, 0, 0, 89,
      0, 0, 0, 0, 1, 0, 0, 0, 89,
      0, 0]).toArray⟩

def familyTable : ObjectTable :=
  ⟨0, #[⟨0, 0, 0, 2, 89, none, []⟩, ⟨0, 1, 3, 0, 89, none, []⟩, ⟨0, 1, 0, 0, 89, none, []⟩]⟩

theorem has_familyTable {id : Nat} (h : familyTable.Has id) : id ∈ [1, 2, 3] := by
  obtain ⟨low, high⟩ := h
  change id ≤ 3 at high
  interval_cases id <;> decide

theorem chainConsistent_familyTable : familyTable.ChainConsistent := by
  have chains : ∀ p, familyTable.Has p →
      familyTable.Chain (familyTable.childOf p) (if p = 1 then [2, 3] else []) := by
    intro p has
    rcases List.mem_cons.mp (has_familyTable has) with rfl | has
    · exact .cons (by decide) (.cons (by decide) .nil)
    · rcases List.mem_pair.mp has with rfl | rfl <;> exact .nil
  refine (chainConsistent_of_lists _ (fun id has => ?_) chains (fun p _ => ?_)
    fun p has id => ⟨fun mem => ?_, fun ⟨hasId, eq⟩ => ?_⟩).1
  · have all : ∀ id ∈ [1, 2, 3],
        familyTable.parentOf id = 0 ∨ familyTable.Has (familyTable.parentOf id) := by decide
    exact all id (has_familyTable has)
  · split <;> decide
  · have all : ∀ p ∈ [1, 2, 3], ∀ id ∈ if p = 1 then [2, 3] else [],
        familyTable.Has id ∧ familyTable.parentOf id = p := by decide
    exact all p (has_familyTable has) id mem
  · have all : ∀ id ∈ [1, 2, 3], familyTable.parentOf id = 0 ∨
        id ∈ if familyTable.parentOf id = 1 then [2, 3] else [] := by decide
    subst eq
    exact (all id (has_familyTable hasId)).resolve_left has.ne_zero

/-- The second object is taken away, and then the first is moved into the third, its own child. -/
theorem moves_act_on_familyTable :
    let s := runMoves ⟨familyMemory, familyTable⟩ [.detach 2]
    let s' := finalState (Move.reparent 1 3).action s
    load familyMemory 0 ⟨0⟩ = .ok familyTable ∧ familyTable.ChainConsistent ∧
      s'.table.ChainConsistent ∧ answer (Move.reparent 1 3).action s = .ok () ∧
      Reparented s.table s'.table 1 3 ∧ s'.table.children 1 = [3] ∧ s'.table.children 3 = [1] := by
  have loaded : load familyMemory 0 ⟨0⟩ = .ok familyTable := by decide +kernel
  have acts := moves_act_on_children loaded chainConsistent_familyTable [.detach 2]
    (.reparent 1 3)
  have allowed : (Move.reparent 1 3).Allowed
      (runMoves ⟨familyMemory, familyTable⟩ [.detach 2]).table :=
    ⟨by decide +kernel, by decide +kernel, by decide⟩
  exact ⟨loaded, chainConsistent_familyTable, acts.2.1, (acts.2.2.2.1 allowed).1,
    (acts.2.2.2.1 allowed).2, by decide +kernel, by decide +kernel⟩

end ZMachine
