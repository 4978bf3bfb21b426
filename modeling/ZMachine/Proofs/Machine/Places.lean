import ZMachine.Proofs.Machine.Spaces

/-!
# Places of variables

Every word that a variable can hold has a place, and every stack. An access changes what is at one
place at most, unless it enters or leaves a routine; so a word that was written stays where it is
until its place is written again.

## Main definitions

* `Place` — where words are: the stacks, the locals and the globals.
* `Spaces.contents` — the words at a place, `Spaces.named` — the place that a byte names.
* `Access.Changes` — an access may change what is at a place; `Access.Spares` — none of several
  does.

## Main statements

* `Spaces.contents_access` — what is at other places stays as it is.
* `Spaces.contents_accessAll` — so does what is at a place that several accesses spare.
* `Spaces.read_of_contents` — a variable other than the top of the stack has the word at its place.
-/

namespace ZMachine

/-- Where words are. Routines are told apart by how many others lie below them, and the locals of
one are counted from 0. -/
inductive Place where
  | stack (height : Nat)
  | localVar (height index : Nat)
  | globalVar (index : Fin 240)

/-- How many routines lie below the one that has this place. -/
def Place.height? : Place → Option Nat
  | stack height => some height
  | localVar height _ => some height
  | globalVar _ => none

namespace Spaces

def height (s : Spaces) : Nat :=
  s.below.length

def scope? (s : Spaces) (height : Nat) : Option Scope :=
  if height = s.height then some s.current else s.below.reverse[height]?

def contents (s : Spaces) : Place → Option (List Word)
  | .stack height => (s.scope? height).map Scope.stack
  | .localVar height index => (s.scope? height).bind fun scope => scope.locals[index]?.map ([·])
  | .globalVar index => (s.globals index).toOption.map ([·])

def named (s : Spaces) (b : Byte) : Place :=
  match Variable.ofByte b with
  | .stackTop => .stack s.height
  | .localVar number => .localVar s.height (number - 1)
  | .globalVar index => .globalVar (Variable.global index)

end Spaces

namespace Access

/-- What is at this place may change. Entering and leaving a routine concern all its places. -/
def Changes (s : Spaces) : Access → Place → Prop
  | read b, place => b = 0 ∧ place = s.named b
  | write b _, place => place = s.named b
  | readInPlace _, _ => False
  | writeInPlace b _, place => place = s.named b
  | enter _ _, place => place.height? = some (s.height + 1)
  | leave, place => place.height? = some s.height

def Spares (place : Place) : Spaces → List Access → Prop
  | _, [] => True
  | s, a :: rest => ¬a.Changes s place ∧ Spares place (s.access a).2 rest

end Access

theorem Variable.ofByte_eq_stackTop {b : Byte} : ofByte b = stackTop ↔ b = 0 := by
  unfold ofByte
  split_ifs with zero low <;> simp [zero]

/-- Locals are counted from 1. -/
theorem Variable.pos_of_ofByte {b : Byte} {number : Nat} (h : ofByte b = localVar number) :
    0 < number := by
  unfold ofByte at h
  split_ifs at h with zero low
  cases h
  exact Nat.pos_of_ne_zero fun none => zero (UInt8.toNat_inj.mp none)

theorem Scope.locals_of_pop {s s' : Scope} {value : Word} (popped : s.pop = .ok (value, s')) :
    s'.locals = s.locals := by
  unfold pop at popped
  split at popped
  · cases popped
    rfl
  · cases popped

namespace Spaces

variable {s s' : Spaces} {b : Byte} {value : Word} {place : Place}

/-! ## What stays as it is -/

theorem contents_withCurrent {scope : Scope}
    (stack : place = .stack s.height → scope.stack = s.current.stack)
    (locals : ∀ index, place = .localVar s.height index →
      scope.locals[index]? = s.current.locals[index]?) :
    ({ s with current := scope } : Spaces).contents place = s.contents place := by
  have height : ({ s with current := scope } : Spaces).height = s.height := rfl
  cases place with
  | stack h =>
    simp only [contents, scope?, height]
    split_ifs with own
    · rw [Option.map_some, Option.map_some, stack (own ▸ rfl)]
    · rfl
  | localVar h index =>
    simp only [contents, scope?, height]
    split_ifs with own
    · rw [Option.bind_some, Option.bind_some, locals index (own ▸ rfl)]
    · rfl
  | globalVar => rfl

/-- Reading a variable changes no other one, and none at all unless it is the top of the stack. -/
theorem contents_read (read : s.read b = .ok (value, s'))
    (other : b = 0 → place ≠ s.named b) : s'.contents place = s.contents place := by
  unfold Spaces.read at read
  cases kind : Variable.ofByte b with
  | stackTop =>
    simp only [kind] at read
    obtain ⟨⟨top, scope⟩, popped, read⟩ := Except.bind_eq_ok.mp read
    cases read
    have other := other (Variable.ofByte_eq_stackTop.mp kind)
    simp only [named, kind] at other
    have same := Scope.locals_of_pop popped
    exact contents_withCurrent (fun own => absurd own other) fun _ _ => by rw [same]
  | localVar number =>
    simp only [kind] at read
    obtain ⟨_, -, read⟩ := Except.bind_eq_ok.mp read
    cases read
    rfl
  | globalVar index =>
    simp only [kind] at read
    obtain ⟨_, -, read⟩ := Except.bind_eq_ok.mp read
    cases read
    rfl

/-- Writing a variable changes no other one. -/
theorem contents_write (write : s.write b value = .ok s') (other : place ≠ s.named b) :
    s'.contents place = s.contents place := by
  unfold Spaces.write at write
  cases kind : Variable.ofByte b with
  | stackTop =>
    simp only [kind] at write
    simp only [named, kind] at other
    cases write
    exact contents_withCurrent (fun own => absurd own other) fun _ _ => rfl
  | localVar number =>
    simp only [kind] at write
    simp only [named, kind] at other
    obtain ⟨scope, set, write⟩ := Except.bind_eq_ok.mp write
    obtain ⟨_, -, set⟩ := Except.bind_eq_ok.mp set
    cases set
    cases write
    refine contents_withCurrent (fun _ => rfl) fun index own => List.getElem?_set_ne ?_
    rintro rfl
    exact other own
  | globalVar index =>
    simp only [kind] at write
    simp only [named, kind] at other
    obtain ⟨_, -, write⟩ := Except.bind_eq_ok.mp write
    cases write
    cases place with
    | stack | localVar => rfl
    | globalVar i =>
      simp only [contents]
      rw [Function.update_of_ne fun same => other (congrArg Place.globalVar same)]

theorem contents_readInPlace (read : s.readInPlace b = .ok (value, s')) :
    s'.contents place = s.contents place := by
  unfold Spaces.readInPlace at read
  split at read
  · obtain ⟨_, -, read⟩ := Except.bind_eq_ok.mp read
    cases read
    rfl
  · next kind =>
    exact contents_read read fun zero => absurd (Variable.ofByte_eq_stackTop.mpr zero) kind

theorem contents_writeInPlace (write : s.writeInPlace b value = .ok s')
    (other : place ≠ s.named b) : s'.contents place = s.contents place := by
  unfold Spaces.writeInPlace at write
  split at write
  · next kind =>
    obtain ⟨⟨top, scope⟩, popped, write⟩ := Except.bind_eq_ok.mp write
    cases write
    simp only [named, kind] at other
    have same := Scope.locals_of_pop popped
    exact contents_withCurrent (fun own => absurd own other) fun _ _ => by rw [Scope.push, same]
  · exact contents_write write other

theorem scope?_enter {h : Nat} (scope : Scope) (other : h ≠ s.height + 1) :
    (s.enter scope).scope? h = s.scope? h := by
  have height : (s.enter scope).height = s.height + 1 := rfl
  rw [scope?, scope?, height, if_neg other]
  change (s.current :: s.below).reverse[h]? = _
  rw [List.reverse_cons]
  have length : s.below.reverse.length = s.height := List.length_reverse
  by_cases own : h = s.height
  · rw [if_pos own, own, ← length, List.getElem?_concat_length]
  · rw [if_neg own]
    by_cases low : h < s.height
    · exact List.getElem?_append_left (by omega)
    · rw [List.getElem?_eq_none (l := s.below.reverse) (by omega), List.getElem?_eq_none]
      rw [List.length_append, List.length_singleton]
      omega

/-- Only the places of the routine that is entered are new. -/
theorem contents_enter (scope : Scope) (other : place.height? ≠ some (s.height + 1)) :
    (s.enter scope).contents place = s.contents place := by
  cases place with
  | stack h | localVar h index =>
    have other : h ≠ s.height + 1 := fun same => other (congrArg some same)
    simp only [contents, scope?_enter scope other]
  | globalVar => rfl

/-- Only the places of the routine that is left are gone. -/
theorem contents_leave (left : s.leave = .ok s') (other : place.height? ≠ some s.height) :
    s'.contents place = s.contents place := by
  unfold Spaces.leave at left
  obtain ⟨current, below, globals⟩ := s
  cases below with
  | nil => cases left
  | cons scope below =>
    cases left
    exact (contents_enter current other).symm

/-- An access changes only what it may. -/
theorem contents_access {a : Access} (spared : ¬a.Changes s place) :
    (s.access a).2.contents place = s.contents place := by
  unfold Spaces.access
  cases performed : s.perform a with
  | error e => rfl
  | ok result =>
    cases a with
    | read b =>
      obtain ⟨_, done, performed⟩ := Except.bind_eq_ok.mp performed
      cases performed
      exact contents_read done fun zero same => spared ⟨zero, same⟩
    | write b value =>
      obtain ⟨_, done, performed⟩ := Except.bind_eq_ok.mp performed
      cases performed
      exact contents_write done spared
    | readInPlace b =>
      obtain ⟨_, done, performed⟩ := Except.bind_eq_ok.mp performed
      cases performed
      exact contents_readInPlace done
    | writeInPlace b value =>
      obtain ⟨_, done, performed⟩ := Except.bind_eq_ok.mp performed
      cases performed
      exact contents_writeInPlace done spared
    | enter f sound =>
      cases performed
      exact contents_enter f.scope spared
    | leave =>
      obtain ⟨_, done, performed⟩ := Except.bind_eq_ok.mp performed
      cases performed
      exact contents_leave done spared

/-- What none of the accesses may change stays. -/
theorem contents_accessAll {accesses : List Access} (spared : Access.Spares place s accesses) :
    (accessAll Spaces.access s accesses).2.contents place = s.contents place := by
  induction accesses generalizing s with
  | nil => rfl
  | cons a rest ih =>
    obtain ⟨first, rest⟩ := spared
    exact (ih rest).trans (contents_access first)

/-! ## What was written can be read -/

theorem contents_named_of_write (nonzero : b ≠ 0) (write : s.write b value = .ok s') :
    s'.contents (s.named b) = some [value] := by
  unfold Spaces.write at write
  cases kind : Variable.ofByte b with
  | stackTop => exact absurd (Variable.ofByte_eq_stackTop.mp kind) nonzero
  | localVar number =>
    simp only [kind] at write
    obtain ⟨scope, set, write⟩ := Except.bind_eq_ok.mp write
    obtain ⟨_, required, set⟩ := Except.bind_eq_ok.mp set
    cases set
    cases write
    unfold Scope.requireLocal at required
    split at required
    · have height (current : Scope) : ({ s with current } : Spaces).height = s.height := rfl
      simp only [named, kind, contents, scope?, height, if_true, Option.bind_some]
      rw [List.getElem?_set_self (by omega), Option.map_some]
    · cases required
  | globalVar index =>
    simp only [kind] at write
    obtain ⟨_, -, write⟩ := Except.bind_eq_ok.mp write
    cases write
    simp only [named, kind, contents, Function.update_self]
    rfl

theorem readInPlace_of_ne_zero (s : Spaces) (nonzero : b ≠ 0) : s.readInPlace b = s.read b := by
  unfold Spaces.readInPlace
  split
  · next kind => exact absurd (Variable.ofByte_eq_stackTop.mp kind) nonzero
  · rfl

theorem writeInPlace_of_ne_zero (s : Spaces) (nonzero : b ≠ 0) :
    s.writeInPlace b value = s.write b value := by
  unfold Spaces.writeInPlace
  split
  · next kind => exact absurd (Variable.ofByte_eq_stackTop.mp kind) nonzero
  · rfl

/-- After a write, the value is at the place that the byte names. -/
theorem contents_named_of_access {a : Access} (nonzero : b ≠ 0)
    (write : a = .write b value ∨ a = .writeInPlace b value) (done : (s.access a).1 = .ok none) :
    (s.access a).2.contents (s.named b) = some [value] := by
  have same : s.access a = s.access (.write b value) := by
    rcases write with rfl | rfl
    · rfl
    · simp only [access, perform, writeInPlace_of_ne_zero s nonzero]
  rw [same] at done ⊢
  cases written : s.write b value with
  | error e =>
    have failed : s.access (.write b value) = (.error e, s) := by
      rw [access, perform, written]
      rfl
    rw [failed] at done
    cases done
  | ok s' =>
    have stored : s.access (.write b value) = (.ok none, s') := by
      rw [access, perform, written]
      rfl
    rw [stored]
    exact contents_named_of_write nonzero written

/-- What is at a place is read from it. -/
theorem read_of_contents (nonzero : b ≠ 0) (found : s.contents (s.named b) = some [value]) :
    s.read b = .ok (value, s) := by
  unfold Spaces.read
  cases kind : Variable.ofByte b with
  | stackTop => exact absurd (Variable.ofByte_eq_stackTop.mp kind) nonzero
  | localVar number =>
    simp only [named, kind, contents, scope?, if_true, Option.bind_some, Option.map_eq_some_iff,
      List.cons.injEq, and_true, exists_eq_right] at found
    have pos := Variable.pos_of_ofByte kind
    obtain ⟨inside, -⟩ := List.getElem?_eq_some_iff.mp found
    have required : s.current.requireLocal number = .ok () := if_pos ⟨pos, by omega⟩
    simp only [Scope.getLocal, required, List.getD_eq_getElem?_getD, found]
    rfl
  | globalVar index =>
    simp only [named, kind, contents] at found
    cases word : s.globals (Variable.global index) with
    | error e =>
      rw [word] at found
      cases found
    | ok own =>
      rw [word] at found
      cases found
      dsimp only
      rw [word]
      rfl

end Spaces
end ZMachine
