import ZMachine.Proofs.Engine.Safety
import ZMachine.Proofs.Machine.Places

/-!
# Variables along a run

On every machine that a loaded story can lead to, variables behave as if locals, stacks and globals
were kept apart from each other.

## Main statements

* `Machine.sound_access` — an access keeps a machine sound.
* `Machine.accessAll_spaces` — accesses do to the variables of a machine what they do to its spaces.
* `Machine.spaces_enterRoutine`, `Machine.spaces_leaveRoutine` — calls and returns are accesses.
* `Engine.variables_never_alias` — all this for the machines of a run.
-/

namespace ZMachine

namespace Machine

variable {m m' : Machine}

/-! ## Accesses one after another -/

theorem sound_access (sound : m.Sound) (a : Access) : (m.access a).2.Sound := by
  have acts {x : MachineM (Option Word)} (h : Acts Write.Any id x) : (finalState x m).Sound :=
    (Effects.turns (h m)).sound sound
  cases a with
  | read b => exact acts (.bind (acts_readVariable b) fun _ => .pure _)
  | write b value => exact acts (.bind (acts_writeVariable value .any) fun _ => .pure _)
  | readInPlace b => exact acts (.bind (acts_readVariableInPlace b) fun _ => .pure _)
  | writeInPlace b value =>
    exact acts (.bind (acts_writeVariableInPlace value .any) fun _ => .pure _)
  | enter f fits =>
    refine ⟨fun g mem => ?_, sound.objects⟩
    rcases List.mem_cons.mp mem with rfl | mem
    · exact fits
    · exact sound.frames g mem
  | leave =>
    have run := run_leaveFrame m
    unfold access Access.action
    rcases m.stack.pop_cases with ⟨main, -⟩ | ⟨rest, popped, -⟩
    · rw [main] at run
      rw [finalState_bind_of_error run]
      exact sound
    · rw [popped] at run
      rw [finalState_bind_of_ok run]
      have left := Turn.leave popped
      exact ⟨(left.sound sound).frames, sound.objects⟩

theorem sound_accessAll (sound : m.Sound) (accesses : List Access) :
    (accessAll access m accesses).2.Sound := by
  induction accesses generalizing m with
  | nil => exact sound
  | cons a rest ih => exact ih (sound_access sound a)

/-- The answers are the same as if variables were kept apart, and so are the variables left. -/
theorem accessAll_spaces (sound : m.Sound) (accesses : List Access) :
    ((accessAll access m accesses).1, (accessAll access m accesses).2.spaces) =
      accessAll Spaces.access m.spaces accesses := by
  induction accesses generalizing m with
  | nil => rfl
  | cons a rest ih =>
    rw [accessAll_cons, accessAll_cons, ← access_spaces sound a, ← ih (sound_access sound a)]

/-- A row of accesses does to a machine what it does to the variables kept apart. -/
theorem spaces_accessAll (sound : m.Sound) (accesses : List Access) :
    (accessAll access m accesses).2.spaces = (accessAll Spaces.access m.spaces accesses).2 :=
  congrArg Prod.snd (accessAll_spaces sound accesses)

/-! ## Calls and returns -/

/-- A call enters a frame. -/
theorem spaces_enterRoutine {routine : Nat} {arguments : List Word} {result : Option Byte}
    (run : (enterRoutine routine arguments result).run m = .ok () m') :
    ∃ f sound, m'.spaces = (m.access (.enter f sound)).2.spaces := by
  rw [run_enterRoutine] at run
  cases made : Frame.forCall m.memory routine arguments m.pc result with
  | error e =>
    rw [made] at run
    cases run
  | ok entered =>
    rw [made] at run
    cases run
    exact ⟨entered.1, Frame.sound_of_forCall made, rfl⟩

/-- A return leaves a frame, and then writes the variable that the result is wanted in, if any. -/
theorem spaces_leaveRoutine (sound : m.Sound) {value : Word}
    (run : (leaveRoutine value).run m = .ok () m') :
    m'.spaces = (accessAll access m
      (.leave :: m.stack.current.result.toList.map fun b => .write b value)).2.spaces := by
  rw [run_leaveRoutine] at run
  have leave := run_leaveFrame m
  rcases m.stack.pop_cases with ⟨main, -⟩ | ⟨rest, popped, -⟩
  · rw [main] at run
    cases run
  · rw [popped] at run leave
    have leave : (m.access .leave).2 = { m with stack := rest } := finalState_bind_of_ok leave
    rw [accessAll_cons, leave]
    have returned := (Turn.leave popped).sound sound
    have left : ({ m with stack := rest } : Machine).Sound := ⟨returned.frames, returned.objects⟩
    dsimp only at run
    cases wanted : m.stack.current.result with
    | none =>
      rw [wanted] at run
      cases run
      rfl
    | some b =>
      rw [wanted] at run
      -- The machine has also gone on elsewhere, but its variables do not show that.
      have same := spaces_access returned (.write b value)
      have written : (access _ (.write b value)).2 = m' := finalState_bind_of_ok run
      rw [written] at same
      exact same.trans (spaces_access left (.write b value)).symm

/-! ## Variables kept apart -/

/-- What is written to a variable other than the top of the stack is read until its place is written
again. Of a local this is to be seen whenever its routine runs. -/
theorem read_of_written (sound : m.Sound) {b : Byte} (nonzero : b ≠ 0) {value : Word} {a : Access}
    (write : a = .write b value ∨ a = .writeInPlace b value) (done : (m.access a).1 = .ok none)
    {rest : List Access} (spared : Access.Spares (m.spaces.named b) (m.access a).2.spaces rest)
    (running : (accessAll access (m.access a).2 rest).2.spaces.named b = m.spaces.named b) :
    ((accessAll access (m.access a).2 rest).2.access (.read b)).1 = .ok (some value) ∧
      ((accessAll access (m.access a).2 rest).2.access (.readInPlace b)).1 = .ok (some value) := by
  have sound' := sound_access sound a
  have stored : (m.access a).2.spaces.contents (m.spaces.named b) = some [value] := by
    rw [fst_access sound] at done
    rw [spaces_access sound]
    exact Spaces.contents_named_of_access nonzero write done
  have kept := Spaces.contents_accessAll spared
  rw [← spaces_accessAll sound', stored, ← running] at kept
  have read := Spaces.read_of_contents nonzero kept
  have sound'' := sound_accessAll sound' rest
  rw [fst_access sound'', fst_access sound'']
  constructor
  · simp only [Spaces.access, Spaces.perform, read]
    rfl
  · simp only [Spaces.access, Spaces.perform, Spaces.readInPlace_of_ne_zero _ nonzero, read]
    rfl

/-- On a machine, variables behave as if locals, stacks and globals were kept apart. -/
structure KeepsApart (m : Machine) : Prop where
  /-- Each routine has its own number of locals, whatever is on its stack. -/
  locals : ∀ f ∈ m.stack.frames, f.scope.locals.length = f.localCount
  /-- Accesses answer what they do when variables are kept apart, and leave what they do then. -/
  answers : ∀ accesses, ((accessAll access m accesses).1, (accessAll access m accesses).2.spaces) =
    accessAll Spaces.access m.spaces accesses
  /-- An access that fails changes nothing at all. -/
  failed : ∀ a e, (m.access a).1 = .error e → (m.access a).2 = m
  /-- An access changes one place at most, or those of a routine that is entered or left. -/
  others : ∀ a place, ¬a.Changes m.spaces place →
    (m.access a).2.spaces.contents place = m.spaces.contents place
  /-- What is written to a variable other than the top of the stack is read until its place is
  written again. -/
  readBack : ∀ (b : Byte) (value : Word) (a : Access) (rest : List Access), b ≠ 0 →
    a = .write b value ∨ a = .writeInPlace b value → (m.access a).1 = .ok none →
    Access.Spares (m.spaces.named b) (m.access a).2.spaces rest →
    (accessAll access (m.access a).2 rest).2.spaces.named b = m.spaces.named b →
    ((accessAll access (m.access a).2 rest).2.access (.read b)).1 = .ok (some value) ∧
      ((accessAll access (m.access a).2 rest).2.access (.readInPlace b)).1 = .ok (some value)
  /-- A call enters a frame. -/
  called : ∀ routine arguments result m',
    (enterRoutine routine arguments result).run m = .ok () m' →
    ∃ f sound, m'.spaces = (m.access (.enter f sound)).2.spaces
  /-- A return leaves a frame, and then writes the variable that the result is wanted in. -/
  returned : ∀ value m', (leaveRoutine value).run m = .ok () m' →
    m'.spaces = (accessAll access m
      (.leave :: m.stack.current.result.toList.map fun b => .write b value)).2.spaces

/-- On a sound machine, no variable is another one. -/
theorem Sound.keepsApart (sound : m.Sound) : m.KeepsApart where
  locals f mem := (sound.frames f mem).length_locals
  answers := accessAll_spaces sound
  failed _ _ := access_of_error sound
  others a place spared := by
    rw [spaces_access sound]
    exact Spaces.contents_access spared
  readBack _ _ _ _ nonzero write done spared running :=
    read_of_written sound nonzero write done spared running
  called _ _ _ _ := spaces_enterRoutine
  returned _ _ := spaces_leaveRoutine sound

end Machine

namespace Engine

open Machine

variable {η : Type} [Host η]

/-- On whatever way a loaded story has come to a machine, and whatever is then done with variables
and frames, variables go on as if locals, stacks and globals were kept apart. -/
theorem variables_never_alias {story : Memory} {random : Random} {e : Engine η}
    (loaded : load story random = .ok e.machine) (n : Nat) {m : Machine}
    (reached : Turns (e.after n).machine m) (accesses : List Access) :
    (accessAll access m accesses).2.KeepsApart := by
  have sound : m.Sound := Turns.sound ((turns_after e n).trans reached) (sound_of_load loaded)
  exact (sound_accessAll sound accesses).keepsApart

/-- A routine with two locals, called in the middle of a story. Its locals and its stack are its
own, and the global is not. -/
theorem variables_never_alias_boxStory :
    let e : Engine Script := ofMachine boxMachine (Script.ofLines [])
    let m := (e.after 2).machine
    let accesses : List Access := [.write 0 3, .write 16 7,
      .enter ⟨200, 100, none, 2, #[1, 2]⟩ ⟨by decide, by decide⟩, .read 0, .write 2 5, .write 0 9,
      .writeInPlace 0 8, .read 3, .readInPlace 0, .write 0 6, .read 0, .read 2, .read 16, .leave,
      .read 1, .read 0, .leave]
    load boxStory (Random.predictable 0) = .ok boxMachine ∧ Turns (e.after 2).machine m ∧
      (accessAll access m accesses).1 = [.ok none, .ok none,
        .ok none, .error (.stackUnderflow 200), .ok none, .ok none,
        .ok none, .error (.invalidOperand (.noLocal 3 200 2)), .ok (some 8), .ok none, .ok (some 6),
        .ok (some 5), .ok (some 7), .ok none,
        .error (.invalidOperand (.noLocal 1 100 0)), .ok (some 3), .error .returnFromMainRoutine] ∧
      (accessAll access m accesses).2.KeepsApart :=
  ⟨load_boxStory, .refl, by decide +kernel,
    variables_never_alias (e := ofMachine boxMachine (Script.ofLines [])) load_boxStory 2 .refl _⟩

end Engine
end ZMachine
