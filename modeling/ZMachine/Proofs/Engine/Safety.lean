import ZMachine.Proofs.Engine.Limit
import ZMachine.Proofs.Engine.Run
import ZMachine.Proofs.Machine.Access
import ZMachine.Proofs.Machine.Loaded
import ZMachine.Proofs.Object.Loaded

/-!
# No access goes wrong

From a loaded story an engine never gets to a machine on which an access without a check could go
wrong: each turn of a machine keeps it sound.

## Main statements

* `Machine.Turns.sound` — a sound machine stays sound.
* `Engine.access_never_fails` — on no way from a loaded story an access goes wrong.
-/

namespace ZMachine

namespace Machine

variable {m m' : Machine}

/-! ## Sound machines -/

theorem size_of_objectChange (change : ObjectChange) (s : ObjectStore) :
    (finalState change.action s).table.size ≤ s.table.size := by
  have touches := change.leads_action s
  by_cases none : (finalState change.action s).table.size = 0
  · omega
  · exact (touches.shape.has_iff.mp ⟨Nat.pos_of_ne_zero none, le_rfl⟩).2

theorem Effect.sound {W : Write → Prop} (h : Effect W m m') (sound : m.Sound) : m'.Sound := by
  cases h with
  | push value => exact sound.withFrame (sound.current.push value)
  | pop popped => exact sound.withFrame (sound.current.pop popped)
  | assignLocal set => exact sound.withFrame (sound.current.setLocal set)
  | assignGlobal | writeByte | writeWord | sow => exact ⟨sound.frames, sound.objects⟩
  | objects change =>
    exact ⟨sound.frames, (size_of_objectChange change m.objectStore).trans sound.objects⟩

theorem Turn.sound (h : Turn m m') (sound : m.Sound) : m'.Sound := by
  cases h with
  | effect h => exact h.sound sound
  | goOn pc => exact ⟨sound.frames, sound.objects⟩
  | enter made =>
    refine ⟨fun g mem => ?_, sound.objects⟩
    rcases List.mem_cons.mp mem with rfl | mem
    · exact Frame.sound_of_forCall made
    · exact sound.frames g mem
  | leave popped =>
    refine ⟨fun g mem => sound.frames g ?_, sound.objects⟩
    unfold CallStack.pop at popped
    split at popped
    · cases popped
    · next own =>
      cases popped
      rw [CallStack.frames, own]
      exact List.mem_cons_of_mem _ mem

theorem Turns.sound (h : Turns m m') (sound : m.Sound) : m'.Sound := by
  induction h with
  | refl => exact sound
  | tail _ last ih => exact last.sound ih

theorem sound_of_load {story : Memory} {random : Random} (loaded : load story random = .ok m) :
    m.Sound := by
  obtain ⟨h, objects, dictionary, -, readObjects, -, rfl⟩ := load_iff.mp loaded
  refine ⟨fun f mem => ?_, (ObjectTable.fits_of_load readObjects).size_le⟩
  obtain rfl := List.mem_singleton.mp mem
  exact Frame.sound_initial h.start

end Machine

namespace Engine

open Machine

variable {η : Type} [Host η]

/-- No step fails because a word was cut inside a character. -/
theorem step_ne_splitCharacter (e : Engine η) (offset : Nat) :
    answer step e ≠ .error (.splitCharacter offset) := by
  intro failed
  rcases fails_step failed with ordinary | ⟨limit, -, -, wrong⟩
  · exact ordinary.elim
  · cases wrong

/-- No story can lead to a bad access, whatever the host does and whatever the limit is. A story
that is not refused gives a sound machine, and it stays sound from turn to turn, of which every step
is made. On a sound machine it is never seen what accesses do at bad places, and no line that was
typed is cut inside a character: it is printable, and whatever the separators are, such a line is
cut into parts of it, though others are not. -/
theorem access_never_fails (story : Memory) (random : Random) (host : η) (limit : Option Nat) :
    (∀ offset, load story random ≠ .error (.splitCharacter offset)) ∧
    (∀ machine, load story random = .ok machine → ∀ n,
      let e := ((ofMachine machine host).withLimit limit).after n
      (∀ offset, answer step e ≠ .error (.splitCharacter offset)) ∧
      Turns e.machine (finalState step e).machine ∧
      ∀ m, Turns e.machine m → m.Sound ∧ ∀ u : Unchecked, u.Agrees → u.Serves m) ∧
    (∀ separators text, (∀ c ∈ text, TypedLine.Printable c) →
      ∃ words, Token.ofLine separators (String.ofList text) = .ok words ∧
        ∀ word ∈ words, word.LiesIn text) ∧
    Token.ofLine [0xA9] "é" = .error (.splitCharacter 0) := by
  refine ⟨fun offset failed => ?_, fun machine loaded n => ?_, fun separators text printable => ?_,
    Token.ofLine_split⟩
  · exact (Machine.fails_load _ _ _ failed).elim
  · refine ⟨step_ne_splitCharacter _, turns_step _, fun m turns => ?_⟩
    have sound : m.Sound := Turns.sound ((turns_after _ n).trans turns) (sound_of_load loaded)
    exact ⟨sound, fun u agrees => agrees.serves sound⟩
  · exact Token.ofLine_ascii separators fun c mem =>
      Nat.lt_of_le_of_lt (printable c mem).2 (by decide)

/-- Two steps of a story, and accesses that fail at every bad place. -/
theorem access_never_fails_boxStory :
    let e : Engine Script :=
      ((ofMachine boxMachine (Script.ofLines [])).withLimit (some 3)).after 2
    load boxStory (Random.predictable 0) = .ok boxMachine ∧ e.machine.Sound ∧
      (Unchecked.strict .returnFromMainRoutine).Serves e.machine ∧
      (∀ offset, answer step e ≠ .error (.splitCharacter offset)) ∧
      ∃ words, Token.ofLine [44] (String.ofList ['g', 'o', ',', 'n']) = .ok words ∧
        ∀ word ∈ words, word.LiesIn ['g', 'o', ',', 'n'] := by
  intro e
  obtain ⟨-, runs, cuts, -⟩ :=
    access_never_fails boxStory (Random.predictable 0) (Script.ofLines []) (some 3)
  obtain ⟨never, -, serves⟩ := runs boxMachine load_boxStory 2
  obtain ⟨sound, served⟩ := serves e.machine .refl
  have printable : ['g', 'o', ',', 'n'].all (TypedLine.Printable ·) := by decide
  exact ⟨load_boxStory, sound, served _ (Unchecked.agrees_strict _), never,
    cuts [44] ['g', 'o', ',', 'n'] (by simpa using printable)⟩

end Engine
end ZMachine
