import Mathlib.Data.List.Basic
import Mathlib.Order.Defs.Unbundled
import ZMachine.Error

/-!
# Running actions

What an action of several parts does is read off what its parts do. `Except Error` stops at the
first failure; `EStateM Error σ` also hands on the state in which it stopped.

## Main statements

* `Except.bind_eq_ok`, `Except.map_eq_ok` — a computation has a value iff each part of it has one.
* `Except.mapM_eq_ok` — the values of a computation for each item of a list.
* `EStateM.run_lift` — a computation without a state, run in one with a state.
* `answer_bind_of_ok`, `finalState_bind_of_ok` — what an action of two parts does once the first is
  done.
* `exists_of_answer_bind`, `cases_of_answer_bind` — the parts of an action that has an answer, and
  of one that fails.
* `Leads.bind` — a relation between the states before and after each part of an action.
* `Fails.bind` — a property of all that the parts of an action fail for.
* `LeavesIntact.bind` — an action that only its first part can fail in, and only before it changes
  anything.
* `Parallel.bind` — actions on different states do alike if their parts do.

An action is observed from outside through its `answer` and its `finalState`.
-/

namespace ZMachine

variable {ε σ α β : Type}

/-- Two computations in a row give a value iff both do. -/
theorem Except.bind_eq_ok {x : Except ε α} {f : α → Except ε β} {b : β} :
    x >>= f = .ok b ↔ ∃ a, x = .ok a ∧ f a = .ok b := by
  cases x with
  | ok a => exact ⟨fun h => ⟨a, rfl, h⟩, fun ⟨_, rfl, h⟩ => h⟩
  | error e => exact ⟨nofun, fun ⟨_, h, _⟩ => nomatch h⟩

theorem Except.map_eq_ok {x : Except ε α} {f : α → β} {b : β} :
    f <$> x = .ok b ↔ ∃ a, x = .ok a ∧ f a = b := by
  cases x with
  | ok a => exact ⟨fun h => ⟨a, rfl, Except.ok.inj h⟩, fun ⟨_, rfl, h⟩ => congrArg _ h⟩
  | error e => exact ⟨nofun, fun ⟨_, h, _⟩ => nomatch h⟩

theorem Except.exists_eq_ok_of_isOk {x : Except ε α} (h : x.isOk = true) : ∃ a, x = .ok a := by
  cases x with
  | ok a => exact ⟨a, rfl⟩
  | error e => cases h

/-- A computation for each item of a list gives as many values, each of them from its item. -/
theorem Except.mapM_eq_ok {f : α → Except ε β} {l : List α} {values : List β}
    (h : l.mapM f = .ok values) : List.Forall₂ (fun a b => f a = .ok b) l values := by
  induction l generalizing values with
  | nil =>
    cases h
    exact .nil
  | cons a l ih =>
    rw [List.mapM_cons] at h
    obtain ⟨b, hb, h⟩ := Except.bind_eq_ok.mp h
    obtain ⟨rest, hrest, h⟩ := Except.bind_eq_ok.mp h
    cases h
    exact .cons hb (ih hrest)

/-- The values of a list of computations are those that its members give. -/
theorem Except.mem_of_mapM_eq_ok {f : α → Except ε β} {l : List α} {values : List β} {b : β}
    (h : l.mapM f = .ok values) : b ∈ values ↔ ∃ a ∈ l, f a = .ok b := by
  induction Except.mapM_eq_ok h with
  | nil => simp
  | @cons a own l values eq _ ih =>
    obtain ⟨b, hb, rest⟩ := Except.bind_eq_ok.mp (List.mapM_cons.symm.trans h)
    obtain ⟨values, hvalues, rest⟩ := Except.bind_eq_ok.mp rest
    cases rest
    simp [ih hvalues, eq, eq_comm]

/-- A computation that has a value for each item of a list has them all. -/
theorem Except.mapM_eq_ok_map {f : α → Except ε β} {g : α → β} {l : List α}
    (h : ∀ a ∈ l, f a = .ok (g a)) : l.mapM f = .ok (l.map g) := by
  induction l with
  | nil => rfl
  | cons a l ih =>
    rw [List.mapM_cons, h a List.mem_cons_self, ih fun a' mem => h a' (List.mem_cons_of_mem a mem)]
    rfl

theorem Except.exists_mapM_eq_ok {f : α → Except ε β} {l : List α}
    (h : ∀ a ∈ l, ∃ b, f a = .ok b) : ∃ values, l.mapM f = .ok values := by
  induction l with
  | nil => exact ⟨[], rfl⟩
  | cons a l ih =>
    obtain ⟨b, hb⟩ := h a List.mem_cons_self
    obtain ⟨rest, hrest⟩ := ih fun a' mem => h a' (List.mem_cons_of_mem a mem)
    refine ⟨b :: rest, ?_⟩
    rw [List.mapM_cons, hb, hrest]
    rfl

/-- A computation without a state leaves the state of the action that it is part of alone. -/
@[simp] theorem EStateM.run_lift (x : Except ε α) (s : σ) :
    EStateM.run (monadLift x : EStateM ε σ α) s =
      match x with
      | .ok a => .ok a s
      | .error e => .error e s := rfl

def answer (x : EStateM ε σ α) (s : σ) : Except ε α :=
  match x.run s with
  | .ok a _ => .ok a
  | .error e _ => .error e

def finalState (x : EStateM ε σ α) (s : σ) : σ :=
  match x.run s with
  | .ok _ s' => s'
  | .error _ s' => s'

variable {x : EStateM ε σ α} {s s' : σ}

theorem answer_of_ok {a : α} (h : x.run s = .ok a s') : answer x s = .ok a := by
  rw [answer, h]

theorem finalState_of_ok {a : α} (h : x.run s = .ok a s') : finalState x s = s' := by
  rw [finalState, h]

theorem answer_of_error {e : ε} (h : x.run s = .error e s') : answer x s = .error e := by
  rw [answer, h]

theorem finalState_of_error {e : ε} (h : x.run s = .error e s') : finalState x s = s' := by
  rw [finalState, h]

section
variable {f : α → EStateM ε σ β}

theorem answer_bind_of_ok {a : α} (h : x.run s = .ok a s') :
    answer (x >>= f) s = answer (f a) s' := by
  rw [answer, EStateM.run_bind, h, answer]

theorem finalState_bind_of_ok {a : α} (h : x.run s = .ok a s') :
    finalState (x >>= f) s = finalState (f a) s' := by
  rw [finalState, EStateM.run_bind, h, finalState]

theorem answer_bind_of_error {e : ε} (h : x.run s = .error e s') :
    answer (x >>= f) s = .error e := by
  rw [answer, EStateM.run_bind, h]

theorem finalState_bind_of_error {e : ε} (h : x.run s = .error e s') :
    finalState (x >>= f) s = s' := by
  rw [finalState, EStateM.run_bind, h]

end

/-- Actions of two parts that do the same from where they start. -/
theorem run_bind_congr {x y : EStateM ε σ α} {f g : α → EStateM ε σ β} (first : x.run s = y.run s)
    (rest : ∀ a s', y.run s = .ok a s' → (f a).run s' = (g a).run s') :
    (x >>= f).run s = (y >>= g).run s := by
  rw [EStateM.run_bind, EStateM.run_bind, first]
  cases run : y.run s with
  | ok a s' => exact rest a s' run
  | error e s' => rfl

/-- Of a computation without a state, only what follows its value counts. -/
theorem run_lift_bind_congr {x : Except ε α} {f g : α → EStateM ε σ β}
    (rest : ∀ a, x = .ok a → (f a).run s = (g a).run s) :
    ((monadLift x : EStateM ε σ α) >>= f).run s = ((monadLift x : EStateM ε σ α) >>= g).run s := by
  cases x with
  | ok a => exact rest a rfl
  | error e => rfl

/-- An action that starts by looking at the state depends only on what it does in that state. -/
theorem run_get_bind_congr {f g : σ → EStateM ε σ β} (rest : (f s).run s = (g s).run s) :
    (MonadState.get >>= f).run s = (MonadState.get >>= g).run s :=
  rest

/-- An action of two parts has an answer if the first part has one and the second goes on to it. -/
theorem exists_of_answer_bind {f : α → EStateM ε σ β} {b : β} (h : answer (x >>= f) s = .ok b) :
    ∃ a s', x.run s = .ok a s' ∧ answer (f a) s' = .ok b ∧
      finalState (x >>= f) s = finalState (f a) s' := by
  cases run : x.run s with
  | ok a s' =>
    rw [answer_bind_of_ok run] at h
    exact ⟨a, s', rfl, h, finalState_bind_of_ok run⟩
  | error e s' =>
    rw [answer_bind_of_error run] at h
    cases h

/-- An action of two parts fails in the first part, or in the second after the first is done. -/
theorem cases_of_answer_bind {f : α → EStateM ε σ β} {e : ε} (h : answer (x >>= f) s = .error e) :
    answer x s = .error e ∨ ∃ a s', x.run s = .ok a s' ∧ answer (f a) s' = .error e := by
  cases run : x.run s with
  | ok a s' =>
    rw [answer_bind_of_ok run] at h
    exact .inr ⟨a, s', rfl, h⟩
  | error e' s' =>
    cases (answer_bind_of_error run).symm.trans h
    exact .inl (answer_of_error run)

/-- Of a computation without a state that is followed by another action, only the value counts. -/
theorem exists_of_answer_lift_bind {x : Except ε α} {f : α → EStateM ε σ β} {b : β}
    (h : answer ((monadLift x : EStateM ε σ α) >>= f) s = .ok b) :
    ∃ a, x = .ok a ∧ answer (f a) s = .ok b ∧
      finalState ((monadLift x : EStateM ε σ α) >>= f) s = finalState (f a) s := by
  cases x with
  | ok a => exact ⟨a, rfl, h, rfl⟩
  | error e => cases h

/-- A run is told by its answer and the state that it leaves. -/
theorem run_of_answer {a : α} (h : answer x s = .ok a) : x.run s = .ok a (finalState x s) := by
  cases run : x.run s with
  | ok a' s' =>
    rw [answer_of_ok run] at h
    rw [finalState_of_ok run, Except.ok.inj h]
  | error e s' =>
    rw [answer_of_error run] at h
    cases h

section
variable {h : ε → EStateM ε σ α}

theorem EStateM.run_tryCatch_of_ok {a : α} (run : x.run s = .ok a s') :
    (tryCatch x h).run s = .ok a s' := by
  change EStateM.tryCatch x h s = _
  change x s = _ at run
  simp only [EStateM.tryCatch, run]

/-- A handler goes on from where the failure happened. -/
theorem EStateM.run_tryCatch_of_error {e : ε} (run : x.run s = .error e s') :
    (tryCatch x h).run s = (h e).run s' := by
  change EStateM.tryCatch x h s = h e s'
  change x s = _ at run
  simp only [EStateM.tryCatch, run]
  rfl

end

/-! ## What an action does to the state -/

/-- Whatever state an action starts in, the one it leaves is related to it. -/
def Leads (R : σ → σ → Prop) (x : EStateM ε σ α) : Prop :=
  ∀ s, R s (finalState x s)

section
variable {R : σ → σ → Prop} {f : α → EStateM ε σ β}

/-- An action of two parts, of which the second is only known to do well where the first leads. -/
theorem rel_finalState_bind [IsTrans σ R] (first : R s (finalState x s))
    (second : ∀ a s', x.run s = .ok a s' → R s' (finalState (f a) s')) :
    R s (finalState (x >>= f) s) := by
  cases run : x.run s with
  | ok a s' =>
    rw [finalState_of_ok run] at first
    rw [finalState_bind_of_ok run]
    exact trans_of R first (second a s' run)
  | error e s' =>
    rw [finalState_of_error run] at first
    rwa [finalState_bind_of_error run]

theorem finalState_get_bind (f : σ → EStateM ε σ β) :
    finalState (MonadState.get >>= f) s = finalState (f s) s := rfl

/-- Of a computation without a state, only what follows its value counts. -/
theorem rel_finalState_lift_bind [Std.Refl R] {x : Except ε α}
    (rest : ∀ a, x = .ok a → R s (finalState (f a) s)) :
    R s (finalState ((monadLift x : EStateM ε σ α) >>= f) s) := by
  cases found : x with
  | ok a => exact rest a found
  | error e => exact refl_of R s

namespace Leads

theorem of_ok {a : α} (h : Leads R x) (run : x.run s = .ok a s') : R s s' :=
  finalState_of_ok run ▸ h s

theorem of_error {e : ε} (h : Leads R x) (run : x.run s = .error e s') : R s s' :=
  finalState_of_error run ▸ h s

theorem bind [IsTrans σ R] (hx : Leads R x) (hf : ∀ a, Leads R (f a)) : Leads R (x >>= f) :=
  fun s => rel_finalState_bind (hx s) fun a s' _ => hf a s'

variable [Std.Refl R]

theorem pure (a : α) : Leads R (Pure.pure a : EStateM ε σ α) :=
  fun s => refl_of R s

theorem throw (e : ε) : Leads R (MonadExcept.throw e : EStateM ε σ α) :=
  fun s => refl_of R s

theorem get : Leads R (MonadState.get : EStateM ε σ σ) :=
  fun s => refl_of R s

theorem lift (x : Except ε α) : Leads R (monadLift x : EStateM ε σ α) := by
  intro s
  rw [finalState, EStateM.run_lift]
  cases x <;> exact refl_of R s

omit [Std.Refl R] in
theorem modify {g : σ → σ} (h : ∀ s, R s (g s)) :
    Leads R (modify g : EStateM ε σ PUnit) :=
  h

omit [Std.Refl R] in
/-- An action that keeps to a relation keeps to a larger one. -/
theorem mono {R' : σ → σ → Prop} (h : Leads R x) (imp : ∀ s s', R s s' → R' s s') : Leads R' x :=
  fun s => imp s _ (h s)

end Leads
end

def Keeps (part : σ → β) (s s' : σ) : Prop :=
  part s' = part s

instance (part : σ → β) : Std.Refl (Keeps part) := ⟨fun _ => rfl⟩

instance (part : σ → β) : IsTrans σ (Keeps part) := ⟨fun _ _ _ h h' => h'.trans h⟩

/-! ## What an action can answer -/

def Yields (P : α → Prop) (x : EStateM ε σ α) : Prop :=
  ∀ s a, answer x s = .ok a → P a

namespace Yields

variable {P Q : α → Prop}

theorem pure {a : α} (h : P a) : Yields P (Pure.pure a : EStateM ε σ α) := by
  rintro s _ ⟨⟩
  exact h

theorem throw (e : ε) : Yields P (MonadExcept.throw e : EStateM ε σ α) :=
  fun _ _ => nofun

/-- Only the last part of an action answers. -/
theorem bind {x : EStateM ε σ β} {f : β → EStateM ε σ α} (h : ∀ b, Yields P (f b)) :
    Yields P (x >>= f) := by
  intro s a answered
  obtain ⟨b, s', -, rest, -⟩ := exists_of_answer_bind answered
  exact h b s' a rest

theorem mono (h : Yields P x) (imp : ∀ a, P a → Q a) : Yields Q x :=
  fun s a answered => imp a (h s a answered)

end Yields

/-! ## What an action can fail for -/

def Except.Fails (P : ε → Prop) (x : Except ε α) : Prop :=
  ∀ e, x = .error e → P e

def Fails (P : ε → Prop) (x : EStateM ε σ α) : Prop :=
  ∀ s e, answer x s = .error e → P e

section
variable {P : ε → Prop}

namespace Except.Fails

theorem ok (a : α) : Except.Fails P (.ok a) := nofun

theorem error {e : ε} (h : P e) : Except.Fails P (.error e : Except ε α) := by
  rintro _ ⟨⟩
  exact h

/-- The first part fails, or the second. -/
theorem bind {x : Except ε α} {f : α → Except ε β} (hx : Except.Fails P x)
    (hf : ∀ a, Except.Fails P (f a)) : Except.Fails P (x >>= f) := by
  cases x with
  | ok a => exact hf a
  | error e =>
    rintro _ ⟨⟩
    exact hx e rfl

theorem map {x : Except ε α} {f : α → β} (hx : Except.Fails P x) : Except.Fails P (f <$> x) := by
  cases x with
  | ok a => exact nofun
  | error e =>
    rintro _ ⟨⟩
    exact hx e rfl

theorem mapM {f : α → Except ε β} {l : List α} (h : ∀ a ∈ l, Except.Fails P (f a)) :
    Except.Fails P (l.mapM f) := by
  induction l with
  | nil => exact .ok []
  | cons a l ih =>
    rw [List.mapM_cons]
    exact .bind (h a List.mem_cons_self) fun b =>
      .bind (ih fun a mem => h a (List.mem_cons_of_mem _ mem)) fun bs => .ok _

end Except.Fails

namespace Fails

theorem pure (a : α) : Fails P (Pure.pure a : EStateM ε σ α) :=
  fun _ _ => nofun

theorem throw {e : ε} (h : P e) : Fails P (MonadExcept.throw e : EStateM ε σ α) := by
  rintro s _ ⟨⟩
  exact h

theorem get : Fails P (MonadState.get : EStateM ε σ σ) :=
  fun _ _ => nofun

theorem modify {g : σ → σ} : Fails P (modify g : EStateM ε σ PUnit) :=
  fun _ _ => nofun

theorem lift {x : Except ε α} (h : Except.Fails P x) : Fails P (monadLift x : EStateM ε σ α) := by
  cases x with
  | ok a => exact fun _ _ => nofun
  | error e => exact .throw (h e rfl)

/-- Two actions in a row fail for what one of them fails for. -/
theorem bind {x : EStateM ε σ α} {f : α → EStateM ε σ β} (hx : Fails P x)
    (hf : ∀ a, Fails P (f a)) : Fails P (x >>= f) := by
  intro s e failed
  obtain first | ⟨a, s', -, second⟩ := cases_of_answer_bind failed
  · exact hx s e first
  · exact hf a s' e second

end Fails
end

/-! ## Failing without a trace -/

def Succeeds (x : EStateM ε σ α) (s : σ) : Prop :=
  ∃ a s', x.run s = .ok a s'

/-- If the action fails from this state, the state stays as it was. -/
def LeavesIntact (x : EStateM ε σ α) (s : σ) : Prop :=
  ∀ e s', x.run s = .error e s' → s' = s

theorem succeeds_iff : Succeeds x s ↔ ∃ a, answer x s = .ok a := by
  constructor
  · rintro ⟨a, s', run⟩
    exact ⟨a, answer_of_ok run⟩
  · rintro ⟨a, answered⟩
    exact ⟨a, _, run_of_answer answered⟩

/-- What does not fail has nothing to undo. -/
theorem Succeeds.leavesIntact (h : Succeeds x s) : LeavesIntact x s := by
  obtain ⟨a, s', run⟩ := h
  intro e t failed
  rw [run] at failed
  cases failed

namespace LeavesIntact

/-- After a failure the state is the one that the action started in. -/
theorem finalState_eq (h : LeavesIntact x s) {e : ε} (failed : answer x s = .error e) :
    finalState x s = s := by
  cases run : x.run s with
  | ok a s' =>
    rw [answer_of_ok run] at failed
    cases failed
  | error e' s' => exact (finalState_of_error run).trans (h e' s' run)

theorem throw (e : ε) : LeavesIntact (MonadExcept.throw e : EStateM ε σ α) s := by
  rintro _ _ ⟨⟩
  rfl

/-- Looking at the state does not change it. -/
theorem get_bind {f : σ → EStateM ε σ α} (rest : LeavesIntact (f s) s) :
    LeavesIntact (MonadState.get >>= f) s :=
  rest

/-- Nor does a computation without a state. -/
theorem lift_bind {x : Except ε α} {f : α → EStateM ε σ β}
    (rest : ∀ a, x = .ok a → LeavesIntact (f a) s) :
    LeavesIntact ((monadLift x : EStateM ε σ α) >>= f) s := by
  cases x with
  | ok a => exact rest a rfl
  | error e => exact .throw e

/-- What follows the first change must not fail. -/
theorem bind {f : α → EStateM ε σ β} (first : LeavesIntact x s)
    (rest : ∀ a s', x.run s = .ok a s' → Succeeds (f a) s') : LeavesIntact (x >>= f) s := by
  intro e t failed
  rw [EStateM.run_bind] at failed
  cases run : x.run s with
  | ok a s' =>
    obtain ⟨b, s'', done⟩ := rest a s' run
    rw [run] at failed
    cases done.symm.trans failed
  | error e' s' =>
    rw [run] at failed
    cases failed
    exact first e t run

end LeavesIntact

/-! ## What an action does not notice -/

def withState (g : σ → σ) : EStateM.Result ε σ α → EStateM.Result ε σ α
  | .ok a s => .ok a (g s)
  | .error e s => .error e (g s)

/-- A result is an answer and a state. -/
theorem run_eq_withState_iff {g : σ → σ} {x y : EStateM ε σ α} {s s' : σ} :
    x.run s = withState g (y.run s') ↔
      answer x s = answer y s' ∧ finalState x s = g (finalState y s') := by
  rw [answer, answer, finalState, finalState]
  cases x.run s <;> cases y.run s' <;> simp [withState]

/-- An action does the same after a change of the state, and does not undo it. -/
def Ignores (g : σ → σ) (x : EStateM ε σ α) : Prop :=
  ∀ s, x.run (g s) = withState g (x.run s)

namespace Ignores

variable {g : σ → σ}

theorem pure (a : α) : Ignores g (Pure.pure a : EStateM ε σ α) :=
  fun _ => rfl

theorem throw (e : ε) : Ignores g (MonadExcept.throw e : EStateM ε σ α) :=
  fun _ => rfl

theorem lift (x : Except ε α) : Ignores g (monadLift x : EStateM ε σ α) := by
  intro s
  cases x <;> rfl

theorem modify {f : σ → σ} (commute : ∀ s, f (g s) = g (f s)) :
    Ignores g (modify f : EStateM ε σ PUnit) :=
  fun s => congrArg (EStateM.Result.ok _) (commute s)

/-- Two actions in a row ignore what each of them ignores. -/
theorem bind {x : EStateM ε σ α} {f : α → EStateM ε σ β} (hx : Ignores g x)
    (hf : ∀ a, Ignores g (f a)) : Ignores g (x >>= f) := by
  intro s
  rw [EStateM.run_bind, EStateM.run_bind, hx s]
  cases x.run s with
  | ok a s' => exact hf a s'
  | error e s' => rfl

/-- An action may look at the state if it makes nothing of what is changed. -/
theorem get_bind {f : σ → EStateM ε σ α} (same : ∀ s, f (g s) = f s)
    (hf : ∀ s, Ignores g (f s)) : Ignores g (MonadState.get >>= f) := by
  intro s
  change (f (g s)).run (g s) = withState g ((f s).run s)
  rw [same]
  exact hf s s

end Ignores

/-! ## What two actions do alike -/

section
variable {τ : Type}

inductive Matches (R : σ → τ → Prop) : EStateM.Result ε σ α → EStateM.Result ε τ α → Prop
  | ok (a : α) {s : σ} {t : τ} (h : R s t) : Matches R (.ok a s) (.ok a t)
  | error (e : ε) {s : σ} {t : τ} (h : R s t) : Matches R (.error e s) (.error e t)

/-- From states that are related, two actions do alike. -/
def Parallel (R : σ → τ → Prop) (x : EStateM ε σ α) (y : EStateM ε τ α) : Prop :=
  ∀ s t, R s t → Matches R (x.run s) (y.run t)

namespace Parallel

variable {R : σ → τ → Prop} {x : EStateM ε σ α} {y : EStateM ε τ α}

theorem pure (a : α) :
    Parallel R (Pure.pure a : EStateM ε σ α) (Pure.pure a : EStateM ε τ α) :=
  fun _ _ h => .ok a h

theorem throw (e : ε) :
    Parallel R (MonadExcept.throw e : EStateM ε σ α) (MonadExcept.throw e : EStateM ε τ α) :=
  fun _ _ h => .error e h

theorem lift (x : Except ε α) :
    Parallel R (monadLift x : EStateM ε σ α) (monadLift x : EStateM ε τ α) := by
  cases x with
  | ok a => exact .pure a
  | error e => exact .throw e

theorem modify {f : σ → σ} {g : τ → τ} (kept : ∀ s t, R s t → R (f s) (g t)) :
    Parallel R (modify f : EStateM ε σ PUnit) (modify g : EStateM ε τ PUnit) :=
  fun s t h => .ok _ (kept s t h)

/-- Two actions in a row do alike when each of them does. -/
theorem bind {f : α → EStateM ε σ β} {g : α → EStateM ε τ β} (first : Parallel R x y)
    (rest : ∀ a, Parallel R (f a) (g a)) : Parallel R (x >>= f) (y >>= g) := by
  intro s t h
  have first := first s t h
  rw [EStateM.run_bind, EStateM.run_bind]
  generalize x.run s = r, y.run t = r' at first ⊢
  cases first with
  | ok a h => exact rest a _ _ h
  | error e h => exact .error e h

/-- Actions may look at the states they are in. -/
theorem get_bind {f : σ → EStateM ε σ α} {g : τ → EStateM ε τ α}
    (rest : ∀ s t, R s t → Matches R ((f s).run s) ((g t).run t)) :
    Parallel R (MonadState.get >>= f) (MonadState.get >>= g) :=
  rest

theorem tryCatch {f : ε → EStateM ε σ α} {g : ε → EStateM ε τ α} (first : Parallel R x y)
    (rest : ∀ e, Parallel R (f e) (g e)) :
    Parallel R (MonadExcept.tryCatch x f) (MonadExcept.tryCatch y g) := by
  intro s t h
  have first := first s t h
  cases run : x.run s with
  | ok a s' =>
    rw [run] at first
    rw [EStateM.run_tryCatch_of_ok run]
    generalize run' : y.run t = r' at first
    cases first with
    | ok a h =>
      rw [EStateM.run_tryCatch_of_ok run']
      exact .ok a h
  | error e s' =>
    rw [run] at first
    rw [EStateM.run_tryCatch_of_error run]
    generalize run' : y.run t = r' at first
    cases first with
    | error e h =>
      rw [EStateM.run_tryCatch_of_error run']
      exact rest e _ _ h

theorem answer_eq (parallel : Parallel R x y) {s : σ} {t : τ} (h : R s t) :
    answer x s = answer y t := by
  have both := parallel s t h
  rw [answer, answer]
  generalize x.run s = r, y.run t = r' at both ⊢
  cases both <;> rfl

theorem rel_finalState (parallel : Parallel R x y) {s : σ} {t : τ} (h : R s t) :
    R (finalState x s) (finalState y t) := by
  have both := parallel s t h
  rw [finalState, finalState]
  generalize x.run s = r, y.run t = r' at both ⊢
  cases both <;> assumption

end Parallel
end

end ZMachine
