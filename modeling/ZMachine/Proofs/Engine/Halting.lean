import ZMachine.Proofs.Engine.Books
import ZMachine.Proofs.Engine.Calls

/-!
# How engines stop

An engine stops when the story ends or a step fails, and counts every step before that. Once it has
stopped it stays as it is, so that a run is told by its steps up to the one that stops the engine.

## Main statements

* `Engine.halted_step_iff`, `Engine.count_step` — which steps stop an engine, and that all others
  are counted.
* `Engine.after_of_halted` — a stopped engine stays as it is.
* `Engine.finalState_runFor`, `Engine.answer_runFor_of_running`, `Engine.answer_runFor_of_stops` —
  what a run leaves and answers.
* `Engine.run_runFor_of_stops`, `Engine.exists_of_answer_runFor_error` — that fuel is all that may
  cut a run short, and where its failures come from.
-/

namespace ZMachine.Engine

variable {η : Type} [Host η] {e : Engine η}

/-! ## One step -/

/-- A step of an engine that has halted quits and does nothing else. -/
theorem run_step_of_halted (halted : e.halted = true) : step.run e = .ok .quit e := by
  rw [run_step, if_pos halted]

theorem finalState_step_of_halted (halted : e.halted = true) : finalState step e = e :=
  finalState_of_ok (run_step_of_halted halted)

/-- Only a running engine can be running after a step. -/
theorem running_of_step (running : (finalState step e).halted = false) : e.halted = false := by
  cases halted : e.halted with
  | false => rfl
  | true => rwa [finalState_step_of_halted halted, halted] at running

/-- A step ends the story or fails, and then the engine has stopped, or it is counted and the engine
goes on. -/
theorem step_stops_or_counts (running : e.halted = false) :
    (answer step e = .ok .quit ∨ ∃ fault, answer step e = .error fault) ∧
        (finalState step e).halted = true ∨
      ∃ out, answer step e = .ok out ∧ out ≠ .quit ∧ (finalState step e).halted = false ∧
        (finalState step e).count = e.count + 1 := by
  rw [answer, finalState, run_step_of_running running]
  rcases run_cycle_cases e with run | ⟨limit, -, -, run⟩
  · rw [run]
    cases acted : act.run e with
    | error fault e' => exact .inl ⟨.inr ⟨fault, rfl⟩, rfl⟩
    | ok out e' =>
      obtain ⟨halted, count, -⟩ := books_of_act acted
      cases out with
      | quit =>
        rw [settle]
        cases (Host.flush : HostM η Unit).run e'.host with
        | ok u host => exact .inl ⟨.inl rfl, rfl⟩
        | error fault host => exact .inl ⟨.inr ⟨_, rfl⟩, rfl⟩
      | advanced | branched | called | returned value =>
        exact .inr ⟨_, rfl, by simp, halted.trans running, count⟩
  · rw [run]
    exact .inl ⟨.inr ⟨_, rfl⟩, rfl⟩

/-- The end of the story stops an engine, any failure does, and nothing else. -/
theorem halted_step_iff (running : e.halted = false) :
    (finalState step e).halted = true ↔
      answer step e = .ok .quit ∨ ∃ fault, answer step e = .error fault := by
  rcases step_stops_or_counts running with ⟨ends, halted⟩ | ⟨out, answered, notQuit, going, -⟩
  · exact ⟨fun _ => ends, fun _ => halted⟩
  · rw [answered, going]
    simp [notQuit]

/-- A step that does not stop the engine is counted once. -/
theorem count_step (going : (finalState step e).halted = false) :
    (finalState step e).count = e.count + 1 := by
  rcases step_stops_or_counts (running_of_step going) with ⟨-, halted⟩ | ⟨-, -, -, -, count⟩
  · simp [halted] at going
  · exact count

/-! ## Many steps -/

theorem after_of_halted (halted : e.halted = true) (n : Nat) : e.after n = e := by
  induction n with
  | zero => rfl
  | succ n ih => rw [after, ih, finalState_step_of_halted halted]

/-- Steps one after the other add up. -/
theorem after_add (m n : Nat) : e.after (m + n) = (e.after m).after n := by
  induction n with
  | zero => rfl
  | succ n ih => rw [← Nat.add_assoc, after, ih, after]

/-- The first of many steps. -/
theorem after_first (n : Nat) : e.after (n + 1) = (finalState step e).after n := by
  rw [Nat.add_comm, after_add]
  rfl

/-- Nothing changes any more after a halt. -/
theorem after_eq_of_halted {m n : Nat} (halted : (e.after m).halted = true) (le : m ≤ n) :
    e.after n = e.after m := by
  obtain ⟨k, rfl⟩ := Nat.exists_eq_add_of_le le
  rw [after_add, after_of_halted halted]

/-- An engine that is running has been running all the time. -/
theorem running_of_le {m n : Nat} (running : (e.after n).halted = false) (le : m ≤ n) :
    (e.after m).halted = false := by
  cases halted : (e.after m).halted with
  | false => rfl
  | true => rwa [after_eq_of_halted halted le, halted] at running

/-- An engine that goes on has counted all of its steps. -/
theorem count_after {n : Nat} (running : (e.after n).halted = false) :
    (e.after n).count = e.count + n := by
  induction n with
  | zero => rfl
  | succ n ih =>
    have before := ih (running_of_le running n.le_succ)
    rw [after, count_step running, before, Nat.add_assoc]

/-- An engine that has stopped within so many steps was stopped by one of them. -/
theorem exists_stop {n : Nat} (running : e.halted = false) (halted : (e.after n).halted = true) :
    ∃ k < n, (e.after k).halted = false ∧ (e.after (k + 1)).halted = true := by
  induction n with
  | zero => simp [after, running] at halted
  | succ n ih =>
    cases before : (e.after n).halted with
    | false => exact ⟨n, n.lt_succ_self, before, halted⟩
    | true =>
      obtain ⟨k, earlier, stops⟩ := ih before
      exact ⟨k, Nat.lt_succ_of_lt earlier, stops⟩

/-! ## Runs -/

theorem run_runFor_of_halted (fuel : Nat) (halted : e.halted = true) :
    (runFor fuel).run e = .ok true e := by
  cases fuel with
  | zero => exact congrArg (EStateM.Result.ok · e) halted
  | succ fuel =>
    rw [runFor, EStateM.run_bind, EStateM.run_get]
    dsimp only
    rw [if_pos halted]
    rfl

/-- A run with fuel left takes a step first, and ends there if it fails. -/
theorem run_runFor_succ (fuel : Nat) (running : e.halted = false) :
    (runFor (fuel + 1)).run e =
      match step.run e with
      | .ok _ e' => (runFor fuel).run e'
      | .error fault e' => .error fault e' := by
  rw [runFor, EStateM.run_bind, EStateM.run_get]
  dsimp only
  rw [if_neg (by simp [running]), EStateM.run_bind]
  cases step.run e <;> rfl

/-- A run leaves the engine as so many steps do. -/
theorem finalState_runFor (fuel : Nat) : finalState (runFor fuel) e = e.after fuel := by
  induction fuel generalizing e with
  | zero => rfl
  | succ fuel ih =>
    cases halted : e.halted with
    | true => rw [finalState_of_ok (run_runFor_of_halted _ halted), after_of_halted halted]
    | false =>
      rw [finalState, run_runFor_succ fuel halted, after_first]
      cases stepped : step.run e with
      | ok out e' => rw [finalState_of_ok stepped, ← ih, finalState]
      | error fault e' =>
        have stopped : (finalState step e).halted = true :=
          (halted_step_iff halted).mpr (.inr ⟨fault, answer_of_error stepped⟩)
        rw [after_of_halted stopped, finalState_of_error stepped]

theorem answer_runFor_of_running {fuel : Nat} (running : (e.after fuel).halted = false) :
    answer (runFor fuel) e = .ok false := by
  induction fuel generalizing e with
  | zero => exact congrArg Except.ok running
  | succ fuel ih =>
    have next : (finalState step e).halted = false := running_of_le running (Nat.le_add_left 1 fuel)
    have start := running_of_step next
    rw [after_first] at running
    rw [answer, run_runFor_succ fuel start]
    rcases step_stops_or_counts start with ⟨-, halted⟩ | ⟨out, answered, -, -, -⟩
    · simp [halted] at next
    · rw [run_of_answer answered]
      exact ih running

/-- A run with enough fuel tells what the step that stops the engine did. -/
theorem answer_runFor_of_stops {fuel k : Nat} (enough : k < fuel)
    (running : (e.after k).halted = false) (halted : (e.after (k + 1)).halted = true) :
    answer (runFor fuel) e = (fun _ => true) <$> answer step (e.after k) := by
  induction fuel generalizing e k with
  | zero => exact absurd enough k.not_lt_zero
  | succ fuel ih =>
    have start : e.halted = false := running_of_le running k.zero_le
    rw [answer, run_runFor_succ fuel start]
    cases k with
    | zero =>
      change _ = (fun _ => true) <$> answer step e
      cases stepped : step.run e with
      | ok out e' =>
        have stopped : e'.halted = true := finalState_of_ok stepped ▸ halted
        rw [answer_of_ok stepped]
        dsimp only
        rw [run_runFor_of_halted fuel stopped]
        rfl
      | error fault e' =>
        rw [answer_of_error stepped]
        rfl
    | succ k =>
      rw [after_first] at running halted ⊢
      rcases step_stops_or_counts start with ⟨-, stopped⟩ | ⟨out, answered, -, -, -⟩
      · have next := running_of_le running k.zero_le
        simp [after, stopped] at next
      · rw [run_of_answer answered]
        exact ih (Nat.lt_of_succ_lt_succ enough) running halted

/-- Fuel does not matter once there is enough of it. -/
theorem run_runFor_of_stops {fuel k : Nat} (enough : k < fuel)
    (running : (e.after k).halted = false) (halted : (e.after (k + 1)).halted = true) :
    (runFor fuel).run e = (runFor (k + 1)).run e := by
  have same : (runFor fuel).run e = withState id ((runFor (k + 1)).run e) := by
    refine run_eq_withState_iff.mpr ⟨?_, ?_⟩
    · rw [answer_runFor_of_stops enough running halted,
        answer_runFor_of_stops k.lt_succ_self running halted]
    · rw [finalState_runFor, finalState_runFor, after_eq_of_halted halted enough]
      rfl
  rw [same]
  cases (runFor (k + 1)).run e <;> rfl

/-- What a run fails for is what one of its steps failed for. -/
theorem exists_of_answer_runFor_error {fuel : Nat} {fault : Error}
    (failed : answer (runFor fuel) e = .error fault) :
    ∃ k < fuel, answer step (e.after k) = .error fault := by
  cases start : e.halted with
  | true =>
    rw [answer_of_ok (run_runFor_of_halted fuel start)] at failed
    cases failed
  | false =>
    cases final : (e.after fuel).halted with
    | false =>
      rw [answer_runFor_of_running final] at failed
      cases failed
    | true =>
      obtain ⟨k, before, running, halted⟩ := exists_stop start final
      rw [answer_runFor_of_stops before running halted] at failed
      refine ⟨k, before, ?_⟩
      cases stepped : answer step (e.after k) with
      | ok out =>
        rw [stepped] at failed
        cases failed
      | error reason =>
        rw [stepped] at failed
        cases failed
        rfl

end ZMachine.Engine
