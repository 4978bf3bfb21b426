import ZMachine.Host.Limited
import ZMachine.Host.Script
import ZMachine.Host.Terminal
import ZMachine.Proofs.Engine.Halting
import ZMachine.Proofs.Machine.Loaded

/-!
# The instruction limit

An engine with a limit does what it would do without one, step by step, until it has executed as
many instructions as it may. If it is still going then, it stops where it is.

## Main definitions

* `Engine.withLimit` — an engine that may execute so many instructions.
* `Engine.Transparent` — what the limit changes, and what it does not.

## Main statements

* `Engine.run_step_withLimit` — a step that both limits allow.
* `Engine.after_withLimit` — any number of such steps.
* `Engine.limit_transparent` — runs with a limit.
-/

namespace ZMachine

/-! ## Hosts that show the same when flushed -/

namespace Host

theorem leads_flush_script : Leads (Keeps Script.output) (Host.flush : HostM Script Unit) :=
  fun _ => rfl

theorem leads_flush_terminal :
    Leads (Keeps fun t : Terminal => t.sink.written) (Host.flush : HostM Terminal Unit) :=
  fun _ => rfl

theorem run_onInner {η α : Type} (x : HostM η α) (s : Limited η) :
    (Limited.onInner x).run s =
      match x.run s.inner with
      | .ok a inner => .ok a { s with inner }
      | .error e inner => .error e { s with inner } := rfl

/-- A host that fails shows what the host in it shows. -/
theorem leads_onInner {η α β : Type} {view : η → β} {x : HostM η α} (h : Leads (Keeps view) x) :
    Leads (Keeps fun s : Limited η => view s.inner) (Limited.onInner x) := by
  intro s
  have inner := h s.inner
  rw [finalState] at inner ⊢
  rw [run_onInner]
  cases run : x.run s.inner <;> (rw [run] at inner; exact inner)

theorem leads_flush_limited {η β : Type} [Host η] {view : η → β}
    (h : Leads (Keeps view) (Host.flush : HostM η Unit)) :
    Leads (Keeps fun s : Limited η => view s.inner) (Host.flush : HostM (Limited η) Unit) := by
  refine .bind (fun s => ?_) fun _ => leads_onInner h
  rw [Limited.spend, finalState_get_bind]
  rcases s with ⟨inner, prints, reads, (_ | _ | left)⟩ <;> rfl

end Host

namespace Engine

variable {η : Type}

def withLimit (limit : Option Nat) (e : Engine η) : Engine η :=
  { e with limit }

def MayGoOn (limit : Option Nat) (count : Nat) : Prop :=
  ∀ n ∈ limit, count < n

/-! ## One step -/

/-- What does not look at the books does the same under any limit. -/
theorem Plays.ignoresLimit {α : Type} {x : EngineM η α} (h : Plays x) (limit : Option Nat) :
    Ignores (withLimit limit) x := by
  intro e
  have books := h.books e
  change x.run (withBooks e.halted e.count limit e) = _
  rw [h.ignores e.halted e.count limit e]
  cases run : x.run e with
  | ok a e' =>
    rw [finalState_of_ok run] at books
    rw [books]
    rfl
  | error fault e' =>
    rw [finalState_of_error run] at books
    rw [books]
    rfl

variable [Host η] {e : Engine η} {limit : Option Nat}

/-- What follows the check of the limit does the same under any limit. -/
theorem act_ignores (limit : Option Nat) : Ignores (withLimit limit) (act : EngineM η Outcome) :=
  .bind (plays_fetch.ignoresLimit limit) fun i =>
    .bind ((plays_resolveAll i.operands).ignoresLimit limit) fun values =>
      .bind (.modify fun _ => rfl) fun _ => (plays_execute i values).ignoresLimit limit

theorem settle_withLimit (r : EStateM.Result Error (Engine η) Outcome) :
    settle (withState (withLimit limit) r) = withState (withLimit limit) (settle r) := by
  cases r with
  | error fault e => rfl
  | ok out e =>
    cases out with
    | quit =>
      have same : (withLimit limit e).host = e.host := rfl
      rw [withState, settle, settle, same]
      cases (Host.flush : HostM η Unit).run e.host <;> rfl
    | advanced | branched | called | returned value => rfl

/-- Below the limit, a cycle is what follows the check. -/
theorem run_cycle_of_mayGoOn (allowed : MayGoOn e.limit e.count) : cycle.run e = act.run e := by
  rcases run_cycle_cases e with run | ⟨n, limited, reached, -⟩
  · exact run
  · exact absurd reached (Nat.not_le_of_lt (allowed n limited))

/-- A step that both limits allow is the same, and so is one of an engine that has stopped. -/
theorem run_step_withLimit (own : e.halted = false → MayGoOn e.limit e.count)
    (allowed : e.halted = false → MayGoOn limit e.count) :
    step.run (withLimit limit e) = withState (withLimit limit) (step.run e) := by
  cases halted : e.halted with
  | true =>
    rw [run_step_of_halted halted]
    exact run_step_of_halted halted
  | false =>
    have running : (withLimit limit e).halted = false := halted
    rw [run_step_of_running halted, run_step_of_running running,
      run_cycle_of_mayGoOn (own halted),
      run_cycle_of_mayGoOn (e := withLimit limit e) (allowed halted),
      act_ignores limit e, settle_withLimit]

/-- Once the limit has been reached a step only stops the engine. -/
theorem run_step_of_reached {n : Nat} (running : e.halted = false) (limited : e.limit = some n)
    (reached : n ≤ e.count) :
    step.run e = .error (.instructionLimit n)
      { e with halted := true, host := finalState (Host.flush : HostM η Unit) e.host } := by
  have refused : cycle.run e = .error (.instructionLimit n) e := by
    rw [run_cycle, limited]
    exact if_pos reached
  rw [run_step_of_running running, refused]
  rfl

omit [Host η] in
theorem Plays.keepsLimit {α : Type} {x : EngineM η α} (h : Plays x) :
    Leads (Keeps Engine.limit) x :=
  fun e => by
    rw [Keeps, h.books e]
    rfl

theorem act_keepsLimit : Leads (Keeps Engine.limit) (act : EngineM η Outcome) :=
  .bind plays_fetch.keepsLimit fun i => .bind (plays_resolveAll i.operands).keepsLimit fun values =>
    .bind (.modify fun _ => rfl) fun _ => (plays_execute i values).keepsLimit

theorem step_keepsLimit : Leads (Keeps Engine.limit) (step : EngineM η Outcome) := by
  intro e
  have acted := act_keepsLimit e
  cases halted : e.halted with
  | true => exact congrArg Engine.limit (finalState_step_of_halted halted)
  | false =>
    rw [finalState, run_step_of_running halted]
    rcases run_cycle_cases e with run | ⟨n, -, -, run⟩
    · rw [run]
      rw [finalState] at acted
      cases run : act.run e with
      | error fault e' =>
        rw [run] at acted
        exact acted
      | ok out e' =>
        rw [run] at acted
        cases out with
        | quit =>
          rw [settle]
          cases (Host.flush : HostM η Unit).run e'.host <;> exact acted
        | advanced | branched | called | returned value => exact acted
    · rw [run]
      rfl

/-! ## Many steps -/

/-- No run changes the limit. -/
theorem limit_after (e : Engine η) (k : Nat) : (e.after k).limit = e.limit := by
  induction k with
  | zero => rfl
  | succ k ih => exact (step_keepsLimit (e.after k)).trans ih

variable (m : Machine) (host : η)

/-- A step of a new engine that the limit allows. -/
theorem step_after_withLimit {k : Nat}
    (same : ((ofMachine m host).withLimit limit).after k =
      ((ofMachine m host).after k).withLimit limit) (allowed : MayGoOn limit k) :
    step.run (((ofMachine m host).withLimit limit).after k) =
      withState (withLimit limit) (step.run ((ofMachine m host).after k)) := by
  rw [same]
  refine run_step_withLimit (fun _ => ?_) fun running => ?_
  · rw [limit_after]
    simp [MayGoOn, ofMachine]
  · rw [count_after running]
    exact (Nat.zero_add k).symm ▸ allowed

/-- As far as a limit allows, steps under it are those without one. -/
theorem after_withLimit {k : Nat} (allowed : ∀ n ∈ limit, k ≤ n) :
    ((ofMachine m host).withLimit limit).after k =
      ((ofMachine m host).after k).withLimit limit := by
  induction k with
  | zero => rfl
  | succ k ih =>
    have same :=
      step_after_withLimit m host (ih fun n own => Nat.le_of_succ_le (allowed n own)) allowed
    exact (run_eq_withState_iff.mp same).2

/-- If the limit is not in the way until the engine has stopped, it never is. -/
theorem after_withLimit_of_halted {m : Machine} {host : η} {j : Nat}
    (halted : ((ofMachine m host).after j).halted = true)
    (allowed : ∀ n ∈ limit, j ≤ n) (k : Nat) :
    ((ofMachine m host).withLimit limit).after k =
      ((ofMachine m host).after k).withLimit limit := by
  rcases Nat.le_total k j with before | later
  · exact after_withLimit m host fun n own => before.trans (allowed n own)
  · have same := after_withLimit m host allowed
    rw [after_eq_of_halted halted later, ← same]
    exact after_eq_of_halted (same ▸ halted) later

/-- A run that stops before the limit is the run without one. -/
theorem run_runFor_withLimit {m : Machine} {host : η} {j fuel : Nat} (limit : Option Nat)
    (halted : ((ofMachine m host).after j).halted = true) (allowed : ∀ n ∈ limit, j ≤ n)
    (enough : j ≤ fuel) :
    (runFor fuel).run ((ofMachine m host).withLimit limit) =
      withState (withLimit limit) ((runFor fuel).run (ofMachine m host)) := by
  have same := after_withLimit_of_halted halted allowed
  obtain ⟨k, before, running, stops⟩ := exists_stop rfl halted
  have stepped := step_after_withLimit m host (same k) fun n own => before.trans_le (allowed n own)
  refine run_eq_withState_iff.mpr ⟨?_, ?_⟩
  · rw [answer_runFor_of_stops (before.trans_le enough) running stops,
      answer_runFor_of_stops (before.trans_le enough) (e := (ofMachine m host).withLimit limit)
        (by rw [same]; exact running) (by rw [same]; exact stops),
      (run_eq_withState_iff.mp stepped).1]
  · rw [finalState_runFor, finalState_runFor, same]

/-- A step at the limit. -/
theorem step_at_limit {m : Machine} {host : η} {n : Nat}
    (running : ((ofMachine m host).after n).halted = false) :
    step.run (((ofMachine m host).withLimit (some n)).after n) =
      .error (.instructionLimit n)
        { (ofMachine m host).after n with
          halted := true
          limit := some n
          host := finalState (Host.flush : HostM η Unit) ((ofMachine m host).after n).host } := by
  rw [after_withLimit m host (by simp)]
  refine run_step_of_reached running rfl ?_
  have count := count_after running
  exact (count.trans (Nat.zero_add n)).ge

/-! ## Runs with a limit -/

omit [Host η] in
theorem withState_withLimit {α : Type} (l l' : Option Nat)
    (r : EStateM.Result Error (Engine η) α) :
    withState (withLimit l) (withState (withLimit l') r) = withState (withLimit l) r := by
  cases r <;> rfl

/-- With a limit a run ends with one step more than the limit allows, or sooner. -/
theorem halted_after_limit (n : Nat) :
    (((ofMachine m host).withLimit (some n)).after (n + 1)).halted = true := by
  cases going : ((ofMachine m host).after n).halted with
  | false => exact congrArg halted (finalState_of_error (step_at_limit going))
  | true =>
    rw [after_withLimit_of_halted going (by simp)]
    exact (congrArg halted (after_eq_of_halted going n.le_succ)).trans going

/-- An engine that is still going at the limit fails there. -/
theorem answer_runFor_of_reached {n : Nat} (going : ((ofMachine m host).after n).halted = false) :
    answer (runFor (n + 1)) ((ofMachine m host).withLimit (some n)) =
      .error (.instructionLimit n) := by
  have same : ((ofMachine m host).withLimit (some n)).after n =
      ((ofMachine m host).after n).withLimit (some n) := after_withLimit m host (by simp)
  rw [answer_runFor_of_stops n.lt_succ_self (by rw [same]; exact going)
      (halted_after_limit m host n),
    answer_of_error (step_at_limit going)]
  rfl

/-- Without a limit no run fails for it. -/
theorem answer_runFor_ne (n fuel : Nat) :
    answer (runFor fuel) (ofMachine m host) ≠ .error (.instructionLimit n) := by
  intro failed
  obtain ⟨k, -, failed⟩ := exists_of_answer_runFor_error failed
  rcases fails_step failed with ordinary | ⟨l, limited, -⟩
  · exact ordinary.elim
  · rw [limit_after] at limited
    cases limited

/-- A run ends at the limit iff the story goes on after as many instructions. -/
theorem answer_runFor_eq_instructionLimit_iff (n : Nat) :
    answer (runFor (n + 1)) ((ofMachine m host).withLimit (some n)) =
        .error (.instructionLimit n) ↔
      ((ofMachine m host).after n).halted = false := by
  refine ⟨fun failed => ?_, answer_runFor_of_reached m host⟩
  cases stopped : ((ofMachine m host).after n).halted with
  | false => rfl
  | true =>
    have same := run_runFor_withLimit (some n) stopped (by simp) n.le_succ
    exact absurd ((run_eq_withState_iff.mp same).1.symm.trans failed)
      (answer_runFor_ne m host n (n + 1))

/-- What a limit does to an engine that may go on for ever. -/
structure Transparent (free : Engine η) (n : Nat) : Prop where
  /-- Until the limit is reached it makes no difference. -/
  same_state : ∀ k ≤ n, (free.withLimit (some n)).after k = (free.after k).withLimit (some n)
  same_answer : ∀ k < n,
    answer step ((free.withLimit (some n)).after k) = answer step (free.after k)
  /-- A run ends with one step more than the limit allows, or sooner. -/
  ends : ((free.withLimit (some n)).after (n + 1)).halted = true
  answers : ∀ fuel > n, answer (runFor fuel) (free.withLimit (some n)) ≠ .ok false ∧
    (runFor fuel).run (free.withLimit (some n)) = (runFor (n + 1)).run (free.withLimit (some n))
  /-- It ends for the limit if the engine would still be going after so many steps. -/
  reached_iff : answer (runFor (n + 1)) (free.withLimit (some n)) = .error (.instructionLimit n) ↔
    (free.after n).halted = false
  /-- All that is done then is to stop, and to hand on text that was held back. -/
  reached : (free.after n).halted = false →
    finalState (runFor (n + 1)) (free.withLimit (some n)) =
      { free.after n with
        halted := true
        limit := some n
        host := finalState (Host.flush : HostM η Unit) (free.after n).host }
  /-- What a host shows is as it was, if flushing does not change it. -/
  shown : (free.after n).halted = false → ∀ {β : Type} (view : η → β),
    Leads (Keeps view) (Host.flush : HostM η Unit) →
      view (finalState (runFor (n + 1)) (free.withLimit (some n))).host = view (free.after n).host
  /-- A run that ends for any other reason is the run with every larger limit, and without one. -/
  larger : answer (runFor (n + 1)) (free.withLimit (some n)) ≠ .error (.instructionLimit n) →
    ∀ limit : Option Nat, (∀ l ∈ limit, n ≤ l) → ∀ fuel > n,
      (runFor fuel).run (free.withLimit limit) =
        withState (withLimit limit) ((runFor fuel).run (free.withLimit (some n)))

/-- A step that does not stop the engine is counted once. The end of the story stops an engine, and
so does any failure, and then a step does nothing. A limit on the instructions of a new engine is
transparent: the engine does what it would do without the limit, and fails for the limit if it would
still be going then, with the machine as it is at that point. -/
theorem limit_transparent (m : Machine) (host : η) (n : Nat) :
    (∀ e : Engine η, (finalState step e).halted = false →
      (finalState step e).count = e.count + 1) ∧
    (∀ e : Engine η, e.halted = false → ((finalState step e).halted = true ↔
      answer step e = .ok .quit ∨ ∃ fault, answer step e = .error fault)) ∧
    (∀ e : Engine η, e.halted = true → step.run e = .ok .quit e) ∧
    Transparent (ofMachine m host) n := by
  refine ⟨fun e => count_step, fun e => halted_step_iff, fun e => run_step_of_halted, ?_⟩
  have left (going : ((ofMachine m host).after n).halted = false) :=
    (finalState_runFor (n + 1)).trans (finalState_of_error (step_at_limit going))
  obtain ⟨k, before, running, stops⟩ := exists_stop rfl (halted_after_limit m host n)
  exact {
    same_state := fun k le => after_withLimit m host (by simpa using le)
    same_answer := fun k lt => by
      have allowed : MayGoOn (some n) k := by simpa [MayGoOn] using lt
      have same := after_withLimit m host fun l own => (allowed l own).le
      exact (run_eq_withState_iff.mp (step_after_withLimit m host same allowed)).1
    ends := halted_after_limit m host n
    answers := fun fuel enough => by
      have first := Nat.lt_of_lt_of_le before enough
      refine ⟨?_, ?_⟩
      · rw [answer_runFor_of_stops first running stops]
        cases answer step (((ofMachine m host).withLimit (some n)).after k) <;> simp
      · rw [run_runFor_of_stops first running stops, run_runFor_of_stops before running stops]
    reached_iff := answer_runFor_eq_instructionLimit_iff m host n
    reached := left
    shown := fun going β view steady => by
      rw [left going]
      exact steady _
    larger := fun other limit larger fuel enough => by
      have stopped : ((ofMachine m host).after n).halted = true :=
        Bool.of_not_eq_false fun going =>
          other ((answer_runFor_eq_instructionLimit_iff m host n).mpr going)
      rw [run_runFor_withLimit limit stopped larger enough.le,
        run_runFor_withLimit (some n) stopped (by simp) enough.le, withState_withLimit] }

/-- A machine that prints 1 again and again. -/
def spinMachine : Machine :=
  { Machine.boxMachine with memory := ⟨#[0xE6, 0x7F, 1, 0x8C, 0xFF, 0xFC]⟩, pc := 0 }

/-- The third instruction prints the second 1, and nothing is printed after it, also where the host
refuses to flush. -/
theorem limit_transparent_spinMachine :
    let terminal : Engine Terminal := ofMachine spinMachine ⟨[], Sink.unlimited⟩
    let script : Engine (Limited Script) :=
      ofMachine spinMachine ⟨Script.ofLines [], none, none, some 0⟩
    answer (runFor (3 + 1)) (terminal.withLimit (some 3)) = .error (.instructionLimit 3) ∧
      (finalState (runFor (3 + 1)) (terminal.withLimit (some 3))).host.sink.written = "11".toUTF8 ∧
      answer (runFor (3 + 1)) (script.withLimit (some 3)) = .error (.instructionLimit 3) ∧
      (finalState (runFor (3 + 1)) (script.withLimit (some 3))).host.inner.output = "11" := by
  intro terminal script
  have onTerminal : Transparent terminal 3 := (limit_transparent spinMachine _ 3).2.2.2
  have onScript : Transparent script 3 := (limit_transparent spinMachine _ 3).2.2.2
  have going : (terminal.after 3).halted = false := by decide +kernel
  have goingOn : (script.after 3).halted = false := by decide +kernel
  have written : (terminal.after 3).host.sink.written = "11".toUTF8 := by decide +kernel
  have output : (script.after 3).host.inner.output = "11" := by decide +kernel
  refine ⟨onTerminal.reached_iff.mpr going, ?_, onScript.reached_iff.mpr goingOn, ?_⟩
  · exact (onTerminal.shown going _ Host.leads_flush_terminal).trans written
  · exact (onScript.shown goingOn _ (Host.leads_flush_limited Host.leads_flush_script)).trans output

end Engine
end ZMachine
