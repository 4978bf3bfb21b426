import Mathlib.Tactic.Common
import ZMachine.Memory.Scan
import ZMachine.Proofs.Memory

/-!
# Layouts

A layout says which bytes stand for a value. A scan reads a layout when it gives a value exactly
where memory holds bytes of that value, and then stops after them. The layout of a scan made of
parts is made of the layouts of the parts.

## Main definitions

* `Layout` — bytes that stand for a value at an address.
* `Scan.Reads` — a scan succeeds on the bytes of a layout and on no others.

## Main statements

* `Scan.Reads.bind` — one scan after another reads one layout after another.
* `Scan.Reads.times` — a scan so many times over reads as many values.
-/

namespace ZMachine

variable {α β : Type}

abbrev Layout (α : Type) := (start : Nat) → α → List Byte → Prop

namespace Layout

def nothing (a : α) : Layout α :=
  fun _ b bytes => b = a ∧ bytes = []

def andThen (first : Layout α) (second : α → Layout β) : Layout β :=
  fun start b bytes => ∃ a front back,
    first start a front ∧ second a (start + front.length) b back ∧ bytes = front ++ back

def byte : Layout Byte :=
  fun _ b bytes => bytes = [b]

def word : Layout Word :=
  fun _ w bytes => bytes = [Word.highByte w, Word.lowByte w]

def long : Layout UInt32 :=
  fun _ v bytes => bytes = Word.longBytes v

end Layout

namespace Scan

variable {x : Scan α} {f : α → Scan β} {L L' : Layout α} {K : α → Layout β}

/-- The scan gives a value exactly where memory holds bytes of it, and stops after them. -/
def Reads (x : Scan α) (L : Layout α) : Prop :=
  ∀ m start a stop, x m start = .ok a stop ↔
    ∃ bytes, L start a bytes ∧ m.Holds start bytes ∧ stop = start + bytes.length

theorem bind_apply (m : Memory) (start : Nat) :
    (x >>= f) m start =
      match x m start with
      | .ok a mid => f a m mid
      | .error e p => .error e p := by
  simp only [bind, ReaderT.bind, EStateM.bind]
  cases x m start <;> rfl

namespace Reads

theorem congr (h : x.Reads L) (same : ∀ start a bytes, L start a bytes ↔ L' start a bytes) :
    x.Reads L' := by
  intro m start a stop
  rw [h m start a stop]
  simp only [same]

theorem pure (a : α) : (Pure.pure a : Scan α).Reads (Layout.nothing a) := by
  intro m start b stop
  constructor
  · rintro ⟨⟩
    exact ⟨[], ⟨rfl, rfl⟩, trivial, rfl⟩
  · rintro ⟨_, ⟨rfl, rfl⟩, -, rfl⟩
    rfl

theorem throw (e : Error) : (MonadExcept.throw e : Scan α).Reads fun _ _ _ => False := by
  intro m start b stop
  exact ⟨nofun, fun ⟨_, no, _⟩ => no.elim⟩

/-- Scans in a row read what is laid out in a row. -/
theorem bind (hx : x.Reads L) (hf : ∀ a, (f a).Reads (K a)) :
    (x >>= f).Reads (L.andThen K) := by
  intro m start b stop
  rw [bind_apply]
  constructor
  · intro h
    split at h
    · next a mid first =>
      obtain ⟨front, hfront, holds, rfl⟩ := (hx m start a mid).mp first
      obtain ⟨back, hback, holds', rfl⟩ := (hf a m _ b stop).mp h
      refine ⟨front ++ back, ⟨a, front, back, hfront, hback, rfl⟩,
        Memory.holds_append.mpr ⟨holds, holds'⟩, ?_⟩
      rw [List.length_append, Nat.add_assoc]
    · cases h
  · rintro ⟨_, ⟨a, front, back, hfront, hback, rfl⟩, holds, rfl⟩
    obtain ⟨holds, holds'⟩ := Memory.holds_append.mp holds
    rw [(hx m start a _).mpr ⟨front, hfront, holds, rfl⟩]
    refine (hf a m _ b _).mpr ⟨back, hback, holds', ?_⟩
    rw [List.length_append, Nat.add_assoc]

theorem map (hx : x.Reads L) (g : α → β) :
    (g <$> x).Reads (L.andThen fun a => Layout.nothing (g a)) :=
  hx.bind fun a => pure (g a)

/-- A scan that is made so many times over reads the bytes of as many values. -/
theorem times {split : α → List Byte} (hx : x.Reads fun _ a bytes => bytes = split a)
    (count : Nat) : (Scan.times x count).Reads fun _ values bytes =>
      values.length = count ∧ bytes = values.flatMap split := by
  induction count with
  | zero =>
    refine (pure []).congr fun start values bytes => ?_
    constructor
    · rintro ⟨rfl, rfl⟩
      exact ⟨rfl, rfl⟩
    · rintro ⟨none, rfl⟩
      obtain rfl := List.length_eq_zero_iff.mp none
      exact ⟨rfl, rfl⟩
  | succ count ih =>
    refine (hx.bind fun first => ih.map (first :: ·)).congr fun start values bytes => ?_
    constructor
    · rintro ⟨first, _, _, rfl, ⟨rest, _, _, ⟨rfl, rfl⟩, ⟨rfl, rfl⟩, rfl⟩, rfl⟩
      exact ⟨rfl, by simp⟩
    · rintro ⟨length, rfl⟩
      obtain ⟨first, rest, rfl⟩ := List.exists_cons_of_length_eq_add_one length
      exact ⟨first, _, _, rfl, ⟨rest, _, _, ⟨by simpa using length, rfl⟩, ⟨rfl, rfl⟩, rfl⟩, by simp⟩

/-- A scan of one value of fixed width. -/
theorem take {read : Memory → Nat → Except Error α} {width : Nat} {split : α → List Byte}
    (h : ∀ m start a, read m start = .ok a ↔ m.Holds start (split a))
    (length : ∀ a, (split a).length = width) :
    (take read width).Reads fun _ a bytes => bytes = split a := by
  intro m start a stop
  unfold Scan.take
  constructor
  · intro eq
    split at eq
    · next value first =>
      cases eq
      exact ⟨split a, rfl, (h m start a).mp first, by rw [length]⟩
    · cases eq
  · rintro ⟨_, rfl, holds, rfl⟩
    rw [(h m start a).mpr holds, length]

theorem byte : Scan.byte.Reads Layout.byte :=
  take (fun _ _ _ => Memory.byteAt_eq_ok) fun _ => rfl

theorem word : Scan.word.Reads Layout.word :=
  take (fun _ _ _ => Memory.wordAt_eq_ok) fun _ => rfl

theorem long : Scan.long.Reads Layout.long :=
  take (fun _ _ _ => Memory.longAt_eq_ok) fun _ => rfl

theorem position : Scan.position.Reads fun start a bytes => a = start ∧ bytes = [] := by
  intro m start a stop
  constructor
  · rintro ⟨⟩
    exact ⟨[], ⟨rfl, rfl⟩, trivial, rfl⟩
  · rintro ⟨_, ⟨rfl, rfl⟩, -, rfl⟩
    rfl

end Reads

/-- A scan that was run gives its value and where it stopped. -/
theorem runFrom_eq_ok {m : Memory} {start stop : Nat} {a : α} :
    x.runFrom m start = .ok (a, stop) ↔ x m start = .ok a stop := by
  unfold runFrom
  split <;> simp_all

end Scan
end ZMachine
