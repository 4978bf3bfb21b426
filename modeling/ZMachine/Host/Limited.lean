import ZMachine.Host

/-!
# A host that fails

A host that lets through so many calls of each kind, and fails from then on.
-/

namespace ZMachine

/-- For each kind of call, how many more of them the inner host gets; `none` for all of them. -/
structure Limited (η : Type) where
  inner : η
  prints : Option Nat
  reads : Option Nat
  flushes : Option Nat

namespace Limited
variable {η : Type}

def unlimited (inner : η) : Limited η :=
  ⟨inner, none, none, none⟩

def onInner {α : Type} (x : HostM η α) : HostM (Limited η) α := fun s =>
  match x s.inner with
  | .ok a inner => .ok a { s with inner }
  | .error e inner => .error e { s with inner }

/-- Refuses a call when none are left, and otherwise counts it. -/
def spend (left : Limited η → Option Nat) (update : Limited η → Option Nat → Limited η)
    (reason : String) : HostM (Limited η) Unit := do
  let s ← get
  match left s with
  | some 0 => throw (.failed reason)
  | some (n + 1) => set (update s (some n))
  | none => return

end Limited

instance Limited.host {η : Type} [Host η] : Host (Limited η) where
  print text := do
    Limited.spend (·.prints) (fun s n => { s with prints := n }) "print failed"
    Limited.onInner (Host.print text)
  readLine := do
    Limited.spend (·.reads) (fun s n => { s with reads := n }) "read failed"
    Limited.onInner Host.readLine
  flush := do
    Limited.spend (·.flushes) (fun s n => { s with flushes := n }) "flush failed"
    Limited.onInner Host.flush

end ZMachine
