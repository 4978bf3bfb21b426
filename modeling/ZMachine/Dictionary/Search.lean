/-!
# Search among sorted keys

The interval of candidates is halved until one is left, and that one is compared with the key. In an
array that is not sorted, or repeats a key, this order of comparisons decides what is found.
-/

namespace ZMachine.Search

/-- The last candidate for `key` among the `size` keys from `base` on. -/
def narrow (keys : Array UInt32) (key : UInt32) (base size : Nat) : Nat :=
  if size ≤ 1 then base
  else
    let half := size / 2
    let middle := base + half
    narrow keys key (if keys.getD middle 0 > key then base else middle) (size - half)
termination_by size

/-- A place of the key, if the search ends at one. -/
def find? (keys : Array UInt32) (key : UInt32) : Option Nat :=
  let candidate := narrow keys key 0 keys.size
  if keys[candidate]? = some key then some candidate else none

end ZMachine.Search
