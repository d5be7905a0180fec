-- SUMMARY: Recency lists: bounded maps that forget the least recently used key.

/-!
# Recency lists

A recency list keeps its keys in the order of their last use, latest first. Looking
a key up and storing a value are uses. Storing a new key in a full list drops the key
at the end.
-/

namespace RuleIndex

/-- A bounded map with its keys in the order of last use, latest first. -/
structure Recency (κ ν : Type) where
  capacity : Nat
  entries : List (κ × ν) := []

namespace Recency

variable {κ ν : Type} [DecidableEq κ]

/-- The number of keys held. -/
def size (map : Recency κ ν) : Nat :=
  map.entries.length

/-- Place a key in front, dropping the last key if there are too many. -/
def put (map : Recency κ ν) (key : κ) (value : ν) : Recency κ ν :=
  let others := map.entries.filter fun entry => entry.1 != key
  { map with entries := ((key, value) :: others).take map.capacity }

/-- The value of a key, and the map after this use. -/
def use? (map : Recency κ ν) (key : κ) : Option (ν × Recency κ ν) :=
  (map.entries.lookup key).map fun value => (value, map.put key value)

def clear (map : Recency κ ν) : Recency κ ν :=
  { map with entries := [] }

end Recency
end RuleIndex
