import PeerBook.SortedMap

/-! # Pins

A pin keeps the versions visible at one sequence number. Pins are counted by
sequence number; a count that falls to zero is removed.
-/

namespace PeerBook

abbrev Pins := SortedMap UInt64 Nat

namespace Pins

/-- How many pins stand at `seq`. -/
def count (p : Pins) (seq : UInt64) : Nat :=
  (p.find? seq).getD 0

def pin (p : Pins) (seq : UInt64) : Pins :=
  p.insert seq (p.count seq + 1)

def unpin (p : Pins) (seq : UInt64) : Pins :=
  match p.find? seq with
  | some n => if n - 1 = 0 then p.erase seq else p.insert seq (n - 1)
  | none => p

/-- How many pins there are. -/
def total (p : Pins) : Nat :=
  p.toList.foldl (fun n b => n + b.2) 0

/-- The least sequence number with a pin. -/
def oldest? (p : Pins) : Option UInt64 :=
  p.minKey?

end Pins

end PeerBook
