/-! # Byte strings

A byte string is a list of bytes, compared lexicographically. Fixed-width
numbers are written with the least significant byte first, or last.
-/

namespace PeerBook

abbrev Bytes := List UInt8

namespace Bytes

instance : Std.IsLinearOrder Bytes := inferInstance

instance : Std.LawfulOrderLT Bytes := inferInstance

/-- The lowest `width` base-256 digits of `n`, least significant first. -/
def littleEndian : Nat → Nat → Bytes
  | 0, _ => []
  | width + 1, n => UInt8.ofNat (n % 256) :: littleEndian width (n / 256)

def ofLittleEndian : Bytes → Nat
  | [] => 0
  | b :: rest => b.toNat + 256 * ofLittleEndian rest

def bigEndian (width n : Nat) : Bytes :=
  (littleEndian width n).reverse

def ofBigEndian (bs : Bytes) : Nat :=
  ofLittleEndian bs.reverse

@[simp] theorem length_littleEndian (width n : Nat) : (littleEndian width n).length = width := by
  induction width generalizing n with
  | zero => rfl
  | succ width ih => simp [littleEndian, ih]

@[simp] theorem length_bigEndian (width n : Nat) : (bigEndian width n).length = width := by
  simp [bigEndian]

/-- The least byte string above every byte string that starts with `start`. There is none when
nothing but 0xFF bytes could be raised. -/
def bound? : Bytes → Option Bytes
  | [] => none
  | b :: rest =>
    match bound? rest with
    | some upper => some (b :: upper)
    | none => if b = 0xFF then none else some [b + 1]

end Bytes

end PeerBook
