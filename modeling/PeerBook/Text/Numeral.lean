/-! # Numerals

Digits in a base, decimal text of natural numbers and integers, and the
reading of decimal integers with an optional sign.
-/

namespace PeerBook.Numeral

/-- The digit of value `d`: 0 to 9, then lowercase letters. -/
def digit (d : Nat) : Char :=
  if d < 10 then Char.ofNat (48 + d) else Char.ofNat (87 + d)

/-- The digits of `n`, most significant first and without leading zeros. -/
def digits (base n : Nat) : List Char :=
  if 2 ≤ base ∧ base ≤ n then digits base (n / base) ++ [digit (n % base)] else [digit n]
termination_by n
decreasing_by exact Nat.div_lt_self (by omega) (by omega)

/-- The lowest `width` digits of `n`, leading zeros included. -/
def padded (base : Nat) : Nat → Nat → List Char
  | 0, _ => []
  | width + 1, n => padded base width (n / base) ++ [digit (n % base)]

def natural (n : Nat) : String :=
  String.ofList (digits 10 n)

def integer : Int → String
  | .ofNat n => natural n
  | .negSucc n => String.ofList ('-' :: digits 10 (n + 1))

def digitValue? (c : Char) : Option Nat :=
  if '0' ≤ c ∧ c ≤ '9' then some (c.toNat - 48) else none

/-- The value of a run of decimal digits read on from `value`; any other character fails. -/
def readFrom : Nat → List Char → Option Nat
  | value, [] => some value
  | value, c :: rest =>
    match digitValue? c with
    | some d => readFrom (value * 10 + d) rest
    | none => none

def readNatural? : List Char → Option Nat
  | [] => none
  | cs => readFrom 0 cs

/-- Reads an optional sign and one or more decimal digits. -/
def readInteger? : List Char → Option Int
  | '-' :: rest => (readNatural? rest).map fun n => -(n : Int)
  | '+' :: rest => (readNatural? rest).map fun n => (n : Int)
  | cs => (readNatural? cs).map fun n => (n : Int)

/-- Reads an integer that fits 64 bits with a sign. -/
def readInt64? (cs : List Char) : Option Int64 :=
  match readInteger? cs with
  | some i => if Int64.minValue.toInt ≤ i ∧ i ≤ Int64.maxValue.toInt then some (Int64.ofInt i) else none
  | none => none

end PeerBook.Numeral
