import PeerBook.Bytes.Basic
import PeerBook.Text.Numeral

/-! # UTF-8

Encoding of text and strict decoding of bytes. A failure says where the valid
part ends and whether the bytes stop inside a character or break it.
-/

namespace PeerBook.Utf8

def encode (s : String) : Bytes :=
  s.toList.flatMap String.utf8EncodeChar

inductive Fault where
  /-- The bytes end inside a character that starts at `start`. -/
  | incomplete (start : Nat)
  /-- No character starts with the `length` bytes at `start`, and one less could still go on. -/
  | malformed (start length : Nat)
  deriving DecidableEq, Repr

/-- What stands at the front of a byte string. -/
inductive Head where
  | char (c : Char) (rest : Bytes)
  | incomplete
  | malformed (length : Nat)

def isTail (b : UInt8) : Bool :=
  0x80 ≤ b && b ≤ 0xBF

/-- The bytes that may follow the first byte of a three-byte character: no overlong forms and no
surrogates. -/
def isSecondOfThree (lead b : UInt8) : Bool :=
  (if lead = 0xE0 then 0xA0 else 0x80) ≤ b && b ≤ (if lead = 0xED then 0x9F else 0xBF)

/-- The bytes that may follow the first byte of a four-byte character: no overlong forms and
nothing above U+10FFFF. -/
def isSecondOfFour (lead b : UInt8) : Bool :=
  (if lead = 0xF0 then 0x90 else 0x80) ≤ b && b ≤ (if lead = 0xF4 then 0x8F else 0xBF)

def headOfTwo (lead : UInt8) : Bytes → Head
  | [] => .incomplete
  | b :: rest =>
    if isTail b then
      .char (Char.ofNat (lead.toNat % 32 * 64 + b.toNat % 64)) rest
    else .malformed 1

def headOfThree (lead : UInt8) : Bytes → Head
  | [] => .incomplete
  | b :: rest =>
    if isSecondOfThree lead b then
      match rest with
      | [] => .incomplete
      | c :: rest =>
        if isTail c then
          .char (Char.ofNat (lead.toNat % 16 * 4096 + b.toNat % 64 * 64 + c.toNat % 64)) rest
        else .malformed 2
    else .malformed 1

def headOfFour (lead : UInt8) : Bytes → Head
  | [] => .incomplete
  | b :: rest =>
    if isSecondOfFour lead b then
      match rest with
      | [] => .incomplete
      | c :: rest =>
        if isTail c then
          match rest with
          | [] => .incomplete
          | d :: rest =>
            if isTail d then
              .char (Char.ofNat (lead.toNat % 8 * 262144 + b.toNat % 64 * 4096 +
                c.toNat % 64 * 64 + d.toNat % 64)) rest
            else .malformed 3
        else .malformed 2
    else .malformed 1

def head (lead : UInt8) (rest : Bytes) : Head :=
  if lead < 0x80 then .char (Char.ofNat lead.toNat) rest
  else if 0xC2 ≤ lead ∧ lead ≤ 0xDF then headOfTwo lead rest
  else if 0xE0 ≤ lead ∧ lead ≤ 0xEF then headOfThree lead rest
  else if 0xF0 ≤ lead ∧ lead ≤ 0xF4 then headOfFour lead rest
  else .malformed 1

theorem length_le_of_head {lead : UInt8} {bs rest : Bytes} {c : Char}
    (h : head lead bs = .char c rest) : rest.length ≤ bs.length := by
  unfold head headOfTwo headOfThree headOfFour at h
  grind

/-- The characters of `bs`, which starts at index `start` of the whole byte string. -/
def decodeFrom (start : Nat) : Bytes → Except Fault (List Char)
  | [] => .ok []
  | lead :: bs =>
    match h : head lead bs with
    | .char c rest =>
      have := length_le_of_head h
      match decodeFrom (start + (bs.length + 1 - rest.length)) rest with
      | .ok cs => .ok (c :: cs)
      | .error fault => .error fault
    | .incomplete => .error (.incomplete start)
    | .malformed length => .error (.malformed start length)
termination_by bs => bs.length
decreasing_by simp; omega

def decode (bs : Bytes) : Except Fault String :=
  (decodeFrom 0 bs).map String.ofList

def Fault.message : Fault → String
  | .incomplete start => "incomplete utf-8 byte sequence from index " ++ Numeral.natural start
  | .malformed start length =>
    "invalid utf-8 sequence of " ++ Numeral.natural length ++ " bytes from index " ++
      Numeral.natural start

end PeerBook.Utf8
