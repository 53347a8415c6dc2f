import PeerBook.Bytes.Basic
import PeerBook.Text.Numeral
import PeerBook.Text.Visible

/-! # Text and bytes inside messages

Text is quoted with escapes for quotes, backslashes and everything that does
not show. Bytes are shown as ASCII where they can be, and in hexadecimal
otherwise.
-/

namespace PeerBook.Quoted

def escapeChar (c : Char) : List Char :=
  if c = '\x00' then ['\\', '0']
  else if c = '\t' then ['\\', 't']
  else if c = '\n' then ['\\', 'n']
  else if c = '\x0d' then ['\\', 'r']
  else if c = '"' then ['\\', '"']
  else if c = '\\' then ['\\', '\\']
  else if Visible.isHidden c then ['\\', 'u', '\x7b'] ++ Numeral.digits 16 c.toNat ++ ['\x7d']
  else [c]

/-- The text between double quotes. -/
def quote (s : String) : String :=
  String.ofList ('"' :: s.toList.flatMap escapeChar ++ ['"'])

def escapeByte (b : UInt8) : List Char :=
  if b = 0x09 then ['\\', 't']
  else if b = 0x0A then ['\\', 'n']
  else if b = 0x0D then ['\\', 'r']
  else if b = 0x22 ∨ b = 0x27 ∨ b = 0x5C then ['\\', Char.ofNat b.toNat]
  else if 0x20 ≤ b ∧ b ≤ 0x7E then [Char.ofNat b.toNat]
  else ['\\', 'x'] ++ Numeral.padded 16 2 b.toNat

def showBytes (bs : Bytes) : String :=
  String.ofList (bs.flatMap escapeByte)

end PeerBook.Quoted
