import PeerBook.Bytes.Basic

/-! # The CRC-32 checksum

The reflected cyclic redundancy check with polynomial 0xEDB88320, all bits
set at the start and inverted at the end, taken one bit at a time.
-/

namespace PeerBook.Checksum

def polynomial : UInt32 := 0xEDB88320

/-- Shift one bit out of the register and divide by the polynomial. -/
def shift (r : UInt32) : UInt32 :=
  if r &&& 1 = 1 then (r >>> 1) ^^^ polynomial else r >>> 1

def shifts : Nat → UInt32 → UInt32
  | 0, r => r
  | n + 1, r => shifts n (shift r)

def absorb (r : UInt32) (b : UInt8) : UInt32 :=
  shifts 8 (r ^^^ b.toUInt32)

def register (r : UInt32) (bs : Bytes) : UInt32 :=
  bs.foldl absorb r

def crc32 (bs : Bytes) : UInt32 :=
  register 0xFFFFFFFF bs ^^^ 0xFFFFFFFF

end PeerBook.Checksum
