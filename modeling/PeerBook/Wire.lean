import PeerBook.Bytes.Basic
import PeerBook.Text.Utf8

/-! # The wire format

Fixed-width little-endian numbers, one-byte option tags, four-byte variant
indices, and eight-byte counts in front of byte strings, texts and sequences.
Writers give the bytes of a value; readers take a value off the front of a
byte string and leave the rest.
-/

namespace PeerBook.Wire

inductive Failure where
  /-- The bytes end before the value does. -/
  | exhausted
  /-- A text is longer than the bytes that are left. -/
  | textExhausted
  | optionTag (found : UInt8)
  | variant (found : UInt32) (count : Nat)
  | notUtf8 (fault : Utf8.Fault)
  deriving DecidableEq, Repr

def Failure.message : Failure → String
  | .exhausted => "io error: unexpected end of file"
  | .textExhausted => "io error: "
  | .optionTag found => "tag for enum is not valid, found " ++ Numeral.natural found.toNat
  | .variant found count =>
    "invalid value: integer `" ++ Numeral.natural found.toNat ++
      "`, expected variant index 0 <= i < " ++ Numeral.natural count
  | .notUtf8 fault => "string is not valid utf8: " ++ fault.message

def putUInt32 (n : UInt32) : Bytes :=
  Bytes.littleEndian 4 n.toNat

def putUInt64 (n : UInt64) : Bytes :=
  Bytes.littleEndian 8 n.toNat

def putInt64 (n : Int64) : Bytes :=
  putUInt64 n.toUInt64

def putCount (n : Nat) : Bytes :=
  Bytes.littleEndian 8 n

def putBytes (bs : Bytes) : Bytes :=
  putCount bs.length ++ bs

def putText (s : String) : Bytes :=
  putBytes (Utf8.encode s)

def putOption {α : Type} (put : α → Bytes) : Option α → Bytes
  | none => [0]
  | some a => 1 :: put a

def putList {α : Type} (put : α → Bytes) (as : List α) : Bytes :=
  putCount as.length ++ as.flatMap put

def putPair {α β : Type} (putFirst : α → Bytes) (putSecond : β → Bytes) (p : α × β) : Bytes :=
  putFirst p.1 ++ putSecond p.2

abbrev Reader := StateT Bytes (Except Failure)

def fail {α : Type} (failure : Failure) : Reader α :=
  fun _ => .error failure

/-- Takes exactly `n` bytes. -/
def take (n : Nat) : Reader Bytes := fun bs =>
  if n ≤ bs.length then .ok (bs.take n, bs.drop n) else .error .exhausted

def getUInt8 : Reader UInt8
  | [] => .error .exhausted
  | b :: bs => .ok (b, bs)

def getUInt32 : Reader UInt32 := do
  return UInt32.ofNat (Bytes.ofLittleEndian (← take 4))

def getUInt64 : Reader UInt64 := do
  return UInt64.ofNat (Bytes.ofLittleEndian (← take 8))

def getInt64 : Reader Int64 := do
  return (← getUInt64).toInt64

def getCount : Reader Nat := do
  return (← getUInt64).toNat

def getBytes : Reader Bytes := do
  take (← getCount)

/-- Takes the `n` bytes of a text. -/
def takeText (n : Nat) : Reader String := fun bs =>
  if n ≤ bs.length then
    match Utf8.decode (bs.take n) with
    | .ok s => .ok (s, bs.drop n)
    | .error fault => .error (.notUtf8 fault)
  else .error .textExhausted

def getText : Reader String := do
  takeText (← getCount)

def getOption {α : Type} (get : Reader α) : Reader (Option α) := do
  match ← getUInt8 with
  | 0 => return none
  | 1 => return some (← get)
  | tag => fail (.optionTag tag)

def getTimes {α : Type} (get : Reader α) : Nat → Reader (List α)
  | 0 => return []
  | n + 1 => do
    let a ← get
    let as ← getTimes get n
    return a :: as

def getList {α : Type} (get : Reader α) : Reader (List α) := do
  getTimes get (← getCount)

def getPair {α β : Type} (getFirst : Reader α) (getSecond : Reader β) : Reader (α × β) := do
  let a ← getFirst
  let b ← getSecond
  return (a, b)

/-- Reads a variant index and picks from the variants. -/
def getVariant {α : Type} (variants : List α) : Reader α := do
  let index ← getUInt32
  match variants[index.toNat]? with
  | some a => return a
  | none => fail (.variant index variants.length)

/-- Reads one value from the front of `bs`; bytes after it are ignored. -/
def read {α : Type} (get : Reader α) (bs : Bytes) : Except Failure α :=
  match get bs with
  | .ok (a, _) => .ok a
  | .error failure => .error failure

end PeerBook.Wire
