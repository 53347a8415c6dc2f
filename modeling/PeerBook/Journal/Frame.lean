import PeerBook.Bytes.Checksum
import PeerBook.Journal.Entry

/-! # Frames

An entry stands in the log as a frame: a header of sixteen bytes with the
sequence number, the checksum and the length of the payload, then the
payload. A frame is sound if checksum, payload and sequence number agree.
-/

namespace PeerBook.Journal

def headerSize : Nat := 16

/-- The longest payload a frame may carry, 64 MiB. -/
def maxPayload : Nat := 67108864

structure Header where
  lsn : UInt64
  crc : UInt32
  length : UInt32
  deriving DecidableEq, Repr

namespace Header

def encode (h : Header) : Bytes :=
  Wire.putUInt64 h.lsn ++ Wire.putUInt32 h.crc ++ Wire.putUInt32 h.length

/-- The header that the first sixteen bytes of `bs` make up. -/
def ofBytes (bs : Bytes) : Header where
  lsn := UInt64.ofNat (Bytes.ofLittleEndian (bs.take 8))
  crc := UInt32.ofNat (Bytes.ofLittleEndian ((bs.drop 8).take 4))
  length := UInt32.ofNat (Bytes.ofLittleEndian ((bs.drop 12).take 4))

/-- Whether the length can be that of a frame. -/
def isFramed (h : Header) : Bool :=
  h.length.toNat ≤ maxPayload

end Header

/-- Why a complete frame is not sound. -/
inductive Defect where
  | checksum (lsn : UInt64) (expected actual : UInt32)
  | payload (failure : Wire.Failure)
  | sequence (framed written : UInt64)
  deriving DecidableEq, Repr

/-- Eight hexadecimal digits after `0x`. -/
def showChecksum (crc : UInt32) : String :=
  "0x" ++ String.ofList (Numeral.padded 16 8 crc.toNat)

def Defect.message : Defect → String
  | .checksum lsn expected actual =>
    "CRC mismatch for LSN " ++ Numeral.natural lsn.toNat ++ ": expected " ++
      showChecksum expected ++ ", got " ++ showChecksum actual
  | .payload failure => failure.message
  | .sequence framed written =>
    "LSN mismatch: header " ++ Numeral.natural framed.toNat ++ " vs payload " ++
      Numeral.natural written.toNat

/-- The entry of a complete frame. -/
def Header.verify (h : Header) (payload : Bytes) : Except Defect Entry :=
  if Checksum.crc32 payload = h.crc then
    match Wire.read Entry.get payload with
    | .ok e => if e.lsn = h.lsn then .ok e else .error (.sequence h.lsn e.lsn)
    | .error failure => .error (.payload failure)
  else .error (.checksum h.lsn h.crc (Checksum.crc32 payload))

/-- Why bytes are no sound frame. -/
inductive Flaw where
  | short (size : Nat)
  | length (found framed : Nat)
  | unsound (defect : Defect)
  deriving DecidableEq, Repr

def Flaw.message : Flaw → String
  | .short size =>
    "frame of " ++ Numeral.natural size ++ " bytes is shorter than header"
  | .length found framed =>
    "payload length " ++ Numeral.natural found ++ " does not match header length " ++
      Numeral.natural framed
  | .unsound d => d.message

namespace Entry

def header (e : Entry) : Header where
  lsn := e.lsn
  crc := Checksum.crc32 e.payload
  length := UInt32.ofNat e.payload.length

/-- The frame of an entry; a payload over the limit is refused with its length. -/
def frame (e : Entry) : Except Nat Bytes :=
  if e.payload.length ≤ maxPayload then .ok (e.header.encode ++ e.payload)
  else .error e.payload.length

def ofFrame (bs : Bytes) : Except Flaw Entry :=
  let payload := bs.drop headerSize
  let h := Header.ofBytes bs
  if bs.length < headerSize then .error (.short bs.length)
  else if payload.length = h.length.toNat then (h.verify payload).mapError .unsound
  else .error (.length payload.length h.length.toNat)

end Entry

end PeerBook.Journal
