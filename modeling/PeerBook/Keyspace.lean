import PeerBook.Bytes.Basic
import PeerBook.Peer.Identity
import PeerBook.Text.Quoted
import PeerBook.Text.Utf8

/-! # The key space

Records and aliases share one ordered space of byte strings. A record key is
a lead, the tag of the kind and the id in eight bytes, most significant
first; an alias key is the alias in UTF-8. Every lead starts with 0xFE, which
no UTF-8 text contains.
-/

namespace PeerBook

inductive Layout where
  /-- Records stand under a namespace of their own. -/
  | scoped
  /-- Records are marked by the first byte alone. -/
  | flat
  deriving DecidableEq, Repr, Inhabited

namespace Layout

def name : Layout → String
  | .scoped => "scoped"
  | .flat => "flat"

def recordLead : Layout → Bytes
  | .scoped => [0xFE, 0x70, 0x65, 0x65, 0x72, 0x3A]
  | .flat => [0xFE]

def recordKey (l : Layout) (i : Identity) : Bytes :=
  l.recordLead ++ i.kind.tag :: Bytes.bigEndian 8 i.id.toUInt64.toNat

def isRecordKey (l : Layout) (key : Bytes) : Bool :=
  l.recordLead.isPrefixOf key

/-- The identity whose record stands under `key`. -/
def identity? (l : Layout) (key : Bytes) : Option Identity :=
  if l.isRecordKey key then
    match key.drop l.recordLead.length with
    | tag :: id =>
      if id.length = 8 then
        (Kind.ofTag? tag).map fun kind =>
          ⟨kind, (UInt64.ofNat (Bytes.ofBigEndian id)).toInt64⟩
      else none
    | [] => none
  else none

/-- The key as messages name it: an identity where it is one. -/
def describe (l : Layout) (key : Bytes) : String :=
  match l.identity? key with
  | some i => i.toText
  | none => Quoted.showBytes key

end Layout

def aliasKey (a : String) : Bytes :=
  Utf8.encode a

end PeerBook
