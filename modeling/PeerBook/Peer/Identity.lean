import PeerBook.Text.Numeral
import PeerBook.Text.Quoted

/-! # Peer identities

A peer is a user, a chat or a channel with a signed 64-bit id. Its text form
is the kind, a colon and the id in decimal.
-/

namespace PeerBook

inductive Kind where
  | user
  | chat
  | channel
  deriving DecidableEq, Repr, Inhabited

namespace Kind

def all : List Kind := [.user, .chat, .channel]

def name : Kind → String
  | .user => "user"
  | .chat => "chat"
  | .channel => "channel"

def ofName? (s : String) : Option Kind :=
  all.find? (·.name = s)

/-- The position of the kind in the order of kinds. -/
def rank : Kind → Nat
  | .user => 0
  | .chat => 1
  | .channel => 2

/-- The byte that stands for the kind in a record key. -/
def tag : Kind → UInt8
  | .user => 1
  | .chat => 2
  | .channel => 3

def ofTag? (b : UInt8) : Option Kind :=
  all.find? (·.tag = b)

end Kind

structure Identity where
  kind : Kind
  id : Int64
  deriving DecidableEq, Repr, Inhabited

namespace Identity

/-- Kinds in their order, then ids as signed numbers. -/
def Precedes (i j : Identity) : Prop :=
  i.kind.rank < j.kind.rank ∨ i.kind.rank = j.kind.rank ∧ i.id ≤ j.id

instance (i j : Identity) : Decidable (Precedes i j) :=
  inferInstanceAs (Decidable (_ ∨ _))

def toText (i : Identity) : String :=
  i.kind.name ++ ":" ++ Numeral.integer i.id.toInt

/-- Reads `kind:id`; the kind ends at the first colon. -/
def ofText? (s : String) : Option Identity :=
  match s.toList.span (· ≠ ':') with
  | (_, []) => none
  | (kind, _ :: id) =>
    match Kind.ofName? (String.ofList kind), Numeral.readInt64? id with
    | some kind, some id => some ⟨kind, id⟩
    | _, _ => none

/-- What is said of a text that is no identity. -/
def refusal (s : String) : String :=
  "invalid peer key " ++ Quoted.quote s ++ ": expected <user|chat|channel>:<id>"

/-- A text that is no identity, as it was given. -/
structure Misspelling where
  text : String
  deriving DecidableEq, Repr

def Misspelling.message (e : Misspelling) : String :=
  refusal e.text

/-- Reads an identity, or gives the text back that is none. -/
def ofText (s : String) : Except Misspelling Identity :=
  match ofText? s with
  | some i => .ok i
  | none => .error ⟨s⟩

end Identity

end PeerBook
