import PeerBook.Backend
import PeerBook.Context
import PeerBook.Peer.Record

/-! # Sessions

What a store works in: an engine, the ambient that contexts are judged by,
and a record codec, which may be told to fail. A strike changes the ambient
when the store reaches a certain call, as another party might meanwhile.
-/

namespace PeerBook

/-- The calls a store makes at which something may happen meanwhile. -/
inductive CallPoint where
  | encode
  | decode
  | get
  | snapshot
  | batch
  | commit
  | read
  | cursor
  deriving DecidableEq, Repr

/-- What happens when a call point is next reached, after `wait` calls that pass undisturbed. -/
structure Strike where
  point : CallPoint
  wait : Nat
  effect : Ambient → Ambient

structure Codec where
  encodeFailure : Option String
  decodeFailure : Option String
  deriving DecidableEq, Repr

namespace Codec

def working : Codec where
  encodeFailure := none
  decodeFailure := none

def encode (c : Codec) (p : Peer) : Except CodecError Bytes :=
  match c.encodeFailure with
  | some text => .error ⟨text⟩
  | none => .ok p.encode

def decode (c : Codec) (bs : Bytes) : Except CodecError Peer :=
  match c.decodeFailure with
  | some text => .error ⟨text⟩
  | none => (Peer.decode bs).mapError fun failure => ⟨failure.message⟩

end Codec

structure Session (ε : Type) where
  engine : ε
  ambient : Ambient
  codec : Codec
  strike : Option Strike

namespace Session

variable {ε α : Type}

def start (engine : ε) : Session ε where
  engine
  ambient := .start
  codec := .working
  strike := none

/-- Lets happen what is due at a call point. -/
def reach (point : CallPoint) (s : Session ε) : Session ε :=
  match s.strike with
  | some k =>
    if k.point = point then
      match k.wait with
      | 0 => { s with strike := none, ambient := k.effect s.ambient }
      | wait + 1 => { s with strike := some { k with wait } }
    else s
  | none => s

/-- Reads from the engine. -/
def ask (point : CallPoint) (f : ε → α) : StateM (Session ε) α := fun s =>
  let s := s.reach point
  (f s.engine, s)

/-- Runs an engine call at which nothing happens meanwhile. -/
def quietly (f : StateM ε α) : StateM (Session ε) α := fun s =>
  let (a, engine) := f s.engine
  (a, { s with engine })

/-- Runs an engine call. -/
def call (point : CallPoint) (f : StateM ε α) : StateM (Session ε) α := fun s =>
  quietly f (s.reach point)

def encode (p : Peer) : StateM (Session ε) (Except CodecError Bytes) := fun s =>
  let s := s.reach .encode
  (s.codec.encode p, s)

def decode (bs : Bytes) : StateM (Session ε) (Except CodecError Peer) := fun s =>
  let s := s.reach .decode
  (s.codec.decode bs, s)

variable [Backend ε]

/-- The bindings of a range, read through a snapshot and a cursor of their own. Gives up at the
first failure and then leaves open what is open. -/
def dump (lower : Bytes) (upper : Option Bytes) :
    ExceptT EngineError (StateM (Session ε)) (List Binding) := do
  let snapshot ← ExceptT.mk (call .snapshot Backend.openSnapshot)
  let cursor ← ExceptT.mk (call .cursor (Backend.openCursor snapshot lower upper))
  let (bindings, cursor) := Backend.walk (← get).engine cursor
  ExceptT.mk (quietly (Backend.closeCursor cursor))
  ExceptT.mk (quietly (Backend.closeSnapshot snapshot))
  return bindings

end Session

end PeerBook
