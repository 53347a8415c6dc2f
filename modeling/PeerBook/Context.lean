import PeerBook.Error

/-! # Contexts

A context tells an operation when to give up: once its root is cancelled, or
once its deadline has passed. Engine calls are not interrupted; contexts are
consulted between them.
-/

namespace PeerBook

/-- What contexts are judged by: the time, and the roots cancelled so far. -/
structure Ambient where
  now : Nat
  /-- How many roots there are; they are numbered from 0. -/
  roots : Nat
  cancelled : List Nat
  deriving DecidableEq, Repr

namespace Ambient

def start : Ambient where
  now := 0
  roots := 0
  cancelled := []

def newRoot (a : Ambient) : Nat × Ambient :=
  (a.roots, { a with roots := a.roots + 1 })

def cancel (root : Nat) (a : Ambient) : Ambient :=
  { a with cancelled := root :: a.cancelled }

def isCancelled (a : Ambient) (root : Nat) : Bool :=
  a.cancelled.contains root

end Ambient

structure Context where
  root : Option Nat
  deadline : Option Nat
  deriving DecidableEq, Repr

inductive Interruption where
  | cancelled
  | deadlineExceeded
  deriving DecidableEq, Repr

def Interruption.toError (op : String) : Interruption → StoreError
  | .cancelled => .cancelled op
  | .deadlineExceeded => .deadlineExceeded op

namespace Context

/-- Never cancelled and without a deadline. -/
def background : Context where
  root := none
  deadline := none

def ofRoot (root : Nat) : Context where
  root := some root
  deadline := none

/-- A deadline already set that is earlier stays. -/
def withDeadline (c : Context) (deadline : Nat) : Context :=
  { c with deadline := some (match c.deadline with
      | some existing => if existing < deadline then existing else deadline
      | none => deadline) }

def withTimeout (c : Context) (a : Ambient) (timeout : Nat) : Context :=
  c.withDeadline (a.now + timeout)

/-- Why the context is done, if it is; cancellation goes before the deadline. -/
def interruption? (c : Context) (a : Ambient) : Option Interruption :=
  if c.root.any a.isCancelled then some .cancelled
  else if c.deadline.any (· ≤ a.now) then some .deadlineExceeded
  else none

def check (c : Context) (op : String) (a : Ambient) : Except StoreError Unit :=
  match c.interruption? a with
  | some i => .error (i.toError op)
  | none => .ok ()

end Context

end PeerBook
