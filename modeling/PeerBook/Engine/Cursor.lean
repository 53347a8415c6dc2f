import PeerBook.Engine.Basic

/-! # Paged cursors

A cursor walks the bindings of a range at a pinned sequence number. It
fetches a page at a time and goes on after the last key it fetched.
-/

namespace PeerBook

structure Cursor where
  seq : UInt64
  pageSize : Nat
  lower : Bytes
  upper : Option Bytes
  /-- Fetched and not yet visited. -/
  page : List Binding
  current : Option Binding
  /-- The last key fetched. -/
  resumeAfter : Option Bytes
  /-- Whether the last page came up short. -/
  scanDone : Bool
  deriving DecidableEq, Repr

namespace Cursor

/-- A cursor that stands nowhere yet. -/
def start (seq : UInt64) (pageSize : Nat) (lower : Bytes) (upper : Option Bytes) : Cursor where
  seq
  pageSize
  lower
  upper
  page := []
  current := none
  resumeAfter := none
  scanDone := false

def fill (t : Table) (c : Cursor) : Cursor :=
  let start := match c.resumeAfter with
    | some key => Start.after key
    | none => Start.at c.lower
  let entries := t.scanAt c.seq start c.upper c.pageSize
  { c with
    page := c.page ++ entries
    resumeAfter := (entries.getLast?.map (·.1)).or c.resumeAfter
    scanDone := c.scanDone || entries.length < c.pageSize }

def step (t : Table) (c : Cursor) : Cursor :=
  let c := if c.page.isEmpty && !c.scanDone then c.fill t else c
  { c with current := c.page.head?, page := c.page.tail }

/-- Moves to the first binding of the range. -/
def first (t : Table) (c : Cursor) : Cursor :=
  { c with page := [], resumeAfter := none, scanDone := false }.step t

/-- Moves on, if the cursor stands on a binding. -/
def next (t : Table) (c : Cursor) : Cursor :=
  match c.current with
  | none => c
  | some _ => c.step t

/-- No fewer than the bindings that the cursor can still come to stand on, the present one
included. -/
def remaining (t : Table) (c : Cursor) : Nat :=
  1 + c.page.length + t.keyCount

end Cursor

end PeerBook
