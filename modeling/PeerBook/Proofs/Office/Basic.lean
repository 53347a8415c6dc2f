import PeerBook.Proofs.Store.Write
import PeerBook.Rehearsal
import PeerBook.Store.Lookup
import PeerBook.Store.Scan

/-! # Stores in use

An office is a store with all the scans that its users have opened, each named
by its place. Users send one errand after another, write to the engine past
the store, and cancel what they like at any time.
-/

namespace PeerBook

open StoreM

structure Office (ε : Type) [Backend ε] where
  session : Session ε
  /-- The scans opened so far, with nothing in the place of one that was given up. -/
  scans : List (Option (Scan ε))

inductive Errand where
  /-- Adds a peer, or assigns an alias to it. -/
  | store (call : Store.Call)
  | find (ctx : Context) (identity : Identity)
  | resolve (ctx : Context) (a : String)
  | iterate (ctx : Context)
  | advance (scan : Nat)
  | current (scan : Nat)
  | failure (scan : Nat)
  | close (scan : Nat)
  | drop (scan : Nat)
  | collect (scan : Nat)
  /-- Visits every record; something may happen at each visit. -/
  | forEach (ctx : Context) (meanwhile : Peer → Ambient → Ambient)
  /-- Writes to the engine past the store. -/
  | set (key value : Bytes)
  | ambient (change : Ambient → Ambient)
  | codec (codec : Codec)
  | strike (strike : Option Strike)

inductive Reply where
  | result (result : Except StoreError Unit)
  | peer (result : Except StoreError Peer)
  | peers (result : Except StoreError (List Peer))
  | visited (peers : List Peer) (result : Except StoreError Unit)
  /-- A scan was opened in a place. -/
  | opened (scan : Nat)
  | refused (err : StoreError)
  | moved (more : Bool)
  | current (peer : Option Peer)
  | failure (err : Option StoreError)
  | written (result : Except EngineError Unit)
  | done
  /-- There is no scan in the place that the errand names. -/
  | absent

namespace Office

variable {ε : Type} [Backend ε]

def start (engine : ε) : Office ε where
  session := .start engine
  scans := []

def scan? (o : Office ε) (i : Nat) : Option (Scan ε) :=
  o.scans[i]?.join

/-- What an errand to a scan leaves in its place. -/
abbrev AtScan (ε : Type) [Backend ε] :=
  Scan ε → Session ε → Reply × Option (Scan ε) × Session ε

def advance : AtScan ε := fun c s =>
  let ((more, c), s) := c.advance s
  (.moved more, some c, s)

def current : AtScan ε := fun c s =>
  (.current c.current, some c, s)

def failure : AtScan ε := fun c s =>
  (.failure c.failure, some c, s)

def close : AtScan ε := fun c s =>
  let ((result, c), s) := c.close s
  (.result result, some c, s)

/-- What is still held is released, and nobody is told how that went. -/
def drop : AtScan ε := fun c s =>
  let (_, s) := c.close s
  (.done, none, s)

def collect : AtScan ε := fun c s =>
  let (result, s) := c.collect.exec s
  (.peers result, none, s)

def atScan (o : Office ε) (i : Nat) (f : AtScan ε) : Reply × Office ε :=
  match o.scan? i with
  | some c =>
    let (reply, c, session) := f c o.session
    (reply, { session, scans := o.scans.set i c })
  | none => (.absent, o)

theorem scan?_set {o : Office ε} {i : Nat} {c : Scan ε} (h : o.scan? i = some c)
    (x : Option (Scan ε)) (session : Session ε) (j : Nat) :
    scan? ⟨session, o.scans.set i x⟩ j = if j = i then x else o.scan? j := by
  have hi := (List.getElem?_eq_some_iff.mp (Option.join_eq_some_iff.mp h)).1
  rw [scan?, List.getElem?_set]
  by_cases hj : j = i
  · subst hj
    simp [hi]
  · rw [if_neg (Ne.symm hj), if_neg hj, scan?]

theorem scan?_concat (o : Office ε) (x : Option (Scan ε)) (session : Session ε) (j : Nat) :
    scan? ⟨session, o.scans ++ [x]⟩ j = if j = o.scans.length then x else o.scan? j := by
  rw [scan?, scan?]
  rcases Nat.lt_trichotomy j o.scans.length with hlt | rfl | hgt
  · rw [List.getElem?_append_left hlt, if_neg (Nat.ne_of_lt hlt)]
  · simp
  · rw [if_neg (Nat.ne_of_gt hgt), List.getElem?_eq_none (Nat.le_of_lt hgt),
      List.getElem?_eq_none (by simpa using Nat.succ_le_of_lt hgt)]

/-- Lists the peers visited. -/
def visit (meanwhile : Peer → Ambient → Ambient) (peers : List Peer) (p : Peer) :
    StateM (Session ε) (List Peer) := fun s =>
  (peers ++ [p], { s with ambient := meanwhile p s.ambient })

def step (l : Layout) (o : Office ε) : Errand → Reply × Office ε
  | .store c =>
    let (result, session) := (c.perform l).exec o.session
    (.result result, { o with session })
  | .find ctx i =>
    let (result, session) := (Store.find l ctx i).exec o.session
    (.peer result, { o with session })
  | .resolve ctx a =>
    let (result, session) := (Store.resolve l ctx a).exec o.session
    (.peer result, { o with session })
  | .iterate ctx =>
    match (Store.iterate l ctx).exec o.session with
    | (.ok c, session) => (.opened o.scans.length, { session, scans := o.scans ++ [some c] })
    | (.error err, session) => (.refused err, { o with session })
  | .advance i => o.atScan i advance
  | .current i => o.atScan i current
  | .failure i => o.atScan i failure
  | .close i => o.atScan i close
  | .drop i => o.atScan i drop
  | .collect i => o.atScan i collect
  | .forEach ctx meanwhile =>
    let ((peers, result), session) := Store.forEach l ctx (visit meanwhile) [] o.session
    (.visited peers result, { o with session })
  | .set key value =>
    let (result, session) := Session.quietly (Backend.set key value) o.session
    (.written result, { o with session })
  | .ambient change =>
    (.done, { o with session := { o.session with ambient := change o.session.ambient } })
  | .codec codec => (.done, { o with session := { o.session with codec } })
  | .strike strike => (.done, { o with session := { o.session with strike } })

def run (l : Layout) (o : Office ε) : List Errand → List Reply × Office ε
  | [] => ([], o)
  | e :: es =>
    let (reply, o) := o.step l e
    let (replies, o) := o.run l es
    (reply :: replies, o)

/-- The faults of a rehearsal are set anew. -/
def withFaults (o : Office Rehearsal) (faults : List Fault) : Office Rehearsal :=
  { o with session := { o.session with engine := { o.session.engine with faults } } }

/-- Errands, each with the faults that the engine has meanwhile. -/
def rehearse (l : Layout) (o : Office Rehearsal) :
    List (List Fault × Errand) → List Reply × Office Rehearsal
  | [] => ([], o)
  | (faults, e) :: steps =>
    let (reply, o) := (o.withFaults faults).step l e
    let (replies, o) := o.rehearse l steps
    (reply :: replies, o)

end Office

end PeerBook
