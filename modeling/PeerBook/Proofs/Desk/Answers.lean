import PeerBook.Proofs.Desk.Contents
import PeerBook.Proofs.Desk.Paging
import PeerBook.Proofs.Engine.Reliable

/-! # What the users of an engine are told

Users act on an engine and ask it questions: what it holds, what a snapshot of
it shows, where a cursor stands. What they have it commit succeeds if it fits,
as long as nobody tampers with the device of the log.
-/

namespace PeerBook

open Journal

inductive Request where
  | act (a : Action)
  | get (key : Bytes)
  | read (snapshot : Nat) (key : Bytes)
  /-- Where a cursor stands. -/
  | entry (cursor : Nat)
  /-- How many writes a batch holds. -/
  | length (batch : Nat)
  | lastSequence
  deriving DecidableEq, Repr

inductive Answer where
  | done
  | failed (err : EngineError)
  | value (value : Option Bytes)
  | entry (entry : Option Binding)
  | length (n : Nat)
  | sequence (seq : UInt64)
  /-- There is nothing open in the place that the request names. -/
  | absent
  deriving DecidableEq, Repr

def Answer.ofResult : Except EngineError Unit → Answer
  | .ok () => .done
  | .error err => .failed err

def Action.sparesDevice : Action → Bool
  | .device _ _ => false
  | _ => true

namespace Desk

variable {d v : Desk}

def entry (d : Desk) (i : Nat) : Answer :=
  (d.cursor? i).elim .absent fun c => .entry c.current

/-- The snapshot in a place, if it is open, reads a key. -/
def read (d : Desk) (i : Nat) (key : Bytes) : Answer :=
  (d.snapshot? i).elim .absent fun s => .value (s.get key d.engine)

def answer (d : Desk) : Request → Answer
  | .act (.set key value) => .ofResult (d.mounted.set key value).1
  | .act (.commit i) => (d.batches[i]?).elim .absent fun b => .ofResult (d.mounted.commit b).1.1
  | .act .openSnapshot => .sequence d.engine.visible
  | .act (.first i) => (d.step (.first i)).entry i
  | .act (.next i) => (d.step (.next i)).entry i
  | .act .sync => .ofResult d.mounted.sync.1
  | .act _ => .done
  | .get key => .value (d.engine.get key)
  | .read i key => d.read i key
  | .entry i => d.entry i
  | .length i => (d.batches[i]?).elim .absent fun b => .length b.writes.length
  | .lastSequence => .sequence d.engine.visible

def after (d : Desk) : Request → Desk
  | .act a => d.step a
  | _ => d

def answers (d : Desk) : List Request → List Answer
  | [] => []
  | r :: rs => d.answer r :: (d.after r).answers rs

def runRequests (d : Desk) (rs : List Request) : Desk :=
  rs.foldl after d

/-- The operation that an action asks the engine to commit. -/
def attempted (d : Desk) : Action → Option Operation
  | .set key value => some (.put key value)
  | .commit i => (d.batches[i]?).bind fun b =>
      if b.committed || b.writes.isEmpty then none else some (.batch b.writes)
  | _ => none

theorem file_step (d : Desk) {a : Action} (ha : a.isQuiet = true) (hd : a.sparesDevice = true) :
    (d.step a).mounted.file = d.mounted.file := by
  cases a with
  | set | commit | sync => cases ha
  | device => cases hd
  | closeSnapshot | openCursor | closeCursor | first | next =>
    simp only [step, closeSnapshot, openCursor, closeCursor, move]
    split <;> rfl
  | newBatch | put | openSnapshot | tick => rfl

/-- A request that leaves the device alone and asks for no commit that does not fit or for which no
sequence number is left. -/
def Admits (d : Desk) : Request → Prop
  | .act a =>
    (d.committed a ≠ none → d.engine.Lasts) ∧ (∀ o ∈ d.attempted a, o.Fits) ∧
      a.sparesDevice = true
  | _ => True

instance (d : Desk) : DecidablePred d.Admits
  | .act _ => inferInstanceAs (Decidable (_ ∧ _ ∧ _))
  | .get _ | .read _ _ | .entry _ | .length _ | .lastSequence => .isTrue trivial

def AdmitsAll : Desk → List Request → Prop
  | _, [] => True
  | d, r :: rs => d.Admits r ∧ (d.after r).AdmitsAll rs

instance decidableAdmitsAll : (d : Desk) → (rs : List Request) → Decidable (d.AdmitsAll rs)
  | _, [] => .isTrue trivial
  | d, r :: rs =>
    have := decidableAdmitsAll (d.after r) rs
    inferInstanceAs (Decidable (_ ∧ _))

theorem commit_of_fits (h : d.mounted.IsReliable) {a : Action}
    (ho : ∀ o, d.attempted a = some o → o.Fits) (hd : a.sparesDevice = true) :
    d.committed a = d.attempted a ∧ (d.step a).mounted.IsReliable := by
  have hq {a : Action} (ha : a.isQuiet = true) (hd : a.sparesDevice = true) :
      (d.step a).mounted.IsReliable := by
    obtain ⟨p, he, -⟩ := d.step_of_isQuiet ha
    rw [Mounted.IsReliable, d.file_step ha hd, show (d.step a).mounted.engine = _ from he]
    exact h.congr rfl
  cases a with
  | set key value =>
    obtain ⟨hr, hs, -⟩ := Mounted.set_of_fits h (ho _ rfl)
    refine ⟨?_, hs⟩
    simp only [committed, attempted, hr]
  | commit i =>
    simp only [committed, attempted, step, commit] at ho ⊢
    cases hb : d.batches[i]? with
    | none => exact ⟨rfl, h⟩
    | some b =>
      simp only [hb, Option.bind_some] at ho ⊢
      by_cases hi : (b.committed || b.writes.isEmpty) = true
      · rw [if_pos hi, Mounted.commit_of_idle _ hi]
        refine ⟨?_, h⟩
        by_cases hc : b.committed
        · simp [hc]
        · have hw : b.writes.isEmpty = true := by simpa [hc] using hi
          simp [hc, hw]
      · obtain ⟨hc, hw⟩ : b.committed = false ∧ b.writes ≠ [] := by simpa using hi
        obtain ⟨ws, c⟩ := b
        obtain rfl : c = false := hc
        obtain ⟨hr, hs, -⟩ := Mounted.commit_of_fits h hw (ho _ (if_neg hi))
        have he : ws.isEmpty = false := by simpa using hw
        refine ⟨?_, hs⟩
        simp [hr, he]
  | sync => exact ⟨rfl, (Engine.sync_of_isReliable h).2⟩
  | newBatch | put | openSnapshot | closeSnapshot | openCursor | first | next | closeCursor
  | tick =>
    exact ⟨rfl, hq rfl rfl⟩
  | device => cases hd

end Desk

end PeerBook
