import PeerBook.Proofs.Error
import PeerBook.Rehearsal

/-! # What the rehearsal engine answers

Each call fails by its own fault and by no other, and no call changes which
faults are set.
-/

namespace PeerBook.Rehearsal

variable {α : Type} {r r' : Rehearsal} {f : Fault} {what : String} {a b : α}

theorem guarded_eq_ok_iff : r.guarded f what a = .ok b ↔ r.fails f = false ∧ a = b := by
  unfold guarded
  cases r.fails f <;> simp

theorem fails_congr (h : r'.faults = r.faults) (f : Fault) : r'.fails f = r.fails f := by
  rw [fails, fails, h]

/-- The failure that the engine is told to give. -/
def fault? (r : Rehearsal) (f : Fault) (what : String) : Option EngineError :=
  if r.fails f then some (injected what) else none

theorem failure?_guarded (r : Rehearsal) (f : Fault) (what : String) (a : α) :
    failure? (r.guarded f what a) = r.fault? f what := by
  unfold guarded fault?
  cases r.fails f <;> rfl

theorem fault?_congr (h : r'.faults = r.faults) (f : Fault) (what : String) :
    r'.fault? f what = r.fault? f what := by
  rw [fault?, fault?, fails_congr h]

theorem range_congr (h : r'.faults = r.faults) : r'.range = r.range := by
  funext data lower upper
  simp only [range, fails_congr h]

variable (r)

theorem fst_openSnapshot :
    (Backend.openSnapshot r).1 = r.guarded .newSnapshot "snapshot" r.data := by
  change (if r.fails .newSnapshot then _ else _ : Except EngineError _ × Rehearsal).1 = _
  unfold guarded
  cases r.fails .newSnapshot <;> rfl

theorem failure?_openSnapshot :
    failure? (Backend.openSnapshot r).1 = r.fault? .newSnapshot "snapshot" := by
  rw [fst_openSnapshot, failure?_guarded]

theorem faults_openSnapshot : (Backend.openSnapshot r).2.faults = r.faults := by
  change (if r.fails .newSnapshot then _ else _ : Except EngineError _ × Rehearsal).2.faults = _
  cases r.fails .newSnapshot <;> rfl

theorem fst_openCursor (data : SortedMap Bytes Bytes) (lower : Bytes) (upper : Option Bytes) :
    (Backend.openCursor (ε := Rehearsal) data lower upper r).1 =
      r.guarded .newCursor "iterator" ⟨r.range data lower upper, []⟩ := by
  change (if r.fails .newCursor then _ else _ : Except EngineError _ × Rehearsal).1 = _
  unfold guarded
  cases r.fails .newCursor <;> rfl

theorem failure?_openCursor (data : SortedMap Bytes Bytes) (lower : Bytes)
    (upper : Option Bytes) :
    failure? (Backend.openCursor (ε := Rehearsal) data lower upper r).1 =
      r.fault? .newCursor "iterator" := by
  rw [fst_openCursor, failure?_guarded]

theorem faults_openCursor (data : SortedMap Bytes Bytes) (lower : Bytes) (upper : Option Bytes) :
    (Backend.openCursor (ε := Rehearsal) data lower upper r).2.faults = r.faults := by
  change (if r.fails .newCursor then _ else _ : Except EngineError _ × Rehearsal).2.faults = _
  cases r.fails .newCursor <;> rfl

theorem failure?_commit (b : List Binding) :
    failure? (Backend.commit (ε := Rehearsal) b r).1.1 = r.fault? .commit "commit" := by
  change failure? (if r.fails .commit then _ else _ :
    (Except EngineError Unit × _) × Rehearsal).1.1 = _
  unfold fault?
  cases r.fails .commit <;> rfl

theorem faults_commit (b : List Binding) :
    (Backend.commit (ε := Rehearsal) b r).2.faults = r.faults := by
  change (if r.fails .commit then _ else _ : (Except EngineError Unit × _) × Rehearsal).2.faults = _
  cases r.fails .commit <;> rfl

end PeerBook.Rehearsal
