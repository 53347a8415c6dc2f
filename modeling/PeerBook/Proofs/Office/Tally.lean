import PeerBook.Proofs.Office.Basic
import PeerBook.Proofs.Store.Held
import PeerBook.Proofs.Store.Outcome
import PeerBook.Proofs.Store.Read

/-! # Nothing leaks and nothing is released twice

The rehearsal engine counts what it hands out and takes back. Whatever it is
told to fail at, a store has at most those snapshots and cursors open that its
users hold: every other way out of an operation releases what it opened, once.
-/

namespace PeerBook

open StoreM

namespace Rehearsal

variable {r : Rehearsal} {a b n : Nat}

/-- So many snapshots, cursors and batches were opened and not closed. -/
structure Owes (r : Rehearsal) (snapshots cursors batches : Nat) : Prop where
  snapshots : r.snapshots.opened = r.snapshots.closed + snapshots
  cursors : r.cursors.opened = r.cursors.closed + cursors
  batches : r.batches.opened = r.batches.closed + batches

theorem Owes.congr (h : r.Owes a b n) {r' : Rehearsal} (hs : r'.snapshots = r.snapshots)
    (hc : r'.cursors = r.cursors) (hb : r'.batches = r.batches) : r'.Owes a b n :=
  ⟨hs ▸ h.snapshots, hc ▸ h.cursors, hb ▸ h.batches⟩

theorem Owes.newBatch (h : r.Owes a b n) : (Backend.newBatch r).2.Owes a b (n + 1) :=
  ⟨h.snapshots, h.cursors, congrArg (· + 1) h.batches⟩

theorem Owes.closeBatch (h : r.Owes a b (n + 1)) (batch : Backend.Batch Rehearsal) :
    (Backend.closeBatch batch r).2.Owes a b n :=
  ⟨h.snapshots, h.cursors, h.batches.trans (Nat.add_right_comm _ n 1)⟩

theorem Owes.commit (h : r.Owes a b n) (batch : Backend.Batch Rehearsal) :
    (Backend.commit batch r).2.Owes a b n := by
  change (if r.fails .commit then _ else _ : _ × Rehearsal).2.Owes a b n
  split
  · exact h
  · exact h.congr rfl rfl rfl

theorem Owes.openSnapshot (h : r.Owes a b n) :
    let o := Backend.openSnapshot r
    (∃ snapshot, o.1 = .ok snapshot ∧ o.2.Owes (a + 1) b n) ∨
      ∃ err, o.1 = .error err ∧ o.2.Owes a b n := by
  change let o := (if r.fails .newSnapshot then _ else _ : Except EngineError _ × Rehearsal)
    (∃ snapshot, o.1 = .ok snapshot ∧ o.2.Owes (a + 1) b n) ∨
      ∃ err, o.1 = .error err ∧ o.2.Owes a b n
  split
  · exact .inr ⟨_, rfl, h⟩
  · exact .inl ⟨_, rfl, congrArg (· + 1) h.snapshots, h.cursors, h.batches⟩

theorem Owes.closeSnapshot (h : r.Owes (a + 1) b n) (snapshot : Backend.Snapshot Rehearsal) :
    (Backend.closeSnapshot snapshot r).2.Owes a b n :=
  ⟨h.snapshots.trans (Nat.add_right_comm _ a 1), h.cursors, h.batches⟩

theorem Owes.openCursor (h : r.Owes a b n) (snapshot : Backend.Snapshot Rehearsal) (lower : Bytes)
    (upper : Option Bytes) :
    let k := Backend.openCursor snapshot lower upper r
    (∃ cursor, k.1 = .ok cursor ∧ k.2.Owes a (b + 1) n) ∨
      ∃ err, k.1 = .error err ∧ k.2.Owes a b n := by
  change let k := (if r.fails .newCursor then _ else _ : Except EngineError _ × Rehearsal)
    (∃ cursor, k.1 = .ok cursor ∧ k.2.Owes a (b + 1) n) ∨
      ∃ err, k.1 = .error err ∧ k.2.Owes a b n
  split
  · exact .inr ⟨_, rfl, h⟩
  · exact .inl ⟨_, rfl, h.snapshots, congrArg (· + 1) h.cursors, h.batches⟩

theorem Owes.closeCursor (h : r.Owes a (b + 1) n) (cursor : Backend.Cursor Rehearsal) :
    (Backend.closeCursor cursor r).2.Owes a b n :=
  ⟨h.snapshots, h.cursors.trans (Nat.add_right_comm _ b 1), h.batches⟩

end Rehearsal

namespace Store

variable {l : Layout} {s : Session Rehearsal} {a b n : Nat}

theorem owes_perform (h : s.engine.Owes a b n) (c : Call) :
    ((c.perform l).exec s).2.engine.Owes a b n := by
  have hb := h.newBatch
  rcases c.perform_cases l s with ⟨-, err, -, -, he⟩ | ⟨-, err, -, -, he⟩ | ⟨-, -, he⟩
  · rw [he]
    exact h
  · rw [he]
    exact hb.closeBatch _
  · rw [he]
    exact (hb.commit _).closeBatch _

theorem owes_resolve (h : s.engine.Owes a b n) (ctx : Context) (name : String) :
    ((resolve l ctx name).exec s).2.engine.Owes a b n := by
  rw [exec_resolve]
  cases ctx.check "resolve" s.ambient with
  | error err => exact h
  | ok u =>
    dsimp only
    rcases h.openSnapshot with ⟨o, ho, hs⟩ | ⟨err, ho, hs⟩
    · rw [ho]
      refine Rehearsal.Owes.closeSnapshot ?_ o
      rw [keepsEngine_follow]
      exact hs
    · rw [ho]
      exact hs

/-- A scan that is opened owes its snapshot and its cursor; one that is not owes nothing. -/
theorem owes_iterate (h : s.engine.Owes a b n) (ctx : Context) :
    let r := (iterate l ctx).exec s
    (∃ c, r.1 = .ok c ∧ c.Whole ∧ c.isOpen = true ∧ r.2.engine.Owes (a + 1) (b + 1) n) ∨
      ∃ err, r.1 = .error err ∧ r.2.engine.Owes a b n := by
  rw [exec_iterate_eq]
  cases ctx.check "iterate" s.ambient with
  | error err => exact .inr ⟨err, rfl, h⟩
  | ok u =>
    dsimp only
    rcases h.openSnapshot with ⟨o, ho, hs⟩ | ⟨err, ho, hs⟩
    · rw [ho]
      dsimp only
      rcases hs.openCursor o l.recordLead (Bytes.bound? l.recordLead) with
        ⟨k, hk, hc⟩ | ⟨err, hk, hc⟩
      · rw [hk]
        exact .inl ⟨_, rfl, rfl, rfl, hc⟩
      · rw [hk]
        obtain ⟨err', he⟩ := StoreError.exists_append_error _ _
        exact .inr ⟨err', he, hc.closeSnapshot o⟩
    · rw [ho]
      exact .inr ⟨_, rfl, hs⟩

theorem owes_close {c : Scan Rehearsal} (hw : c.Whole)
    (h : s.engine.Owes (a + c.isOpen.toNat) (b + c.isOpen.toNat) n) :
    let r := c.close s
    r.1.2.Whole ∧ r.1.2.isOpen = false ∧ r.2.engine.Owes a b n := by
  cases hk : c.cursor with
  | none =>
    have ho : c.snapshot = none := by simpa [Scan.Whole, hk] using hw
    rw [Scan.close_eq, hk, ho]
    rw [Scan.isOpen, hk] at h
    exact ⟨rfl, rfl, h⟩
  | some cursor =>
    obtain ⟨snapshot, ho⟩ : ∃ snapshot, c.snapshot = some snapshot :=
      Option.isSome_iff_exists.mp (hw.trans (by rw [hk]; rfl))
    rw [Scan.close_eq, hk, ho]
    rw [Scan.isOpen, hk] at h
    exact ⟨rfl, rfl, (h.closeCursor cursor).closeSnapshot snapshot⟩

theorem owes_finish {β : Type} {visit : β → Peer → StateM (Session Rehearsal) β}
    (hv : Scan.Spares visit) (start : β) {c : Scan Rehearsal} (hw : c.Whole)
    (h : s.engine.Owes (a + c.isOpen.toNat) (b + c.isOpen.toNat) n) :
    (c.finish visit start s).2.engine.Owes a b n := by
  obtain ⟨hc, he⟩ := c.drain_holdsAs hv start s
  rw [Scan.finish_eq]
  refine (owes_close (hc.whole hw) ?_).2.2
  rw [he, Scan.isOpen, hc.cursor]
  exact h

theorem owes_forEach {β : Type} {visit : β → Peer → StateM (Session Rehearsal) β}
    (hv : Scan.Spares visit) (start : β) (h : s.engine.Owes a b n) (ctx : Context) :
    (forEach l ctx visit start s).2.engine.Owes a b n := by
  have hi := owes_iterate (l := l) h ctx
  rw [forEach_eq]
  rcases hr : (iterate l ctx).exec s with ⟨r, s'⟩
  rw [hr] at hi
  rcases hi with ⟨c, hc, hw, ho, hs⟩ | ⟨err, hc, hs⟩
  · obtain rfl : r = .ok c := hc
    refine owes_finish hv start hw ?_
    rw [ho]
    exact hs
  · obtain rfl : r = .error err := hc
    exact hs

end Store

namespace Office

open Store

/-- The places of the scans that users hold, after an errand and the reply to it. -/
def heldAfter (held : List Nat) : Errand × Reply → List Nat
  | (.iterate _, .opened i) => i :: held
  | (.close i, _) | (.drop i, _) | (.collect i, _) => held.erase i
  | _ => held

/-- The places of the scans that were opened and not yet closed, dropped or drained. -/
def heldIn (history : List (Errand × Reply)) : List Nat :=
  history.foldl heldAfter []

/-- Users hold the scans that are open, and nothing else was opened and not closed. -/
structure Balanced (o : Office Rehearsal) (held : List Nat) : Prop where
  nodup : held.Nodup
  mem : ∀ i, i ∈ held ↔ ∃ c, o.scan? i = some c ∧ c.isOpen = true
  whole : ∀ i c, o.scan? i = some c → c.Whole
  owes : o.session.engine.Owes held.length held.length 0

namespace Balanced

variable {o : Office Rehearsal} {held : List Nat} {l : Layout}

theorem start (data : SortedMap Bytes Bytes) :
    (Office.start { Rehearsal.empty with data }).Balanced [] where
  nodup := .nil
  mem i := by simp [Office.start, scan?]
  whole i c h := by simp [Office.start, scan?] at h
  owes := ⟨rfl, rfl, rfl⟩

theorem withSession (h : o.Balanced held) {session : Session Rehearsal}
    (hs : session.engine.Owes held.length held.length 0) :
    Balanced { o with session } held :=
  ⟨h.nodup, h.mem, h.whole, hs⟩

theorem withFaults (h : o.Balanced held) (faults : List Fault) :
    (o.withFaults faults).Balanced held :=
  h.withSession (h.owes.congr rfl rfl rfl)

theorem keep (h : o.Balanced held) (i : Nat) {f : AtScan Rehearsal}
    (hf : ∀ c s, ∃ c', (f c s).2.1 = some c' ∧ c'.HoldsAs c ∧ (f c s).2.2.engine = s.engine) :
    (o.atScan i f).2.Balanced held := by
  unfold atScan
  cases hc : o.scan? i with
  | none => exact h
  | some c =>
    obtain ⟨c', hc', hh, he⟩ := hf c o.session
    refine ⟨h.nodup, fun j => ?_, fun j d hd => ?_, ?_⟩
    · rw [h.mem, scan?_set hc, hc']
      split
      · rename_i hj
        simp [hj, hc, Scan.isOpen, hh.cursor]
      · rfl
    · rw [scan?_set hc, hc'] at hd
      split at hd
      · obtain rfl := Option.some.inj hd
        exact hh.whole (h.whole i c hc)
      · exact h.whole j d hd
    · rw [he]
      exact h.owes

theorem release (h : o.Balanced held) (i : Nat) {f : AtScan Rehearsal}
    (hf : ∀ c s a b, c.Whole → s.engine.Owes (a + c.isOpen.toNat) (b + c.isOpen.toNat) 0 →
      (∀ c' ∈ (f c s).2.1, c'.Whole ∧ c'.isOpen = false) ∧ (f c s).2.2.engine.Owes a b 0) :
    (o.atScan i f).2.Balanced (held.erase i) := by
  unfold atScan
  cases hc : o.scan? i with
  | none =>
    have hi : i ∉ held := fun hm => by simpa [hc] using (h.mem i).mp hm
    rw [List.erase_of_not_mem hi]
    exact h
  | some c =>
    have hl : held.length = (held.erase i).length + c.isOpen.toNat := by
      cases ho : c.isOpen with
      | true =>
        have hi : i ∈ held := (h.mem i).mpr ⟨c, hc, ho⟩
        have := List.length_pos_of_mem hi
        rw [List.length_erase_of_mem hi]
        simp
        omega
      | false =>
        have hi : i ∉ held := fun hm => by simpa [hc, ho] using (h.mem i).mp hm
        rw [List.erase_of_not_mem hi]
        rfl
    obtain ⟨hc', hs⟩ := hf c o.session _ _ (h.whole i c hc) (hl ▸ h.owes)
    refine ⟨h.nodup.erase i, fun j => ?_, fun j d hd => ?_, hs⟩
    · rw [h.nodup.mem_erase_iff, h.mem, scan?_set hc]
      split
      · rename_i hj
        refine ⟨fun hm => absurd hj hm.1, ?_⟩
        rintro ⟨d, hd, ho⟩
        rw [(hc' d hd).2] at ho
        cases ho
      · rename_i hj
        exact and_iff_right hj
    · rw [scan?_set hc] at hd
      split at hd
      · exact (hc' d hd).1
      · exact h.whole j d hd

theorem opened (h : o.Balanced held) {c : Scan Rehearsal} {session : Session Rehearsal}
    (hw : c.Whole) (ho : c.isOpen = true)
    (hs : session.engine.Owes (held.length + 1) (held.length + 1) 0) :
    Balanced ⟨session, o.scans ++ [some c]⟩ (o.scans.length :: held) where
  nodup := by
    refine List.nodup_cons.mpr ⟨fun hm => ?_, h.nodup⟩
    obtain ⟨d, hd, -⟩ := (h.mem _).mp hm
    simp [scan?] at hd
  mem i := by
    rw [List.mem_cons, h.mem, scan?_concat]
    split
    · rename_i hi
      simp [hi, ho]
    · rename_i hi
      simp [hi]
  whole i d hd := by
    rw [scan?_concat] at hd
    split at hd
    · obtain rfl := Option.some.inj hd
      exact hw
    · exact h.whole i d hd
  owes := hs

theorem step (h : o.Balanced held) (e : Errand) :
    let r := o.step l e
    r.2.Balanced (heldAfter held (e, r.1)) := by
  cases e with
  | store c => exact h.withSession (owes_perform h.owes c)
  | find ctx i =>
    have hs : ((find l ctx i).exec o.session).2.engine.Owes held.length held.length 0 := by
      rw [keepsEngine_find]
      exact h.owes
    exact h.withSession hs
  | resolve ctx a => exact h.withSession (owes_resolve h.owes ctx a)
  | iterate ctx =>
    have hi := owes_iterate (l := l) h.owes ctx
    simp only [Office.step]
    rcases hr : (iterate l ctx).exec o.session with ⟨r, s⟩
    rw [hr] at hi
    rcases hi with ⟨c, hc, hw, ho, hs⟩ | ⟨err, hc, hs⟩
    · obtain rfl : r = .ok c := hc
      exact h.opened hw ho hs
    · obtain rfl : r = .error err := hc
      exact h.withSession hs
  | advance i =>
    exact h.keep i fun c s => ⟨_, rfl, c.advance_holdsAs s⟩
  | current i | failure i => exact h.keep i fun c s => ⟨c, rfl, .refl c, rfl⟩
  | close i =>
    refine h.release i fun c s a b hw hs => ?_
    obtain ⟨hw', ho, hs'⟩ := owes_close hw hs
    refine ⟨fun c' hc' => ?_, hs'⟩
    obtain rfl := Option.some.inj hc'
    exact ⟨hw', ho⟩
  | drop i =>
    refine h.release i fun c s a b hw hs => ⟨fun c' hc' => ?_, (owes_close hw hs).2.2⟩
    cases show none = some c' from hc'
  | collect i =>
    refine h.release i fun c s a b hw hs => ⟨fun c' hc' => ?_, ?_⟩
    · cases show none = some c' from hc'
    · exact owes_finish (fun _ _ _ => rfl) [] hw hs
  | forEach ctx meanwhile =>
    exact h.withSession (owes_forEach (fun _ _ _ => rfl) [] h.owes ctx)
  | set key value => exact h.withSession (h.owes.congr rfl rfl rfl)
  | ambient | codec | strike => exact h.withSession h.owes

theorem rehearse (h : o.Balanced held) (steps : List (List Fault × Errand)) :
    let r := o.rehearse l steps
    r.2.Balanced (((steps.map (·.2)).zip r.1).foldl heldAfter held) := by
  induction steps generalizing o held with
  | nil => exact h
  | cons step steps ih => exact ih ((h.withFaults step.1).step step.2)

end Balanced

/-- After any errands, with any faults at each, as many snapshots and as many cursors were opened
and not closed as users hold scans, and no batch. -/
theorem opened_eq_closed_add_held (l : Layout) (data : SortedMap Bytes Bytes)
    (steps : List (List Fault × Errand)) :
    let (replies, o) := (start { Rehearsal.empty with data }).rehearse l steps
    let held := (heldIn ((steps.map (·.2)).zip replies)).length
    let r := o.session.engine
    r.snapshots.opened = r.snapshots.closed + held ∧
      r.cursors.opened = r.cursors.closed + held ∧
      r.batches.opened = r.batches.closed := by
  have h := (Balanced.start data).rehearse (l := l) steps
  exact ⟨h.owes.snapshots, h.owes.cursors, h.owes.batches⟩

/-- The first scan finds no cursor and the second one fails to give its cursor back; it is closed
once more and then dropped. -/
example :
    let r := ((start Rehearsal.empty).rehearse .flat
      [([.newCursor, .snapshotClose], .iterate .background), ([], .iterate .background),
        ([.cursorClose], .close 0), ([], .close 0), ([], .drop 0)]).2.session.engine
    (r.snapshots, r.cursors) = (⟨2, 2⟩, ⟨1, 1⟩) := by
  decide +kernel

end Office

end PeerBook
