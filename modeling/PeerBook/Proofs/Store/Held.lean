import PeerBook.Proofs.Store.Monad
import PeerBook.Store.Scan

/-! # What scans hold

A scan holds a snapshot and a cursor from when it is opened until it is closed
for the first time. Moving it on, to the next record or to the end, leaves the
engine alone and holds on to both.
-/

namespace PeerBook

open StoreM

variable {ε : Type} [Backend ε] {c c' : Scan ε}

namespace Scan

def opened (l : Layout) (ctx : Context) (snapshot : Backend.Snapshot ε)
    (cursor : Backend.Cursor ε) : Scan ε where
  snapshot := some snapshot
  cursor := some cursor
  layout := l
  context := ctx
  current := none
  failure := none

def isOpen (c : Scan ε) : Bool :=
  c.cursor.isSome

/-- A scan holds a cursor and a snapshot, or neither. -/
def Whole (c : Scan ε) : Prop :=
  c.snapshot.isSome = c.cursor.isSome

/-- Both scans hold the same snapshot, and both hold a cursor or neither does. -/
structure HoldsAs (c' c : Scan ε) : Prop where
  snapshot : c'.snapshot = c.snapshot
  cursor : c'.cursor.isSome = c.cursor.isSome

theorem HoldsAs.refl (c : Scan ε) : c.HoldsAs c := ⟨rfl, rfl⟩

theorem HoldsAs.trans {c'' : Scan ε} (h' : c''.HoldsAs c') (h : c'.HoldsAs c) : c''.HoldsAs c :=
  ⟨h'.snapshot.trans h.snapshot, h'.cursor.trans h.cursor⟩

theorem HoldsAs.whole (h : c'.HoldsAs c) (hw : c.Whole) : c'.Whole := by
  rw [Whole, h.snapshot, h.cursor]
  exact hw

theorem advance_of_failed {err : StoreError} (hf : c.failure = some err) (s : Session ε) :
    c.advance s = ((false, { c with current := none }), s) := by
  unfold advance
  dsimp only
  rw [hf]

theorem advance_of_closed (hk : c.cursor = none) (s : Session ε) :
    c.advance s = ((false, { c with current := none }), s) := by
  unfold advance
  dsimp only
  rw [hk]
  cases c.failure <;> rfl

/-- A scan that has not failed stops behind its last record, where its context is done or before a
record that cannot be decoded, or moves on. -/
theorem advance_of_open (hf : c.failure = none) {cursor : Backend.Cursor ε}
    (hk : c.cursor = some cursor) (s : Session ε) :
    c.advance s =
      let k := skipForeign c.layout s.engine (Backend.remaining s.engine cursor) cursor
      let c' := { c with current := none, cursor := some k }
      match Backend.entry? k with
      | none => ((false, c'), s)
      | some b =>
        match c.context.check "advance" s.ambient, s.codec.decode b.2 with
        | .error err, _ => ((false, { c' with failure := some err }), s)
        | .ok (), .error source =>
          ((false, { c' with failure := some (.decoding (c.layout.describe b.1) source) }),
            s.reach .decode)
        | .ok (), .ok p =>
          ((true, { c' with current := some p, cursor := some (Backend.next s.engine k) }),
            s.reach .decode) := by
  have hd (value : Bytes) :
      Session.decode value s = (s.codec.decode value, s.reach .decode) := by
    rw [← Session.codec_reach .decode s]
    rfl
  unfold advance
  dsimp only
  rw [hf, hk]
  dsimp only
  generalize skipForeign c.layout s.engine (Backend.remaining s.engine cursor) cursor = k
  cases Backend.entry? k with
  | none => rfl
  | some b =>
    dsimp only
    rw [hd]
    cases c.context.check "advance" s.ambient with
    | error err => rfl
    | ok u =>
      cases s.codec.decode b.2 with
      | error source => rfl
      | ok p =>
        dsimp only
        rw [Session.engine_reach]

/-- A scan that nothing moves any more: it has failed, is closed, or is behind its last record. -/
def Stopped (c : Scan ε) : Prop :=
  c.failure = none → ∀ k, c.cursor = some k → Backend.entry? k = none

theorem stopped_of_failure {err : StoreError} (h : c.failure = some err) : c.Stopped := by
  intro hn
  cases h.symm.trans hn

theorem stopped_of_cursor (h : c.cursor = none) : c.Stopped := by
  intro _ k hk
  cases h.symm.trans hk

/-- What an advance can come to. The cursor is kept, but may have moved. -/
theorem advance_cases (c : Scan ε) (s : Session ε) :
    ∃ k : Option (Backend.Cursor ε), k.isSome = c.cursor.isSome ∧
      let c' := { c with current := none, cursor := k }
      (c.advance s = ((false, c'), s) ∧ c'.Stopped) ∨
      (c.failure = none ∧ ∃ err, c.context.check "advance" s.ambient = .error err ∧
        c.advance s = ((false, { c' with failure := some err }), s)) ∨
      (c.failure = none ∧ ∃ key source,
        c.advance s =
          ((false, { c' with failure := some (.decoding key source) }), s.reach .decode)) ∨
      (c.failure = none ∧
        ∃ p, c.advance s = ((true, { c' with current := some p }), s.reach .decode)) := by
  by_cases hf : c.failure = none
  · cases hk : c.cursor with
    | none => exact ⟨none, rfl, .inl ⟨hk ▸ advance_of_closed hk s, stopped_of_cursor rfl⟩⟩
    | some cursor =>
      rw [advance_of_open hf hk]
      dsimp only
      generalize skipForeign c.layout s.engine (Backend.remaining s.engine cursor) cursor = k
      cases hb : Backend.entry? k with
      | none =>
        refine ⟨some k, rfl, .inl ⟨rfl, ?_⟩⟩
        intro _ k' hk'
        obtain rfl := Option.some.inj hk'
        exact hb
      | some b =>
        dsimp only
        cases c.context.check "advance" s.ambient with
        | error err => exact ⟨some k, rfl, .inr (.inl ⟨hf, err, rfl, rfl⟩)⟩
        | ok u =>
          cases s.codec.decode b.2 with
          | error source => exact ⟨some k, rfl, .inr (.inr (.inl ⟨hf, _, source, rfl⟩))⟩
          | ok p => exact ⟨some (Backend.next s.engine k), rfl, .inr (.inr (.inr ⟨hf, p, rfl⟩))⟩
  · obtain ⟨err, hf⟩ := Option.ne_none_iff_exists'.mp hf
    exact ⟨c.cursor, rfl, .inl ⟨advance_of_failed hf s, stopped_of_failure hf⟩⟩

theorem advance_holdsAs (c : Scan ε) (s : Session ε) :
    (c.advance s).1.2.HoldsAs c ∧ (c.advance s).2.engine = s.engine := by
  obtain ⟨k, hk, ⟨h, -⟩ | ⟨-, err, -, h⟩ | ⟨-, key, source, h⟩ | ⟨-, p, h⟩⟩ := c.advance_cases s
  · rw [h]
    exact ⟨⟨rfl, hk⟩, rfl⟩
  · rw [h]
    exact ⟨⟨rfl, hk⟩, rfl⟩
  · rw [h]
    exact ⟨⟨rfl, hk⟩, Session.engine_reach .decode s⟩
  · rw [h]
    exact ⟨⟨rfl, hk⟩, Session.engine_reach .decode s⟩

section Drain

variable {β : Type} {visit : β → Peer → StateM (Session ε) β}

theorem drainWithin_succ (visit : β → Peer → StateM (Session ε) β) (fuel : Nat) (b : β)
    (c : Scan ε) (s : Session ε) :
    drainWithin visit (fuel + 1) b c s =
      let r := c.advance s
      match r.1.1, r.1.2.current with
      | true, some p =>
        let v := visit b p r.2
        drainWithin visit fuel v.1 r.1.2 v.2
      | _, _ => ((b, r.1.2), r.2) := by
  change (match (c.advance s).1.1, (c.advance s).1.2.current with
    | true, some p => do drainWithin visit fuel (← visit b p) (c.advance s).1.2
    | _, _ => pure (b, (c.advance s).1.2) : StateM (Session ε) _) (c.advance s).2 = _
  rcases c.advance s with ⟨⟨more, c'⟩, s'⟩
  dsimp only
  cases more with
  | false => rfl
  | true => cases c'.current <;> rfl

/-- A visit that leaves the engine alone. -/
def Spares (visit : β → Peer → StateM (Session ε) β) : Prop :=
  ∀ b p s, (visit b p s).2.engine = s.engine

theorem drainWithin_holdsAs (hv : Spares visit) (fuel : Nat) (b : β) (c : Scan ε)
    (s : Session ε) :
    let r := drainWithin visit fuel b c s
    r.1.2.HoldsAs c ∧ r.2.engine = s.engine := by
  induction fuel generalizing b c s with
  | zero => exact ⟨.refl c, rfl⟩
  | succ fuel ih =>
    obtain ⟨hc, he⟩ := c.advance_holdsAs s
    rw [drainWithin_succ]
    dsimp only
    split
    · rename_i p _ _
      obtain ⟨hc', he'⟩ := ih (visit b p (c.advance s).2).1 (c.advance s).1.2
        (visit b p (c.advance s).2).2
      exact ⟨hc'.trans hc, he'.trans ((hv b p _).trans he)⟩
    · exact ⟨hc, he⟩

theorem drain_holdsAs (hv : Spares visit) (b : β) (c : Scan ε) (s : Session ε) :
    let r := c.drain visit b s
    r.1.2.HoldsAs c ∧ r.2.engine = s.engine :=
  drainWithin_holdsAs hv _ b c s

theorem finish_eq (visit : β → Peer → StateM (Session ε) β) (b : β) (c : Scan ε)
    (s : Session ε) :
    c.finish visit b s =
      let r := c.drain visit b s
      let k := r.1.2.close r.2
      ((r.1.1, StoreError.append (r.1.2.failure.elim (.ok ()) .error) k.1.1), k.2) := by
  simp only [finish, bind, StateT.bind]
  rcases c.drain visit b s with ⟨⟨b', c'⟩, s'⟩
  dsimp only
  cases c'.failure <;> rfl

end Drain

/-- The outcome of releasing a resource. -/
def releasing (resource : String) (r : Except EngineError Unit) : Except StoreError Unit :=
  r.mapError fun source => .release resource source

theorem close_eq (c : Scan ε) (s : Session ε) :
    c.close s =
      let k := c.cursor.elim (.ok (), s.engine) fun cursor => Backend.closeCursor cursor s.engine
      let o := c.snapshot.elim (.ok (), k.2) fun snapshot => Backend.closeSnapshot snapshot k.2
      ((StoreError.append (releasing "iterator" k.1) (releasing "snapshot" o.1),
        { c with cursor := none, snapshot := none }), { s with engine := o.2 }) := by
  unfold close
  cases c.cursor with
  | none => cases c.snapshot <;> rfl
  | some cursor => cases c.snapshot <;> rfl

end Scan

namespace Store

theorem exec_iterate_eq (l : Layout) (ctx : Context) (s : Session ε) :
    (iterate l ctx).exec s =
      match ctx.check "iterate" s.ambient with
      | .error err => (.error err, s)
      | .ok () =>
        let o := Backend.openSnapshot s.engine
        match o.1 with
        | .error source =>
          (.error (.read "snapshot" (Quoted.showBytes l.recordLead) source),
            { s.reach .snapshot with engine := o.2 })
        | .ok snapshot =>
          let k := Backend.openCursor snapshot l.recordLead (Bytes.bound? l.recordLead) o.2
          let s' := { (s.reach .snapshot).reach .cursor with engine := k.2 }
          match k.1 with
          | .ok cursor => (.ok (.opened l ctx snapshot (Backend.first k.2 cursor)), s')
          | .error source =>
            let r := Backend.closeSnapshot snapshot k.2
            (StoreError.append
              (.error (.read "iterate" (Quoted.showBytes l.recordLead) source))
              (Scan.releasing "snapshot" r.1), { s' with engine := r.2 }) := by
  rw [iterate, exec_bind, exec_check]
  cases ctx.check "iterate" s.ambient with
  | error err => rfl
  | ok u =>
    dsimp only
    rw [exec_bind, exec_openSnapshot]
    cases (Backend.openSnapshot s.engine).1 with
    | error source => rfl
    | ok snapshot =>
      dsimp only [reading, Except.mapError]
      rw [exec_bind, exec_lift, Session.call_eq,
        Session.reach_withEngine .cursor (s.reach .snapshot)]
      cases (Backend.openCursor snapshot l.recordLead (Bytes.bound? l.recordLead)
        (Backend.openSnapshot s.engine).2).1 with
      | ok cursor => rfl
      | error source => rfl

theorem forEach_eq {β : Type} (l : Layout) (ctx : Context)
    (visit : β → Peer → StateM (Session ε) β) (b : β) (s : Session ε) :
    forEach l ctx visit b s =
      match (iterate l ctx).exec s with
      | (.ok c, s') => c.finish visit b s'
      | (.error err, s') => ((b, .error err), s') := by
  simp only [forEach, bind, StateT.bind, exec]
  rcases (iterate l ctx).run s with ⟨r, s'⟩
  cases r <;> rfl

end Store

end PeerBook
