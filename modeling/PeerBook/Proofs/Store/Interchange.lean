import PeerBook.Proofs.Engine.Reliable
import PeerBook.Proofs.Store.Abreast
import PeerBook.Proofs.Store.Outcome
import PeerBook.Proofs.Store.Read

/-! # The rehearsal engine in the place of an engine

An operation of a store ends alike on the rehearsal engine and on an engine
that holds the same, if the one is told to fail nowhere and what the other has
to log fits. The one copies what the other pins.
-/

namespace PeerBook

open Journal

/-- `h` with one more pin at `s`. -/
def pinned (h : UInt64 → Nat) (s : UInt64) : UInt64 → Nat :=
  fun t => h t + if s = t then 1 else 0

/-- The rehearsal is told to fail nowhere. -/
def Rehearsal.Faultless (r : Rehearsal) : Prop :=
  ∀ f ∈ r.faults, f = .ignoreBounds

theorem Rehearsal.Faultless.fails_eq {r : Rehearsal} (h : r.Faultless) {f : Fault}
    (hf : f ≠ .ignoreBounds) : r.fails f = false := by
  simpa [fails] using fun hm => hf (h f hm)

theorem Rehearsal.Faultless.guarded_eq {r : Rehearsal} (h : r.Faultless) {f : Fault}
    (hf : f ≠ .ignoreBounds) {α : Type} (what : String) (a : α) : r.guarded f what a = .ok a := by
  rw [guarded, h.fails_eq hf]
  rfl

variable {m₀ : Mounted} {h : UInt64 → Nat} {r : Rehearsal} {m : Mounted}

/-- Both engines hold what `m₀` holds, and nothing was committed to it since. At `t` there are
`h t` pins. -/
structure Still (m₀ : Mounted) (h : UInt64 → Nat) (r : Rehearsal) (m : Mounted) : Prop where
  faultless : r.Faultless
  get : ∀ key, r.data.find? key = m₀.engine.get key
  pins : ∃ p : Pins, m = { m₀ with engine := { m₀.engine with pins := p } } ∧ ∀ t, p.count t = h t

/-- Both engines hold what `m₀` held and what was written since, in one commit. -/
structure Wrote (m₀ : Mounted) (h : UInt64 → Nat) (ws : List Binding) (r : Rehearsal)
    (m : Mounted) : Prop where
  faultless : r.Faultless
  get : ∀ key, r.data.find? key = m.engine.get key
  reliable : m.IsReliable
  engine : ∃ a p,
    m.engine = { m₀.engine with appender := a, pins := p }.publish m₀.engine.nextSeq ws ∧
    (∀ w, a = some w → w.lsn = m₀.engine.nextSeq) ∧ ∀ t, Pins.count p t = h t

namespace Still

theorem backend_get (hs : Still m₀ h r m) (key : Bytes) :
    Backend.get r key = Backend.get m key := by
  obtain ⟨p, rfl, -⟩ := hs.pins
  refine (hs.faultless.guarded_eq (by simp) "get" _).trans ?_
  exact congrArg Except.ok (hs.get key)

theorem table_eq (hs : Still m₀ h r m) : m.engine.table = m₀.engine.table := by
  obtain ⟨p, rfl, -⟩ := hs.pins
  rfl

theorem congr (hs : Still m₀ h r m) {h' : UInt64 → Nat} (hh : ∀ t, h t = h' t) :
    Still m₀ h' r m :=
  funext hh ▸ hs

theorem pin (hs : Still m₀ h r m) (r' : Rehearsal) (hf : r'.faults = r.faults)
    (hd : r'.data = r.data) (s : UInt64) :
    Still m₀ (pinned h s) r' { m with engine := m.engine.pin s } := by
  obtain ⟨p, rfl, hp⟩ := hs.pins
  refine ⟨fun f hm => hs.faultless f (hf ▸ hm), hd ▸ hs.get, _, rfl, fun t => ?_⟩
  rw [Pins.count_pin, hp, pinned]

theorem unpin {s : UInt64} (hs : Still m₀ (pinned h s) r m) (r' : Rehearsal)
    (hf : r'.faults = r.faults) (hd : r'.data = r.data) : Still m₀ h r' (m.unpin s) := by
  obtain ⟨p, rfl, hp⟩ := hs.pins
  refine ⟨fun f hm => hs.faultless f (hf ▸ hm), hd ▸ hs.get, _, rfl, fun t => ?_⟩
  rw [Pins.count_unpin, hp, pinned, Nat.add_sub_cancel]

theorem openSnapshot (hs : Still m₀ h r m) :
    Backend.openSnapshot r = (.ok r.data, { r with snapshots := r.snapshots.opening }) ∧
      (Backend.openSnapshot m).1 = .ok ⟨m₀.engine.visible⟩ ∧
      Still m₀ (pinned h m₀.engine.visible) (Backend.openSnapshot r).2
        (Backend.openSnapshot m).2 := by
  have hr : Backend.openSnapshot r =
      (.ok r.data, { r with snapshots := r.snapshots.opening }) :=
    if_neg (by simp [hs.faultless.fails_eq])
  have hv : m.engine.visible = m₀.engine.visible := by
    obtain ⟨p, rfl, -⟩ := hs.pins
    rfl
  have hm : (Backend.openSnapshot m).1 = .ok ⟨m.engine.visible⟩ := rfl
  have hp := hs.pin { r with snapshots := r.snapshots.opening } rfl rfl m.engine.visible
  rw [hr, hm, ← hv]
  exact ⟨rfl, rfl, hp⟩

theorem openCursor (hs : Still m₀ h r m) (o : SortedMap Bytes Bytes) (o' : Snapshot)
    (lower : Bytes) (upper : Option Bytes) :
    Backend.openCursor (ε := Rehearsal) o lower upper r =
        (.ok ⟨r.range o lower upper, []⟩, { r with cursors := r.cursors.opening }) ∧
      (Backend.openCursor (ε := Mounted) o' lower upper m).1 =
        .ok (.start o'.seq m₀.engine.pageSize lower upper) ∧
      Still m₀ (pinned h o'.seq) (Backend.openCursor (ε := Rehearsal) o lower upper r).2
        (Backend.openCursor (ε := Mounted) o' lower upper m).2 := by
  have hr : Backend.openCursor (ε := Rehearsal) o lower upper r =
      (.ok ⟨r.range o lower upper, []⟩, { r with cursors := r.cursors.opening }) :=
    if_neg (by simp [hs.faultless.fails_eq])
  have hp := hs.pin { r with cursors := r.cursors.opening } rfl rfl o'.seq
  refine ⟨hr, ?_, ?_⟩
  · obtain ⟨p, rfl, -⟩ := hs.pins
    rfl
  · rw [hr]
    exact hp

theorem closeSnapshot {s : UInt64} (hs : Still m₀ (pinned h s) r m)
    (o : Backend.Snapshot Rehearsal) : (Backend.closeSnapshot o r).1 = .ok () ∧
      Still m₀ h (Backend.closeSnapshot o r).2 (m.unpin s) :=
  ⟨hs.faultless.guarded_eq (by simp) _ _, hs.unpin _ rfl rfl⟩

theorem closeCursor {s : UInt64} (hs : Still m₀ (pinned h s) r m) (k : Backend.Cursor Rehearsal) :
    (Backend.closeCursor k r).1 = .ok () ∧ Still m₀ h (Backend.closeCursor k r).2 (m.unpin s) :=
  ⟨hs.faultless.guarded_eq (by simp) _ _, hs.unpin _ rfl rfl⟩

theorem reliable (hs : Still m₀ h r m) (hr : m₀.IsReliable) : m.IsReliable := by
  obtain ⟨p, rfl, -⟩ := hs.pins
  exact Engine.IsReliable.congr hr rfl

theorem wrote (hs : Still m₀ h r m) {r' : Rehearsal} {m' : Mounted} {ws : List Binding}
    (hf : r'.faults = r.faults)
    (hd : ∀ key, r'.data.find? key = ((SortedMap.ofList ws).find? key).or (r.data.find? key))
    (hr : m'.IsReliable) {a : Option Appender}
    (he : m'.engine = { m.engine with appender := a }.publish m.engine.nextSeq ws)
    (ha : ∀ w, a = some w → w.lsn = m.engine.nextSeq) : Wrote m₀ h ws r' m' := by
  obtain ⟨p, rfl, hp⟩ := hs.pins
  refine ⟨fun f hm => hs.faultless f (hf ▸ hm), fun key => ?_, hr, a, p, he, ha, hp⟩
  rw [hd, hs.get, he, Engine.get_publish]
  rfl

end Still

namespace Store

variable {l : Layout}

theorem agree_present (op : String) (key : Bytes) {R : Rehearsal → Mounted → Prop}
    {b b' : Except EngineError (Option Bytes)} {r : Rehearsal} {m : Mounted}
    (hb : Same R b b' r m) :
    Agree R (Same R) (present (reading op key b)) (present (reading op key b')) r m :=
  agree_same.mpr ⟨by rw [hb.1], hb.2⟩

theorem find_abreast (ctx : Context) (i : Identity) :
    StoreM.Abreast (Still m₀ h) (Still m₀ h) (Same (Still m₀ h)) (find l ctx i)
      (find l ctx i) := by
  refine .bindSame (.check ctx "find") fun _ => .bindSame ?_ fun data => .decode l _ data
  exact .mk (.ask .get fun r m hs => ⟨hs.backend_get _, hs⟩) fun _ _ _ _ hb =>
    agree_present "get" _ hb

/-- A copied map and a pinned sequence number show what `m₀` holds. -/
structure Copies (m₀ : Mounted) (o : SortedMap Bytes Bytes) (o' : Snapshot) : Prop where
  seq : o'.seq = m₀.engine.visible
  find? : ∀ key, o.find? key = m₀.engine.table.readAt key m₀.engine.visible

variable {o : SortedMap Bytes Bytes} {o' : Snapshot}

theorem readPresent_abreast (ho : Copies m₀ o o') (key : Bytes) :
    StoreM.Abreast (Still m₀ h) (Still m₀ h) (Same (Still m₀ h))
      (readPresent (ε := Rehearsal) o key) (readPresent (ε := Mounted) o' key) := by
  refine .mk (.ask .read fun r m hs => ⟨?_, hs⟩) fun _ _ _ _ hb => agree_present "get" _ hb
  obtain ⟨p, rfl, -⟩ := hs.pins
  refine (hs.faultless.guarded_eq (by simp) "get" (o.find? key)).trans ?_
  rw [ho.find?, ← ho.seq]
  rfl

theorem follow_abreast (ho : Copies m₀ o o') (ctx : Context) (a : Bytes) :
    StoreM.Abreast (Still m₀ h) (Still m₀ h) (Same (Still m₀ h))
      (follow (ε := Rehearsal) l ctx o a) (follow (ε := Mounted) l ctx o' a) :=
  .bindSame (readPresent_abreast ho a) fun key => .bindSame (.check ctx "resolve") fun _ =>
    .bindSame (readPresent_abreast ho key) fun data => .decode l key data

theorem resolve_abreast (he : m₀.engine.Sound) (ctx : Context) (a : String) :
    StoreM.Abreast (Still m₀ h) (Still m₀ h) (Same (Still m₀ h)) (resolve l ctx a)
      (resolve l ctx a) := by
  refine .bindSame (.check ctx "resolve") fun _ => .bind
    (S := fun o o' r m => Copies m₀ o o' ∧ Still m₀ (pinned h m₀.engine.visible) r m) ?_
    fun o o' => ?_
  · refine .mk (T := fun b b' r m => ∃ o o', b = .ok o ∧ b' = .ok o' ∧ Copies m₀ o o' ∧
      Still m₀ (pinned h m₀.engine.visible) r m) (.call .snapshot fun r m hs => ?_) ?_
    · obtain ⟨hr, hm, hs'⟩ := hs.openSnapshot
      exact ⟨_, _, congrArg Prod.fst hr, hm,
        ⟨rfl, fun key => (hs.get key).trans (he.get_eq key)⟩, hs'⟩
    · rintro b b' r m ⟨o, o', rfl, rfl, ho⟩
      exact ho
  · refine PeerBook.Abreast.given fun ho => StoreM.Abreast.releasingSame
      (follow_abreast ho ctx (aliasKey a)) (.release "snapshot" fun r m hs => ?_)
    obtain ⟨hr, hs'⟩ := hs.closeSnapshot o
    refine ⟨hr, rfl, ?_⟩
    rw [← ho.seq] at hs'
    exact hs'

theorem commitEntries_abreast (hr : m₀.IsReliable) (ctx : Context) (key : Bytes)
    {ws : List Binding} (hw : ws ≠ []) (ho : (Operation.batch ws).Fits) :
    StoreM.Abreast (Still m₀ h) (Still m₀ h) (fun _ _ => Wrote m₀ h ws)
      (commitEntries (ε := Rehearsal) l ctx ([] : List Binding) key ws)
      (commitEntries (ε := Mounted) l ctx Batch.empty key ws) := by
  refine StoreM.abreast_iff.mpr fun s s' hs hl => ?_
  rw [exec_commitEntries, exec_commitEntries, hl.ambient]
  cases ctx.check "commit" s'.ambient with
  | error err => exact ⟨⟨rfl, hs⟩, hl⟩
  | ok u =>
    refine ⟨?_, (hl.reach .commit).withEngine _ _⟩
    have hc : Backend.commit (filled (ε := Rehearsal) ([] : List Binding) ws) s.engine =
        ((.ok (), []), { s.engine with
          data := Rehearsal.writeAll s.engine.data ws, commits := s.engine.commits + 1 }) := by
      rw [filled_rehearsal]
      exact if_neg (by simp [hs.faultless.fails_eq])
    obtain ⟨hm, hrel, a, he, ha⟩ := Mounted.commit_of_fits (hs.reliable hr) hw ho
    have hf : filled (ε := Mounted) Batch.empty ws = ⟨ws, false⟩ := filled_mounted .empty ws
    dsimp only
    rw [hc, hf]
    change Agree _ _ _ ((s'.engine.commit ⟨ws, false⟩).1.1.mapError _) _
      (s'.engine.commit ⟨ws, false⟩).2
    rw [hm]
    exact hs.wrote rfl (find?_writeAll s.engine.data ws) hrel he ha

/-- A batch that is closed after its commit takes nothing back. -/
theorem put_abreast (hr : m₀.IsReliable) (ctx : Context) (op : String) (aliases : List String)
    (p : Peer) (ho : (Operation.batch (entries (l.recordKey p.identity) p.encode aliases)).Fits) :
    StoreM.Abreast (Still m₀ h) (Still m₀ h)
      (fun _ _ => Wrote m₀ h (entries (l.recordKey p.identity) p.encode aliases))
      (put l ctx op aliases p) (put l ctx op aliases p) := by
  refine .bindSame (.check ctx op) fun _ => .bind
    (S := fun d d' r m => (d = p.encode ∧ d' = p.encode) ∧ Still m₀ h r m) ?_ fun d d' => ?_
  · refine .mk (.encode p) ?_
    rintro b _ r m ⟨rfl, hd, hs⟩
    cases b with
    | error source => exact ⟨rfl, hs⟩
    | ok data => exact ⟨⟨hd _ rfl, hd _ rfl⟩, hs⟩
  · refine PeerBook.Abreast.given ?_
    rintro ⟨rfl, rfl⟩
    refine StoreM.Abreast.bind
      (S := fun (b : List Binding) (b' : Batch) r m => (b = [] ∧ b' = .empty) ∧ Still m₀ h r m)
      (.lift (.call .batch fun r m hs => ⟨⟨rfl, rfl⟩, hs.faultless, hs.get, hs.pins⟩))
      fun b b' => ?_
    refine PeerBook.Abreast.given ?_
    rintro ⟨rfl, rfl⟩
    refine StoreM.Abreast.releasing (commitEntries_abreast hr ctx _ (List.cons_ne_nil _ _) ho)
      (.release "batch" fun r m hs => ?_) fun _ _ => .release "batch" fun r m hs => ?_
    · exact ⟨hs.faultless.guarded_eq (by simp) _ _, rfl, hs.faultless, hs.get, hs.pins⟩
    · exact ⟨hs.faultless.guarded_eq (by simp) _ _, rfl, hs.faultless, hs.get, hs.reliable,
        hs.engine⟩

theorem perform_abreast (hr : m₀.IsReliable) (c : Call)
    (ho : (Operation.batch (c.writes l)).Fits) :
    StoreM.Abreast (Still m₀ h) (Still m₀ h) (fun _ _ => Wrote m₀ h (c.writes l)) (c.perform l)
      (c.perform l) := by
  obtain ⟨ctx, p, extra⟩ := c
  cases extra with
  | none =>
    have hw : Call.writes l ⟨ctx, p, none⟩ =
        entries (l.recordKey p.identity) p.encode p.aliases := by
      simp [Call.writes, Call.aliases]
    rw [hw] at ho ⊢
    exact put_abreast hr ctx "add" p.aliases p ho
  | some a => exact put_abreast hr ctx "assign" (p.aliases ++ [a]) p ho

theorem set_abreast (hr : m₀.IsReliable) {key value : Bytes} (ho : (Operation.put key value).Fits) :
    PeerBook.Abreast (Still m₀ h) (fun a a' r m => a = a' ∧ Wrote m₀ h [(key, value)] r m)
      (Session.quietly (Backend.set (ε := Rehearsal) key value))
      (Session.quietly (Backend.set (ε := Mounted) key value)) := by
  refine .quietly fun r m hs => ?_
  obtain ⟨hm, hrel, a, he, ha⟩ := Mounted.set_of_fits (hs.reliable hr) ho
  exact ⟨hm.symm, hs.wrote rfl (find?_writeAll r.data [(key, value)]) hrel he ha⟩

end Store

end PeerBook
