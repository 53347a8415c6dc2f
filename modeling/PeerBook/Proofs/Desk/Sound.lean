import PeerBook.Proofs.Desk.Basic
import PeerBook.Proofs.Engine.Cursor

/-! # Sound desks

On every desk that a run reaches the engine is sound, the pins at a sequence
number are as many as the snapshots and cursors open at it, and none stands
above the last commit. So no action changes what is read where one stands.
-/

namespace PeerBook

open Journal

namespace Engine

variable {e : Engine}

theorem exists_sync_eq (e : Engine) (f : LogFile) :
    ∃ w, (e.sync f).2 = { e with appender := w } ∧ w.map (·.lsn) = e.appender.map (·.lsn) := by
  obtain ⟨pageSize, appender, table, visible, pins⟩ := e
  cases appender with
  | none => exact ⟨none, rfl, rfl⟩
  | some w =>
    refine ⟨some (w.sync f).2, rfl, ?_⟩
    unfold Appender.sync
    dsimp only
    split <;> rfl

theorem pins_sync (e : Engine) (f : LogFile) : (e.sync f).2.pins = e.pins := by
  obtain ⟨w, hs, -⟩ := e.exists_sync_eq f
  rw [hs]

end Engine

namespace Desk

section Places

variable {α : Type} {seq : α → UInt64} {l : List (Option α)} {i : Nat} {a a' : α}

theorem standing_concat (seq : α → UInt64) (l : List (Option α)) (a : α) (s : UInt64) :
    standing seq (l ++ [some a]) s = standing seq l s + if seq a = s then 1 else 0 := by
  simp [standing, List.countP_append, List.countP_singleton]

theorem standing_pos (h : l[i]?.join = some a) : 0 < standing seq l (seq a) :=
  List.countP_pos_iff.mpr ⟨some a, List.mem_of_getElem? (Option.join_eq_some_iff.mp h),
    decide_eq_true rfl⟩

theorem standing_set (h : l[i]?.join = some a) (o : Option α) (s : UInt64) :
    standing seq (l.set i o) s + (if seq a = s then 1 else 0) =
      standing seq l s + if o.any (seq · = s) then 1 else 0 := by
  obtain ⟨hi, hl⟩ := List.getElem?_eq_some_iff.mp (Option.join_eq_some_iff.mp h)
  have hc : seq a = s → 0 < standing seq l s := fun hs => hs ▸ standing_pos h
  unfold standing at hc ⊢
  rw [List.countP_set hi, hl]
  simp only [Option.any_some, decide_eq_true_eq]
  split
  · rename_i hs
    have := hc hs
    omega
  · omega

theorem join_concat (h : l[i]?.join = some a) (o : Option α) : (l ++ [o])[i]?.join = some a := by
  have hi := Option.join_eq_some_iff.mp h
  rw [List.getElem?_append_left (List.getElem?_eq_some_iff.mp hi).1, h]

theorem join_set_of_ne {j : Nat} (h : l[i]?.join = some a) (hne : j ≠ i) (o : Option α) :
    (l.set j o)[i]?.join = some a := by
  rw [List.getElem?_set_ne hne, h]

end Places

variable {d : Desk}

structure Sound (d : Desk) : Prop where
  engine : d.engine.Sound
  pinned : ∀ s, d.engine.pins.count s = d.holders s
  visible : ∀ s, 0 < d.holders s → s ≤ d.engine.visible

theorem Sound.start {m : Mounted} (h : m.Opened) : (start m).Sound := by
  have hm := h.sound
  refine ⟨hm.1, fun s => ?_, fun s hs => ?_⟩
  · rw [show (Desk.start m).engine.pins = .empty from hm.2]
    rfl
  · simp [Desk.start, holders, standing] at hs

theorem Sound.withMounted (h : d.Sound) {m : Mounted} (hm : m.engine.Sound)
    (hp : m.engine.pins = d.engine.pins) (hv : d.engine.visible ≤ m.engine.visible)
    (bs : List Batch) : Sound { d with mounted := m, batches := bs } where
  engine := hm
  pinned s := by
    rw [show (Desk.engine { d with mounted := m, batches := bs }).pins = d.engine.pins from hp]
    exact h.pinned s
  visible s hs := UInt64.le_trans (h.visible s hs) hv

theorem Sound.withPins (h : d.Sound) {d' : Desk} {p : Pins}
    (he : d'.engine = { d.engine with pins := p }) (hp : ∀ s, p.count s = d'.holders s)
    (hv : ∀ s, 0 < d'.holders s → 0 < d.holders s ∨ s = d.engine.visible) : d'.Sound where
  engine := he ▸ h.engine.withPins p
  pinned s := by
    rw [he]
    exact hp s
  visible s hs := by
    rw [he]
    rcases hv s hs with hs | rfl
    · exact h.visible s hs
    · exact UInt64.le_refl _

theorem holders_of_snapshot? {i : Nat} {s : Snapshot} (hs : d.snapshot? i = some s) :
    0 < d.holders s.seq :=
  Nat.lt_of_lt_of_le (standing_pos hs) (Nat.le_add_right _ _)

theorem holders_of_cursor? {i : Nat} {c : Cursor} (hc : d.cursor? i = some c) :
    0 < d.holders c.seq :=
  Nat.lt_of_lt_of_le (standing_pos hc) (Nat.le_add_left _ _)

theorem openCursor_eq {i : Nat} {o : Snapshot} (ho : d.snapshot? i = some o) (lower : Bytes)
    (upper : Option Bytes) :
    d.openCursor i lower upper =
      { d with
        mounted := { d.mounted with engine := d.engine.pin o.seq }
        cursors := d.cursors ++ [some (.start o.seq d.engine.pageSize lower upper)] } := by
  simp [openCursor, ho, Mounted.openCursor, engine]

theorem closeSnapshot_eq {i : Nat} {o : Snapshot} (ho : d.snapshot? i = some o) :
    d.closeSnapshot i =
      { d with
        mounted := { d.mounted with engine := d.engine.unpin o.seq }
        snapshots := d.snapshots.set i none } := by
  simp [closeSnapshot, ho, Mounted.unpin, engine]

theorem closeCursor_eq {i : Nat} {c : Cursor} (hc : d.cursor? i = some c) :
    d.closeCursor i =
      { d with
        mounted := { d.mounted with engine := d.engine.unpin c.seq }
        cursors := d.cursors.set i none } := by
  simp [closeCursor, hc, Mounted.unpin, engine]

theorem move_eq {i : Nat} {c : Cursor} (hc : d.cursor? i = some c)
    (f : Table → Cursor → Cursor) :
    d.move i f = { d with cursors := d.cursors.set i (some (f d.engine.table c)) } := by
  simp [move, hc]

theorem Sound.openSnapshot (h : d.Sound) : d.openSnapshot.Sound := by
  have hh : ∀ s, d.openSnapshot.holders s =
      d.holders s + if d.engine.visible = s then 1 else 0 := by
    intro s
    have hc := standing_concat Snapshot.seq d.snapshots ⟨d.engine.visible⟩ s
    change standing _ (d.snapshots ++ [some ⟨d.engine.visible⟩]) s + standing _ d.cursors s = _
    rw [hc, holders]
    dsimp only
    omega
  refine h.withPins (p := d.engine.pins.pin d.engine.visible) rfl (fun s => ?_) (fun s hs => ?_)
  · rw [Pins.count_pin, hh, h.pinned]
  · rw [hh] at hs
    split at hs
    · rename_i hs'
      exact .inr hs'.symm
    · exact .inl hs

theorem Sound.closeSnapshot (h : d.Sound) (i : Nat) : (d.closeSnapshot i).Sound := by
  cases ho : d.snapshot? i with
  | none => simpa [Desk.closeSnapshot, ho] using h
  | some o =>
    rw [closeSnapshot_eq ho]
    have hh : ∀ s, standing Snapshot.seq (d.snapshots.set i none) s +
        (if o.seq = s then 1 else 0) = standing Snapshot.seq d.snapshots s :=
      fun s => standing_set ho none s
    refine h.withPins (p := d.engine.pins.unpin o.seq) rfl (fun s => ?_) (fun s hs => .inl ?_)
    · have hs := hh s
      simp only [Pins.count_unpin, h.pinned, holders]
      omega
    · have hs' := hh s
      simp only [holders] at hs ⊢
      omega

theorem Sound.openCursor (h : d.Sound) (i : Nat) (lower : Bytes) (upper : Option Bytes) :
    (d.openCursor i lower upper).Sound := by
  cases ho : d.snapshot? i with
  | none => simpa [Desk.openCursor, ho] using h
  | some o =>
    rw [openCursor_eq ho]
    have hh := standing_concat Cursor.seq d.cursors (.start o.seq d.engine.pageSize lower upper)
    refine h.withPins (p := d.engine.pins.pin o.seq) rfl (fun s => ?_) (fun s hs => .inl ?_)
    · rw [Pins.count_pin, h.pinned, holders, holders, hh, ← Nat.add_assoc]
      rfl
    · simp only [holders, hh] at hs
      change 0 < _ + (_ + if o.seq = s then 1 else 0) at hs
      by_cases hs' : o.seq = s
      · exact hs' ▸ holders_of_snapshot? ho
      · simpa [hs', holders] using hs

theorem Sound.closeCursor (h : d.Sound) (i : Nat) : (d.closeCursor i).Sound := by
  cases hc : d.cursor? i with
  | none => simpa [Desk.closeCursor, hc] using h
  | some c =>
    rw [closeCursor_eq hc]
    have hh : ∀ s, standing Cursor.seq (d.cursors.set i none) s +
        (if c.seq = s then 1 else 0) = standing Cursor.seq d.cursors s :=
      fun s => standing_set hc none s
    refine h.withPins (p := d.engine.pins.unpin c.seq) rfl (fun s => ?_) (fun s hs => .inl ?_)
    · have hs := hh s
      simp only [Pins.count_unpin, h.pinned, holders]
      omega
    · have hs' := hh s
      simp only [holders] at hs ⊢
      omega

theorem Sound.move (h : d.Sound) (i : Nat) {f : Table → Cursor → Cursor}
    (hf : ∀ t c, (f t c).seq = c.seq) : (d.move i f).Sound := by
  cases hc : d.cursor? i with
  | none => simpa [Desk.move, hc] using h
  | some c =>
    rw [move_eq hc]
    have hh : ∀ s, standing Cursor.seq (d.cursors.set i (some (f d.engine.table c))) s =
        standing Cursor.seq d.cursors s := by
      intro s
      have hs : standing Cursor.seq (d.cursors.set i (some (f d.engine.table c))) s + _ = _ :=
        standing_set hc _ s
      simp only [Option.any_some, hf, decide_eq_true_eq] at hs
      omega
    refine h.withPins (p := d.engine.pins) rfl (fun s => ?_) (fun s hs => .inl ?_)
    · rw [h.pinned, holders, holders, hh]
    · simpa only [holders, hh] using hs

theorem step_of_isQuiet (d : Desk) {a : Action} (ha : a.isQuiet = true) :
    ∃ p, (d.step a).engine = { d.engine with pins := p } ∧
      (d.step a).mounted.file.bytes = d.mounted.file.bytes := by
  cases a with
  | set | commit | sync => cases ha
  | closeSnapshot | openCursor | closeCursor | first | next =>
    simp only [step, closeSnapshot, openCursor, closeCursor, move]
    split <;> exact ⟨_, rfl, rfl⟩
  | newBatch | put | openSnapshot | tick | device => exact ⟨_, rfl, rfl⟩

theorem engine_commit (b : Batch) (m : Mounted) :
    (m.commit b).2.engine = m.engine ∨
      (m.commit b).2.engine = (m.engine.commit m.clock (.batch b.writes) m.file).2.1 := by
  by_cases hc : b.committed
  · simp [Mounted.commit, Batch.commit, hc]
  · by_cases hw : b.writes.isEmpty
    · simp [Mounted.commit, Batch.commit, hc, hw]
    · simp [Mounted.commit, Batch.commit, hc, hw]

theorem commit_cases (d : Desk) (i : Nat) :
    ∃ m bs, d.commit i = { d with mounted := m, batches := bs } ∧
      (m.engine = d.engine ∨ ∃ ws, m.engine =
        (d.engine.commit d.mounted.clock (.batch ws) d.mounted.file).2.1) := by
  unfold Desk.commit
  cases d.batches[i]? with
  | none => exact ⟨_, _, rfl, .inl rfl⟩
  | some b => exact ⟨_, _, rfl, (engine_commit b d.mounted).imp_right fun h => ⟨b.writes, h⟩⟩

theorem commit_eq_ok_of_committed {i : Nat} {b : Batch} (hb : d.batches[i]? = some b)
    (h : d.committed (.commit i) ≠ none) : (d.mounted.commit b).1.1 = .ok () := by
  rw [committed, hb] at h
  cases hr : (d.mounted.commit b).1.1 with
  | ok u => rfl
  | error err => simp [hr] at h

/-- An action commits an operation and publishes it, or it changes nothing of the engine but its
pins and how far its log is forced to disk. -/
theorem committed_cases (d : Desk) (a : Action) :
    (∃ op w, d.committed a = some op ∧
      (d.step a).engine = { d.engine with appender := w }.publish d.engine.nextSeq op.writes ∧
      ∀ w', w = some w' → w'.lsn = d.engine.nextSeq) ∨
    (d.committed a = none ∧
      ∃ w pins, (d.step a).engine = { d.engine with appender := w, pins := pins } ∧
        w.map (·.lsn) = d.engine.appender.map (·.lsn)) := by
  have hq {a : Action} (ha : a.isQuiet = true) (hc : d.committed a = none) :
      d.committed a = none ∧
        ∃ w pins, (d.step a).engine = { d.engine with appender := w, pins := pins } ∧
          w.map (·.lsn) = d.engine.appender.map (·.lsn) := by
    obtain ⟨p, he, -⟩ := d.step_of_isQuiet ha
    exact ⟨hc, d.engine.appender, p, he, rfl⟩
  cases a with
  | set key value =>
    simp only [committed, step, engine, Mounted.set]
    rcases d.mounted.engine.commit_cases d.mounted.clock (.put key value) d.mounted.file with
      ⟨w, f, hk, hl⟩ | ⟨err, w, f, hk, hl⟩
    · rw [hk]
      exact .inl ⟨_, w, rfl, rfl, hl⟩
    · rw [hk]
      exact .inr ⟨rfl, w, d.mounted.engine.pins, rfl, hl⟩
  | commit i =>
    have hn : ∃ w pins, d.engine = { d.engine with appender := w, pins := pins } ∧
        w.map (·.lsn) = d.engine.appender.map (·.lsn) :=
      ⟨_, _, rfl, rfl⟩
    simp only [committed, step, Desk.commit, engine] at hn ⊢
    cases d.batches[i]? with
    | none => exact .inr ⟨rfl, hn⟩
    | some b =>
      simp only [Mounted.commit, Batch.commit]
      by_cases hc : b.committed
      · simpa [hc] using hn
      · by_cases hw : b.writes.isEmpty
        · simpa [hc, hw] using hn
        · rcases d.mounted.engine.commit_cases d.mounted.clock (.batch b.writes) d.mounted.file with
            ⟨w, f, hk, hl⟩ | ⟨err, w, f, hk, hl⟩
          · simp only [hc, hw, hk]
            exact .inl ⟨_, w, rfl, rfl, hl⟩
          · simp only [hc, hw, hk]
            exact .inr ⟨rfl, w, d.mounted.engine.pins, rfl, hl⟩
  | sync =>
    obtain ⟨w, hs, hl⟩ := d.engine.exists_sync_eq d.mounted.file
    exact .inr ⟨rfl, w, d.engine.pins, hs, hl⟩
  | newBatch | put | openSnapshot | closeSnapshot | openCursor | first | next | closeCursor | tick
  | device => exact .inr (hq rfl rfl)

theorem Sound.engine_step (h : d.Sound) {a : Action}
    (hl : d.committed a ≠ none → d.engine.Lasts) :
    (d.step a).engine.Sound ∧ d.engine.visible ≤ (d.step a).engine.visible := by
  rcases d.committed_cases a with ⟨op, w, hc, he, hw⟩ | ⟨hc, w, p, he, hw⟩
  · have hl : d.engine.Lasts := hl (by simp [hc])
    rw [he]
    rw [h.engine.nextSeq_eq] at hw ⊢
    exact ⟨h.engine.publish hl hw _, UInt64.le_of_lt hl.lt_add_one⟩
  · rw [he]
    exact ⟨(h.engine.appender (h.engine.lsn_eq hw)).withPins p, UInt64.le_refl _⟩

end Desk

end PeerBook
