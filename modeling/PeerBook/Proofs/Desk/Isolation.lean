import PeerBook.Proofs.Desk.Sound

/-! # Snapshot isolation

Whatever is committed, overwritten, pruned and released after a snapshot was
taken, it answers every key with the value that the engine had for it at that
moment.
-/

namespace PeerBook.Desk

variable {d : Desk}

theorem Sound.step (h : d.Sound) {a : Action} (hl : d.committed a ≠ none → d.engine.Lasts) :
    (d.step a).Sound := by
  obtain ⟨he, hv⟩ := h.engine_step hl
  cases a with
  | set key value => exact h.withMounted he (d.engine.pins_commit _ _ _) hv _
  | commit i =>
    obtain ⟨m, bs, hd, hm⟩ := d.commit_cases i
    have hp : m.engine.pins = d.engine.pins := by
      rcases hm with hm | ⟨ws, hm⟩
      · rw [hm]
      · rw [hm, Engine.pins_commit]
    rw [Desk.step, hd] at he hv ⊢
    exact h.withMounted he hp hv bs
  | sync => exact h.withMounted he (d.engine.pins_sync d.mounted.file) hv _
  | newBatch | put | tick | device => exact h.withMounted he rfl hv _
  | openSnapshot => exact h.openSnapshot
  | closeSnapshot i => exact h.closeSnapshot i
  | openCursor i lower upper => exact h.openCursor i lower upper
  | first i => exact h.move i Cursor.seq_first
  | next i => exact h.move i Cursor.seq_next
  | closeCursor i => exact h.closeCursor i

/-- No action changes what is read where a snapshot or a cursor stands. -/
theorem Sound.readAt_step (h : d.Sound) {a : Action} (hl : d.committed a ≠ none → d.engine.Lasts)
    {s : UInt64} (hs : 0 < d.holders s) (key : Bytes) :
    (d.step a).engine.table.readAt key s = d.engine.table.readAt key s := by
  have hfloor : d.engine.floor ≤ s := Engine.floor_le (h.pinned s ▸ hs)
  rcases d.committed_cases a with ⟨op, w, hc, he, -⟩ | ⟨-, w, pins, he, -⟩
  · have hlast : d.engine.Lasts := hl (by simp [hc])
    have hlt : s < d.engine.nextSeq := by
      rw [h.engine.nextSeq_eq]
      exact UInt64.lt_of_le_of_lt (h.visible s hs) hlast.lt_add_one
    rw [he]
    exact Engine.readAt_publish { d.engine with appender := w } op.writes key hfloor hlt
  · rw [he]

theorem commitsLast_append {as bs : List Action} :
    d.CommitsLast (as ++ bs) ↔ d.CommitsLast as ∧ (d.run as).CommitsLast bs := by
  induction as generalizing d with
  | nil => simp [CommitsLast, run]
  | cons a as ih =>
    simp only [List.cons_append, CommitsLast, ih, and_assoc]
    rfl

theorem Sound.run (h : d.Sound) {as : List Action} (hl : d.CommitsLast as) : (d.run as).Sound := by
  induction as generalizing d with
  | nil => exact h
  | cons a as ih => exact ih (h.step hl.1) hl.2

theorem snapshot?_step {i : Nat} {s : Snapshot} (hs : d.snapshot? i = some s) {a : Action}
    (ha : a ≠ .closeSnapshot i) : (d.step a).snapshot? i = some s := by
  cases a with
  | commit j =>
    obtain ⟨m, bs, he, -⟩ := d.commit_cases j
    exact (congrArg (fun d => d.snapshot? i) he).trans hs
  | openSnapshot => exact join_concat hs _
  | closeSnapshot j =>
    cases hj : d.snapshot? j with
    | none => simpa [step, closeSnapshot, hj] using hs
    | some s' =>
      have hne : j ≠ i := fun h => ha (h ▸ rfl)
      simp only [step, closeSnapshot_eq hj]
      exact join_set_of_ne hs hne _
  | openCursor | first | next | closeCursor =>
    simp only [step, openCursor, move, closeCursor]
    split <;> exact hs
  | set | newBatch | put | sync | tick | device => exact hs

theorem Sound.snapshot?_run (h : d.Sound) {as : List Action} (hl : d.CommitsLast as) {i : Nat}
    {s : Snapshot} (hs : d.snapshot? i = some s) (hc : .closeSnapshot i ∉ as) :
    (d.run as).snapshot? i = some s ∧
      ∀ key, (d.run as).engine.table.readAt key s.seq = d.engine.table.readAt key s.seq := by
  induction as generalizing d with
  | nil => exact ⟨hs, fun _ => rfl⟩
  | cons a as ih =>
    obtain ⟨ha, hc⟩ := not_or.mp (mt List.mem_cons.mpr hc)
    obtain ⟨hs', hr⟩ := ih (h.step hl.1) hl.2 (snapshot?_step hs (Ne.symm ha)) hc
    refine ⟨hs', fun key => (hr key).trans ?_⟩
    exact h.readAt_step hl.1 (holders_of_snapshot? hs) key

theorem snapshot?_openSnapshot (d : Desk) :
    d.openSnapshot.snapshot? d.snapshots.length = some ⟨d.engine.visible⟩ := by
  simp [openSnapshot, snapshot?, Mounted.openSnapshot, Engine.pinLatest, engine]

/-- A snapshot taken at any moment of any run answers, as long as it is not closed, every key with
what the engine had for it at that moment. -/
theorem get_eq_get_when_taken {m : Mounted} (hm : m.Opened) (as bs : List Action)
    (hl : (start m).CommitsLast (as ++ .openSnapshot :: bs)) :
    let taken := (start m).run as
    let now := taken.openSnapshot.run bs
    .closeSnapshot taken.snapshots.length ∉ bs →
      ∃ s, now.snapshot? taken.snapshots.length = some s ∧
        ∀ key, s.get key now.engine = taken.engine.get key := by
  intro taken now hc
  obtain ⟨hl, hl'⟩ := commitsLast_append.mp hl
  have ht : taken.Sound := (Sound.start hm).run hl
  obtain ⟨hs, hr⟩ := ht.openSnapshot.snapshot?_run hl'.2 (snapshot?_openSnapshot taken) hc
  refine ⟨_, hs, fun key => ?_⟩
  rw [Snapshot.get, hr key, ht.engine.get_eq]
  rfl

theorem get_eq_get_when_taken_overwritten :
    ∃ m, Mounted.load 1 .everyWrite 0 none = .ok m ∧
      let taken := (start m).run [.set [1] [10], .openSnapshot, .set [1] [11]]
      let now := taken.openSnapshot.run
        [.closeSnapshot 0, .set [1] [12], .newBatch, .put 0 [1] [13], .put 0 [2] [14], .commit 0,
          .openCursor 1 [] none, .first 0, .set [1] [15]]
      taken.engine.get [1] = some [11] ∧
        ∃ s, now.snapshot? 1 = some s ∧ s.get [1] now.engine = some [11] := by
  have hm : Mounted.load 1 .everyWrite 0 none =
      .ok ⟨⟨1, some (.start .everyWrite 0 .empty), .empty, 0, .empty⟩, .empty, 0⟩ := rfl
  refine ⟨_, hm, by decide +kernel, ?_⟩
  obtain ⟨s, hs, hg⟩ := get_eq_get_when_taken (.load hm)
    [.set [1] [10], .openSnapshot, .set [1] [11]]
    [.closeSnapshot 0, .set [1] [12], .newBatch, .put 0 [1] [13], .put 0 [2] [14], .commit 0,
      .openCursor 1 [] none, .first 0, .set [1] [15]]
    (by decide +kernel) (by decide +kernel)
  exact ⟨s, hs, (hg [1]).trans (by decide +kernel)⟩

end PeerBook.Desk
