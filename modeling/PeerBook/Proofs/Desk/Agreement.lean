import PeerBook.Proofs.Desk.Answers

/-! # Engines that cannot be told apart

Two engines in use agree if they hold the same, show the same to their
snapshots and have their cursors at the same positions of the same ranges.
They may log, page and prune differently. Whatever they are both asked, they
give the same answer and agree afterwards.
-/

namespace PeerBook.Desk

open Journal

variable {d v : Desk} {i : Nat} {a : Action}

theorem join_set_none {α : Type} (l : List (Option α)) (i : Nat) :
    (l.set i none)[i]?.join = none := by
  rw [List.getElem?_set, if_pos rfl]
  split <;> rfl

theorem snapshot?_of_step {s : Snapshot} (h : (d.step a).snapshot? i = some s) :
    d.snapshot? i = some s ∨ a = .openSnapshot ∧ s.seq = d.engine.visible := by
  cases a with
  | commit j =>
    obtain ⟨m, bs, he, -⟩ := d.commit_cases j
    simp only [step, he] at h
    exact .inl h
  | openSnapshot =>
    change (d.snapshots ++ [some ⟨d.engine.visible⟩])[i]?.join = some s at h
    rcases Nat.lt_or_ge i d.snapshots.length with hlt | hge
    · rw [List.getElem?_append_left hlt] at h
      exact .inl h
    · rw [List.getElem?_append_right hge, List.getElem?_singleton] at h
      split at h
      · obtain rfl := Option.some.inj h
        exact .inr ⟨rfl, rfl⟩
      · cases h
  | closeSnapshot j =>
    cases hj : d.snapshot? j with
    | none =>
      simp only [step, closeSnapshot, hj] at h
      exact .inl h
    | some s' =>
      simp only [step, closeSnapshot_eq hj] at h
      refine .inl ?_
      change (d.snapshots.set j none)[i]?.join = some s at h
      by_cases hji : j = i
      · rw [hji, join_set_none] at h
        cases h
      · rwa [List.getElem?_set_ne hji] at h
  | openCursor | first | next | closeCursor =>
    left
    simp only [step, openCursor, move, closeCursor] at h
    split at h <;> exact h
  | set | newBatch | put | sync | tick | device => exact .inl h

theorem cursor?_closeCursor (d : Desk) (i : Nat) : (d.step (.closeCursor i)).cursor? i = none := by
  cases hc : d.cursor? i with
  | none => simp only [step, closeCursor, hc]
  | some c =>
    simp only [step, closeCursor_eq hc]
    exact join_set_none _ _

theorem cursor?_step_of_none (h : d.cursor? i = none)
    (ho : ∀ j lower upper s, a = .openCursor j lower upper → d.snapshot? j = some s →
      i ≠ d.cursors.length) :
    (d.step a).cursor? i = none := by
  have hm (j : Nat) (o : Option Cursor) (hj : d.cursor? j ≠ none) :
      (d.cursors.set j o)[i]?.join = none := by
    have hne : j ≠ i := fun he => hj (he ▸ h)
    rw [List.getElem?_set_ne hne]
    exact h
  cases a with
  | commit j =>
    obtain ⟨m, bs, he, -⟩ := d.commit_cases j
    exact (congrArg (fun d => d.cursor? i) he).trans h
  | closeSnapshot j =>
    simp only [step, closeSnapshot]
    split <;> exact h
  | openCursor j lower upper =>
    cases hs : d.snapshot? j with
    | none => simpa [step, openCursor, hs] using h
    | some s =>
      have hi := ho j lower upper s rfl hs
      simp only [step, openCursor_eq hs]
      change (d.cursors ++ [some _])[i]?.join = none
      rcases Nat.lt_or_ge i d.cursors.length with hlt | hge
      · rw [List.getElem?_append_left hlt]
        exact h
      · rw [List.getElem?_eq_none (by rw [List.length_append, List.length_singleton]; omega)]
        rfl
  | first j | next j =>
    cases hj : d.cursor? j with
    | none => simpa [step, move, hj] using h
    | some c =>
      simp only [step, move_eq hj]
      exact hm j _ (by simp [hj])
  | closeCursor j =>
    cases hj : d.cursor? j with
    | none => simpa [step, closeCursor, hj] using h
    | some c =>
      simp only [step, closeCursor_eq hj]
      exact hm j _ (by simp [hj])
  | set | newBatch | put | openSnapshot | sync | tick | device => exact h

/-- Two cursors stand at the same position of the same range. -/
def Level (t t' : Table) (c c' : Cursor) : Prop :=
  ∃ entries position, c.Stands t entries position ∧ c'.Stands t' entries position

theorem Level.current_eq {t t' : Table} {c c' : Cursor} (h : Level t t' c c') :
    c.current = c'.current := by
  obtain ⟨entries, position, hs, hs'⟩ := h
  rw [hs.current, hs'.current]

structure Alike (d v : Desk) : Prop where
  sound : d.Sound
  sound' : v.Sound
  reliable : d.mounted.IsReliable
  reliable' : v.mounted.IsReliable
  visible : d.engine.visible = v.engine.visible
  get : ∀ key, d.engine.get key = v.engine.get key
  batches : d.batches = v.batches
  snapshots : d.snapshots = v.snapshots
  reads : ∀ i s, d.snapshot? i = some s → ∀ key, s.get key d.engine = s.get key v.engine
  places : d.cursors.length = v.cursors.length
  cursors : ∀ i, Option.Rel (Level d.engine.table v.engine.table) (d.cursor? i) (v.cursor? i)

namespace Alike

theorem snapshot?_eq (h : Alike d v) (i : Nat) : d.snapshot? i = v.snapshot? i := by
  rw [snapshot?, h.snapshots, snapshot?]

theorem entry_eq (h : Alike d v) (i : Nat) : d.entry i = v.entry i := by
  have hc := h.cursors i
  rw [entry, entry]
  generalize d.cursor? i = o, v.cursor? i = o' at hc
  cases hc with
  | some hl => exact congrArg Answer.entry hl.current_eq
  | none => rfl

theorem read_eq (h : Alike d v) (i : Nat) (key : Bytes) : d.read i key = v.read i key := by
  rw [read, read, ← h.snapshot?_eq]
  cases hs : d.snapshot? i with
  | none => rfl
  | some s => exact congrArg Answer.value (h.reads i s hs key)

theorem attempted_eq (h : Alike d v) (a : Action) : d.attempted a = v.attempted a := by
  cases a with
  | commit i => simp only [attempted, h.batches]
  | _ => rfl

theorem batches_step (h : Alike d v) (a : Action) : (d.step a).batches = (v.step a).batches := by
  have hb (m m' : Mounted) (b : Batch) : (m.commit b).1.2 = (m'.commit b).1.2 := by
    simp only [Mounted.commit, Batch.commit]
    by_cases hc : b.committed
    · simp [hc]
    · by_cases hw : b.writes.isEmpty
      · simp [hc, hw]
      · simp [hc, hw]
  cases a with
  | newBatch => exact congrArg (· ++ [.empty]) h.batches
  | put i key value => exact congrArg (·.modify i (·.put key value)) h.batches
  | commit i =>
    simp only [step, commit, ← h.batches]
    cases hi : d.batches[i]? with
    | none => exact h.batches
    | some b => simp only [hb d.mounted v.mounted b]
  | closeSnapshot | openCursor | closeCursor | first | next =>
    simp only [step, closeSnapshot, openCursor, closeCursor, move]
    split <;> split <;> exact h.batches
  | set | openSnapshot | sync | tick | device => exact h.batches

theorem snapshots_step (h : Alike d v) (a : Action) :
    (d.step a).snapshots = (v.step a).snapshots := by
  cases a with
  | openSnapshot =>
    change d.snapshots ++ [some ⟨d.engine.visible⟩] = v.snapshots ++ [some ⟨v.engine.visible⟩]
    rw [h.snapshots, h.visible]
  | closeSnapshot i =>
    simp only [step, closeSnapshot, ← h.snapshot?_eq]
    cases d.snapshot? i with
    | none => exact h.snapshots
    | some s => exact congrArg (·.set i none) h.snapshots
  | commit i =>
    simp only [step, commit]
    split <;> split <;> exact h.snapshots
  | openCursor | closeCursor | first | next =>
    simp only [step, openCursor, closeCursor, move]
    split <;> split <;> exact h.snapshots
  | set | newBatch | put | sync | tick | device => exact h.snapshots

theorem committed_eq (h : Alike d v) (ho : ∀ o, d.attempted a = some o → o.Fits)
    (ha : a.sparesDevice = true) : d.committed a = v.committed a := by
  rw [(commit_of_fits h.reliable ho ha).1, h.attempted_eq]
  exact (commit_of_fits h.reliable' (h.attempted_eq a ▸ ho) ha).1.symm

theorem get_step (h : Alike d v) (hc : d.committed a = v.committed a) :
    (d.step a).engine.visible = (v.step a).engine.visible ∧
      ∀ key, (d.step a).engine.get key = (v.step a).engine.get key := by
  rcases d.committed_cases a with ⟨o, w, hd, he, -⟩ | ⟨hd, w, p, he, -⟩
  · rcases v.committed_cases a with ⟨o', w', hv, he', -⟩ | ⟨hv, -⟩
    · obtain rfl := Option.some.inj (hd.symm.trans (hc.trans hv))
      rw [he, he']
      refine ⟨?_, fun key => ?_⟩
      · rw [h.sound.engine.nextSeq_eq, h.sound'.engine.nextSeq_eq, h.visible]
        rfl
      · rw [Engine.get_publish, Engine.get_publish]
        exact congrArg _ (h.get key)
    · cases hd.symm.trans (hc.trans hv)
  · rcases v.committed_cases a with ⟨o', w', hv, he', -⟩ | ⟨hv, w', p', he', -⟩
    · cases hv.symm.trans (hc.symm.trans hd)
    · rw [he, he']
      exact ⟨h.visible, h.get⟩

/-- What an open snapshot shows stays, and a new one shows what the engine holds. -/
theorem reads_step (h : Alike d v) (hd : d.committed a ≠ none → d.engine.Lasts)
    (hv : v.committed a ≠ none → v.engine.Lasts) {s : Snapshot}
    (hs : (d.step a).snapshot? i = some s) (key : Bytes) :
    s.get key (d.step a).engine = s.get key (v.step a).engine := by
  rcases snapshot?_of_step hs with hs | ⟨rfl, hseq⟩
  · have hr := h.sound.readAt_step hd (holders_of_snapshot? hs) key
    have hr' := h.sound'.readAt_step hv (holders_of_snapshot? (h.snapshot?_eq i ▸ hs)) key
    rw [Snapshot.get, Snapshot.get, hr, hr']
    exact h.reads i s hs key
  · have hg := h.get key
    rw [h.sound.engine.get_eq, h.sound'.engine.get_eq, ← h.visible, ← hseq] at hg
    exact hg

theorem range_eq (h : Alike d v) {s : Snapshot} (hs : d.snapshot? i = some s) (lower : Bytes)
    (upper : Option Bytes) :
    d.engine.table.range s.seq lower upper = v.engine.table.range s.seq lower upper :=
  Table.range_congr (h.reads i s hs) lower upper

theorem cursors_step (h : Alike d v) (hd : d.committed a ≠ none → d.engine.Lasts)
    (hv : v.committed a ≠ none → v.engine.Lasts) (i : Nat) :
    Option.Rel (Level (d.step a).engine.table (v.step a).engine.table) ((d.step a).cursor? i)
      ((v.step a).cursor? i) := by
  by_cases hx : a = .closeCursor i
  · subst hx
    rw [cursor?_closeCursor, cursor?_closeCursor]
    exact .none
  have hi := h.cursors i
  cases hc : d.cursor? i with
  | some c =>
    cases hc' : v.cursor? i with
    | none =>
      rw [hc, hc'] at hi
      cases hi
    | some c' =>
      rw [hc, hc'] at hi
      obtain ⟨entries, p, hs, hs'⟩ := Option.rel_some_some.mp hi
      obtain ⟨c₁, hc₁, hs₁⟩ := h.sound.stands_step hd hc hs hx
      obtain ⟨c₂, hc₂, hs₂⟩ := h.sound'.stands_step hv hc' hs' hx
      rw [hc₁, hc₂]
      exact .some ⟨entries, _, hs₁, hs₂⟩
  | none =>
    have hc' : v.cursor? i = none := by
      rw [hc] at hi
      generalize v.cursor? i = o at hi
      cases hi
      rfl
    by_cases ho : ∃ j lower upper s, a = .openCursor j lower upper ∧ d.snapshot? j = some s ∧
        i = d.cursors.length
    · obtain ⟨j, lower, upper, s, rfl, hs, rfl⟩ := ho
      have hs' : v.snapshot? j = some s := h.snapshot?_eq j ▸ hs
      have hc₁ := cursor?_openCursor hs lower upper
      have hc₂ := cursor?_openCursor hs' lower upper
      rw [← h.places] at hc₂
      rw [step, step, hc₁, hc₂]
      refine .some ⟨_, none, h.sound.stands_openCursor hs lower upper, ?_⟩
      exact h.range_eq hs lower upper ▸ h.sound'.stands_openCursor hs' lower upper
    · rw [cursor?_step_of_none hc, cursor?_step_of_none hc']
      · exact .none
      · rintro j lower upper s rfl hs rfl
        exact ho ⟨j, lower, upper, s, rfl, (h.snapshot?_eq j).trans hs, h.places.symm⟩
      · rintro j lower upper s rfl hs rfl
        exact ho ⟨j, lower, upper, s, rfl, hs, rfl⟩

theorem places_step (h : Alike d v) (a : Action) :
    (d.step a).cursors.length = (v.step a).cursors.length := by
  have hn (l : List (Option Cursor)) (o : Option Cursor) : (l ++ [o]).length = l.length + 1 := by
    rw [List.length_append, List.length_singleton]
  cases a with
  | openCursor j lower upper =>
    simp only [Desk.step, openCursor, ← h.snapshot?_eq]
    cases d.snapshot? j with
    | none => exact h.places
    | some s => exact (hn _ _).trans ((congrArg (· + 1) h.places).trans (hn _ _).symm)
  | first | next | closeCursor =>
    simp only [Desk.step, move, closeCursor]
    split <;> split <;> simp only [List.length_set, h.places]
  | commit | closeSnapshot =>
    simp only [Desk.step, commit, closeSnapshot]
    split <;> split <;> exact h.places
  | set | newBatch | put | openSnapshot | sync | tick | device => exact h.places

theorem step (h : Alike d v) (hd : d.committed a ≠ none → d.engine.Lasts)
    (ho : ∀ o, d.attempted a = some o → o.Fits) (ha : a.sparesDevice = true) :
    Alike (d.step a) (v.step a) := by
  have hc : d.committed a = v.committed a := h.committed_eq ho ha
  have hv : v.committed a ≠ none → v.engine.Lasts := by
    rwa [Engine.Lasts, ← h.visible, ← hc]
  obtain ⟨hseq, hget⟩ := h.get_step hc
  exact {
    sound := h.sound.step hd
    sound' := h.sound'.step hv
    reliable := (commit_of_fits h.reliable ho ha).2
    reliable' := (commit_of_fits h.reliable' (h.attempted_eq a ▸ ho) ha).2
    visible := hseq
    get := hget
    batches := h.batches_step a
    snapshots := h.snapshots_step a
    reads := fun i s hs => h.reads_step hd hv hs
    places := h.places_step a
    cursors := h.cursors_step hd hv }

theorem answer_eq (h : Alike d v) {r : Request} (hr : d.Admits r) : d.answer r = v.answer r := by
  cases r with
  | act a =>
    obtain ⟨hl, ho, ha⟩ := hr
    have ho' : ∀ o ∈ v.attempted a, o.Fits := h.attempted_eq a ▸ ho
    cases a with
    | set key value =>
      exact congrArg Answer.ofResult
        ((Mounted.set_of_fits h.reliable (ho _ rfl)).1.trans
          (Mounted.set_of_fits h.reliable' (ho _ rfl)).1.symm)
    | commit i =>
      simp only [answer, attempted, ← h.batches] at ho ⊢
      cases hb : d.batches[i]? with
      | none => rfl
      | some b =>
        simp only [hb, Option.bind_some] at ho
        refine congrArg Answer.ofResult ?_
        by_cases hi : (b.committed || b.writes.isEmpty) = true
        · rw [Mounted.commit_of_idle _ hi, Mounted.commit_of_idle _ hi]
        · obtain ⟨ws, c⟩ := b
          obtain ⟨rfl, hw⟩ : c = false ∧ ws ≠ [] := by simpa using hi
          have hf : (Operation.batch ws).Fits := ho _ (if_neg hi)
          rw [(Mounted.commit_of_fits h.reliable hw hf).1,
            (Mounted.commit_of_fits h.reliable' hw hf).1]
    | openSnapshot => exact congrArg Answer.sequence h.visible
    | first i => exact (h.step hl ho ha).entry_eq i
    | next i => exact (h.step hl ho ha).entry_eq i
    | sync =>
      exact congrArg Answer.ofResult
        ((Engine.sync_of_isReliable h.reliable).1.trans
          (Engine.sync_of_isReliable h.reliable').1.symm)
    | newBatch | put | closeSnapshot | openCursor | closeCursor | tick | device => rfl
  | get key => exact congrArg Answer.value (h.get key)
  | read i key => exact h.read_eq i key
  | entry i => exact h.entry_eq i
  | length i => simp only [answer, h.batches]
  | lastSequence => exact congrArg Answer.sequence h.visible

theorem after (h : Alike d v) {r : Request} (hr : d.Admits r) : Alike (d.after r) (v.after r) := by
  cases r with
  | act a => exact h.step hr.1 hr.2.1 hr.2.2
  | get | read | entry | length | lastSequence => exact h

theorem admits_iff (h : Alike d v) (r : Request) : d.Admits r ↔ v.Admits r := by
  cases r with
  | act a =>
    simp only [Admits, ← h.attempted_eq]
    refine and_congr_left ?_
    rintro ⟨ho, ha⟩
    rw [h.committed_eq ho ha, Engine.Lasts, Engine.Lasts, h.visible]
  | get | read | entry | length | lastSequence => exact .rfl

theorem answers_eq (h : Alike d v) {rs : List Request} (hr : v.AdmitsAll rs) :
    d.answers rs = v.answers rs := by
  induction rs generalizing d v with
  | nil => rfl
  | cons r rs ih =>
    have hd := (h.admits_iff r).mpr hr.1
    rw [answers, answers, h.answer_eq hd, ih (h.after hd) hr.2]

theorem run (h : Alike d v) {rs : List Request} (hr : v.AdmitsAll rs) :
    Alike (d.runRequests rs) (v.runRequests rs) := by
  induction rs generalizing d v with
  | nil => exact h
  | cons r rs ih => exact ih (h.after ((h.admits_iff r).mpr hr.1)) hr.2

end Alike

end PeerBook.Desk
