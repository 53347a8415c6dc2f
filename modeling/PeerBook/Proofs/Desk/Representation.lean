import Mathlib.Algebra.BigOperators.Group.List.Lemmas
import PeerBook.Proofs.Desk.Contents

/-! # What an engine keeps of its versions and pins

Four things change in different actions: the chains, the last sequence number,
the log's and the pins. After any run they fit together: the chains are in
order up to the last number, the log goes on after it, and the pins count the
snapshots and cursors that are open, so a release always finds its pin. A commit
leaves no more versions of a key than those who hold pins can tell apart.
-/

namespace PeerBook

open Journal

namespace Pins

variable {p : Pins}

end Pins

namespace Desk

variable {d : Desk} {a : Action} {s : UInt64}

theorem exists_table_eq_replay {m : Mounted} (h : m.Opened) :
    ∃ es, m.engine.table = Engine.replay .empty es := by
  cases h with
  | volatile => exact ⟨[], rfl⟩
  | load h =>
    rename_i pageSize policy clock log
    have hp := Nat.ne_of_gt (Mounted.pos_of_load h)
    unfold Mounted.load Engine.load at h
    rw [if_neg hp] at h
    obtain rfl := Except.ok.inj h
    exact ⟨_, rfl⟩

theorem ordered_of_opened {m : Mounted} (h : m.Opened) : m.engine.table.Ordered := by
  obtain ⟨es, ht⟩ := exists_table_eq_replay h
  intro key c hc
  rw [ht] at hc
  have hl := Engine.single_replay Table.single_empty es key c hc
  refine ⟨?_, Chain.ordered_of_length_eq_one hl⟩
  rintro rfl
  simp at hl

theorem Sound.ordered_step (h : d.Sound) (ho : d.engine.table.Ordered)
    (hl : d.committed a ≠ none → d.engine.Lasts) : (d.step a).engine.table.Ordered := by
  rcases d.committed_cases a with ⟨op, w, hc, he, -⟩ | ⟨hc, w, p, he, -⟩
  · have hl : d.engine.Lasts := hl (by simp [hc])
    rw [he, h.engine.nextSeq_eq]
    apply ho.apply
    intro key v hv
    exact UInt64.le_trans (h.engine.versions key v hv) (UInt64.le_of_lt hl.lt_add_one)
  · rw [he]
    exact ho

/-- An action pins once or releases once, or it leaves the pins alone. -/
theorem pins_step (d : Desk) (a : Action) :
    (d.step a).engine.pins = d.engine.pins ∨
      (∃ s, (d.step a).engine.pins = d.engine.pins.pin s) ∨
      ∃ s, (d.step a).engine.pins = d.engine.pins.unpin s := by
  cases a with
  | set key value => exact .inl (d.engine.pins_commit _ _ _)
  | commit i =>
    obtain ⟨m, bs, hd, hm⟩ := d.commit_cases i
    left
    rw [Desk.step, hd]
    rcases hm with hm | ⟨ws, hm⟩
    · exact congrArg Engine.pins hm
    · exact (congrArg Engine.pins hm).trans (d.engine.pins_commit _ _ _)
  | sync => exact .inl (d.engine.pins_sync d.mounted.file)
  | newBatch | put | tick | device => exact .inl rfl
  | openSnapshot => exact .inr (.inl ⟨_, rfl⟩)
  | openCursor i lower upper =>
    cases ho : d.snapshot? i with
    | none => simp [Desk.step, Desk.openCursor, ho]
    | some o => exact .inr (.inl ⟨o.seq, by rw [Desk.step, openCursor_eq ho]; rfl⟩)
  | closeSnapshot i =>
    cases ho : d.snapshot? i with
    | none => simp [Desk.step, Desk.closeSnapshot, ho]
    | some o => exact .inr (.inr ⟨o.seq, by rw [Desk.step, closeSnapshot_eq ho]; rfl⟩)
  | closeCursor i =>
    cases hc : d.cursor? i with
    | none => simp [Desk.step, Desk.closeCursor, hc]
    | some c => exact .inr (.inr ⟨c.seq, by rw [Desk.step, closeCursor_eq hc]; rfl⟩)
  | first i | next i =>
    left
    cases hc : d.cursor? i with
    | none => simp [Desk.step, Desk.move, hc]
    | some c => rw [Desk.step, move_eq hc]; rfl

theorem positive_step (hp : d.engine.pins.Positive) (a : Action) :
    (d.step a).engine.pins.Positive := by
  rcases d.pins_step a with he | ⟨s, he⟩ | ⟨s, he⟩
  · rw [he]
    exact hp
  · rw [he]
    exact hp.pin s
  · rw [he]
    exact hp.unpin s

structure InOrder (d : Desk) : Prop where
  sound : d.Sound
  ordered : d.engine.table.Ordered
  positive : d.engine.pins.Positive

theorem InOrder.start {m : Mounted} (h : m.Opened) : (Desk.start m).InOrder where
  sound := .start h
  ordered := ordered_of_opened h
  positive := by
    rw [show (Desk.start m).engine.pins = .empty from h.sound.2]
    exact Pins.positive_empty

theorem InOrder.step (h : d.InOrder) (hl : d.committed a ≠ none → d.engine.Lasts) :
    (d.step a).InOrder where
  sound := h.sound.step hl
  ordered := h.sound.ordered_step h.ordered hl
  positive := positive_step h.positive a

theorem InOrder.run (h : d.InOrder) {as : List Action} (hl : d.CommitsLast as) :
    (d.run as).InOrder := by
  induction as generalizing d with
  | nil => exact h
  | cons a as ih => exact ih (h.step hl.1) hl.2

end Desk

end PeerBook
