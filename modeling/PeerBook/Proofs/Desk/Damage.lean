import PeerBook.Proofs.Desk.Crash
import PeerBook.Proofs.Engine.Reliable

/-! # Damaged logs

Frames whose lengths were left alone are still found where they were, whatever
else was changed in them. So a damaged frame costs its own entry and no other,
and an engine that is opened on the log goes on behind the last frame, sound
or not, with the number after the greatest that is left.
-/

namespace PeerBook

open Journal

namespace Journal

variable {g : Bytes} {e : Entry}

/-- Bytes that stand in the place of a frame: as many, and with the same length in their header. If
they are not the frame then they are no sound frame at all. -/
structure Replaces (g : Bytes) (e : Entry) : Prop where
  length : g.length = e.bytes.length
  field : (g.drop 12).take 4 = (e.bytes.drop 12).take 4
  damaged : g = e.bytes ∨ ((Header.ofBytes g).verify (g.drop headerSize)).isOk = false

instance : Decidable (Replaces g e) :=
  decidable_of_iff (_ ∧ _ ∧ _) ⟨fun ⟨hl, hf, hd⟩ => ⟨hl, hf, hd⟩, fun ⟨hl, hf, hd⟩ => ⟨hl, hf, hd⟩⟩

theorem Replaces.isFrame (h : Replaces g e) (he : e.Fits) : IsFrame g := by
  apply he.isFrame.congr h.length
  rw [Header.ofBytes, Header.ofBytes, h.field]

theorem Replaces.ofFrame?_eq (h : Replaces g e) (he : e.Fits) :
    Entry.ofFrame? g = if g = e.bytes then some e else none := by
  split
  · rename_i hg
    rw [hg, he.ofFrame?_bytes]
  · rename_i hg
    have hd := h.damaged.resolve_left hg
    rw [(h.isFrame he).ofFrame?_eq]
    cases hv : (Header.ofBytes g).verify (g.drop headerSize) with
    | ok entry =>
      rw [hv] at hd
      cases hd
    | error defect => rfl

end Journal

namespace Desk

variable {ps : List (Entry × Bytes)}

theorem filterMap_ofFrame?_replaced (h : ∀ p ∈ ps, p.1.Fits ∧ Replaces p.2 p.1) :
    (ps.map (·.2)).filterMap Entry.ofFrame? =
      (ps.filter fun p => p.2 = p.1.bytes).map (·.1) := by
  induction ps with
  | nil => rfl
  | cons p ps ih =>
    obtain ⟨⟨he, hp⟩, h⟩ := List.forall_mem_cons.mp h
    rw [List.map_cons, List.filterMap_cons, hp.ofFrame?_eq he, ih h]
    by_cases hg : p.2 = p.1.bytes
    · simp [hg]
    · simp [hg]

theorem countP_isNone_replaced (h : ∀ p ∈ ps, p.1.Fits ∧ Replaces p.2 p.1) :
    ((ps.map (·.2)).countP fun g => (Entry.ofFrame? g).isNone) =
      ps.countP fun p => p.2 ≠ p.1.bytes := by
  rw [List.countP_map]
  apply List.countP_congr
  intro p hp
  obtain ⟨he, hp⟩ := h p hp
  rw [Function.comp_apply, hp.ofFrame?_eq he]
  by_cases hg : p.2 = p.1.bytes
  · simp [hg]
  · simp [hg]

/-- Of a log in which any of the frames were damaged, but not in their lengths, exactly the entries
of the others are recovered, in their order, and nothing is cut off. An engine can be opened on it.
It goes on after the greatest number among these entries, and whatever it commits is recovered
behind them from then on. -/
theorem damage_contained (h : ∀ p ∈ ps, p.1.Fits ∧ Replaces p.2 p.1) :
    let f := LogFile.ofBytes (ps.flatMap (·.2))
    let sound := (ps.filter fun p => p.2 = p.1.bytes).map (·.1)
    let damaged := ps.countP fun p => p.2 ≠ p.1.bytes
    let last := (sound.map (·.lsn)).max?.getD 0
    f.recover = (⟨sound, damaged, f.size, false⟩, f) ∧ f.recover.1.lastLsn = last ∧
      ∀ pageSize policy clock, 1 ≤ pageSize →
        ∃ m, Mounted.load pageSize policy clock (some f) = .ok m ∧
          m.file = f ∧ m.engine.visible = last ∧
          (∀ timestamp operation, operation.Fits →
            (m.engine.commit timestamp operation f).1 = .ok ()) ∧
          ∀ as,
            let written := (start m).written as
            let f' := ((start m).run as).mounted.file
            f'.recover = (⟨sound ++ written, damaged, f'.size, false⟩, f') ∧
              ∀ i e, written[i]? = some e → e.lsn = last + UInt64.ofNat (i + 1) := by
  intro f sound damaged last
  have hframes : ∀ g ∈ ps.map (·.2), IsFrame g :=
    List.forall_mem_map.mpr fun p hp => (h p hp).2.isFrame (h p hp).1
  have hbytes : f.bytes = (ps.map (·.2)).flatten := List.flatMap_def ..
  have hsplits : Splits f.bytes (ps.map (·.2)) [] := hbytes ▸ splits_flatten hframes
  have hr : f.recover = (⟨sound, damaged, f.size, false⟩, f) := by
    rw [LogFile.recover_splits hsplits, filterMap_ofFrame?_replaced h, countP_isNone_replaced h,
      ← hbytes]
    rfl
  have hlast : f.recover.1.lastLsn = last := by
    rw [Recovery.lastLsn_eq, hr]
  refine ⟨hr, hlast, fun pageSize policy clock hp => ?_⟩
  obtain ⟨e, hload, hv, hc, -⟩ := Engine.load_splits hsplits hp policy
  rw [hlast, hr] at hc
  rw [hr] at hload
  refine ⟨⟨e, f, clock⟩, ?_, rfl, hv.trans hlast, fun timestamp operation ho => ?_, fun as => ?_⟩
  · rw [Mounted.load, hload]
    rfl
  · have hreliable : e.IsReliable f := .inr ⟨rfl, rfl⟩
    obtain ⟨a, f', hok, -⟩ := e.commit_of_fits hreliable ho timestamp
    rw [hok]
  · have hrun := Continued.run (d := start ⟨e, f, clock⟩) hc as
    refine ⟨?_, hrun.numbered⟩
    rw [Engine.Continued.recover hrun, filterMap_ofFrame?_replaced h, countP_isNone_replaced h]
    rfl

/-- The first payload and the last number are changed; the last number is taken once more. -/
theorem damage_contained_at_ends :
    let e₁ : Entry := ⟨1, .put [1] [10], 0⟩
    let e₂ : Entry := ⟨2, .put [2] [20], 0⟩
    let e₃ : Entry := ⟨3, .put [3] [30], 0⟩
    let f := ((LogFile.ofBytes (frames [e₁, e₂, e₃])).flip 30 1).flip 110 8
    f.recover.1.entries = [e₂] ∧ f.recover.1.corrupted = 2 ∧ f.recover.2 = f ∧
      ∃ m, Mounted.load 1 .everyWrite 5 (some f) = .ok m ∧
        ((start m).run [.set [3] [31]]).mounted.file.recover.1.entries =
          [e₂, ⟨3, .put [3] [31], 5⟩] := by
  intro e₁ e₂ e₃ f
  let ps := [(e₁, f.bytes.take 54), (e₂, e₂.bytes), (e₃, f.bytes.drop 108)]
  have hf : .ofBytes (ps.flatMap (·.2)) = f := by decide +kernel
  obtain ⟨hr, -, hload⟩ := @damage_contained ps (by decide +kernel)
  rw [hf] at hr hload
  have hr' : f.recover = (⟨[e₂], 2, 162, false⟩, f) := hr.trans (by decide +kernel)
  have hm := Mounted.load_of_recover hr' Nat.one_pos .everyWrite 5
  obtain ⟨m, hm', -, -, -, hrun⟩ := hload 1 .everyWrite 5 (by decide)
  obtain rfl := Except.ok.inj (hm.symm.trans hm')
  refine ⟨by rw [hr'], by rw [hr'], by rw [hr'], _, hm, ?_⟩
  rw [(hrun [.set [3] [31]]).1]
  decide +kernel

end Desk

end PeerBook
