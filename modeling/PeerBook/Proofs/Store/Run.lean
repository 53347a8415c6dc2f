import PeerBook.Proofs.Store.Outcome

/-! # Runs of calls

Calls come one after another, may fail at any point, and others do in between
what they like with ambient, codec and faults. Whatever the run, the engine
holds what was written by the calls that took effect, and what is pinned can
still be read.
-/

namespace PeerBook

/-- Faults are set and lifted, snapshots and cursors opened and closed. -/
def Rehearsal.Idle (r r' : Rehearsal) : Prop :=
  r'.data = r.data

/-- Snapshots and cursors are opened and closed, and time passes. -/
def Mounted.Idle (m m' : Mounted) : Prop :=
  ∃ pins, m'.engine = { m.engine with pins }

/-- Snapshots and cursors are opened, and none that was open is closed. -/
def Mounted.Rests (m m' : Mounted) : Prop :=
  ∃ pins, m'.engine = { m.engine with pins } ∧ ∀ s, m.engine.pins.count s ≤ Pins.count pins s

theorem Engine.lasts_of_toNat_lt {e : Engine} (h : e.visible.toNat + 1 < 2 ^ 64) : e.Lasts := by
  rw [Lasts, UInt64.lt_iff_toNat_lt]
  exact Nat.lt_sub_of_add_lt h

/-- What becomes of a sound engine by `n` commits while every pin stays: it is sound, and reads
where a pin stands see what they saw. -/
structure Engine.Grows (e : Engine) (n : Nat) (e' : Engine) : Prop where
  sound : e'.Sound
  visible : e'.visible.toNat = e.visible.toNat + n
  pins : ∀ s, e.pins.count s ≤ e'.pins.count s
  reads : ∀ s, 0 < e.pins.count s → s ≤ e.visible → ∀ key,
    e'.table.readAt key s = e.table.readAt key s

namespace Engine.Grows

variable {e e' e'' : Engine} {n n' : Nat}

theorem refl (h : e.Sound) : e.Grows 0 e :=
  ⟨h, rfl, fun _ => Nat.le_refl _, fun _ _ _ _ => rfl⟩

theorem trans (h : e.Grows n e') (h' : e'.Grows n' e'') : e.Grows (n + n') e'' where
  sound := h'.sound
  visible := by rw [h'.visible, h.visible, Nat.add_assoc]
  pins s := Nat.le_trans (h.pins s) (h'.pins s)
  reads s hs hv key := by
    have hv' : s ≤ e'.visible := by
      rw [UInt64.le_iff_toNat_le] at hv ⊢
      have := h.visible
      omega
    exact (h'.reads s (Nat.lt_of_lt_of_le hs (h.pins s)) hv' key).trans (h.reads s hs hv key)

theorem withPins (h : e.Sound) {p : Pins} (hp : ∀ s, e.pins.count s ≤ p.count s) :
    e.Grows 0 { e with pins := p } :=
  ⟨h.withPins p, rfl, hp, fun _ _ _ _ => rfl⟩

theorem appender (h : e.Sound) {a : Option Journal.Appender}
    (ha : a.map (·.lsn) = e.appender.map (·.lsn)) : e.Grows 0 { e with appender := a } :=
  ⟨h.appender (h.lsn_eq ha), rfl, fun _ => Nat.le_refl _, fun _ _ _ _ => rfl⟩

theorem publish (h : e.Sound) (hl : e.visible.toNat + 1 < 2 ^ 64) {a : Option Journal.Appender}
    (ha : ∀ w, a = some w → w.lsn = e.visible + 1) (ws : List Binding) :
    e.Grows 1 ({ e with appender := a }.publish (e.visible + 1) ws) where
  sound := h.publish (lasts_of_toNat_lt hl) ha ws
  visible := (UInt64.toNat_add _ _).trans (Nat.mod_eq_of_lt hl)
  pins _ := Nat.le_refl _
  reads _ hs hv key := readAt_publish { e with appender := a } ws key (floor_le hs)
    (UInt64.lt_of_le_of_lt hv (lasts_of_toNat_lt hl).lt_add_one)

end Engine.Grows

namespace Store

section Call

variable {l : Layout} {c : Call} {s : Session Mounted}

theorem Call.grows_of_tookEffect (he : s.engine.engine.Sound)
    (hl : s.engine.engine.visible.toNat + 1 < 2 ^ 64)
    (h : TookEffect ((c.perform l).exec s).1) :
    s.engine.engine.Grows 1 ((c.perform l).exec s).2.engine.engine := by
  rcases c.perform_engine l s with ⟨-, hr, -⟩ | ⟨-, -, a, hp, ha⟩
  · exact absurd h hr.not_tookEffect
  · rw [he.nextSeq_eq] at hp ha
    exact hp ▸ .publish he hl ha _

theorem Call.grows_of_not_tookEffect (he : s.engine.engine.Sound)
    (h : ¬ TookEffect ((c.perform l).exec s).1) :
    s.engine.engine.Grows 0 ((c.perform l).exec s).2.engine.engine := by
  rcases c.perform_engine l s with ⟨-, -, a, hp, ha⟩ | ⟨-, hx, -⟩
  · exact hp ▸ .appender he ha
  · exact absurd (.inl hx) h

end Call

section Run

variable {ε : Type} [Backend ε] {l : Layout} {idle : ε → ε → Prop} {s₀ s : Session ε}
  {calls : List Call}

/-- The sessions that calls lead to, with the calls that took effect. Between two calls the engine
changes as `idle` allows, and the ambient, the codec and the strike are free. -/
inductive Ran (l : Layout) (idle : ε → ε → Prop) (s₀ : Session ε) :
    List Call → Session ε → Prop where
  | start : Ran l idle s₀ [] s₀
  | took {calls : List Call} {c : Call} {s : Session ε} (before : Ran l idle s₀ calls s)
      (effect : TookEffect ((c.perform l).exec s).1) :
      Ran l idle s₀ (calls ++ [c]) ((c.perform l).exec s).2
  | failed {calls : List Call} {c : Call} {s : Session ε} (before : Ran l idle s₀ calls s)
      (noEffect : ¬ TookEffect ((c.perform l).exec s).1) :
      Ran l idle s₀ calls ((c.perform l).exec s).2
  | meanwhile {calls : List Call} {s s' : Session ε} (before : Ran l idle s₀ calls s)
      (between : idle s.engine s'.engine) : Ran l idle s₀ calls s'

/-- What an engine holds changes by calls that take effect, as a whole, and by nothing else. -/
structure Atomic (l : Layout) (idle : ε → ε → Prop) (view : ε → Bytes → Option Bytes) : Prop where
  took : ∀ (c : Call) (s : Session ε), TookEffect ((c.perform l).exec s).1 → ∀ key,
    view ((c.perform l).exec s).2.engine key =
      ((SortedMap.ofList (c.writes l)).find? key).or (view s.engine key)
  failed : ∀ (c : Call) (s : Session ε), ¬ TookEffect ((c.perform l).exec s).1 →
    view ((c.perform l).exec s).2.engine = view s.engine
  idle : ∀ e e', idle e e' → view e' = view e

theorem Ran.view_eq {view : ε → Bytes → Option Bytes} (h : Ran l idle s₀ calls s)
    (ha : Atomic l idle view) (he : ∀ key, view s₀.engine key = none) (key : Bytes) :
    view s.engine key = (contents l calls).find? key := by
  induction h with
  | start => exact he key
  | took before effect ih => rw [ha.took _ _ effect, ih, find?_contents_concat]
  | failed before noEffect ih => rw [ha.failed _ _ noEffect, ih]
  | meanwhile before between ih => rw [ha.idle _ _ between, ih]

end Run

theorem Atomic.rehearsal (l : Layout) : Atomic l Rehearsal.Idle fun r => r.data.find? where
  took c s h key := by
    rcases c.perform_rehearsal l s with ⟨-, hr, -⟩ | ⟨-, -, hd⟩
    · exact absurd h hr.not_tookEffect
    · rw [hd, find?_writeAll]
  failed c s h := by
    rcases c.perform_rehearsal l s with ⟨-, -, hd⟩ | ⟨-, ht, -⟩
    · rw [hd]
    · exact absurd ht h
  idle r r' h := congrArg SortedMap.find? h

theorem Atomic.mounted (l : Layout) : Atomic l Mounted.Idle fun m => m.engine.get where
  took c s h key := by
    rcases c.perform_engine l s with ⟨-, hr, -⟩ | ⟨-, -, a, hp, -⟩
    · exact absurd h hr.not_tookEffect
    · rw [hp]
      exact Engine.get_publish _ _ _ key
  failed c s h := by
    rcases c.perform_engine l s with ⟨-, -, a, hp, -⟩ | ⟨-, hx, -⟩
    · rw [hp]
      rfl
    · exact absurd (.inl hx) h
  idle m m' h := by
    obtain ⟨pins, he⟩ := h
    rw [he]
    rfl

theorem Ran.withFaults {l : Layout} {s₀ s : Session Rehearsal} {calls : List Call}
    (h : Ran l Rehearsal.Idle s₀ calls s) (faults : List Fault) :
    Ran l Rehearsal.Idle s₀ calls { s with engine := { s.engine with faults } } :=
  h.meanwhile rfl

variable {l : Layout} {s₀ s : Session Mounted} {calls : List Call}

theorem Ran.withCodec (h : Ran l Mounted.Idle s₀ calls s) (codec : Codec) :
    Ran l Mounted.Idle s₀ calls { s with codec } :=
  h.meanwhile ⟨_, rfl⟩

theorem Ran.sound (h : Ran l Mounted.Idle s₀ calls s) (he : s₀.engine.engine.Sound)
    (hl : s₀.engine.engine.visible.toNat + calls.length < 2 ^ 64) :
    s.engine.engine.Sound ∧
      s.engine.engine.visible.toNat = s₀.engine.engine.visible.toNat + calls.length := by
  induction h with
  | start => exact ⟨he, rfl⟩
  | took before effect ih =>
    rw [List.length_append, List.length_singleton, ← Nat.add_assoc] at hl ⊢
    obtain ⟨hs, hv⟩ := ih (Nat.lt_of_succ_lt hl)
    rw [← hv] at hl ⊢
    have hg := Call.grows_of_tookEffect hs hl effect
    exact ⟨hg.sound, hg.visible⟩
  | failed before noEffect ih =>
    obtain ⟨hs, hv⟩ := ih hl
    have hg := Call.grows_of_not_tookEffect hs noEffect
    exact ⟨hg.sound, hg.visible.trans hv⟩
  | meanwhile before between ih =>
    obtain ⟨hs, hv⟩ := ih hl
    obtain ⟨pins, hm⟩ := between
    rw [hm]
    exact ⟨hs.withPins pins, hv⟩

/-- As long as no pin is released, what is pinned can be read as before. -/
theorem Ran.grows (h : Ran l Mounted.Rests s₀ calls s) (he : s₀.engine.engine.Sound)
    (hl : s₀.engine.engine.visible.toNat + calls.length < 2 ^ 64) :
    s₀.engine.engine.Grows calls.length s.engine.engine := by
  induction h with
  | start => exact .refl he
  | took before effect ih =>
    rw [List.length_append, List.length_singleton] at hl ⊢
    have hg := ih (by omega)
    exact hg.trans (Call.grows_of_tookEffect hg.sound (by rw [hg.visible]; omega) effect)
  | failed before noEffect ih =>
    have hg := ih hl
    exact hg.trans (Call.grows_of_not_tookEffect hg.sound noEffect)
  | meanwhile before between ih =>
    have hg := ih hl
    obtain ⟨pins, hm, hp⟩ := between
    rw [hm]
    exact hg.trans (.withPins hg.sound hp)

end Store

end PeerBook
