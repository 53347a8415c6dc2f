import PeerBook.Proofs.Engine.Sound
import PeerBook.Proofs.Store.Write
import PeerBook.Rehearsal

/-! # What the result of a write tells

A write takes effect as a whole or not at all, and its result tells which:
nothing but a failed release of the batch can follow a write that took effect,
and every other error means that the engine holds what it held before.
-/

namespace PeerBook

/-- Whether a failure comes before a write takes effect. -/
def StoreError.isRefusal : StoreError → Bool
  | .encoding _ _ | .cancelled _ | .deadlineExceeded _ | .commit _ _ => true
  | _ => false

theorem Context.isRefusal_of_check {c : Context} {op : String} {a : Ambient} {err : StoreError}
    (h : c.check op a = .error err) : err.isRefusal = true := by
  obtain rfl | rfl := eq_or_eq_of_check h <;> rfl

theorem Mounted.commit_batch (m : Mounted) {ws : List Binding} (hw : ws ≠ []) :
    m.commit ⟨ws, false⟩ =
      let (r, engine, file) := m.engine.commit m.clock (.batch ws) m.file
      ((r, ⟨[], true⟩), { m with engine, file }) := by
  have he : ws.isEmpty = false := by simpa using hw
  simp [Mounted.commit, Batch.commit, he]

namespace Store

open StoreM

/-- Success, or nothing but a failure to release the batch. -/
def TookEffect (r : Except StoreError Unit) : Prop :=
  r = .ok () ∨ ∃ source, r = .error (.release "batch" source)

def tookEffectB : Except StoreError Unit → Bool
  | .ok () => true
  | .error (.release resource _) => resource = "batch"
  | .error _ => false

theorem tookEffectB_iff {r : Except StoreError Unit} : tookEffectB r = true ↔ TookEffect r := by
  unfold tookEffectB TookEffect
  split <;> simp_all

instance (r : Except StoreError Unit) : Decidable (TookEffect r) :=
  decidable_of_iff _ tookEffectB_iff

/-- A refusal, perhaps with a failure to release the batch behind it. -/
def Refused (r : Except StoreError Unit) : Prop :=
  ∃ err, err.isRefusal = true ∧
    (r = .error err ∨ ∃ source, r = .error (.multiple [err, .release "batch" source]))

theorem Refused.not_tookEffect {r : Except StoreError Unit} (h : Refused r) : ¬ TookEffect r := by
  obtain ⟨err, he, rfl | ⟨source, rfl⟩⟩ := h
  · rintro (h | ⟨source, h⟩)
    · cases h
    · cases h
      cases he
  · rintro (h | ⟨source', h⟩)
    · cases h
    · cases h

theorem refused_append {err : StoreError} (h : err.isRefusal = true)
    (r : Except EngineError Unit) : Refused (StoreError.append (.error err) (closing r)) := by
  refine ⟨err, h, ?_⟩
  cases r with
  | ok u => exact .inl rfl
  | error source =>
    refine .inr ⟨source, ?_⟩
    cases err <;> first | rfl | cases h

theorem tookEffect_append (r : Except EngineError Unit) :
    TookEffect (StoreError.append (.ok ()) (closing r)) := by
  cases r with
  | ok u => exact .inl rfl
  | error source => exact .inr ⟨source, rfl⟩

/-- The context is not done at either check, and the codec encodes. -/
def Call.Passes {ε : Type} (c : Call) (s : Session ε) : Prop :=
  c.context.interruption? s.ambient = none ∧ s.codec.encodeFailure = none ∧
    c.context.interruption? ((s.reach .encode).reach .batch).ambient = none

/-- A call is refused before it opens a batch or before it commits it, or it commits its writes. -/
theorem Call.perform_cases {ε : Type} [Backend ε] (l : Layout) (c : Call) (s : Session ε) :
    let x := (c.perform l).exec s
    let b := Backend.newBatch s.engine
    (¬ c.Passes s ∧ ∃ err, err.isRefusal = true ∧ x.1 = .error err ∧ x.2.engine = s.engine) ∨
    (¬ c.Passes s ∧ ∃ err, err.isRefusal = true ∧
      let k := Backend.closeBatch b.1 b.2
      x.1 = StoreError.append (.error err) (closing k.1) ∧ x.2.engine = k.2) ∨
    (c.Passes s ∧
      let r := Backend.commit (filled b.1 (c.writes l)) b.2
      let k := Backend.closeBatch b.1 r.2
      x.1 = StoreError.append
        (r.1.1.mapError fun source => .commit (l.describe (l.recordKey c.peer.identity)) source)
        (closing k.1) ∧ x.2.engine = k.2) := by
  rw [c.perform_eq_put, exec_put]
  cases hc : c.context.check c.name s.ambient with
  | error err =>
    refine .inl ⟨fun hp => ?_, err, Context.isRefusal_of_check hc, rfl, rfl⟩
    rw [Context.check_eq_ok_iff.mpr hp.1] at hc
    cases hc
  | ok u =>
    cases he : s.codec.encode c.peer with
    | error source =>
      refine .inl ⟨fun hp => ?_, _, rfl, rfl, Session.engine_reach _ _⟩
      rw [Codec.encode_eq_ok_iff.mpr ⟨hp.2.1, rfl⟩] at he
      cases he
    | ok data =>
      obtain ⟨hf, rfl⟩ := Codec.encode_eq_ok_iff.mp he
      refine .inr ?_
      dsimp only
      rw [exec_commitEntries]
      split
      · rename_i err hk
        refine .inl ⟨fun hp => ?_, err, Context.isRefusal_of_check hk, rfl, rfl⟩
        rw [Context.check_eq_ok_iff.mpr hp.2.2] at hk
        cases hk
      · rename_i hk
        exact .inr ⟨⟨Context.check_eq_ok_iff.mp hc, hf, Context.check_eq_ok_iff.mp hk⟩, rfl, rfl⟩

variable {l : Layout} {c : Call}

theorem filled_rehearsal (ws ws' : List Binding) : filled (ε := Rehearsal) ws ws' = ws ++ ws' := by
  induction ws' generalizing ws with
  | nil => exact (List.append_nil ws).symm
  | cons w ws' ih => exact (ih (ws ++ [w])).trans (List.append_assoc ws [w] ws')

theorem commit_rehearsal (r : Rehearsal) (ws : List Binding) :
    let k := Backend.commit (filled (Backend.newBatch r).1 ws) (Backend.newBatch r).2
    (r.fails .commit = true ∧ k.1.1 = .error (Rehearsal.injected "commit") ∧ k.2.data = r.data) ∨
      (r.fails .commit = false ∧ k.1.1 = .ok () ∧ k.2.data = Rehearsal.writeAll r.data ws) := by
  intro k
  have hw : filled (Backend.newBatch r).1 ws = ws := filled_rehearsal [] ws
  cases hf : r.fails .commit with
  | true =>
    have hk : k = ((.error (Rehearsal.injected "commit"), _), _) := if_pos hf
    exact .inl ⟨rfl, congrArg (·.1.1) hk, congrArg (·.2.data) hk⟩
  | false =>
    have hk : k = ((.ok (), []), _) := if_neg (Bool.eq_false_iff.mp hf)
    refine .inr ⟨rfl, congrArg (·.1.1) hk, (congrArg (·.2.data) hk).trans ?_⟩
    exact congrArg (Rehearsal.writeAll r.data) hw

theorem Call.perform_rehearsal (l : Layout) (c : Call) (s : Session Rehearsal) :
    let x := (c.perform l).exec s
    (¬ (c.Passes s ∧ s.engine.fails .commit = false) ∧ Refused x.1 ∧
      x.2.engine.data = s.engine.data) ∨
    ((c.Passes s ∧ s.engine.fails .commit = false) ∧ TookEffect x.1 ∧
      x.2.engine.data = Rehearsal.writeAll s.engine.data (c.writes l)) := by
  intro x
  rcases c.perform_cases l s with ⟨hp, err, he, hx, hs⟩ | ⟨hp, err, he, hx, hs⟩ | ⟨hp, hx, hs⟩
  · exact .inl ⟨fun h => hp h.1, ⟨err, he, .inl hx⟩, by rw [hs]⟩
  · refine .inl ⟨fun h => hp h.1, ?_, (congrArg Rehearsal.data hs).trans rfl⟩
    rw [hx]
    exact refused_append he _
  · have hd := congrArg Rehearsal.data hs
    rcases commit_rehearsal s.engine (c.writes l) with ⟨hf, hr, hk⟩ | ⟨hf, hr, hk⟩
    · refine .inl ⟨by simp [hf], ?_, hd.trans hk⟩
      rw [hx, hr]
      exact refused_append rfl _
    · refine .inr ⟨⟨hp, hf⟩, ?_, hd.trans hk⟩
      rw [hx, hr]
      exact tookEffect_append _

theorem Call.perform_mounted (l : Layout) (c : Call) (s : Session Mounted) :
    let x := (c.perform l).exec s
    let r := s.engine.commit ⟨c.writes l, false⟩
    (¬ c.Passes s ∧ Refused x.1 ∧ x.2.engine = s.engine) ∨
    (c.Passes s ∧
      x.1 = (r.1.1.mapError fun source =>
        .commit (l.describe (l.recordKey c.peer.identity)) source) ∧
      x.2.engine = r.2) := by
  intro x r
  have hf : filled (Backend.newBatch s.engine).1 (c.writes l) = ⟨c.writes l, false⟩ :=
    filled_mounted .empty (c.writes l)
  rcases c.perform_cases l s with ⟨hp, err, he, hx, hs⟩ | ⟨hp, err, he, hx, hs⟩ | ⟨hp, hx, hs⟩
  · exact .inl ⟨hp, ⟨err, he, .inl hx⟩, hs⟩
  · exact .inl ⟨hp, ⟨err, he, .inl hx⟩, hs⟩
  · rw [hf] at hx hs
    exact .inr ⟨hp, hx.trans (StoreError.append_ok _), hs⟩

theorem writes_ne_nil (l : Layout) (c : Call) : c.writes l ≠ [] :=
  List.cons_ne_nil _ _

theorem Call.device_perform (l : Layout) (c : Call) (s : Session Mounted) :
    ((c.perform l).exec s).2.engine.file.device = s.engine.file.device := by
  rcases c.perform_mounted l s with ⟨-, -, he⟩ | ⟨-, -, he⟩
  · rw [he]
  · rw [he, Mounted.commit_batch _ (writes_ne_nil l c)]
    exact s.engine.engine.device_commit s.engine.clock _ s.engine.file

theorem Call.perform_engine (l : Layout) (c : Call) (s : Session Mounted) :
    let x := (c.perform l).exec s
    let e := s.engine.engine
    let passes := c.Passes s ∧ (s.engine.commit ⟨c.writes l, false⟩).1.1 = .ok ()
    (¬ passes ∧ Refused x.1 ∧ ∃ a, x.2.engine.engine = { e with appender := a } ∧
      a.map (·.lsn) = e.appender.map (·.lsn)) ∨
    (passes ∧ x.1 = .ok () ∧
      ∃ a, x.2.engine.engine = { e with appender := a }.publish e.nextSeq (c.writes l) ∧
        ∀ w, a = some w → w.lsn = e.nextSeq) := by
  intro x e passes
  rcases c.perform_mounted l s with ⟨hp, hr, hs⟩ | ⟨hp, hx, hs⟩
  · exact .inl ⟨fun h => hp h.1, hr, e.appender, congrArg Mounted.engine hs, rfl⟩
  · have hm := Mounted.commit_batch s.engine (writes_ne_nil l c)
    rcases e.commit_cases s.engine.clock (.batch (c.writes l)) s.engine.file with
      ⟨a, f', hk, ha⟩ | ⟨err, a, f', hk, ha⟩
    · rw [hk] at hm
      rw [hm] at hx hs
      exact .inr ⟨⟨hp, by rw [hm]⟩, hx, a, congrArg Mounted.engine hs, ha⟩
    · rw [hk] at hm
      rw [hm] at hx hs
      refine .inl ⟨fun h => ?_, ⟨_, rfl, .inl hx⟩, a, congrArg Mounted.engine hs, ha⟩
      have he := h.2
      rw [hm] at he
      cases he

theorem Call.refused_of_oversize {c : Call} {s : Session Mounted} {w : Journal.Appender}
    (hw : s.engine.engine.appender = some w)
    (h : Journal.maxPayload < (w.nextEntry s.engine.clock (.batch (c.writes l))).payload.length) :
    Refused ((c.perform l).exec s).1 := by
  rcases c.perform_mounted l s with ⟨-, hr, -⟩ | ⟨-, hx, -⟩
  · exact hr
  · obtain ⟨err, he⟩ := Engine.commit_of_oversize hw h s.engine.file
    rw [Mounted.commit_batch _ (writes_ne_nil l c)] at hx
    dsimp only at hx
    rw [he] at hx
    exact ⟨_, rfl, .inl hx⟩

/-- What a call leaves of what was there: its record, its aliases, and all else as it was. -/
structure Call.Wrote (l : Layout) (c : Call) (old new : Bytes → Option Bytes) : Prop where
  record : new (l.recordKey c.peer.identity) = some c.peer.encode
  aliases : ∀ a ∈ c.aliases, new (aliasKey a) = some (l.recordKey c.peer.identity)
  others : ∀ key, key ≠ l.recordKey c.peer.identity → (∀ a ∈ c.aliases, key ≠ aliasKey a) →
    new key = old key

theorem Call.wrote_of_find? (c : Call) {old new : Bytes → Option Bytes}
    (h : ∀ key, new key = ((SortedMap.ofList (c.writes l)).find? key).or (old key)) :
    c.Wrote l old new where
  record := by
    have ha : ¬ ∃ a ∈ c.aliases, aliasKey a = l.recordKey c.peer.identity := by
      rintro ⟨a, -, he⟩
      exact aliasKey_ne_recordKey a l _ he
    rw [h, Call.writes, find?_entries, if_neg ha, if_pos rfl]
    rfl
  aliases a ha := by
    rw [h, Call.writes, find?_entries, if_pos ⟨a, ha, rfl⟩]
    rfl
  others key hk ha := by
    have ha' : ¬ ∃ a ∈ c.aliases, aliasKey a = key := by
      rintro ⟨a, hm, he⟩
      exact ha a hm he.symm
    rw [h, Call.writes, find?_entries, if_neg ha', if_neg hk]
    rfl

theorem find?_writeAll (data : SortedMap Bytes Bytes) (ws : List Binding) (key : Bytes) :
    (Rehearsal.writeAll data ws).find? key =
      ((SortedMap.ofList ws).find? key).or (data.find? key) := by
  have hd := SortedMap.ofList_toList data
  have hw : Rehearsal.writeAll (.ofList data.toList) ws = .ofList (data.toList ++ ws) :=
    (List.foldl_append ..).symm
  rw [hd] at hw
  rw [hw, SortedMap.find?_ofList_append, hd]

/-- Whether a call on any contents takes effect is told by its result: it does if the call succeeds
or if nothing but the release of its batch fails, and then exactly its record and its aliases are
written; with any other error the call was refused, and everything is as it was. It takes effect
whenever its context lasts, its peer can be encoded and the engine commits; an engine with a log
does not when the entry is too large for it. -/
theorem effect_told_by_result (l : Layout) (c : Call) :
    (∀ s : Session Rehearsal,
      let x := (c.perform l).exec s
      (TookEffect x.1 ↔ c.Passes s ∧ s.engine.fails .commit = false) ∧
      (TookEffect x.1 → c.Wrote l s.engine.data.find? x.2.engine.data.find?) ∧
      (¬ TookEffect x.1 → Refused x.1 ∧ x.2.engine.data = s.engine.data)) ∧
    ∀ s : Session Mounted,
      let x := (c.perform l).exec s
      let e := s.engine.engine
      let e' := x.2.engine.engine
      (TookEffect x.1 ↔
        c.Passes s ∧ (s.engine.commit ⟨c.writes l, false⟩).1.1 = .ok ()) ∧
      (TookEffect x.1 → c.Wrote l e.get e'.get) ∧
      (¬ TookEffect x.1 → Refused x.1 ∧ e'.table = e.table ∧ e'.visible = e.visible) ∧
      ∀ w, e.appender = some w →
        Journal.maxPayload < (w.nextEntry s.engine.clock (.batch (c.writes l))).payload.length →
        Refused x.1 := by
  refine ⟨fun s => ?_, fun s => ?_⟩
  · rcases c.perform_rehearsal l s with ⟨hn, hr, hd⟩ | ⟨hp, ht, hd⟩
    · have ht := hr.not_tookEffect
      exact ⟨iff_of_false ht hn, fun h => absurd h ht, fun _ => ⟨hr, hd⟩⟩
    · refine ⟨iff_of_true ht hp, fun _ => c.wrote_of_find? fun key => ?_, fun h => absurd ht h⟩
      rw [hd, find?_writeAll]
  · have hl := fun w hw h => Call.refused_of_oversize (l := l) (c := c) (s := s) (w := w) hw h
    rcases c.perform_engine l s with ⟨hn, hr, a, he, -⟩ | ⟨hp, hx, a, he, -⟩
    · have ht := hr.not_tookEffect
      refine ⟨iff_of_false ht hn, fun h => absurd h ht, fun _ => ⟨hr, ?_, ?_⟩, hl⟩
      · rw [he]
      · rw [he]
    · have ht : TookEffect ((c.perform l).exec s).1 := .inl hx
      refine ⟨iff_of_true ht hp, fun _ => c.wrote_of_find? fun key => ?_, fun h => absurd ht h, hl⟩
      rw [he]
      exact Engine.get_publish _ _ _ key

/-- Where the release of the batch fails, after a commit and after a failed commit. -/
theorem effect_told_by_result_released :
    let c : Call := ⟨.background, .new ⟨.user, 1⟩ 10 0, some "x"⟩
    let s (faults : List Fault) : Session Rehearsal := .start { Rehearsal.empty with faults }
    let x := (c.perform .flat).exec (s [.batchClose])
    let y := (c.perform .flat).exec (s [.commit, .batchClose])
    x.1.isOk = false ∧ c.Wrote .flat SortedMap.empty.find? x.2.engine.data.find? ∧
      Refused y.1 ∧ y.2.engine.data = .empty := by
  intro c s x y
  obtain ⟨hr, -⟩ := effect_told_by_result .flat c
  have hx := (hr (s [.batchClose])).2.1 (by decide +kernel)
  have hy := (hr (s [.commit, .batchClose])).2.2 (by decide +kernel)
  exact ⟨by decide +kernel, hx, hy⟩

end Store

end PeerBook
