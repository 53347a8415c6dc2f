import PeerBook.Proofs.Desk.Agreement

/-! # Engines that are closed and opened again

A durable engine is opened where there was no log, used, closed and opened
again, any number of times, with other settings each time. An engine without a
log is used all the time. As long as nobody keeps a snapshot or a cursor when
the first is closed, users of both are told the same: the log brings back what
the engine held, and the versions that it does not bring back nobody can ask
for.
-/

namespace PeerBook.Desk

open Journal

variable {d v : Desk} {es : List Entry}

theorem Complete.run (h : d.Complete es) (ha : Alike d v) {rs : List Request}
    (hr : v.AdmitsAll rs) : ∃ es', (d.runRequests rs).Complete es' := by
  induction rs generalizing d v es with
  | nil => exact ⟨es, h⟩
  | cons r rs ih =>
    have hd := (ha.admits_iff r).mpr hr.1
    cases r with
    | act a => exact ih (h.step ha.sound.engine hd.1) (ha.after hd) hr.2
    | get | read | entry | length | lastSequence => exact ih h ha hr.2

def IsClear (d : Desk) : Prop :=
  (∀ o ∈ d.snapshots, o = none) ∧ ∀ o ∈ d.cursors, o = none

instance (d : Desk) : Decidable d.IsClear :=
  inferInstanceAs (Decidable (_ ∧ _))

theorem IsClear.holders_eq (h : d.IsClear) (s : UInt64) : d.holders s = 0 := by
  have hn {α : Type} (seq : α → UInt64) {l : List (Option α)} (hl : ∀ o ∈ l, o = none) :
      standing seq l s = 0 := by
    refine List.countP_eq_zero.mpr fun o ho => ?_
    rw [hl o ho]
    exact Bool.false_ne_true
  rw [holders, hn _ h.1, hn _ h.2]

theorem Sound.clear (h : d.Sound) (hc : d.IsClear) : (Desk.start d.mounted).Sound where
  engine := h.engine
  pinned s := (h.pinned s).trans (hc.holders_eq s)
  visible _ hs := absurd hs (Nat.lt_irrefl 0)

theorem Alike.start {m m' : Mounted} (hs : (start m).Sound) (hs' : (start m').Sound)
    (hr : m.IsReliable) (hr' : m'.IsReliable) (hv : m.engine.visible = m'.engine.visible)
    (hg : ∀ key, m.engine.get key = m'.engine.get key) : Alike (start m) (start m') where
  sound := hs
  sound' := hs'
  reliable := hr
  reliable' := hr'
  visible := hv
  get := hg
  batches := rfl
  snapshots := rfl
  reads := fun _ _ h => nomatch h
  places := rfl
  cursors := fun _ => .none

theorem Alike.reopen (h : Alike d v) (hk : d.Complete es) (hc : v.IsClear) {pageSize : Nat}
    (hp : 1 ≤ pageSize) (policy : SyncPolicy) (clock : UInt64) :
    ∃ m, Mounted.load pageSize policy clock (some d.mounted.file) = .ok m ∧
      Alike (.start m) (.start v.mounted) ∧ (Desk.start m).Complete es := by
  obtain ⟨m, hm, hf, hv, hk'⟩ := hk.load hp policy clock
  have hr : d.mounted.file.IsReliable := by
    obtain ⟨w, hw, -⟩ := hk.logged.appended
    refine h.reliable.resolve_left fun hn => ?_
    cases hn.symm.trans hw
  refine ⟨m, hm, ?_, hk'⟩
  refine .start (.start (.load hm)) (h.sound'.clear hc) (.inr (hf ▸ hr)) h.reliable' ?_
    fun key => ?_
  · exact hv.trans h.visible
  · exact (hk'.get key).trans ((hk.get key).symm.trans (h.get key))

structure Round where
  pageSize : Nat
  policy : SyncPolicy
  clock : UInt64
  requests : List Request

/-- What the users are told of an engine that is opened anew each round and closed at its end. -/
def durableAnswers : Option LogFile → List Round → Except EngineError (List (List Answer))
  | _, [] => .ok []
  | log, r :: rs => do
    let m ← Mounted.load r.pageSize r.policy r.clock log
    let d := (start m).runRequests r.requests
    d.mounted.sync.1
    let rest ← durableAnswers (some d.mounted.file) rs
    return (start m).answers r.requests :: rest

def steadyAnswers : Mounted → List Round → List (List Answer)
  | _, [] => []
  | m, r :: rs =>
    (start m).answers r.requests :: steadyAnswers ((start m).runRequests r.requests).mounted rs

/-- Nothing that the users of an engine that stays open ask for is too large or comes too late, and
at the end of every round but the last they keep neither snapshots nor cursors. -/
def Orderly : Mounted → List Round → Prop
  | _, [] => True
  | m, r :: rs =>
    let d := (start m).runRequests r.requests
    1 ≤ r.pageSize ∧ (start m).AdmitsAll r.requests ∧ (rs ≠ [] → d.IsClear) ∧ Orderly d.mounted rs

instance decidableOrderly : (m : Mounted) → (rs : List Round) → Decidable (Orderly m rs)
  | _, [] => .isTrue trivial
  | m, r :: rs =>
    have := decidableOrderly ((start m).runRequests r.requests).mounted rs
    have : Decidable (rs ≠ []) := decidable_of_iff (rs.isEmpty = false) (by simp)
    inferInstanceAs (Decidable (_ ∧ _ ∧ _ ∧ _))

theorem Alike.durableAnswers_eq (h : Alike d v) (hk : d.Complete es) {rounds : List Round}
    (hc : rounds ≠ [] → v.IsClear) (ho : Orderly v.mounted rounds) :
    durableAnswers (some d.mounted.file) rounds = .ok (steadyAnswers v.mounted rounds) := by
  induction rounds generalizing d v es with
  | nil => rfl
  | cons r rs ih =>
    obtain ⟨hp, hr, hc', ho⟩ := ho
    obtain ⟨m, hm, ha, hk⟩ := h.reopen hk (hc (List.cons_ne_nil r rs)) hp r.policy r.clock
    obtain ⟨es', hk'⟩ := hk.run ha hr
    have ha' := ha.run hr
    have hs : ((Desk.start m).runRequests r.requests).mounted.sync.1 = .ok () :=
      (Engine.sync_of_isReliable ha'.reliable).1
    rw [durableAnswers, hm, steadyAnswers, ← ha.answers_eq hr]
    simp only [bind, Except.bind, hs, ih ha' hk' hc' ho]
    rfl

/-- The users of a durable engine that is closed and opened again are told what the users of an
engine without a log are told, round by round. -/
theorem durable_answers_as_volatile (rounds : List Round) (h : Orderly .volatile rounds) :
    durableAnswers none rounds = .ok (steadyAnswers .volatile rounds) := by
  -- a log that is not there is like the log of an engine with which nothing was done
  let m : Mounted :=
    ⟨{ Engine.volatile with appender := some (.start .everyWrite 0 .empty) }, .empty, 0⟩
  have hm : Mounted.load Settings.standard.pageSize .everyWrite 0 none = .ok m := rfl
  have ha : Alike (start m) (start .volatile) :=
    .start (.start (.load hm)) (.start .volatile) (.inr ⟨rfl, rfl⟩) (.inl rfl) rfl fun _ => rfl
  have hk : (start m).Complete [] :=
    ⟨⟨rfl, by simp, .nil, rfl, _, rfl, rfl, rfl⟩, rfl, fun _ => rfl⟩
  have hl : durableAnswers none rounds = durableAnswers (some m.file) rounds := by
    cases rounds with
    | nil => rfl
    | cons r rs =>
      rw [durableAnswers, durableAnswers, Mounted.load, Engine.load_absent]
      rfl
  rw [hl]
  exact ha.durableAnswers_eq hk (fun _ => ⟨by simp [start], by simp [start]⟩) h

/-- A key is overwritten under a snapshot that is released before the engine is closed, and read
through a cursor that fetches one binding at a time in the round after. -/
theorem durable_answers_as_volatile_paged :
    durableAnswers none
      [⟨1, .everyWrite, 5, [.act (.set [1] [10]), .act .openSnapshot, .act .newBatch,
          .act (.put 0 [1] [11]), .act (.put 0 [2] [20]), .act (.commit 0), .act (.commit 0),
          .read 0 [1], .get [1], .act (.closeSnapshot 0)]⟩,
        ⟨1, .everyEntries 2, 7, [.lastSequence, .act .openSnapshot, .act (.openCursor 0 [] none),
          .act (.set [2] [21]), .act (.first 0), .act (.next 0), .act (.next 0)]⟩] =
      .ok [[.done, .sequence 1, .done, .done, .done, .done, .failed .batchCommitted,
          .value (some [10]), .value (some [11]), .done],
        [.sequence 2, .sequence 2, .done, .done, .entry (some ([1], [11])), .entry (some ([2], [20])),
          .entry none]] :=
  (durable_answers_as_volatile _ (by decide +kernel)).trans (by decide +kernel)

end PeerBook.Desk
