import PeerBook.Proofs.Desk.Sound
import PeerBook.Proofs.Engine.Durable

/-! # Crashes

A durable engine is opened, used and cut off by a crash that leaves the first
bytes of its log, any number of times. What survives are the commits whose
frames were left whole each time; opening the engine once more brings back
what they wrote and nothing else.
-/

namespace PeerBook.Desk

open Journal

variable {d : Desk} {gs : List Bytes} {last : UInt64} {es : List Entry}

/-- The entries that the commits of a run write. -/
def written (d : Desk) : List Action → List Entry
  | [] => []
  | a :: as =>
    ((d.committed a).map (d.engine.nextEntry d.mounted.clock)).toList ++ (d.step a).written as

/-- The log holds the frames of these entries. -/
def Logged (d : Desk) (es : List Entry) : Prop :=
  d.engine.Logged d.mounted.file es

/-- The log holds complete frames and behind them those of entries that count on from `last`. -/
def Continued (d : Desk) (gs : List Bytes) (last : UInt64) (es : List Entry) : Prop :=
  d.engine.Continued d.mounted.file gs last es

theorem Continued.commit (h : d.Continued gs last es) (i : Nat) :
    (d.step (.commit i)).Continued gs last
      (es ++ ((d.committed (.commit i)).map (d.engine.nextEntry d.mounted.clock)).toList) := by
  simp only [Continued, engine, step, committed, Desk.commit] at h ⊢
  cases d.batches[i]? with
  | none => simpa using h
  | some b =>
    simp only [Mounted.commit, Batch.commit]
    by_cases hc : b.committed
    · simpa [hc] using h
    · by_cases hw : b.writes.isEmpty
      · simpa [hc, hw] using h
      · rcases h.commit_cases d.mounted.clock (.batch b.writes) with
          ⟨e', f', he, hl⟩ | ⟨err, e', f', he, hl⟩
        · simpa [hc, hw, he] using hl
        · simpa [hc, hw, he] using hl

theorem Continued.step (h : d.Continued gs last es) (a : Action) :
    (d.step a).Continued gs last
      (es ++ ((d.committed a).map (d.engine.nextEntry d.mounted.clock)).toList) := by
  -- what commits nothing writes no entry
  have hn {d' : Desk} (h' : d'.Continued gs last es) :
      d'.Continued gs last (es ++ []) := by
    rwa [List.append_nil]
  have hq {a : Action} (ha : a.isQuiet = true) : (d.step a).Continued gs last es := by
    obtain ⟨p, he, hb⟩ := d.step_of_isQuiet ha
    have hv : (d.step a).engine.visible = d.engine.visible := by rw [he]
    have happ : (d.step a).engine.appender = d.engine.appender := by rw [he]
    exact Engine.Continued.congr h hv (congrArg _ happ) hb
  cases a with
  | set key value =>
    simp only [Continued, engine, Desk.step, committed, Mounted.set] at h ⊢
    rcases h.commit_cases d.mounted.clock (.put key value) with
      ⟨e', f', he, hl⟩ | ⟨err, e', f', he, hl⟩
    · simpa [he] using hl
    · simpa [he] using hl
  | commit i => exact h.commit i
  | sync => exact hn (Engine.Continued.sync h)
  | newBatch | put | openSnapshot | closeSnapshot | openCursor | first | next | closeCursor | tick
  | device => exact hn (hq rfl)

theorem Continued.run (h : d.Continued gs last es) (as : List Action) :
    (d.run as).Continued gs last (es ++ d.written as) := by
  induction as generalizing d es with
  | nil =>
    rw [written, List.append_nil]
    exact h
  | cons a as ih =>
    rw [written, ← List.append_assoc]
    exact ih (h.step a)

theorem Logged.step (h : d.Logged es) (a : Action) :
    (d.step a).Logged
      (es ++ ((d.committed a).map (d.engine.nextEntry d.mounted.clock)).toList) :=
  Engine.logged_iff.mpr (Continued.step (Engine.logged_iff.mp h) a)

theorem Logged.run (h : d.Logged es) (as : List Action) :
    (d.run as).Logged (es ++ d.written as) :=
  Engine.logged_iff.mpr (Continued.run (Engine.logged_iff.mp h) as)

/-- The logs that come about, where there was none, when an engine is opened, used and cut off by
a crash any number of times, with the entries that survived. -/
inductive Survived : Option LogFile → List Entry → Prop where
  | absent : Survived none []
  /-- One more round. The length of a log is a 64-bit number. -/
  | crash {log : Option LogFile} {es : List Entry} {pageSize : Nat} {policy : SyncPolicy}
      {clock : UInt64} {m : Mounted} {n : Nat} {f : LogFile}
      (before : Survived log es) (opened : Mounted.load pageSize policy clock log = .ok m)
      (as : List Action) (bounded : ((start m).run as).mounted.file.size < 2 ^ 64)
      (cut : f.bytes = ((start m).run as).mounted.file.bytes.take n) :
      Survived (some f) (surviving n (es ++ (start m).written as))

/-- A log that is the beginning of a sound one, with the entries of its whole frames. -/
structure Cut (log : Option LogFile) (es : List Entry) (whole : List Entry) (n : Nat) : Prop where
  fits : ∀ e ∈ whole, e.Fits
  numbered : Numbered whole
  bounded : whole.length < 2 ^ 64
  bytes : (log.getD .empty).bytes = (frames whole).take n
  surviving : es = surviving n whole

variable {log : Option LogFile} {whole : List Entry} {n : Nat} {pageSize : Nat}

theorem Cut.load (h : Cut log es whole n) (hp : 0 < pageSize) (policy : SyncPolicy)
    (clock : UInt64) :
    ∃ m, Mounted.load pageSize policy clock log = .ok m ∧ (start m).Logged es ∧
      m.engine.table = Engine.replay .empty es := by
  obtain ⟨e, f, he, hl, ht⟩ := Engine.load_cut h.fits h.numbered h.bounded h.bytes hp policy
  refine ⟨⟨e, f, clock⟩, ?_, h.surviving ▸ hl, h.surviving ▸ ht⟩
  rw [Mounted.load, he]
  rfl

theorem Survived.cut (h : Survived log es) : ∃ whole n, Cut log es whole n := by
  induction h with
  | absent => exact ⟨[], 0, by simp, .nil, by simp, rfl, rfl⟩
  | @crash log es pageSize policy clock m n f _ hm as hb hf ih =>
    obtain ⟨whole, k, hc⟩ := ih
    obtain ⟨m', hm', hl, -⟩ := hc.load (Mounted.pos_of_load hm) policy clock
    obtain rfl := Except.ok.inj (hm.symm.trans hm')
    have hr := hl.run as
    have hlen : (es ++ (start m).written as).length < 2 ^ 64 := by
      refine Nat.lt_of_le_of_lt (length_le_frames _) ?_
      rwa [← hr.bytes]
    exact ⟨_, n, hr.fits, hr.numbered, hlen, hf.trans (congrArg (List.take n) hr.bytes), rfl⟩

/-- After any number of crashes, opening the engine brings back, of every key, what the surviving
commits wrote last, and the log consists of their frames. The next commit goes on behind them, and
nothing gets lost when the next round ends without a cut. -/
theorem load_survived (h : Survived log es) (hp : 0 < pageSize) (policy : SyncPolicy)
    (clock : UInt64) :
    ∃ m, Mounted.load pageSize policy clock log = .ok m ∧
      (∀ key, m.engine.get key = (SortedMap.ofList (Engine.writes es)).find? key) ∧
      (∀ key, m.engine.table.chains.find? key = none ↔
        (SortedMap.ofList (Engine.writes es)).find? key = none) ∧
      m.file.bytes = frames es ∧
      m.engine.visible = (es.getLast?.map (·.lsn)).getD 0 ∧
      es.Pairwise (·.lsn < ·.lsn) ∧
      (∀ as, ((start m).run as).mounted.file.size < 2 ^ 64 →
        Survived (some ((start m).run as).mounted.file) (es ++ (start m).written as)) ∧
      ∀ timestamp operation e f, m.engine.commit timestamp operation m.file = (.ok (), e, f) →
        e.visible = m.engine.visible + 1 ∧
          f.bytes = frames (es ++ [m.engine.nextEntry timestamp operation]) := by
  obtain ⟨whole, n, hc⟩ := h.cut
  obtain ⟨m, hm, hl, ht⟩ := hc.load hp policy clock
  have hlen : es.length < 2 ^ 64 := by
    rw [hc.surviving]
    exact Nat.lt_of_le_of_lt (prefix_surviving n whole).length_le hc.bounded
  refine ⟨m, hm, fun key => ?_, fun key => ?_, hl.bytes, ?_, hl.numbered.pairwise hlen, ?_, ?_⟩
  · rw [Engine.get, ht, Engine.readLatest_replay]
    exact Option.or_none
  · rw [ht, Engine.find?_chains_replay]
    exact and_iff_left rfl
  · rw [hl.numbered.last]
    exact hl.visible
  · intro as hb
    have hs := Survived.crash (n := _) h hm as hb List.take_length.symm
    rwa [surviving_of_length_le (Nat.le_of_eq (congrArg List.length (hl.run as).bytes.symm))] at hs
  · rintro timestamp operation e f hok
    rcases Engine.Logged.commit_cases hl timestamp operation with
      ⟨e', f', he, hl'⟩ | ⟨err, e', f', he, -⟩
    · obtain ⟨-, hef⟩ := Prod.mk.inj (hok.symm.trans he)
      obtain ⟨rfl, rfl⟩ := Prod.mk.inj hef
      refine ⟨?_, hl'.bytes⟩
      have hv : m.engine.visible = UInt64.ofNat es.length := hl.visible
      rw [hl'.visible, hv, List.length_append, UInt64.ofNat_add]
      rfl
    · cases (Prod.mk.inj (hok.symm.trans he)).1

theorem load_survived_torn_batch :
    ∃ m, Mounted.load 1 .everyWrite 0 none = .ok m ∧
      let d := (start m).run
        [.set [1] [10], .newBatch, .put 0 [1] [11], .put 0 [2] [20], .commit 0]
      d.engine.get [1] = some [11] ∧
        ∃ m', Mounted.load 1 .everyWrite 0 (some (.ofBytes (d.mounted.file.bytes.take 100))) =
            .ok m' ∧
          m'.engine.get [1] = some [10] ∧ m'.engine.get [2] = none ∧ m'.engine.visible = 1 := by
  have hm : Mounted.load 1 .everyWrite 0 none =
      .ok ⟨⟨1, some (.start .everyWrite 0 .empty), .empty, 0, .empty⟩, .empty, 0⟩ := rfl
  refine ⟨_, hm, by decide +kernel, ?_⟩
  have hs := Survived.crash (n := 100) (f := .ofBytes _) .absent hm
    [.set [1] [10], .newBatch, .put 0 [1] [11], .put 0 [2] [20], .commit 0]
    (by decide +kernel) rfl
  obtain ⟨m', hm', hg, -, -, hv, -⟩ := load_survived hs (show 0 < 1 by decide) .everyWrite 0
  exact ⟨m', hm', (hg [1]).trans (by decide +kernel), (hg [2]).trans (by decide +kernel),
    hv.trans (by decide +kernel)⟩

end PeerBook.Desk
