import Mathlib.Data.List.Dedup
import PeerBook.Proofs.Desk.Crash
import PeerBook.Proofs.Desk.Isolation
import PeerBook.Proofs.Journal.Split

/-! # What an engine holds

An engine opened on any log holds what the recovered entries wrote, whatever
their sequence numbers are, with one version of every key. Afterwards it holds
what was committed last, and under that what it was opened with.
-/

namespace PeerBook

open Journal

namespace Table

variable {t : Table} {seq : UInt64} {ws : List Binding}

def Single (t : Table) : Prop :=
  ∀ key c, t.chains.find? key = some c → c.length = 1

theorem single_empty : empty.Single := by
  intro key c h
  simp [empty] at h

theorem Single.apply (h : t.Single) (seq : UInt64) (ws : List Binding) :
    (t.apply seq ws seq).Single := by
  induction ws using List.reverseRecOn with
  | nil => exact h
  | append_singleton ws b ih =>
    intro key c hc
    rw [chains_apply_concat, SortedMap.find?_insert] at hc
    split at hc
    · obtain rfl := Option.some.inj hc
      rw [Chain.update_self]
      rfl
    · exact ih key c hc

theorem Single.versionCount_eq (h : t.Single) : t.versionCount = t.keyCount := by
  have hs : ∀ b ∈ t.chains.toList, b.2.length = 1 := fun b hb =>
    h b.1 b.2 (SortedMap.find?_eq_some_iff.mpr hb)
  have hf (l : List (Bytes × Chain)) (hl : ∀ b ∈ l, b.2.length = 1) (n : Nat) :
      l.foldl (fun n b => n + b.2.length) n = n + l.length := by
    induction l generalizing n with
    | nil => rfl
    | cons b l ih =>
      obtain ⟨hb, hl⟩ := List.forall_mem_cons.mp hl
      rw [List.foldl_cons, ih hl, hb, List.length_cons]
      omega
  rw [versionCount, hf _ hs, Nat.zero_add]
  rfl

theorem keyCount_eq {keys : List Bytes} (h : ∀ key, t.chains.find? key ≠ none ↔ key ∈ keys) :
    t.keyCount = keys.dedup.length := by
  have hp : (t.chains.toList.map (·.1)).Perm keys.dedup := by
    refine (List.perm_ext_iff_of_nodup t.chains.nodup_keys (List.nodup_dedup keys)).mpr ?_
    intro key
    rw [← SortedMap.find?_ne_none_iff, h, List.mem_dedup]
  rw [← hp.length_eq, List.length_map]
  rfl

end Table

namespace Engine

theorem single_replay {t : Table} (h : t.Single) (es : List Entry) : (replay t es).Single := by
  induction es generalizing t with
  | nil => exact h
  | cons e es ih => exact ih (h.apply e.lsn e.operation.writes)

theorem find?_chains_replay_ne_none_iff (es : List Entry) (key : Bytes) :
    (replay .empty es).chains.find? key ≠ none ↔ key ∈ (writes es).map (·.1) := by
  rw [Ne, find?_chains_replay, SortedMap.find?_ofList_eq_none_iff, not_and_or, not_not]
  exact or_iff_left (fun h => h rfl)

end Engine

namespace Desk

variable {d : Desk} {es : List Entry}

theorem get_step (d : Desk) (a : Action) (key : Bytes) :
    (d.step a).engine.get key =
      ((SortedMap.ofList (Engine.writes
        ((d.committed a).map (d.engine.nextEntry d.mounted.clock)).toList)).find? key).or
          (d.engine.get key) := by
  rcases d.committed_cases a with ⟨op, w, hc, he, -⟩ | ⟨hc, w, pins, he, -⟩
  · rw [he, hc, Engine.get_publish]
    simp [Engine.writes, Engine.nextEntry, Engine.get]
  · rw [he, hc]
    rfl

theorem get_run (d : Desk) (as : List Action) (key : Bytes) :
    (d.run as).engine.get key =
      ((SortedMap.ofList (Engine.writes (d.written as))).find? key).or (d.engine.get key) := by
  induction as generalizing d with
  | nil => rfl
  | cons a as ih =>
    have hw : Engine.writes (d.written (a :: as)) = Engine.writes
        ((d.committed a).map (d.engine.nextEntry d.mounted.clock)).toList ++
          Engine.writes ((d.step a).written as) := List.flatMap_append
    rw [hw, SortedMap.find?_ofList_append, Option.or_assoc, ← get_step]
    exact ih (d.step a)

theorem Sound.visible_step (h : d.Sound) {a : Action}
    (hl : d.committed a ≠ none → d.engine.Lasts) :
    d.engine.visible ≤ (d.step a).engine.visible ∧
      (d.committed a ≠ none → d.engine.visible < (d.step a).engine.visible) := by
  rcases d.committed_cases a with ⟨op, w, hc, he, -⟩ | ⟨hc, w, pins, he, -⟩
  · have hv : d.engine.visible < (d.step a).engine.visible := by
      rw [he, h.engine.nextSeq_eq]
      exact (hl (by simp [hc])).lt_add_one
    exact ⟨UInt64.le_of_lt hv, fun _ => hv⟩
  · refine ⟨?_, fun hn => absurd hc hn⟩
    rw [he]
    exact UInt64.le_refl _

theorem Sound.visible_run (h : d.Sound) {as : List Action} (hl : d.CommitsLast as) :
    d.engine.visible ≤ (d.run as).engine.visible := by
  induction as generalizing d with
  | nil => exact UInt64.le_refl _
  | cons a as ih =>
    exact UInt64.le_trans (h.visible_step hl.1).1 (ih (h.step hl.1) hl.2)

/-- The log holds an entry for every commit, and they wrote what the engine holds. -/
structure Complete (d : Desk) (es : List Entry) : Prop where
  logged : d.Logged es
  count : es.length = d.engine.visible.toNat
  get : ∀ key, d.engine.get key = (SortedMap.ofList (Engine.writes es)).find? key

theorem complete_of_created {pageSize : Nat} {policy : SyncPolicy} {clock : UInt64} {m : Mounted}
    (h : Mounted.load pageSize policy clock none = .ok m) : (start m).Complete [] := by
  have hc : Cut none [] [] 0 := ⟨by simp, .nil, by simp, rfl, rfl⟩
  obtain ⟨m', hm, hl, ht⟩ := hc.load (Mounted.pos_of_load h) policy clock
  obtain rfl := Except.ok.inj (h.symm.trans hm)
  refine ⟨hl, (congrArg UInt64.toNat hl.visible).symm, fun key => ?_⟩
  change m.engine.get key = _
  rw [Engine.get, ht]
  rfl

theorem Complete.step {a : Action} (h : d.Complete es) (hs : d.engine.Sound)
    (hl : d.committed a ≠ none → d.engine.Lasts) :
    (d.step a).Complete
      (es ++ ((d.committed a).map (d.engine.nextEntry d.mounted.clock)).toList) where
  logged := h.logged.step a
  count := by
    rcases d.committed_cases a with ⟨op, w, hc, he, -⟩ | ⟨hc, w, p, he, -⟩
    · have hl : d.engine.Lasts := hl (by simp [hc])
      rw [hc, he, hs.nextSeq_eq, List.length_append, h.count]
      exact hl.toNat_add_one.symm
    · rw [hc, he, List.length_append, h.count]
      rfl
  get key := by
    have hw (es' : List Entry) :
        Engine.writes (es ++ es') = Engine.writes es ++ Engine.writes es' :=
      List.flatMap_append
    rw [get_step, h.get, hw, SortedMap.find?_ofList_append]

theorem Complete.commit {m : Mounted} {b : Batch} (h : (start m).Complete es)
    (hs : m.engine.Sound) (hl : (m.commit b).1.1 = .ok () → m.engine.Lasts) :
    ∃ es', (start (m.commit b).2).Complete es' := by
  let d : Desk := { start m with batches := [b] }
  have hd : d.Complete es := ⟨h.logged, h.count, h.get⟩
  have hstep := hd.step (a := .commit 0) hs fun hc => hl (commit_eq_ok_of_committed rfl hc)
  exact ⟨_, hstep.logged, hstep.count, hstep.get⟩

/-- The log brings back what the engine holds. -/
theorem Complete.load (h : d.Complete es) {pageSize : Nat} (hp : 1 ≤ pageSize)
    (policy : SyncPolicy) (clock : UInt64) :
    ∃ m, Mounted.load pageSize policy clock (some d.mounted.file) = .ok m ∧
      m.file = d.mounted.file ∧ m.engine.visible = d.engine.visible ∧ (start m).Complete es := by
  have hl : es.length < 2 ^ 64 := h.count ▸ d.engine.visible.toNat_lt
  obtain ⟨e, he, hlog, ht⟩ := Engine.load_frames h.logged.fits h.logged.numbered hl h.logged.bytes
    hp policy
  have hv : e.visible = d.engine.visible := hlog.visible.trans h.logged.visible.symm
  refine ⟨⟨e, d.mounted.file, clock⟩, ?_, rfl, hv, hlog, ?_, fun key => ?_⟩
  · rw [Mounted.load, he]
    rfl
  · exact h.count.trans (congrArg UInt64.toNat hv.symm)
  · change e.get key = _
    rw [Engine.get, ht, Engine.readLatest_replay]
    exact Option.or_none

/-- A log of any bytes can be opened. The engine then holds what the recovered entries wrote last,
in the order of the file, with one version for each of their keys, and goes on after the greatest of
their sequence numbers. From then on every commit takes a greater number, and a snapshot, whenever
it is taken and whatever happens as long as it is open, shows what the commits before it wrote last,
and the recovered value of a key that they did not write. -/
theorem load_any (bytes : Bytes) {pageSize : Nat} (hp : 1 ≤ pageSize) (policy : SyncPolicy)
    (clock : UInt64) :
    let es := (LogFile.ofBytes bytes).recover.1.entries
    let recovered := SortedMap.ofList (Engine.writes es)
    ∃ m, Mounted.load pageSize policy clock (some (.ofBytes bytes)) = .ok m ∧
      (∀ key, m.engine.get key = recovered.find? key) ∧
      (∀ key c, m.engine.table.chains.find? key = some c → c.length = 1) ∧
      m.stats.versions = m.stats.keys ∧
      m.stats.keys = ((Engine.writes es).map (·.1)).dedup.length ∧
      m.stats.seq = (es.map (·.lsn)).max?.getD 0 ∧
      (∀ key, m.openSnapshot.1.get key m.openSnapshot.2.engine = recovered.find? key) ∧
      ∀ as, (start m).CommitsLast as →
        let now := (start m).run as
        m.engine.visible ≤ now.engine.visible ∧
        (∀ a, now.engine.Lasts → now.committed a ≠ none →
          now.engine.visible < (now.step a).engine.visible) ∧
        ∀ bs, now.CommitsLast (.openSnapshot :: bs) → .closeSnapshot now.snapshots.length ∉ bs →
          let later := now.openSnapshot.run bs
          ∃ s, later.snapshot? now.snapshots.length = some s ∧
            ∀ key, s.get key later.engine =
              ((SortedMap.ofList (Engine.writes ((start m).written as))).find? key).or
                (recovered.find? key) := by
  intro es recovered
  obtain ⟨m, hm, ht, hv⟩ : ∃ m,
      Mounted.load pageSize policy clock (some (.ofBytes bytes)) = .ok m ∧
        m.engine.table = Engine.replay .empty es ∧
        m.engine.visible = (es.map (·.lsn)).max?.getD 0 := by
    rw [Mounted.load, Engine.load, if_neg (Nat.ne_of_gt hp)]
    exact ⟨_, rfl, rfl, Recovery.lastLsn_eq _⟩
  have ho : m.Opened := .load hm
  have hg (key : Bytes) : m.engine.get key = recovered.find? key := by
    rw [Engine.get, ht, Engine.readLatest_replay]
    exact Option.or_none
  have hs : m.engine.table.Single := ht ▸ Engine.single_replay Table.single_empty es
  refine ⟨m, hm, hg, hs, hs.versionCount_eq, ?_, hv, fun key => ?_, fun as hl => ?_⟩
  · refine Table.keyCount_eq fun key => ?_
    rw [ht]
    exact Engine.find?_chains_replay_ne_none_iff es key
  · rw [← hg, ho.sound.1.get_eq]
    rfl
  · intro now
    have hn : now.Sound := (Sound.start ho).run hl
    refine ⟨(Sound.start ho).visible_run hl, fun a hl' => (hn.visible_step fun _ => hl').2, ?_⟩
    intro bs hl' hc later
    obtain ⟨hsnap, hr⟩ := hn.openSnapshot.snapshot?_run hl'.2 (snapshot?_openSnapshot now) hc
    refine ⟨_, hsnap, fun key => ?_⟩
    have hget : now.engine.get key = _ := get_run (start m) as key
    rw [Snapshot.get, hr key, ← hg]
    exact (hn.engine.get_eq key).symm.trans hget

/-- A log on which the sequence numbers fall and one of them is repeated. -/
theorem load_any_falling :
    let es : List Entry := [⟨7, .put [1] [10], 0⟩, ⟨3, .batch [([1], [11]), ([2], [20])], 0⟩,
      ⟨3, .put [2] [21], 0⟩]
    ∃ m, Mounted.load 1 .everyWrite 0 (some (.ofBytes (frames es))) = .ok m ∧
      m.engine.get [1] = some [11] ∧ m.stats.versions = 2 ∧ m.stats.seq = 7 ∧
      let now := (start m).run [.openSnapshot, .set [1] [12]]
      let later := now.openSnapshot.run [.set [1] [13]]
      now.engine.visible < (now.step (.set [1] [13])).engine.visible ∧
        ∃ s, later.snapshot? 1 = some s ∧ s.get [1] later.engine = some [12] ∧
          s.get [2] later.engine = some [21] := by
  intro es
  let f : LogFile := .ofBytes (frames es)
  have hr : f.recover = _ := LogFile.recover_frames (show ∀ e ∈ es, e.Fits by decide +kernel) rfl
  obtain ⟨m, hm, hg, -, hv, hk, hs, -, hrun⟩ :=
    load_any (frames es) (Nat.le_refl 1) .everyWrite 0
  rw [show (LogFile.ofBytes (frames es)).recover = _ from hr] at hg hk hs hrun
  have hm' : Mounted.load 1 .everyWrite 0 (some f) =
      .ok ⟨⟨1, some (.start .everyWrite 7 f), Engine.replay .empty es, 7, .empty⟩, f, 0⟩ := by
    rw [Mounted.load, Engine.load, if_neg (by decide)]
    dsimp only
    rw [hr]
    rfl
  obtain rfl := Except.ok.inj (hm.symm.trans hm')
  obtain ⟨-, hlt, hsnap⟩ := hrun [.openSnapshot, .set [1] [12]] (by decide +kernel)
  obtain ⟨s, hs', hget⟩ := hsnap [.set [1] [13]] (by decide +kernel) (by decide +kernel)
  refine ⟨_, hm, (hg [1]).trans (by decide +kernel), hv.trans (hk.trans (by decide +kernel)),
    hs.trans (by decide +kernel), hlt _ (by decide +kernel) (by decide +kernel), s, hs', ?_, ?_⟩
  · exact (hget [1]).trans (by decide +kernel)
  · exact (hget [2]).trans (by decide +kernel)

end Desk

end PeerBook
