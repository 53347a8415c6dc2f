import PeerBook.Engine.Mounted
import PeerBook.Proofs.Engine.Pins
import PeerBook.Proofs.Journal.Appender
import PeerBook.Proofs.Versions.View

/-! # Sound engines

No version is newer than the last commit, and a log goes on after it. Opening
an engine makes it sound, on any log, and commits keep it so. A commit leaves
the reads alone that are at or above the floor and not above the last commit.
-/

namespace PeerBook

open Journal

namespace Engine

variable {e : Engine} {f : LogFile} {s : UInt64}

structure Sound (e : Engine) : Prop where
  versions : ∀ key, ∀ v ∈ e.table.chain key, v.seq ≤ e.visible
  appended : ∀ w, e.appender = some w → w.lsn = e.visible
  paged : 1 ≤ e.pageSize

/-- A sequence number is left for another commit. -/
def Lasts (e : Engine) : Prop :=
  e.visible < 0xFFFFFFFFFFFFFFFF

instance (e : Engine) : Decidable e.Lasts :=
  inferInstanceAs (Decidable (_ < _))

theorem Lasts.lt_add_one (h : e.Lasts) : e.visible < e.visible + 1 := by
  unfold Lasts at h
  grind

theorem Lasts.toNat_add_one (h : e.Lasts) : (e.visible + 1).toNat = e.visible.toNat + 1 := by
  have hn : e.visible.toNat < 0xFFFFFFFFFFFFFFFF := UInt64.lt_iff_toNat_lt.mp h
  rw [UInt64.toNat_add]
  exact Nat.mod_eq_of_lt (Nat.succ_lt_succ hn)

theorem Sound.get_eq (h : e.Sound) (key : Bytes) : e.get key = e.table.readAt key e.visible := by
  rw [get, Table.readLatest, Table.readAt_eq, Table.readAt_eq]
  exact Chain.readAt_eq_of_le (h.versions key) (by grind)

theorem floor_le (h : 0 < e.pins.count s) : e.floor ≤ s := by
  obtain ⟨oldest, ho, hle⟩ := Pins.oldest?_le h
  rw [floor, ho]
  exact hle

theorem get_publish (e : Engine) (seq : UInt64) (ws : List Binding) (key : Bytes) :
    (e.publish seq ws).get key = ((SortedMap.ofList ws).find? key).or (e.get key) :=
  Table.readLatest_apply e.table seq e.floor ws key

theorem readAt_publish (e : Engine) {seq : UInt64} (ws : List Binding) (key : Bytes)
    (hf : e.floor ≤ s) (hs : s < seq) :
    (e.publish seq ws).table.readAt key s = e.table.readAt key s := by
  rw [publish, Table.readAt_apply _ _ _ _ hf, if_neg (UInt64.not_le.mpr hs)]

def nextSeq (e : Engine) : UInt64 :=
  e.appender.elim e.visible (·.lsn) + 1

/-- A commit publishes its writes under the next sequence number, or it fails and changes nothing
but how far the log is forced to disk. -/
theorem commit_cases (e : Engine) (timestamp : UInt64) (operation : Operation) (f : LogFile) :
    (∃ a f', e.commit timestamp operation f =
        (.ok (), { e with appender := a }.publish e.nextSeq operation.writes, f') ∧
      ∀ w, a = some w → w.lsn = e.nextSeq) ∨
    (∃ err a f', e.commit timestamp operation f = (.error err, { e with appender := a }, f') ∧
      a.map (·.lsn) = e.appender.map (·.lsn)) := by
  unfold commit nextSeq
  cases ha : e.appender with
  | none => exact .inl ⟨none, f, by simp [publish, floor, ha], by simp⟩
  | some w =>
    rcases w.append_cases timestamp operation f with
      ⟨frame, f', n, -, -, hok⟩ | ⟨err, n, f', herr, -⟩
    · refine .inl ⟨some { w with
        lsn := w.lsn + 1, length := w.length + frame.length, unsynced := n }, f', ?_, ?_⟩
      · simp [hok, Appender.nextEntry]
      · simp
    · exact .inr ⟨err, some { w with unsynced := n }, f', by simp [herr], rfl⟩

theorem pins_commit (e : Engine) (timestamp : UInt64) (operation : Operation) (f : LogFile) :
    (e.commit timestamp operation f).2.1.pins = e.pins := by
  rcases e.commit_cases timestamp operation f with ⟨a, f', hc, -⟩ | ⟨err, a, f', hc, -⟩
  · rw [hc]
    rfl
  · rw [hc]

theorem device_commit (e : Engine) (timestamp : UInt64) (operation : Operation) (f : LogFile) :
    (e.commit timestamp operation f).2.2.device = f.device := by
  unfold commit
  cases e.appender with
  | none => rfl
  | some w =>
    have hs := w.device_append timestamp operation f
    dsimp only
    split
    · rename_i ha
      rwa [ha] at hs
    · rename_i ha
      rwa [ha] at hs

theorem commit_of_oversize {w : Appender} (hw : e.appender = some w) {timestamp : UInt64}
    {operation : Operation}
    (h : maxPayload < (w.nextEntry timestamp operation).payload.length) (f : LogFile) :
    ∃ err, (e.commit timestamp operation f).1 = .error err := by
  unfold commit
  rw [hw]
  dsimp only
  rw [Appender.append_of_oversize h]
  exact ⟨_, rfl⟩

theorem Sound.nextSeq_eq (h : e.Sound) : e.nextSeq = e.visible + 1 := by
  unfold nextSeq
  cases ha : e.appender with
  | none => rfl
  | some w => exact congrArg (· + 1) (h.appended w ha)

theorem Sound.lsn_eq (h : e.Sound) {a : Option Appender}
    (ha : a.map (·.lsn) = e.appender.map (·.lsn)) : ∀ w, a = some w → w.lsn = e.visible := by
  rintro w rfl
  obtain ⟨w', hw, hl⟩ := Option.map_eq_some_iff.mp ha.symm
  exact hl.symm.trans (h.appended w' hw)

theorem Sound.publish (h : e.Sound) (hl : e.Lasts) {a : Option Appender}
    (ha : ∀ w, a = some w → w.lsn = e.visible + 1) (ws : List Binding) :
    ({ e with appender := a }.publish (e.visible + 1) ws).Sound where
  versions key v hv := by
    rcases Table.seq_of_mem_chain_apply hv with hs | hv
    · exact UInt64.le_of_eq hs
    · exact UInt64.le_trans (h.versions key v hv) (UInt64.le_of_lt hl.lt_add_one)
  appended := ha
  paged := h.paged

theorem Sound.appender (h : e.Sound) {a : Option Appender}
    (ha : ∀ w, a = some w → w.lsn = e.visible) : Sound { e with appender := a } where
  versions := h.versions
  appended := ha
  paged := h.paged

theorem Sound.withPins (h : e.Sound) (p : Pins) : Sound { e with pins := p } where
  versions := h.versions
  appended := h.appended
  paged := h.paged

theorem seq_of_mem_replay {t : Table} {entries : List Entry} {key : Bytes} {v : Version}
    (hv : v ∈ (replay t entries).chain key) :
    v ∈ t.chain key ∨ ∃ entry ∈ entries, v.seq = entry.lsn := by
  induction entries generalizing t with
  | nil => exact .inl hv
  | cons entry entries ih =>
    rcases ih hv with hv | ⟨entry', he, hs⟩
    · rcases Table.seq_of_mem_chain_apply hv with hs | hv
      · exact .inr ⟨entry, List.mem_cons_self, hs⟩
      · exact .inl hv
    · exact .inr ⟨entry', List.mem_cons_of_mem _ he, hs⟩

theorem le_foldl_max (entries : List Entry) (start : UInt64) :
    let last := entries.foldl (fun last e => if last < e.lsn then e.lsn else last) start
    start ≤ last ∧ ∀ entry ∈ entries, entry.lsn ≤ last := by
  induction entries generalizing start with
  | nil => simp
  | cons entry entries ih =>
    obtain ⟨hs, he⟩ := ih (if start < entry.lsn then entry.lsn else start)
    refine ⟨UInt64.le_trans ?_ hs, List.forall_mem_cons.mpr ⟨UInt64.le_trans ?_ hs, he⟩⟩
    · grind
    · grind

theorem le_lastLsn {r : Recovery} {entry : Entry} (h : entry ∈ r.entries) :
    entry.lsn ≤ r.lastLsn :=
  (le_foldl_max r.entries 0).2 entry h

theorem Sound.volatile : Engine.volatile.Sound where
  versions key v hv := by simp [Engine.volatile] at hv
  appended w hw := by simp [Engine.volatile] at hw
  paged := by decide

theorem Sound.load {pageSize : Nat} {policy : SyncPolicy} {log : Option LogFile}
    (h : Engine.load pageSize policy log = .ok (e, f)) : e.Sound ∧ e.pins = .empty := by
  unfold Engine.load at h
  split at h
  · simp at h
  · rename_i hp
    obtain ⟨rfl, rfl⟩ := Prod.mk.inj (Except.ok.inj h)
    refine ⟨⟨?_, ?_, Nat.pos_of_ne_zero hp⟩, rfl⟩
    · intro key v hv
      rcases seq_of_mem_replay hv with hv | ⟨entry, he, hs⟩
      · simp at hv
      · exact hs ▸ le_lastLsn he
    · rintro w hw
      obtain rfl := Option.some.inj hw
      rfl

end Engine

/-- An engine as it is opened: without a log, or on whatever a log contains. -/
inductive Mounted.Opened : Mounted → Prop where
  | volatile : Opened .volatile
  | load {pageSize : Nat} {policy : SyncPolicy} {clock : UInt64} {log : Option LogFile}
      {m : Mounted} : Mounted.load pageSize policy clock log = .ok m → Opened m

theorem Mounted.pos_of_load {pageSize : Nat} {policy : SyncPolicy} {clock : UInt64}
    {log : Option LogFile} {m : Mounted} (h : Mounted.load pageSize policy clock log = .ok m) :
    0 < pageSize := by
  refine Nat.pos_of_ne_zero ?_
  rintro rfl
  simp [Mounted.load, Engine.load, Except.map] at h

theorem Mounted.load_of_recover {recovery : Recovery} {f f' : LogFile}
    (h : f.recover = (recovery, f')) {pageSize : Nat} (hp : 0 < pageSize) (policy : SyncPolicy)
    (clock : UInt64) :
    Mounted.load pageSize policy clock (some f) =
      .ok ⟨⟨pageSize, some (.start policy recovery.lastLsn f'),
        Engine.replay .empty recovery.entries, recovery.lastLsn, .empty⟩, f', clock⟩ := by
  rw [Mounted.load, Engine.load, if_neg (Nat.ne_of_gt hp)]
  dsimp only
  rw [h]
  rfl

theorem Mounted.Opened.sound {m : Mounted} (h : m.Opened) :
    m.engine.Sound ∧ m.engine.pins = .empty := by
  cases h with
  | volatile => exact ⟨.volatile, rfl⟩
  | load h =>
    rename_i pageSize policy clock log
    unfold Mounted.load at h
    cases he : Engine.load pageSize policy log with
    | error err => simp [he, Except.map] at h
    | ok p =>
      rw [he] at h
      obtain rfl := Except.ok.inj h
      exact Engine.Sound.load he

end PeerBook
