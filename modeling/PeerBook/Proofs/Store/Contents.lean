import PeerBook.Engine.Mounted
import PeerBook.Proofs.Keyspace
import PeerBook.Proofs.SortedMap
import PeerBook.Peer.Record
import PeerBook.Store.Write

/-! # What calls leave in a store

The record of an identity is the peer stored last under it; an alias stands
for the identity of the last call that listed it, whatever else was stored
in between. Where calls of both layouts are made, each layout has records of
its own.
-/

namespace PeerBook.Store

/-- A call that stores a peer under its own aliases and perhaps one more. -/
structure Call where
  context : Context
  peer : Peer
  extra : Option String

namespace Call

def aliases (c : Call) : List String :=
  c.peer.aliases ++ c.extra.toList

def writes (l : Layout) (c : Call) : List Binding :=
  entries (l.recordKey c.peer.identity) c.peer.encode c.aliases

end Call

/-- The peer of the last call that stored one under an identity. -/
def latest (calls : List Call) (i : Identity) : Option Peer :=
  (calls.filter (·.peer.identity = i)).getLast?.map (·.peer)

/-- The identity of the last call that listed an alias. -/
def owner (calls : List Call) (a : String) : Option Identity :=
  (calls.filter (a ∈ ·.aliases)).getLast?.map (·.peer.identity)

theorem getLast?_filter_concat {α : Type} (p : α → Bool) (l : List α) (a : α) :
    ((l ++ [a]).filter p).getLast? = if p a then some a else (l.filter p).getLast? := by
  rw [List.filter_append]
  by_cases h : p a
  · simp [h]
  · simp [h]

theorem latest_concat (calls : List Call) (c : Call) (i : Identity) :
    latest (calls ++ [c]) i = if c.peer.identity = i then some c.peer else latest calls i := by
  rw [latest, getLast?_filter_concat]
  simp only [decide_eq_true_eq]
  split <;> rfl

theorem owner_concat (calls : List Call) (c : Call) (a : String) :
    owner (calls ++ [c]) a = if a ∈ c.aliases then some c.peer.identity else owner calls a := by
  rw [owner, getLast?_filter_concat]
  simp only [decide_eq_true_eq]
  split <;> rfl

/-- What the calls wrote, one after another. -/
def contents (l : Layout) (calls : List Call) : SortedMap Bytes Bytes :=
  .ofList (calls.flatMap (·.writes l))

/-- What calls wrote, each under a layout of its own. -/
def joint (calls : List (Layout × Call)) : SortedMap Bytes Bytes :=
  .ofList (calls.flatMap fun c => c.2.writes c.1)

/-- The calls of one layout. -/
def under (l : Layout) (calls : List (Layout × Call)) : List Call :=
  (calls.filter (·.1 = l)).map (·.2)

theorem under_concat (l : Layout) (calls : List (Layout × Call)) (c : Layout × Call) :
    under l (calls ++ [c]) = if c.1 = l then under l calls ++ [c.2] else under l calls := by
  rw [under, List.filter_append, List.map_append]
  by_cases h : c.1 = l
  · simp [under, h]
  · simp [under, h]

theorem mem_under {l : Layout} {calls : List (Layout × Call)} {c : Call} :
    c ∈ under l calls ↔ (l, c) ∈ calls := by
  simp [under]

theorem contents_eq_joint (l : Layout) (calls : List Call) :
    contents l calls = joint (calls.map (l, ·)) := by
  rw [joint, List.flatMap_map]
  rfl

theorem under_map (l : Layout) (calls : List Call) : under l (calls.map (l, ·)) = calls := by
  simp [under, List.filter_map, Function.comp_def]

theorem find?_aliases (key : Bytes) (aliases : List String) (k : Bytes) :
    (SortedMap.ofList (aliases.map fun a => (aliasKey a, key))).find? k =
      if ∃ a ∈ aliases, aliasKey a = k then some key else none := by
  induction aliases using List.reverseRecOn with
  | nil => simp [SortedMap.ofList]
  | append_singleton as a ih =>
    rw [List.map_append, List.map_singleton, SortedMap.ofList_concat, SortedMap.find?_insert, ih]
    by_cases h : k = aliasKey a
    · simp [h]
    · simp [h, Ne.symm h]

theorem find?_entries (key data : Bytes) (aliases : List String) (k : Bytes) :
    (SortedMap.ofList (entries key data aliases)).find? k =
      if ∃ a ∈ aliases, aliasKey a = k then some key else if k = key then some data else none := by
  have h := SortedMap.find?_ofList_append [(key, data)] (aliases.map fun a => (aliasKey a, key)) k
  have hr : (SortedMap.ofList [(key, data)]).find? k = if k = key then some data else none :=
    SortedMap.find?_insert _ _ _ _
  rw [entries, ← List.singleton_append, h, find?_aliases, hr]
  split <;> rfl

theorem find?_joint_concat (calls : List (Layout × Call)) (c : Layout × Call) (k : Bytes) :
    (joint (calls ++ [c])).find? k =
      ((SortedMap.ofList (c.2.writes c.1)).find? k).or ((joint calls).find? k) := by
  have hw : (calls ++ [c]).flatMap (fun c => c.2.writes c.1) =
      calls.flatMap (fun c => c.2.writes c.1) ++ c.2.writes c.1 := by
    simp
  rw [joint, hw, SortedMap.find?_ofList_append]
  rfl

theorem joint_concat (calls : List (Layout × Call)) (c : Layout × Call) (k : Bytes) :
    (joint (calls ++ [c])).find? k =
      if ∃ a ∈ c.2.aliases, aliasKey a = k then some (c.1.recordKey c.2.peer.identity)
      else if k = c.1.recordKey c.2.peer.identity then some c.2.peer.encode
      else (joint calls).find? k := by
  rw [find?_joint_concat, Call.writes, find?_entries]
  split
  · rfl
  · split <;> rfl

theorem record_or_alias {calls : List (Layout × Call)} {key : Bytes}
    (h : (joint calls).find? key ≠ none) :
    (∃ c ∈ calls, key = c.1.recordKey c.2.peer.identity) ∨ ∃ a, key = aliasKey a := by
  induction calls using List.reverseRecOn with
  | nil => exact absurd rfl h
  | append_singleton calls c ih =>
    rw [joint_concat] at h
    split at h
    · rename_i ha
      obtain ⟨a, -, rfl⟩ := ha
      exact .inr ⟨a, rfl⟩
    · split at h
      · exact .inl ⟨c, by simp, ‹_›⟩
      · refine (ih h).imp_left ?_
        rintro ⟨c', hc, hk⟩
        exact ⟨c', List.mem_append_left _ hc, hk⟩

/-- Under a record key stands the peer that a call of its layout stored last. No alias and no record
of the other layout gets in its way. -/
theorem joint_recordKey (calls : List (Layout × Call)) (l : Layout) (i : Identity) :
    (joint calls).find? (l.recordKey i) = (latest (under l calls) i).map Peer.encode := by
  induction calls using List.reverseRecOn with
  | nil => rfl
  | append_singleton calls c ih =>
    have ha : ¬ ∃ a ∈ c.2.aliases, aliasKey a = l.recordKey i := by
      rintro ⟨a, -, h⟩
      exact aliasKey_ne_recordKey a l i h
    rw [joint_concat, if_neg ha, under_concat, ih]
    by_cases hl : c.1 = l
    · rw [if_pos hl, latest_concat, hl]
      by_cases hi : c.2.peer.identity = i
      · rw [if_pos (by rw [hi]), if_pos hi]
        rfl
      · rw [if_neg (fun h => hi (Layout.recordKey_inj h).symm), if_neg hi]
    · rw [if_neg hl, if_neg (fun h => hl (Layout.eq_of_recordKey_eq h).symm)]

theorem find?_contents_concat (l : Layout) (calls : List Call) (c : Call) (k : Bytes) :
    (contents l (calls ++ [c])).find? k =
      ((SortedMap.ofList (c.writes l)).find? k).or ((contents l calls).find? k) := by
  rw [contents_eq_joint, contents_eq_joint, List.map_append]
  exact find?_joint_concat _ (l, c) k

theorem contents_concat (l : Layout) (calls : List Call) (c : Call) (k : Bytes) :
    (contents l (calls ++ [c])).find? k =
      if ∃ a ∈ c.aliases, aliasKey a = k then some (l.recordKey c.peer.identity)
      else if k = l.recordKey c.peer.identity then some c.peer.encode
      else (contents l calls).find? k := by
  rw [contents_eq_joint, contents_eq_joint, List.map_append]
  exact joint_concat _ (l, c) k

theorem recordKey_or_aliasKey {l : Layout} {calls : List Call} {key : Bytes}
    (h : (contents l calls).find? key ≠ none) :
    (∃ i, key = l.recordKey i) ∨ ∃ a, key = aliasKey a := by
  rw [contents_eq_joint] at h
  refine (record_or_alias h).imp_left ?_
  rintro ⟨c, hc, hk⟩
  obtain ⟨c', -, rfl⟩ := List.mem_map.mp hc
  exact ⟨_, hk⟩

theorem contents_recordKey (l : Layout) (calls : List Call) (i : Identity) :
    (contents l calls).find? (l.recordKey i) = (latest calls i).map Peer.encode := by
  rw [contents_eq_joint, joint_recordKey, under_map]

theorem contents_aliasKey (l : Layout) (calls : List Call) (a : String) :
    (contents l calls).find? (aliasKey a) = (owner calls a).map l.recordKey := by
  induction calls using List.reverseRecOn with
  | nil => rfl
  | append_singleton calls c ih =>
    have ha : (∃ b ∈ c.aliases, aliasKey b = aliasKey a) ↔ a ∈ c.aliases := by
      constructor
      · rintro ⟨b, hb, he⟩
        exact aliasKey_inj he ▸ hb
      · exact fun h => ⟨a, h, rfl⟩
    rw [contents_concat, owner_concat, ih, if_neg (aliasKey_ne_recordKey a l _)]
    simp only [ha]
    split <;> rfl

theorem identity_of_latest {calls : List Call} {i : Identity} {p : Peer}
    (h : latest calls i = some p) : p.identity = i := by
  obtain ⟨c, hc, rfl⟩ := Option.map_eq_some_iff.mp h
  exact of_decide_eq_true (List.mem_filter.mp (List.mem_of_getLast? hc)).2

theorem mem_of_latest {calls : List Call} {i : Identity} {p : Peer} (h : latest calls i = some p) :
    ∃ c ∈ calls, c.peer = p := by
  obtain ⟨c, hc, hp⟩ := Option.map_eq_some_iff.mp h
  exact ⟨c, (List.mem_filter.mp (List.mem_of_getLast? hc)).1, hp⟩

theorem latest_ne_none_of_owner {calls : List Call} {a : String} {i : Identity}
    (h : owner calls a = some i) : latest calls i ≠ none := by
  induction calls using List.reverseRecOn with
  | nil => simp [owner] at h
  | append_singleton calls c ih =>
    rw [owner_concat] at h
    rw [latest_concat]
    by_cases hi : c.peer.identity = i
    · simp [hi]
    · rw [if_neg hi]
      split at h
      · exact absurd (Option.some.inj h) hi
      · exact ih h

end PeerBook.Store
