import PeerBook.Proofs.Versions.Groups
import PeerBook.Proofs.Versions.View

/-! # What a scan gives

The bindings of a range that a point sees make up one list in ascending order
of keys. A scan goes through the chains of the range, looks at its limit only
after it has taken a binding, and so gives the front of that list, as long as
the limit allows for one binding at all.
-/

namespace PeerBook

/-- Where the keys of a range start. -/
def Start.Within : Start → Bytes → Prop
  | .first, _ => True
  | .at key, k => key ≤ k
  | .after key, k => key < k

theorem Start.admits_iff {start : Start} {k : Bytes} :
    start.admits k = true ↔ start.Within k := by
  cases start <;> simp [admits, Within]

namespace Table

variable {t : Table} {s : UInt64} {start : Start} {upper : Option Bytes} {limit : Nat}

/-- The bindings taken from chains in the order of their keys, when `taken` are there already: none
from a key that is not below the end of the range on, and none after the one that reaches the
limit. -/
def walk (s : UInt64) (upper : Option Bytes) (limit : Nat) :
    Nat → List (Bytes × Chain) → List Binding
  | _, [] => []
  | taken, (key, chain) :: rest =>
    if isBelow upper key then
      match chain.readAt s with
      | none => walk s upper limit taken rest
      | some value =>
        (key, value) :: if limit ≤ taken + 1 then [] else walk s upper limit (taken + 1) rest
    else []

/-- What point `s` sees of chains, each under its key. -/
def seen (s : UInt64) (l : List (Bytes × Chain)) : List Binding :=
  l.filterMap fun (key, chain) => (chain.readAt s).map fun value => (key, value)

theorem seen_cons (s : UInt64) (key : Bytes) (chain : Chain) (l : List (Bytes × Chain)) :
    seen s ((key, chain) :: l) =
      ((chain.readAt s).map fun value => (key, value)).toList ++ seen s l := by
  cases h : chain.readAt s <;> simp [seen, h]

theorem filter_seen (p : Bytes → Bool) (l : List (Bytes × Chain)) :
    (seen s l).filter (fun b => p b.1) = seen s (l.filter fun b => p b.1) := by
  induction l with
  | nil => rfl
  | cons b rest ih =>
    obtain ⟨key, chain⟩ := b
    rw [seen_cons, List.filter_append, ih]
    cases hp : p key with
    | false => cases chain.readAt s <;> simp [hp]
    | true => cases h : chain.readAt s <;> simp [hp, h, seen_cons]

theorem filter_isBelow_seen {l : List (Bytes × Chain)} {key : Bytes}
    (hl : ∀ b ∈ l, key < b.1) (hk : isBelow upper key = false) :
    (seen s l).filter (fun b => isBelow upper b.1) = [] := by
  rw [List.filter_eq_nil_iff]
  intro b hb hbelow
  obtain ⟨⟨key', chain⟩, hm, hread⟩ := List.mem_filterMap.mp hb
  obtain ⟨value, -, rfl⟩ := Option.map_eq_some_iff.mp hread
  simp [isBelow_of_lt (hl _ hm) hbelow] at hk

theorem walk_eq {l : List (Bytes × Chain)} (hl : l.Pairwise (·.1 < ·.1)) (taken : Nat) :
    walk s upper limit taken l =
      ((seen s l).filter fun b => isBelow upper b.1).take (max (limit - taken) 1) := by
  induction l generalizing taken with
  | nil => simp [walk, seen]
  | cons b rest ih =>
    obtain ⟨key, chain⟩ := b
    obtain ⟨hb, hrest⟩ := List.pairwise_cons.mp hl
    have ih := ih hrest
    rw [walk, seen_cons, List.filter_append]
    cases hk : isBelow upper key with
    | false =>
      rw [filter_isBelow_seen hb hk]
      cases chain.readAt s <;> simp [hk]
    | true =>
      cases chain.readAt s with
      | none => simp [ih]
      | some value =>
        have hmax : max (limit - taken) 1 = (limit - (taken + 1)) + 1 := by omega
        simp only [Option.map_some, Option.toList_some, List.filter_cons, hk, hmax, if_true,
          List.filter_nil, List.singleton_append, List.take_succ_cons, List.cons.injEq, true_and]
        split
        · rename_i hle
          simp [Nat.sub_eq_zero_of_le hle]
        · rename_i hgt
          rw [ih, Nat.max_eq_left (by omega)]

theorem scanAt_eq_walk (t : Table) (s : UInt64) (start : Start) (upper : Option Bytes)
    (limit : Nat) :
    t.scanAt s start upper limit =
      walk s upper limit 0 (t.chains.toList.filter fun b => start.admits b.1) := by
  have hview : (t.viewAt s).filter (fun b => start.admits b.1) =
      seen s (t.chains.toList.filter fun b => start.admits b.1) :=
    filter_seen start.admits t.chains.toList
  rw [walk_eq (t.chains.sorted.filter _), ← hview, List.filter_filter, scanAt_eq, Nat.sub_zero]
  simp only [Bool.and_comm]

/-- The bindings that point `s` sees in a range, in ascending order of keys. -/
structure Lists (t : Table) (s : UInt64) (start : Start) (upper : Option Bytes)
    (l : List Binding) : Prop where
  ascending : l.Pairwise (·.1 < ·.1)
  mem_iff : ∀ b : Binding, b ∈ l ↔
    b.1 ∈ t.keys ∧ start.Within b.1 ∧ (∀ u ∈ upper, b.1 < u) ∧ t.readAt b.1 s = some b.2

theorem Lists.unique {l l' : List Binding} (h : t.Lists s start upper l)
    (h' : t.Lists s start upper l') : l' = l := by
  apply SortedMap.eq_of_mem_iff h'.ascending h.ascending
  intro b
  rw [h.mem_iff, h'.mem_iff]

theorem lists_filter (t : Table) (s : UInt64) (start : Start) (upper : Option Bytes) :
    t.Lists s start upper
      ((t.viewAt s).filter fun b => start.admits b.1 && isBelow upper b.1) where
  ascending := (t.pairwise_viewAt s).filter _
  mem_iff b := by
    simp only [List.mem_filter, mem_viewAt, Bool.and_eq_true, Start.admits_iff,
      isBelow_eq_true_iff]
    constructor
    · rintro ⟨hread, hstart, hupper⟩
      exact ⟨mem_keys_of_readAt hread, hstart, hupper, hread⟩
    · rintro ⟨-, hstart, hupper, hread⟩
      exact ⟨hread, hstart, hupper⟩

theorem take_max_one_eq_take_iff {l : List Binding} :
    l.take (max limit 1) = l.take limit ↔ 1 ≤ limit ∨ l = [] := by
  rcases Nat.eq_zero_or_pos limit with rfl | hpos
  · cases l <;> simp
  · have hle : 1 ≤ limit := hpos
    simp [hle]

theorem length_take_max_one_le_iff {l : List Binding} :
    (l.take (max limit 1)).length ≤ limit ↔ 1 ≤ limit ∨ l = [] := by
  rcases Nat.eq_zero_or_pos limit with rfl | hpos
  · cases l <;> simp
  · have hle : 1 ≤ limit := hpos
    rw [Nat.max_eq_left hle]
    exact iff_of_true (List.length_take_le limit l) (.inl hle)

/-- A range has one list, and a scan, which walks over its chains, gives as many bindings from the
front of the list as the limit says, but one for a limit of zero, if there is one. -/
theorem scan_gives_front (t : Table) (s : UInt64) (start : Start) (upper : Option Bytes) :
    ∃ l, (∀ l', t.Lists s start upper l' ↔ l' = l) ∧ ∀ limit,
      t.scanAt s start upper limit =
          walk s upper limit 0 (t.chains.toList.filter fun b => start.admits b.1) ∧
        t.scanAt s start upper limit = l.take (max limit 1) ∧
        (t.scanAt s start upper limit = l.take limit ↔ 1 ≤ limit ∨ l = []) ∧
        ((t.scanAt s start upper limit).length ≤ limit ↔ 1 ≤ limit ∨ l = []) := by
  have hl := lists_filter t s start upper
  refine ⟨_, fun l' => ⟨hl.unique, ?_⟩, fun limit => ⟨scanAt_eq_walk t s start upper limit, ?_⟩⟩
  · rintro rfl
    exact hl
  · rw [scanAt_eq]
    exact ⟨rfl, take_max_one_eq_take_iff, length_take_max_one_le_iff⟩

/-- One key, and a scan of all keys with a limit of zero. -/
theorem scan_past_limit_zero :
    let t := ofGroups [⟨1, [([97], [49])], 0⟩]
    let l : List Binding := [([97], [49])]
    t.Lists 1 .first none l ∧ t.scanAt 1 .first none 0 = l ∧
      t.scanAt 1 .first none 0 ≠ l.take 0 ∧ ¬ (t.scanAt 1 .first none 0).length ≤ 0 := by
  intro t l
  have hl : t.Lists 1 .first none l := lists_filter t 1 .first none
  exact ⟨hl, by decide, by decide, by decide⟩

end Table

end PeerBook
