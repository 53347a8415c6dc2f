/-! # Sorted maps

Finite maps kept as lists of bindings in strictly ascending order of keys.
-/

namespace PeerBook

structure SortedMap (κ ν : Type) [LT κ] where
  toList : List (κ × ν)
  sorted : toList.Pairwise (·.1 < ·.1)

namespace SortedMap

variable {κ ν : Type} [LT κ]

def empty : SortedMap κ ν where
  toList := []
  sorted := .nil

instance : Inhabited (SortedMap κ ν) := ⟨empty⟩

theorem ext_toList {m m' : SortedMap κ ν} (h : m.toList = m'.toList) : m = m' := by
  cases m; cases m'; cases h; rfl

instance [DecidableEq κ] [DecidableEq ν] : DecidableEq (SortedMap κ ν) := fun m m' =>
  if h : m.toList = m'.toList then .isTrue (ext_toList h) else .isFalse fun e => h (e ▸ rfl)

def size (m : SortedMap κ ν) : Nat :=
  m.toList.length

def isEmpty (m : SortedMap κ ν) : Bool :=
  m.toList.isEmpty

/-- The least key. -/
def minKey? (m : SortedMap κ ν) : Option κ :=
  m.toList.head?.map (·.1)

variable [DecidableLT κ]

def findIn (k : κ) : List (κ × ν) → Option ν
  | [] => none
  | (k', v) :: rest => if k < k' then none else if k' < k then findIn k rest else some v

def find? (m : SortedMap κ ν) (k : κ) : Option ν :=
  findIn k m.toList

def insertIn (k : κ) (v : ν) : List (κ × ν) → List (κ × ν)
  | [] => [(k, v)]
  | (k', v') :: rest =>
    if k < k' then (k, v) :: (k', v') :: rest
    else if k' < k then (k', v') :: insertIn k v rest
    else (k', v) :: rest

theorem exists_of_mem_insertIn {k : κ} {v : ν} {l : List (κ × ν)} {b : κ × ν}
    (h : b ∈ insertIn k v l) : b.1 = k ∨ ∃ w, (b.1, w) ∈ l := by
  induction l with
  | nil => simp_all [insertIn]
  | cons a rest ih => grind [insertIn]

/-- Removes what `k` is bound to. -/
def erase (m : SortedMap κ ν) (k : κ) : SortedMap κ ν where
  toList := m.toList.filter fun b => b.1 < k || k < b.1
  sorted := m.sorted.filter _

variable [LE κ] [Std.IsLinearOrder κ] [Std.LawfulOrderLT κ]

theorem pairwise_insertIn (k : κ) (v : ν) {l : List (κ × ν)} (h : l.Pairwise (·.1 < ·.1)) :
    (insertIn k v l).Pairwise (·.1 < ·.1) := by
  induction l with
  | nil => simp [insertIn]
  | cons a rest ih =>
    obtain ⟨k', v'⟩ := a
    rw [List.pairwise_cons] at h
    unfold insertIn
    split
    · rename_i hlt
      refine List.pairwise_cons.mpr ⟨?_, List.pairwise_cons.mpr h⟩
      intro b hb
      cases hb with
      | head => exact hlt
      | tail _ hb => exact Std.lt_trans hlt (h.1 b hb)
    · split
      · rename_i hlt
        refine List.pairwise_cons.mpr ⟨?_, ih h.2⟩
        intro b hb
        obtain heq | ⟨w, hw⟩ := exists_of_mem_insertIn hb
        · exact heq ▸ hlt
        · exact h.1 (b.1, w) hw
      · exact List.pairwise_cons.mpr h

/-- Binds `k` to `v`, in place of what it was bound to. -/
def insert (m : SortedMap κ ν) (k : κ) (v : ν) : SortedMap κ ν where
  toList := insertIn k v m.toList
  sorted := pairwise_insertIn k v m.sorted

/-- The map that `bindings` build one after another: a later one wins. -/
def ofList (bindings : List (κ × ν)) : SortedMap κ ν :=
  bindings.foldl (fun m b => m.insert b.1 b.2) empty

end SortedMap

end PeerBook
