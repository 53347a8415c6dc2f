import PeerBook.Keyspace
import PeerBook.Proofs.Bytes
import PeerBook.Proofs.Text.Utf8

/-! # Keys do not meet

Different identities have different record keys, which are read back as these
identities; different aliases have different alias keys, and no alias key is a
record key. Record keys are in the order of kinds and then of ids as unsigned
numbers. The keys of the two layouts differ, but every record key starts with
the flat lead, the scoped ones behind all flat ones.
-/

namespace PeerBook

theorem Kind.tag_inj {k k' : Kind} (h : k.tag = k'.tag) : k = k' := by
  cases k <;> cases k' <;> first | rfl | exact absurd h (by decide)

theorem Kind.tag_lt_tag_iff {k k' : Kind} : k.tag < k'.tag ↔ k.rank < k'.rank := by
  cases k <;> cases k' <;> decide

theorem Kind.rank_eq_rank_iff {k k' : Kind} : k.rank = k'.rank ↔ k.tag = k'.tag := by
  cases k <;> cases k' <;> decide

theorem Kind.rank_inj {k k' : Kind} : k.rank = k'.rank ↔ k = k' := by
  cases k <;> cases k' <;> decide

theorem Kind.ofTag?_eq_some_iff {b : UInt8} {k : Kind} : ofTag? b = some k ↔ b = k.tag := by
  constructor
  · intro h
    have ht := List.find?_some h
    exact (of_decide_eq_true ht).symm
  · rintro rfl
    cases k <;> rfl

theorem toUInt64_lt_toUInt64_iff {a b : Int64} (h : a < 0 ↔ b < 0) :
    a.toUInt64 < b.toUInt64 ↔ a < b := by
  have hmsb : a.toBitVec.msb = b.toBitVec.msb := by
    rw [Int64.lt_iff_toInt_lt, Int64.lt_iff_toInt_lt] at h
    rw [BitVec.msb_eq_toInt, BitVec.msb_eq_toInt, decide_eq_decide]
    exact h
  rw [Int64.lt_iff_toBitVec_slt, BitVec.slt_eq_ult_of_msb_eq hmsb]
  simp [UInt64.lt_iff_toBitVec_lt, BitVec.ult_iff_lt]

/-- The order of record keys: kinds in their order, then ids as unsigned numbers. -/
def Identity.Before (i j : Identity) : Prop :=
  i.kind.rank < j.kind.rank ∨ i.kind.rank = j.kind.rank ∧ i.id.toUInt64 < j.id.toUInt64

theorem Identity.before_iff_precedes {i j : Identity}
    (h : i.kind ≠ j.kind ∨ (i.id < 0 ↔ j.id < 0)) : i.Before j ↔ i.Precedes j ∧ i ≠ j := by
  obtain ⟨k, a⟩ := i
  obtain ⟨k', b⟩ := j
  by_cases hk : k = k'
  · subst hk
    have hlt := toUInt64_lt_toUInt64_iff (h.resolve_left fun hn => hn rfl)
    simp [Before, Precedes, hlt, Int64.lt_iff_le_and_ne]
  · have hr : k.rank ≠ k'.rank := fun h => hk (Kind.rank_inj.mp h)
    simp [Before, Precedes, hk, hr]

namespace Layout

variable {l : Layout} {i j : Identity}

theorem recordKey_inj (h : l.recordKey i = l.recordKey j) : i = j := by
  obtain ⟨ht, hb⟩ := List.cons.inj (List.append_cancel_left h)
  have hk : i.kind = j.kind := Kind.tag_inj ht
  have hn := Bytes.bigEndian_inj 8 i.id.toUInt64.toNat_lt j.id.toUInt64.toNat_lt hb
  have hid : i.id = j.id := by
    have he := congrArg UInt64.toInt64 (UInt64.toNat_inj.mp hn)
    rwa [Int64.toInt64_toUInt64, Int64.toInt64_toUInt64] at he
  cases i
  cases j
  cases hk
  cases hid
  rfl

theorem recordKey_lt_recordKey_iff : l.recordKey i < l.recordKey j ↔ i.Before j := by
  rw [recordKey, recordKey, Bytes.append_lt_append_iff, List.cons_lt_cons_iff,
    Bytes.bigEndian_lt_bigEndian_iff 8 i.id.toUInt64.toNat_lt j.id.toUInt64.toNat_lt,
    Kind.tag_lt_tag_iff, ← Kind.rank_eq_rank_iff, ← UInt64.lt_iff_toNat_lt, Identity.Before]

theorem isRecordKey_iff {key : Bytes} : l.isRecordKey key = true ↔ l.recordLead <+: key :=
  List.isPrefixOf_iff_prefix

theorem identity?_eq_some_iff {key : Bytes} : l.identity? key = some i ↔ key = l.recordKey i := by
  constructor
  · intro h
    unfold identity? at h
    split at h
    · rename_i hk
      obtain ⟨rest, rfl⟩ := isRecordKey_iff.mp hk
      rw [List.drop_left] at h
      split at h
      · rename_i tag id
        split at h
        · rename_i hl
          obtain ⟨kind, hkind, rfl⟩ := Option.map_eq_some_iff.mp h
          have hid : Bytes.ofBigEndian id < 256 ^ 8 := by
            have hlt := Bytes.ofBigEndian_lt id
            rwa [hl] at hlt
          rw [recordKey, ← Kind.ofTag?_eq_some_iff.mp hkind, UInt64.toUInt64_toInt64,
            UInt64.toNat_ofNat_of_lt' hid, ← hl, Bytes.bigEndian_ofBigEndian]
        · cases h
      · cases h
    · cases h
  · rintro rfl
    have hk : l.isRecordKey (l.recordKey i) = true := isRecordKey_iff.mpr (List.prefix_append _ _)
    have hid := Bytes.ofBigEndian_bigEndian_of_lt 8 i.id.toUInt64.toNat_lt
    rw [identity?, if_pos hk, recordKey, List.drop_left]
    simp [hid, Kind.ofTag?_eq_some_iff.mpr rfl]

theorem eq_of_recordKey_eq {l' : Layout} (h : l.recordKey i = l'.recordKey j) : l = l' := by
  have hl := congrArg List.length h
  cases l <;> cases l' <;> first | rfl | simp [recordKey, recordLead] at hl

theorem flatLead_isPrefix (l : Layout) (i : Identity) : flat.recordLead <+: l.recordKey i := by
  match l with
  | .scoped => exact ⟨_, rfl⟩
  | .flat => exact List.prefix_append _ _

theorem scopedLead_isPrefix_iff : Layout.scoped.recordLead <+: l.recordKey i ↔ l = .scoped := by
  constructor
  · rintro ⟨rest, h⟩
    match l with
    | .scoped => rfl
    | .flat =>
      have ht : 0x70 = i.kind.tag := (List.cons.inj (List.cons.inj h).2).1
      cases hk : i.kind <;> rw [hk] at ht <;> exact absurd ht (by decide)
  · rintro rfl
    exact List.prefix_append _ _

theorem flat_recordKey_lt_scoped (i j : Identity) :
    flat.recordKey i < Layout.scoped.recordKey j := by
  have ht : i.kind.tag < 0x70 := by cases i.kind <;> decide
  exact List.cons_lt_cons_iff.mpr (.inr ⟨rfl, List.cons_lt_cons_iff.mpr (.inl ht)⟩)

/-- A key is read as an identity exactly if it is the record key of this identity; so different
identities have different keys, and no key of the other layout is read. Keys are in the order of
kinds, and within a kind in the order of ids as unsigned numbers. This is the order of identities
where the kinds differ or the ids have the same sign. -/
theorem recordKey_reads_back (l : Layout) (key : Bytes) (i j : Identity) :
    (l.identity? key = some i ↔ key = l.recordKey i) ∧
    (l.recordKey i = l.recordKey j ↔ i = j) ∧
    (∀ l', l' ≠ l → l.identity? (l'.recordKey i) = none) ∧
    (l.recordKey i < l.recordKey j ↔
      i.kind.rank < j.kind.rank ∨ i.kind = j.kind ∧ i.id.toUInt64 < j.id.toUInt64) ∧
    (i.kind ≠ j.kind ∨ (i.id < 0 ↔ j.id < 0) →
      (l.recordKey i < l.recordKey j ↔ i.Precedes j ∧ i ≠ j)) := by
  refine ⟨identity?_eq_some_iff, ⟨recordKey_inj, congrArg _⟩, ?_, ?_, ?_⟩
  · intro l' hl
    rw [Option.eq_none_iff_forall_ne_some]
    intro k hk
    exact hl (eq_of_recordKey_eq (identity?_eq_some_iff.mp hk))
  · rw [recordKey_lt_recordKey_iff, Identity.Before, Kind.rank_inj]
  · intro h
    rw [recordKey_lt_recordKey_iff, Identity.before_iff_precedes h]

theorem recordKey_reads_back_negative :
    let i : Identity := ⟨.chat, -5⟩
    let j : Identity := ⟨.chat, -3⟩
    flat.identity? (flat.recordKey i) = some i ∧
      flat.identity? (Layout.scoped.recordKey i) = none ∧ flat.recordKey i < flat.recordKey j := by
  intro i j
  obtain ⟨hr, -, ho, -, hs⟩ := recordKey_reads_back .flat (flat.recordKey i) i j
  exact ⟨hr.mpr rfl, ho .scoped (by decide), (hs (by decide)).mpr (by decide)⟩

theorem recordLead_eq_cons (l : Layout) : ∃ rest, l.recordLead = 0xFE :: rest := by
  cases l <;> exact ⟨_, rfl⟩

theorem mem_recordLead (l : Layout) : 0xFE ∈ l.recordLead := by
  cases l <;> decide

end Layout

theorem aliasKey_inj {a b : String} (h : aliasKey a = aliasKey b) : a = b :=
  Utf8.encode_inj h

theorem not_mem_aliasKey (a : String) : 0xFE ∉ aliasKey a :=
  fun h => absurd (Utf8.le_of_mem_encode h) (by decide)

theorem not_recordLead_prefix_aliasKey (l : Layout) (a : String) : ¬ l.recordLead <+: aliasKey a :=
  fun h => not_mem_aliasKey a (h.subset l.mem_recordLead)

theorem aliasKey_ne_recordKey (a : String) (l : Layout) (i : Identity) :
    aliasKey a ≠ l.recordKey i :=
  fun h => not_recordLead_prefix_aliasKey l a (h ▸ List.prefix_append _ _)

theorem aliasKey_isPrefix_recordKey_iff {a : String} {l : Layout} {i : Identity} :
    aliasKey a <+: l.recordKey i ↔ a = "" := by
  constructor
  · intro h
    obtain ⟨rest, hl⟩ := l.recordLead_eq_cons
    rw [Layout.recordKey, hl, List.cons_append] at h
    cases hk : aliasKey a with
    | nil => exact aliasKey_inj hk
    | cons b bs =>
      rw [hk] at h
      obtain ⟨rfl, -⟩ := List.cons_prefix_cons.mp h
      exact absurd (hk ▸ List.mem_cons_self) (not_mem_aliasKey a)
  · rintro rfl
    exact List.nil_prefix

/-- The key of an alias is no record key of either layout: it does not start like one, is not read
as an identity and stands outside the range of the records. Neither is the start of the other, but
for the empty alias, whose key is empty. -/
theorem aliasKey_apart (a : String) (l : Layout) :
    l.isRecordKey (aliasKey a) = false ∧
    l.identity? (aliasKey a) = none ∧
    (∀ i, aliasKey a ≠ l.recordKey i) ∧
    ¬ (l.recordLead ≤ aliasKey a ∧ ∀ upper ∈ Bytes.bound? l.recordLead, aliasKey a < upper) ∧
    ∀ i, ¬ l.recordKey i <+: aliasKey a ∧ (aliasKey a <+: l.recordKey i ↔ a = "") := by
  have hlead := not_recordLead_prefix_aliasKey l a
  refine ⟨?_, ?_, fun i => aliasKey_ne_recordKey a l i, ?_, fun i => ⟨?_, ?_⟩⟩
  · rwa [Bool.eq_false_iff, Ne, Layout.isRecordKey_iff]
  · rw [Option.eq_none_iff_forall_ne_some]
    intro i hi
    exact aliasKey_ne_recordKey a l i (Layout.identity?_eq_some_iff.mp hi)
  · rwa [← Bytes.prefix_iff_le_and_lt_bound]
  · exact fun h => hlead ((List.prefix_append _ _).trans h)
  · exact aliasKey_isPrefix_recordKey_iff

end PeerBook
