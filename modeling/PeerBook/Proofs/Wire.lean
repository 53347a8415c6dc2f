import PeerBook.Proofs.Bytes
import PeerBook.Proofs.Text.Utf8
import PeerBook.Wire

/-! # Reading back what was written

A reader reads certain bytes as a value if it takes exactly them off the
front of whatever starts with them. Readers one after another read what was
written one after another. A reader that pays no heed to the bytes behind those
it takes fails where some of them are missing. A reader is exact if what it takes
as a value is what would be written for it.
-/

namespace PeerBook.Wire

variable {α β : Type} {get : Reader α} {bs bs' rest : Bytes} {a : α} {b : β}

theorem bind_eq_ok_iff {f : α → Reader β} :
    (get >>= f) bs = .ok (b, rest) ↔
      ∃ a mid, get bs = .ok (a, mid) ∧ f a mid = .ok (b, rest) := by
  change (get bs).bind (fun p => f p.1 p.2) = .ok (b, rest) ↔ _
  cases hg : get bs with
  | error failure => simp [Except.bind]
  | ok p =>
    constructor
    · intro h
      exact ⟨p.1, p.2, rfl, h⟩
    · rintro ⟨a, mid, hp, h⟩
      cases hp
      exact h

theorem map_eq_ok_iff {f : α → β} :
    (get >>= fun a => Pure.pure (f a)) bs = .ok (b, rest) ↔
      ∃ a, get bs = .ok (a, rest) ∧ f a = b := by
  rw [bind_eq_ok_iff]
  constructor
  · rintro ⟨a, mid, hg, hf⟩
    cases hf
    exact ⟨a, hg, rfl⟩
  · rintro ⟨a, hg, rfl⟩
    exact ⟨a, rest, hg, rfl⟩

theorem take_eq_ok_iff {n : Nat} {taken : Bytes} :
    take n bs = .ok (taken, rest) ↔ bs = taken ++ rest ∧ taken.length = n := by
  unfold take
  constructor
  · intro h
    split at h
    · rename_i hn
      cases h
      exact ⟨(List.take_append_drop n bs).symm, List.length_take_of_le hn⟩
    · cases h
  · rintro ⟨rfl, rfl⟩
    simp

theorem takeText_eq_ok_iff {n : Nat} {s : String} :
    takeText n bs = .ok (s, rest) ↔ bs = Utf8.encode s ++ rest ∧ (Utf8.encode s).length = n := by
  constructor
  · intro h
    unfold takeText at h
    split at h
    · rename_i hn
      cases hd : Utf8.decode (bs.take n) with
      | error fault =>
        rw [hd] at h
        cases h
      | ok t =>
        rw [hd] at h
        cases h
        rw [← Utf8.decode_eq_ok_iff.mp hd]
        exact ⟨(List.take_append_drop n bs).symm, List.length_take_of_le hn⟩
    · cases h
  · rintro ⟨rfl, rfl⟩
    simp [takeText, Utf8.decode_encode]

/-- The reader takes these bytes as this value, whatever comes behind them. -/
def Reads {α : Type} (get : Reader α) (bs : Bytes) (a : α) : Prop :=
  ∀ rest, get (bs ++ rest) = .ok (a, rest)

theorem Reads.read (h : Reads get bs a) (rest : Bytes) : read get (bs ++ rest) = .ok a := by
  rw [Wire.read, h rest]

theorem Reads.pure (a : α) : Reads (Pure.pure a) [] a := fun _ => rfl

theorem Reads.bind {f : α → Reader β} (h : Reads get bs a) (h' : Reads (f a) bs' b) :
    Reads (get >>= f) (bs ++ bs') b := by
  intro rest
  rw [List.append_assoc]
  exact bind_eq_ok_iff.mpr ⟨a, bs' ++ rest, h _, h' rest⟩

theorem Reads.map (h : Reads get bs a) (f : α → β) :
    Reads (get >>= fun a => Pure.pure (f a)) bs (f a) :=
  fun rest => map_eq_ok_iff.mpr ⟨a, h rest, rfl⟩

theorem reads_take {n : Nat} (h : bs.length = n) : Reads (take n) bs bs :=
  fun _ => take_eq_ok_iff.mpr ⟨rfl, h⟩

@[simp] theorem length_putUInt32 (n : UInt32) : (putUInt32 n).length = 4 :=
  Bytes.length_littleEndian 4 n.toNat

@[simp] theorem length_putUInt64 (n : UInt64) : (putUInt64 n).length = 8 :=
  Bytes.length_littleEndian 8 n.toNat

@[simp] theorem length_putBytes (bs : Bytes) : (putBytes bs).length = 8 + bs.length := by
  simp [putBytes, putCount]

@[simp] theorem length_putList (put : α → Bytes) (as : List α) :
    (putList put as).length = 8 + (as.flatMap put).length := by
  simp [putList, putCount]

@[simp] theorem length_putText (s : String) : (putText s).length = 8 + (Utf8.encode s).length :=
  length_putBytes _

theorem length_lt_putOption {put : α → Bytes} {o : Option α} (h : a ∈ o) :
    (put a).length < (putOption put o).length := by
  rw [Option.mem_def.mp h, putOption, List.length_cons]
  omega

theorem length_le_flatMap (put : α → Bytes) {as : List α} (h : a ∈ as) :
    (put a).length ≤ (as.flatMap put).length := by
  obtain ⟨as, as', rfl⟩ := List.append_of_mem h
  simp only [List.flatMap_append, List.flatMap_cons, List.length_append]
  omega

theorem length_le_length_flatMap (put : α → Bytes) (h : ∀ a, 0 < (put a).length) (as : List α) :
    as.length ≤ (as.flatMap put).length := by
  induction as with
  | nil => exact Nat.zero_le _
  | cons a as ih =>
    have := h a
    rw [List.flatMap_cons, List.length_append, List.length_cons]
    omega

theorem ofLittleEndian_putUInt32 (n : UInt32) : Bytes.ofLittleEndian (putUInt32 n) = n.toNat :=
  Bytes.ofLittleEndian_littleEndian_of_lt 4 n.toNat_lt

theorem ofLittleEndian_putUInt64 (n : UInt64) : Bytes.ofLittleEndian (putUInt64 n) = n.toNat :=
  Bytes.ofLittleEndian_littleEndian_of_lt 8 n.toNat_lt

theorem putUInt32_ofLittleEndian {bs : Bytes} (h : bs.length = 4) :
    putUInt32 (UInt32.ofNat (Bytes.ofLittleEndian bs)) = bs := by
  have hl := Bytes.ofLittleEndian_lt bs
  have hb := Bytes.littleEndian_ofLittleEndian bs
  rw [h] at hl hb
  rw [putUInt32, UInt32.toNat_ofNat_of_lt' hl, hb]

theorem putUInt64_ofLittleEndian {bs : Bytes} (h : bs.length = 8) :
    putUInt64 (UInt64.ofNat (Bytes.ofLittleEndian bs)) = bs := by
  have hl := Bytes.ofLittleEndian_lt bs
  have hb := Bytes.littleEndian_ofLittleEndian bs
  rw [h] at hl hb
  rw [putUInt64, UInt64.toNat_ofNat_of_lt' hl, hb]

theorem reads_uint8 (b : UInt8) : Reads getUInt8 [b] b := fun _ => rfl

theorem reads_uint32 (n : UInt32) : Reads getUInt32 (putUInt32 n) n := by
  have h : Reads getUInt32 (putUInt32 n) (UInt32.ofNat (Bytes.ofLittleEndian (putUInt32 n))) :=
    (reads_take (length_putUInt32 n)).map _
  rwa [ofLittleEndian_putUInt32, UInt32.ofNat_toNat] at h

theorem reads_uint64 (n : UInt64) : Reads getUInt64 (putUInt64 n) n := by
  have h : Reads getUInt64 (putUInt64 n) (UInt64.ofNat (Bytes.ofLittleEndian (putUInt64 n))) :=
    (reads_take (length_putUInt64 n)).map _
  rwa [ofLittleEndian_putUInt64, UInt64.ofNat_toNat] at h

theorem reads_int64 (n : Int64) : Reads getInt64 (putInt64 n) n := by
  have h := (reads_uint64 n.toUInt64).map UInt64.toInt64
  rwa [Int64.toInt64_toUInt64] at h

theorem reads_count {n : Nat} (h : n < 2 ^ 64) : Reads getCount (putCount n) n := by
  have hn : (UInt64.ofNat n).toNat = n := UInt64.toNat_ofNat_of_lt' h
  have hr := (reads_uint64 (UInt64.ofNat n)).map UInt64.toNat
  rwa [hn, putUInt64, hn] at hr

theorem reads_bytes (h : bs.length < 2 ^ 64) : Reads getBytes (putBytes bs) bs :=
  (reads_count h).bind (reads_take rfl)

theorem reads_text {s : String} (h : (Utf8.encode s).length < 2 ^ 64) :
    Reads getText (putText s) s := by
  have ht : Reads (takeText (Utf8.encode s).length) (Utf8.encode s) s :=
    fun _ => takeText_eq_ok_iff.mpr ⟨rfl, rfl⟩
  exact (reads_count h).bind ht

theorem reads_option {put : α → Bytes} (o : Option α) (h : ∀ a ∈ o, Reads get (put a) a) :
    Reads (getOption get) (putOption put o) o := by
  cases o with
  | none => exact (reads_uint8 0).bind (.pure none)
  | some a => exact (reads_uint8 1).bind ((h a rfl).map some)

theorem reads_pair {getFirst : Reader α} {getSecond : Reader β} {putFirst : α → Bytes}
    {putSecond : β → Bytes} (ha : Reads getFirst (putFirst a) a)
    (hb : Reads getSecond (putSecond b) b) :
    Reads (getPair getFirst getSecond) (putPair putFirst putSecond (a, b)) (a, b) :=
  ha.bind (hb.map fun b => (a, b))

theorem reads_times {put : α → Bytes} (as : List α) (h : ∀ a ∈ as, Reads get (put a) a) :
    Reads (getTimes get as.length) (as.flatMap put) as := by
  induction as with
  | nil => exact .pure []
  | cons a as ih =>
    obtain ⟨ha, has⟩ := List.forall_mem_cons.mp h
    exact ha.bind ((ih has).map (a :: ·))

theorem reads_list {put : α → Bytes} {as : List α} (hl : as.length < 2 ^ 64)
    (h : ∀ a ∈ as, Reads get (put a) a) : Reads (getList get) (putList put as) as :=
  (reads_count hl).bind (reads_times as h)

theorem reads_variant {variants : List α} (index : UInt32) (h : variants[index.toNat]? = some a) :
    Reads (getVariant variants) (putUInt32 index) a := by
  unfold getVariant
  rw [← List.append_nil (putUInt32 index)]
  refine (reads_uint32 index).bind ?_
  rw [h]
  exact .pure a

/-- Bytes behind those that the reader is given do not change what it takes. -/
def Steady {α : Type} (get : Reader α) : Prop :=
  ∀ ⦃bs a rest⦄, get bs = .ok (a, rest) → ∀ more, get (bs ++ more) = .ok (a, rest ++ more)

theorem Reads.read_part {part : Bytes} (h : Reads get bs a) (hs : Steady get) (hp : part <+: bs)
    (hne : part ≠ bs) : ∃ failure, Wire.read get part = .error failure := by
  obtain ⟨lost, rfl⟩ := hp
  cases hg : get part with
  | error failure => exact ⟨failure, by rw [Wire.read, hg]⟩
  | ok p =>
    have hb := hs hg lost
    rw [← List.append_nil (part ++ lost), h] at hb
    injection hb with hb
    have hl : lost = [] := (List.append_eq_nil_iff.mp (congrArg Prod.snd hb).symm).2
    rw [hl, List.append_nil] at hne
    exact absurd rfl hne

theorem Steady.pure (a : α) : Steady (Pure.pure a) := by
  intro bs a rest h more
  cases h
  rfl

theorem steady_fail (failure : Failure) : Steady (fail (α := α) failure) := by
  intro bs a rest h
  cases h

theorem Steady.bind {f : α → Reader β} (h : Steady get) (h' : ∀ a, Steady (f a)) :
    Steady (get >>= f) := by
  intro bs b rest hb more
  obtain ⟨a, mid, hg, hf⟩ := bind_eq_ok_iff.mp hb
  exact bind_eq_ok_iff.mpr ⟨a, mid ++ more, h hg more, h' a hf more⟩

theorem Steady.map (h : Steady get) (f : α → β) : Steady (get >>= fun a => Pure.pure (f a)) :=
  h.bind fun a => .pure (f a)

theorem steady_take (n : Nat) : Steady (take n) := by
  intro bs taken rest h more
  obtain ⟨rfl, hn⟩ := take_eq_ok_iff.mp h
  exact take_eq_ok_iff.mpr ⟨List.append_assoc _ _ _, hn⟩

theorem steady_takeText (n : Nat) : Steady (takeText n) := by
  intro bs s rest h more
  obtain ⟨rfl, hn⟩ := takeText_eq_ok_iff.mp h
  exact takeText_eq_ok_iff.mpr ⟨List.append_assoc _ _ _, hn⟩

theorem steady_uint8 : Steady getUInt8 := by
  intro bs b rest h more
  cases bs with
  | nil => cases h
  | cons c bs =>
    cases h
    rfl

theorem steady_uint32 : Steady getUInt32 :=
  (steady_take 4).map _

theorem steady_uint64 : Steady getUInt64 :=
  (steady_take 8).map _

theorem steady_int64 : Steady getInt64 :=
  steady_uint64.map _

theorem steady_count : Steady getCount :=
  steady_uint64.map _

theorem steady_text : Steady getText :=
  steady_count.bind steady_takeText

theorem steady_option (h : Steady get) : Steady (getOption get) := by
  apply steady_uint8.bind
  intro tag
  split
  · exact .pure none
  · exact h.map some
  · exact steady_fail _

theorem steady_pair {getFirst : Reader α} {getSecond : Reader β} (ha : Steady getFirst)
    (hb : Steady getSecond) : Steady (getPair getFirst getSecond) :=
  ha.bind fun a => hb.map fun b => (a, b)

theorem steady_times (h : Steady get) (n : Nat) : Steady (getTimes get n) := by
  induction n with
  | zero => exact .pure []
  | succ n ih => exact h.bind fun a => ih.map (a :: ·)

theorem steady_list (h : Steady get) : Steady (getList get) :=
  steady_count.bind (steady_times h)

theorem steady_variant (variants : List α) : Steady (getVariant variants) := by
  apply steady_uint32.bind
  intro index
  split
  · exact .pure _
  · exact steady_fail _

/-- What the reader takes as a value is what is written for it. -/
def Exact {α : Type} (get : Reader α) (put : α → Bytes) : Prop :=
  ∀ ⦃bs a rest⦄, get bs = .ok (a, rest) → bs = put a ++ rest

section

variable {put : α → Bytes}

theorem Exact.read_eq_ok_iff (hx : Exact get put) (hr : put a <+: bs → Reads get (put a) a) :
    read get bs = .ok a ↔ put a <+: bs := by
  constructor
  · intro h
    unfold Wire.read at h
    split at h
    · rename_i rest hg
      cases h
      exact ⟨rest, (hx hg).symm⟩
    · cases h
  · intro hp
    obtain ⟨rest, rfl⟩ := hp
    exact (hr ⟨rest, rfl⟩).read rest

theorem exact_uint32 : Exact getUInt32 putUInt32 := by
  intro bs n rest h
  obtain ⟨taken, ht, rfl⟩ := map_eq_ok_iff.mp h
  obtain ⟨rfl, hl⟩ := take_eq_ok_iff.mp ht
  rw [putUInt32_ofLittleEndian hl]

theorem exact_uint64 : Exact getUInt64 putUInt64 := by
  intro bs n rest h
  obtain ⟨taken, ht, rfl⟩ := map_eq_ok_iff.mp h
  obtain ⟨rfl, hl⟩ := take_eq_ok_iff.mp ht
  rw [putUInt64_ofLittleEndian hl]

theorem exact_int64 : Exact getInt64 putInt64 := by
  intro bs n rest h
  obtain ⟨n, hn, rfl⟩ := map_eq_ok_iff.mp h
  rw [exact_uint64 hn, putInt64, UInt64.toUInt64_toInt64]

theorem exact_count : Exact getCount putCount := by
  intro bs n rest h
  obtain ⟨n, hn, rfl⟩ := map_eq_ok_iff.mp h
  exact exact_uint64 hn

theorem variant_eq_ok {variants : List α} (h : getVariant variants bs = .ok (a, rest)) :
    ∃ index, bs = putUInt32 index ++ rest ∧ variants[index.toNat]? = some a := by
  obtain ⟨index, mid, hi, h⟩ := bind_eq_ok_iff.mp h
  refine ⟨index, ?_⟩
  rw [exact_uint32 hi]
  cases hv : variants[index.toNat]? with
  | none =>
    rw [hv] at h
    cases h
  | some a' =>
    rw [hv] at h
    cases h
    exact ⟨rfl, rfl⟩

end

end PeerBook.Wire
