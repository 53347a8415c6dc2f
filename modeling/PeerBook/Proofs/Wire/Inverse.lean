import PeerBook.Proofs.Wire

/-! # What readers take and what they refuse

A reader inverts a writer if what it takes are the written forms of the values
that fit, which is to say whose lengths fit in the counts. Byte strings and
texts are inverted, and options, pairs and sequences if their parts are. A
reader that refuses bytes fails whatever comes behind them, and so does one
that other bytes lead to it.
-/

namespace PeerBook.Wire

variable {α β : Type} {get : Reader α} {bs bs' rest : Bytes} {a : α} {b : β}

/-- The reader takes the written forms of the values that fit, and nothing else. -/
def Inverts {α : Type} (get : Reader α) (put : α → Bytes) (Fits : α → Prop) : Prop :=
  ∀ ⦃bs a rest⦄, get bs = .ok (a, rest) ↔ Fits a ∧ bs = put a ++ rest

section

variable {put : α → Bytes} {Fits : α → Prop}

theorem Inverts.reads (h : Inverts get put Fits) (ha : Fits a) : Reads get (put a) a :=
  fun _ => h.mpr ⟨ha, rfl⟩

theorem Inverts.exact (h : Inverts get put Fits) : Exact get put :=
  fun _ _ _ hget => (h.mp hget).2

theorem Inverts.inj (h : Inverts get put Fits) {a' : α} (ha : Fits a) (ha' : Fits a')
    (he : put a = put a') : a = a' := by
  have hr := (h.reads ha []).symm
  rw [he, h.reads ha'] at hr
  cases hr
  rfl

theorem inverts_count : Inverts getCount putCount (· < 2 ^ 64) := by
  intro bs n rest
  constructor
  · intro h
    refine ⟨?_, exact_count h⟩
    obtain ⟨n, -, rfl⟩ := map_eq_ok_iff.mp h
    exact n.toNat_lt
  · rintro ⟨hn, rfl⟩
    exact reads_count hn rest

theorem inverts_bytes : Inverts getBytes putBytes (·.length < 2 ^ 64) := by
  intro bs taken rest
  constructor
  · intro h
    obtain ⟨n, mid, hn, ht⟩ := bind_eq_ok_iff.mp h
    obtain ⟨rfl, rfl⟩ := take_eq_ok_iff.mp ht
    obtain ⟨hfits, rfl⟩ := inverts_count.mp hn
    exact ⟨hfits, (List.append_assoc _ _ _).symm⟩
  · rintro ⟨hl, rfl⟩
    exact reads_bytes hl rest

/-- The length of the text fits in a count. -/
def TextFits (s : String) : Prop :=
  (Utf8.encode s).length < 2 ^ 64

theorem inverts_text : Inverts getText putText TextFits := by
  intro bs s rest
  constructor
  · intro h
    obtain ⟨n, mid, hn, ht⟩ := bind_eq_ok_iff.mp h
    obtain ⟨rfl, rfl⟩ := takeText_eq_ok_iff.mp ht
    obtain ⟨hfits, rfl⟩ := inverts_count.mp hn
    exact ⟨hfits, (List.append_assoc _ _ _).symm⟩
  · rintro ⟨hs, rfl⟩
    exact reads_text hs rest

theorem Inverts.option (h : Inverts get put Fits) :
    Inverts (getOption get) (putOption put) fun o => ∀ a ∈ o, Fits a := by
  intro bs o rest
  constructor
  · intro ho
    obtain ⟨tag, mid, htag, hget⟩ := bind_eq_ok_iff.mp ho
    cases bs with
    | nil => cases htag
    | cons b bs =>
      cases htag
      split at hget
      · cases hget
        simp [putOption]
      · obtain ⟨a, ha, rfl⟩ := map_eq_ok_iff.mp hget
        obtain ⟨hfits, rfl⟩ := h.mp ha
        simp [putOption, hfits]
      · cases hget
  · rintro ⟨hfits, rfl⟩
    exact reads_option o (fun a ha => h.reads (hfits a ha)) rest

theorem Inverts.pair {getSecond : Reader β} {putSecond : β → Bytes} {FitsSecond : β → Prop}
    (h : Inverts get put Fits) (h' : Inverts getSecond putSecond FitsSecond) :
    Inverts (getPair get getSecond) (putPair put putSecond)
      fun p => Fits p.1 ∧ FitsSecond p.2 := by
  rintro bs ⟨a, b⟩ rest
  constructor
  · intro hp
    obtain ⟨a, mid, ha, hp⟩ := bind_eq_ok_iff.mp hp
    obtain ⟨b, hb, hp⟩ := map_eq_ok_iff.mp hp
    cases hp
    obtain ⟨hfits, rfl⟩ := h.mp ha
    obtain ⟨hfits', rfl⟩ := h'.mp hb
    exact ⟨⟨hfits, hfits'⟩, (List.append_assoc _ _ _).symm⟩
  · rintro ⟨⟨hfits, hfits'⟩, rfl⟩
    exact reads_pair (h.reads hfits) (h'.reads hfits') rest

theorem Inverts.times (h : Inverts get put Fits) {n : Nat} {as : List α}
    (ht : getTimes get n bs = .ok (as, rest)) :
    (∀ a ∈ as, Fits a) ∧ bs = as.flatMap put ++ rest ∧ as.length = n := by
  induction n generalizing bs as with
  | zero =>
    cases ht
    simp
  | succ n ih =>
    obtain ⟨a, mid, ha, ht⟩ := bind_eq_ok_iff.mp ht
    obtain ⟨as, has, rfl⟩ := map_eq_ok_iff.mp ht
    obtain ⟨hfits, rfl⟩ := h.mp ha
    obtain ⟨hall, rfl, rfl⟩ := ih has
    simpa [hfits] using hall

theorem Inverts.list (h : Inverts get put Fits) :
    Inverts (getList get) (putList put) fun as => as.length < 2 ^ 64 ∧ ∀ a ∈ as, Fits a := by
  intro bs as rest
  constructor
  · intro hl
    obtain ⟨n, mid, hn, ht⟩ := bind_eq_ok_iff.mp hl
    obtain ⟨hlt, rfl⟩ := inverts_count.mp hn
    obtain ⟨hall, rfl, rfl⟩ := h.times ht
    exact ⟨⟨hlt, hall⟩, (List.append_assoc _ _ _).symm⟩
  · rintro ⟨⟨hlt, hall⟩, rfl⟩
    exact reads_list hlt (fun a ha => h.reads (hall a ha)) rest

end

/-- Once it has taken these bytes, the reader goes on as the next one. -/
def Leads {α : Type} (get : Reader α) (bs : Bytes) (next : Reader α) : Prop :=
  ∀ rest, get (bs ++ rest) = next rest

theorem Reads.leads (h : Reads get bs a) (f : α → Reader β) : Leads (get >>= f) bs (f a) := by
  intro rest
  change (get (bs ++ rest)).bind (fun p => f p.1 p.2) = f a rest
  rw [h rest]
  rfl

theorem Leads.trans {next last : Reader α} (h : Leads get bs next) (h' : Leads next bs' last) :
    Leads get (bs ++ bs') last := by
  intro rest
  rw [List.append_assoc, h, h']

theorem Leads.reads {next : Reader α} (h : Leads get bs next) (h' : Reads next bs' a) :
    Reads get (bs ++ bs') a := by
  intro rest
  rw [List.append_assoc, h, h']

/-- The reader fails on these bytes, whatever comes behind them. -/
def Refuses {α : Type} (get : Reader α) (bs : Bytes) : Prop :=
  ∀ rest, ∃ failure, get (bs ++ rest) = .error failure

theorem refuses_fail (failure : Failure) : Refuses (fail (α := α) failure) [] :=
  fun _ => ⟨failure, rfl⟩

theorem Refuses.read (h : Refuses get bs) (rest : Bytes) :
    ∃ failure, Wire.read get (bs ++ rest) = .error failure := by
  obtain ⟨failure, hf⟩ := h rest
  exact ⟨failure, by rw [Wire.read, hf]⟩

theorem Refuses.bind (h : Refuses get bs) (f : α → Reader β) : Refuses (get >>= f) bs := by
  intro rest
  obtain ⟨failure, hf⟩ := h rest
  exact ⟨failure, congrArg (·.bind fun p => f p.1 p.2) hf⟩

theorem Leads.refuses {next : Reader α} (h : Leads get bs next) (h' : Refuses next bs') :
    Refuses get (bs ++ bs') := by
  intro rest
  rw [List.append_assoc, h]
  exact h' rest

theorem refuses_variant {variants : List α} {index : UInt32} (h : variants.length ≤ index.toNat) :
    Refuses (getVariant variants) (putUInt32 index) := by
  rw [← List.append_nil (putUInt32 index)]
  apply ((reads_uint32 index).leads _).refuses
  rw [List.getElem?_eq_none h]
  apply refuses_fail

theorem refuses_tag {tag : UInt8} (h : tag ≠ 0) (h' : tag ≠ 1) :
    Refuses (getOption get) [tag] := by
  rw [← List.append_nil [tag]]
  apply ((reads_uint8 tag).leads _).refuses
  split
  · contradiction
  · contradiction
  · apply refuses_fail

theorem refuses_some (h : Refuses get bs) : Refuses (getOption get) ([1] ++ bs) :=
  ((reads_uint8 1).leads _).refuses (h.bind _)

theorem refuses_second {getSecond : Reader β} (h : Reads get bs a) (h' : Refuses getSecond bs') :
    Refuses (getPair get getSecond) (bs ++ bs') :=
  (h.leads _).refuses (h'.bind _)

theorem refuses_text {raw : Bytes} (hl : raw.length < 2 ^ 64) (h : ∀ s, raw ≠ Utf8.encode s) :
    Refuses getText (putBytes raw) := by
  apply ((reads_count hl).leads _).refuses
  intro rest
  cases ht : takeText raw.length (raw ++ rest) with
  | error failure => exact ⟨failure, rfl⟩
  | ok p =>
    obtain ⟨hraw, hlen⟩ := takeText_eq_ok_iff.mp ht
    exact absurd (List.append_inj_left hraw hlen.symm) (h p.1)

theorem refuses_times {put : α → Bytes} {as : List α} (has : ∀ a ∈ as, Reads get (put a) a)
    (h : Refuses get bs) {n : Nat} (hn : as.length < n) :
    Refuses (getTimes get n) (as.flatMap put ++ bs) := by
  induction as generalizing n with
  | nil =>
    obtain ⟨n, rfl⟩ := Nat.exists_eq_add_one.mpr hn
    exact h.bind _
  | cons a as ih =>
    obtain ⟨n, rfl⟩ := Nat.exists_eq_add_one.mpr (Nat.zero_lt_of_lt hn)
    obtain ⟨ha, has⟩ := List.forall_mem_cons.mp has
    have htimes := ih has (Nat.lt_of_succ_lt_succ hn)
    rw [List.flatMap_cons, List.append_assoc]
    exact (ha.leads _).refuses (htimes.bind _)

theorem refuses_list {put : α → Bytes} {as : List α} (has : ∀ a ∈ as, Reads get (put a) a)
    (h : Refuses get bs) {n : Nat} (hn : as.length < n) (hlt : n < 2 ^ 64) :
    Refuses (getList get) (putCount n ++ (as.flatMap put ++ bs)) :=
  ((reads_count hlt).leads _).refuses (refuses_times has h hn)

end PeerBook.Wire
