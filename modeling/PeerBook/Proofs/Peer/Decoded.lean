import PeerBook.Proofs.Peer.Record
import PeerBook.Proofs.Text.Order

/-! # What is decoded as a record

Bytes that a record is decoded from spell it: its fields, then pairs that
build its metadata in their order, then bytes that are not looked at. The
record itself is written with each key once and in order, so this form is not
longer, and stands in front of the bytes if their pairs are in order already.
Bytes with a wrong kind, a wrong option tag or a text that is not UTF-8 are
refused wherever the decoder comes to them.
-/

namespace PeerBook

open Wire

namespace Peer

variable {p : Peer} {bs bad rest rest' : Bytes} {pairs pairs' : List (String × String)}

/-- The bytes are the fields of the record, pairs that build its metadata, a later one in place of
an earlier one with the same key, and more bytes. -/
structure Spells (bs : Bytes) (p : Peer) (pairs : List (String × String)) (rest : Bytes) :
    Prop where
  fieldsFit : p.FieldsFit
  pairsFit : PairsFit pairs
  metadata : SortedMap.ofList pairs = p.metadata
  eq_append : bs = p.fields ++ putPairs pairs ++ rest

theorem get_eq_ok_iff : Peer.get bs = .ok (p, rest) ↔ ∃ pairs, Spells bs p pairs rest := by
  constructor
  · intro h
    obtain ⟨kind, mid, hkind, h⟩ := bind_eq_ok_iff.mp h
    obtain ⟨id, mid, hid, h⟩ := bind_eq_ok_iff.mp h
    obtain ⟨accessHash, mid, hhash, h⟩ := bind_eq_ok_iff.mp h
    obtain ⟨username, mid, husername, h⟩ := bind_eq_ok_iff.mp h
    obtain ⟨phone, mid, hphone, h⟩ := bind_eq_ok_iff.mp h
    obtain ⟨displayName, mid, hname, h⟩ := bind_eq_ok_iff.mp h
    obtain ⟨createdAt, mid, hcreated, h⟩ := bind_eq_ok_iff.mp h
    obtain ⟨pairs, hpairs, rfl⟩ := map_eq_ok_iff.mp h
    obtain ⟨index, rfl, hindex⟩ := variant_eq_ok hkind
    obtain rfl := exact_int64 hid
    obtain rfl := exact_int64 hhash
    obtain ⟨hu, rfl⟩ := inverts_text.option.mp husername
    obtain ⟨hp, rfl⟩ := inverts_text.option.mp hphone
    obtain ⟨hn, rfl⟩ := inverts_text.mp hname
    obtain rfl := exact_uint64 hcreated
    obtain ⟨hm, rfl⟩ := inverts_pairs.mp hpairs
    have hrank : UInt32.ofNat kind.rank = index := by
      rw [← Kind.all_eq_some_iff.mp hindex, UInt32.ofNat_toNat]
    refine ⟨pairs, ⟨hu, hp, hn⟩, hm, rfl, ?_⟩
    simp [fields, beforeName, beforePhone, beforeUsername, hrank]
  · rintro ⟨pairs, h⟩
    rw [h.eq_append]
    exact reads_written h.fieldsFit h.pairsFit h.metadata rest

theorem decode_eq_ok_iff : decode bs = .ok p ↔ ∃ pairs rest, Spells bs p pairs rest := by
  constructor
  · intro h
    unfold decode Wire.read at h
    split at h
    · rename_i rest hget
      cases h
      obtain ⟨pairs, hs⟩ := get_eq_ok_iff.mp hget
      exact ⟨pairs, rest, hs⟩
    · cases h
  · rintro ⟨pairs, rest, h⟩
    unfold decode Wire.read
    rw [get_eq_ok_iff.mpr ⟨pairs, h⟩]

theorem Spells.unique (h : Spells bs p pairs rest) (h' : Spells bs p pairs' rest') :
    pairs = pairs' ∧ rest = rest' := by
  have hg := get_eq_ok_iff.mpr ⟨pairs, h⟩
  rw [get_eq_ok_iff.mpr ⟨pairs', h'⟩] at hg
  cases hg
  have he := h.eq_append.symm.trans h'.eq_append
  rw [List.append_cancel_right_eq, List.append_cancel_left_eq] at he
  exact ⟨inverts_pairs.inj h.pairsFit h'.pairsFit he, rfl⟩

theorem length_putPairs (pairs : List (String × String)) :
    (putPairs pairs).length = 8 + (pairs.map fun b => (putPair putText putText b).length).sum := by
  simp [putPairs, List.length_flatMap]

theorem Spells.length_encode_le (h : Spells bs p pairs rest) : p.encode.length ≤ bs.length := by
  have hw := SortedMap.weight_ofList_le (fun b => (putPair putText putText b).length) pairs
  rw [h.metadata] at hw
  unfold SortedMap.weight at hw
  rw [encode_eq, h.eq_append]
  simp only [List.length_append, length_putPairs]
  omega

theorem PairsFit.ofList (h : PairsFit pairs) : PairsFit (SortedMap.ofList pairs).toList := by
  obtain ⟨hl, hfits⟩ := h
  have hw := SortedMap.weight_ofList_le (fun _ => 1) pairs
  simp only [SortedMap.weight, List.map_const', List.sum_replicate_nat, Nat.mul_one] at hw
  constructor
  · omega
  · intro b hb
    exact hfits b (SortedMap.mem_of_mem_ofList hb)

theorem Spells.encode (h : Spells bs p pairs rest) :
    Spells p.encode p p.metadata.toList [] where
  fieldsFit := h.fieldsFit
  pairsFit := h.metadata ▸ h.pairsFit.ofList
  metadata := SortedMap.ofList_toList p.metadata
  eq_append := by rw [List.append_nil, encode_eq]

/-- The keys of the pairs ascend as byte strings. -/
def Ascend (pairs : List (String × String)) : Prop :=
  pairs.Pairwise fun b b' => Utf8.encode b.1 < Utf8.encode b'.1

theorem ascend_iff : Ascend pairs ↔ pairs.Pairwise (·.1 < ·.1) := by
  simp only [Ascend, Utf8.encode_lt_encode_iff]

theorem Spells.prefix_iff (h : Spells bs p pairs rest) : p.encode <+: bs ↔ Ascend pairs := by
  rw [ascend_iff]
  constructor
  · rintro ⟨more, hmore⟩
    have h' : Spells bs p p.metadata.toList more :=
      { h.encode with eq_append := by rw [← hmore, encode_eq] }
    rw [(h.unique h').1]
    exact p.metadata.sorted
  · intro hasc
    have hp : p.metadata.toList = pairs := by
      rw [← h.metadata, SortedMap.toList_ofList hasc]
    rw [h.eq_append, encode_eq, hp]
    exact List.prefix_append _ _

/-- What a decoder can come to that may be wrong in itself. -/
inductive Item where
  | kind
  | tag
  | text

/-- The bytes are an item that no record has: an index of no kind, a tag of no option, or a text
that is not UTF-8. -/
def Item.Bad : Item → Bytes → Prop
  | .kind, bad => ∃ index : UInt32, 3 ≤ index.toNat ∧ bad = putUInt32 index
  | .tag, bad => ∃ tag : UInt8, tag ≠ 0 ∧ tag ≠ 1 ∧ bad = [tag]
  | .text, bad => ∃ raw : Bytes, raw.length < 2 ^ 64 ∧ (∀ s, raw ≠ Utf8.encode s) ∧
      bad = putBytes raw

theorem Item.Bad.refuses_tag (h : Item.tag.Bad bad) : Refuses (getOption getText) bad := by
  obtain ⟨tag, hzero, hone, rfl⟩ := h
  exact Wire.refuses_tag hzero hone

theorem Item.Bad.refuses_text (h : Item.text.Bad bad) : Refuses getText bad := by
  obtain ⟨raw, hl, hraw, rfl⟩ := h
  exact Wire.refuses_text hl hraw

/-- The item that the decoder comes to behind these bytes. A text of the metadata stands behind the
count of the pairs and some of them, and a value behind its key too. -/
inductive Reaches : Bytes → Item → Prop where
  | kind : Reaches [] .kind
  | usernameTag (p : Peer) : Reaches p.beforeUsername .tag
  | username (p : Peer) : Reaches (p.beforeUsername ++ [1]) .text
  | phoneTag {p : Peer} (hp : p.FieldsFit) : Reaches p.beforePhone .tag
  | phone {p : Peer} (hp : p.FieldsFit) : Reaches (p.beforePhone ++ [1]) .text
  | displayName {p : Peer} (hp : p.FieldsFit) : Reaches p.beforeName .text
  | key {p : Peer} {pairs : List (String × String)} {n : Nat} (hp : p.FieldsFit)
      (hpairs : PairsFit pairs) (hn : pairs.length < n) (hlt : n < 2 ^ 64) :
      Reaches (p.fields ++ putCount n ++ pairs.flatMap (putPair putText putText)) .text
  | value {p : Peer} {pairs : List (String × String)} {n : Nat} {k : String} (hp : p.FieldsFit)
      (hpairs : PairsFit pairs) (hn : pairs.length < n) (hlt : n < 2 ^ 64) (hk : TextFits k) :
      Reaches (p.fields ++ putCount n ++ pairs.flatMap (putPair putText putText) ++ putText k)
        .text

theorem refuses_pairs {n : Nat} (hp : p.FieldsFit) (hpairs : PairsFit pairs)
    (hn : pairs.length < n) (hlt : n < 2 ^ 64) (h : Refuses (getPair getText getText) bad) :
    Refuses Peer.get
      (p.fields ++ (putCount n ++ (pairs.flatMap (putPair putText putText) ++ bad))) := by
  have hlist := refuses_list
    (fun b hb => (inverts_text.pair inverts_text).reads (hpairs.2 b hb)) h hn hlt
  exact (leads_metadata hp).refuses (hlist.bind _)

theorem Reaches.refuses {front : Bytes} {item : Item} (h : Reaches front item)
    (hb : item.Bad bad) : Refuses Peer.get (front ++ bad) := by
  cases h with
  | kind =>
    obtain ⟨index, hindex, rfl⟩ := hb
    have hkind : Refuses (getVariant Kind.all) (putUInt32 index) := refuses_variant hindex
    exact hkind.bind _
  | usernameTag p => exact (leads_username p).refuses (hb.refuses_tag.bind _)
  | username p =>
    rw [List.append_assoc]
    exact (leads_username p).refuses ((refuses_some hb.refuses_text).bind _)
  | phoneTag hp => exact (leads_phone hp).refuses (hb.refuses_tag.bind _)
  | phone hp =>
    rw [List.append_assoc]
    exact (leads_phone hp).refuses ((refuses_some hb.refuses_text).bind _)
  | displayName hp => exact (leads_name hp).refuses (hb.refuses_text.bind _)
  | key hp hpairs hn hlt =>
    simp only [List.append_assoc]
    exact refuses_pairs hp hpairs hn hlt (hb.refuses_text.bind _)
  | value hp hpairs hn hlt hk =>
    simp only [List.append_assoc]
    exact refuses_pairs hp hpairs hn hlt (refuses_second (inverts_text.reads hk) hb.refuses_text)

/-- A record is decoded from the bytes that spell it. Its written form is not longer than they are,
decodes to it again, and is what they start with if and only if their keys ascend. No record is
decoded if the decoder comes to an item that is wrong in itself. -/
theorem decode_canonical (bs : Bytes) :
    (∀ p, decode bs = .ok p ↔ ∃ pairs rest, Spells bs p pairs rest) ∧
      (∀ p pairs rest, Spells bs p pairs rest →
        p.encode.length ≤ bs.length ∧ decode p.encode = .ok p ∧
          (bs.take p.encode.length = p.encode ↔ Ascend pairs)) ∧
      ∀ front item bad rest, Reaches front item → item.Bad bad → bs = front ++ bad ++ rest →
        ∃ failure, decode bs = .error failure := by
  refine ⟨fun p => decode_eq_ok_iff, ?_, ?_⟩
  · intro p pairs rest h
    refine ⟨h.length_encode_le, decode_eq_ok_iff.mpr ⟨_, _, h.encode⟩, ?_⟩
    rw [← h.prefix_iff, List.prefix_iff_eq_take, eq_comm]
  · rintro front item bad rest hfront hbad rfl
    exact (hfront.refuses hbad).read rest

/-- The pairs are out of order and one key stands there twice; then the username breaks off within
a character, and one key is not UTF-8 in pairs that are said to be as many as can be. -/
theorem decode_canonical_unordered :
    let pairs := [("b", "1"), ("a", "2"), ("b", "3")]
    let p : Peer := { Peer.new ⟨.channel, -5⟩ 7 9 with
      username := some "né", metadata := .ofList pairs }
    let bs := p.fields ++ putPairs pairs ++ [7]
    let short := p.beforeUsername ++ [1] ++ putBytes [110, 0xC3] ++ bs
    let many := p.fields ++ putCount 0xFFFFFFFFFFFFFFFF ++
      pairs.flatMap (putPair putText putText) ++ putBytes [0xFF] ++ bs
    decode bs = .ok p ∧ p.encode.length + 19 = bs.length ∧ decode p.encode = .ok p ∧
      bs.take p.encode.length ≠ p.encode ∧
      (∃ failure, decode short = .error failure) ∧ ∃ failure, decode many = .error failure := by
  intro pairs p bs short many
  have hfit : p.FieldsFit := fieldsFit_of_length_lt (by decide +kernel)
  have hpairs : PairsFit pairs := pairsFit_of_length_lt (by decide +kernel)
  have hspells : Spells bs p pairs [7] := ⟨hfit, hpairs, rfl, rfl⟩
  have hpart : Utf8.decode [110, 0xC3] = .error (.incomplete 1) := by decide +kernel
  have hbyte : Utf8.decode [0xFF] = .error (.malformed 0 1) := by decide +kernel
  have hshort : Item.text.Bad (putBytes [110, 0xC3]) :=
    ⟨_, by decide, Utf8.ne_encode_of_decode hpart, rfl⟩
  have hmany : Item.text.Bad (putBytes [0xFF]) :=
    ⟨_, by decide, Utf8.ne_encode_of_decode hbyte, rfl⟩
  have hkey := Reaches.key hfit hpairs (n := 0xFFFFFFFFFFFFFFFF) (by decide) (by decide)
  obtain ⟨hdecode, hencode, -⟩ := decode_canonical bs
  obtain ⟨-, hagain, hfront⟩ := hencode p pairs [7] hspells
  refine ⟨(hdecode p).mpr ⟨pairs, [7], hspells⟩, by decide +kernel, hagain, ?_, ?_, ?_⟩
  · rw [ne_eq, hfront, ascend_iff]
    decide
  · exact (decode_canonical short).2.2 _ _ _ bs (.username p) hshort rfl
  · exact (decode_canonical many).2.2 _ _ _ bs hkey hmany rfl

end Peer

end PeerBook
