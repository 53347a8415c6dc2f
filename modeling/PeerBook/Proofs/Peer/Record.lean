import PeerBook.Peer.Record
import PeerBook.Proofs.SortedMap
import PeerBook.Proofs.Wire.Inverse

/-! # Reading records back

The written form of a record is read back as that record, unless it is so
long that a count in it overflows. It says itself where it ends: bytes behind it
are ignored, and where some of it is missing nothing is read.
-/

namespace PeerBook

open Wire

theorem Kind.all_rank (k : Kind) : Kind.all[(UInt32.ofNat k.rank).toNat]? = some k := by
  cases k <;> rfl

theorem Kind.all_eq_some_iff {n : Nat} {k : Kind} : Kind.all[n]? = some k ↔ n = k.rank := by
  constructor
  · intro h
    rcases n with _ | _ | _ | n <;> cases h <;> rfl
  · rintro rfl
    cases k <;> rfl

namespace Peer

theorem length_put_pair (b : String × String) :
    (putPair putText putText b).length =
      16 + (Utf8.encode b.1).length + (Utf8.encode b.2).length := by
  simp [putPair]
  omega

def beforeUsername (p : Peer) : Bytes :=
  putUInt32 (UInt32.ofNat p.identity.kind.rank) ++ putInt64 p.identity.id ++ putInt64 p.accessHash

def beforePhone (p : Peer) : Bytes :=
  p.beforeUsername ++ putOption putText p.username

def beforeName (p : Peer) : Bytes :=
  p.beforePhone ++ putOption putText p.phone

def fields (p : Peer) : Bytes :=
  p.beforeName ++ putText p.displayName ++ putUInt64 p.createdAt

def putPairs : List (String × String) → Bytes :=
  putList (putPair putText putText)

theorem encode_eq (p : Peer) : p.encode = p.fields ++ putPairs p.metadata.toList := rfl

/-- The lengths of the texts in front of the metadata fit in counts. -/
structure FieldsFit (p : Peer) : Prop where
  username : ∀ s ∈ p.username, TextFits s
  phone : ∀ s ∈ p.phone, TextFits s
  displayName : TextFits p.displayName

def PairsFit (pairs : List (String × String)) : Prop :=
  pairs.length < 2 ^ 64 ∧ ∀ b ∈ pairs, TextFits b.1 ∧ TextFits b.2

theorem textFits_of_mem {o : Option String} (h : (putOption putText o).length < 2 ^ 64)
    {s : String} (hs : s ∈ o) : TextFits s := by
  have hl : (putText s).length < _ := length_lt_putOption hs
  rw [length_putText] at hl
  unfold TextFits
  omega

theorem fieldsFit_of_length_lt {p : Peer} (h : p.fields.length < 2 ^ 64) : p.FieldsFit := by
  simp only [fields, beforeName, beforePhone, List.length_append, length_putText] at h
  constructor
  · intro s hs
    exact textFits_of_mem (by omega) hs
  · intro s hs
    exact textFits_of_mem (by omega) hs
  · unfold TextFits
    omega

theorem pairsFit_of_length_lt {pairs : List (String × String)}
    (h : (putPairs pairs).length < 2 ^ 64) : PairsFit pairs := by
  simp only [putPairs, length_putList] at h
  constructor
  · have hc := length_le_length_flatMap (putPair putText putText)
      (fun b => by rw [length_put_pair]; omega) pairs
    omega
  · intro b hb
    have hl := length_le_flatMap (putPair putText putText) hb
    rw [length_put_pair] at hl
    unfold TextFits
    omega

theorem inverts_pairs :
    Inverts (getList (getPair getText getText)) putPairs PairsFit :=
  (inverts_text.pair inverts_text).list

section

variable {p : Peer}

/-- Reads on behind the fields: the metadata of `p` is still to come. -/
def getMetadata (p : Peer) : Reader Peer := do
  let metadata ← getList (getPair getText getText)
  return { p with metadata := .ofList metadata }

def getName (p : Peer) : Reader Peer := do
  let displayName ← getText
  let createdAt ← getUInt64
  getMetadata { p with displayName, createdAt }

def getPhone (p : Peer) : Reader Peer := do
  let phone ← getOption getText
  getName { p with phone }

def getUsername (p : Peer) : Reader Peer := do
  let username ← getOption getText
  getPhone { p with username }

theorem leads_username (p : Peer) : Leads Peer.get p.beforeUsername (getUsername p) := by
  have hkind := reads_variant _ (Kind.all_rank p.identity.kind)
  exact ((hkind.leads _).trans ((reads_int64 p.identity.id).leads _)).trans
    ((reads_int64 p.accessHash).leads _)

theorem leads_phone (hp : p.FieldsFit) : Leads Peer.get p.beforePhone (getPhone p) :=
  (leads_username p).trans ((inverts_text.option.reads hp.username).leads _)

theorem leads_name (hp : p.FieldsFit) : Leads Peer.get p.beforeName (getName p) :=
  (leads_phone hp).trans ((inverts_text.option.reads hp.phone).leads _)

theorem leads_metadata (hp : p.FieldsFit) : Leads Peer.get p.fields (getMetadata p) :=
  ((leads_name hp).trans ((inverts_text.reads hp.displayName).leads _)).trans
    ((reads_uint64 p.createdAt).leads _)

/-- A record is read from its fields and any pairs that build its metadata. -/
theorem reads_written {pairs : List (String × String)} (hp : p.FieldsFit)
    (hpairs : PairsFit pairs) (hm : SortedMap.ofList pairs = p.metadata) :
    Reads Peer.get (p.fields ++ putPairs pairs) p := by
  have hr := (inverts_pairs.reads hpairs).map fun metadata =>
    ({ p with metadata := .ofList metadata } : Peer)
  rw [hm] at hr
  exact (leads_metadata hp).reads hr

end

theorem reads {p : Peer} (h : p.encode.length < 2 ^ 64) : Reads Peer.get p.encode p := by
  rw [encode_eq, List.length_append] at h
  exact reads_written (fieldsFit_of_length_lt (by omega)) (pairsFit_of_length_lt (by omega))
    (SortedMap.ofList_toList p.metadata)

theorem decode_encode {p : Peer} (h : p.encode.length < 2 ^ 64) : decode p.encode = .ok p := by
  have hr := (reads h).read []
  rwa [List.append_nil] at hr

theorem eq_of_prefix_encode {p q : Peer} (hp : p.encode.length < 2 ^ 64)
    (h : q.encode <+: p.encode) : q = p := by
  obtain ⟨rest, hq⟩ := h
  have hl : q.encode.length < 2 ^ 64 := by
    rw [← hq, List.length_append] at hp
    omega
  have hd := decode_encode hp
  rw [← hq] at hd
  exact Except.ok.inj (((reads hl).read rest).symm.trans hd)

theorem encode_inj {p q : Peer} (hp : p.encode.length < 2 ^ 64) (h : p.encode = q.encode) :
    p = q := by
  have hq : q.encode <+: p.encode := h ▸ List.prefix_rfl
  exact (eq_of_prefix_encode hp hq).symm

theorem steady_get : Steady Peer.get := by
  have hm : Steady (getList (getPair getText getText)) :=
    steady_list (steady_pair steady_text steady_text)
  have ho : Steady (getOption getText) := steady_option steady_text
  apply (steady_variant _).bind
  intro kind
  apply steady_int64.bind
  intro id
  apply steady_int64.bind
  intro accessHash
  apply ho.bind
  intro username
  apply ho.bind
  intro phone
  apply steady_text.bind
  intro displayName
  apply steady_uint64.bind
  intro createdAt
  exact hm.map _

/-- A record is read back from its written form whatever comes behind it, and nothing is read from a
proper part of the front of it. So the written form of one record is not that of another, nor a part
of the front of it. -/
theorem decode_delimits {p : Peer} (h : p.encode.length < 2 ^ 64) :
    (∀ bs, decode (p.encode ++ bs) = .ok p) ∧
      (∀ bs, bs <+: p.encode → bs ≠ p.encode → ∃ failure, decode bs = .error failure) ∧
      ∀ q : Peer, q.encode <+: p.encode ↔ q = p := by
  refine ⟨(reads h).read, fun bs hp hne => (reads h).read_part steady_get hp hne, fun q => ?_⟩
  constructor
  · exact eq_of_prefix_encode h
  · rintro rfl
    exact List.prefix_rfl

/-- A part that ends within a character of the username, and one that ends within the last value. -/
theorem decode_delimits_multibyte :
    let p : Peer := { Peer.new ⟨.channel, -5⟩ 7 9 with
      username := some "né", metadata := .ofList [("á", "1"), ("", "→")] }
    decode (p.encode ++ [1, 0xC3]) = .ok p ∧
      (∃ failure, decode (p.encode.take 31) = .error failure) ∧
      (∃ failure, decode p.encode.dropLast = .error failure) ∧
      ¬ (Peer.new ⟨.channel, -5⟩ 7 9).encode <+: p.encode := by
  intro p
  obtain ⟨hd, hp, hq⟩ := decode_delimits (p := p) (by decide +kernel)
  refine ⟨hd _, hp _ (List.take_prefix _ _) (by decide +kernel),
    hp _ (List.dropLast_prefix _) (by decide +kernel), ?_⟩
  rw [hq]
  decide +kernel

end Peer

end PeerBook
