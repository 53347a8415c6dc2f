import PeerBook.Journal.Entry
import PeerBook.Proofs.Wire.Inverse

/-! # Reading entries back

The payload of an entry is read back as that entry, unless it is so long
that a count in it overflows. What is read as an entry is its payload.
-/

namespace PeerBook.Journal

open Wire

theorem length_put_binding (b : Binding) :
    (putPair putBytes putBytes b).length = 16 + b.1.length + b.2.length := by
  simp [putPair]
  omega

theorem Operation.reads {o : Operation} (h : o.encode.length < 2 ^ 64) :
    Reads Operation.get o.encode o := by
  cases o with
  | put key value =>
    have hl : (Operation.put key value).encode.length =
        4 + (8 + key.length) + (8 + value.length) := by
      simp [encode]
      omega
    rw [encode, List.append_assoc]
    refine (reads_variant 0 rfl).bind ?_
    exact (reads_bytes (by omega)).bind ((reads_bytes (by omega)).map _)
  | batch writes =>
    have hl : (Operation.batch writes).encode.length =
        4 + (8 + (writes.flatMap (putPair putBytes putBytes)).length) := by
      simp [encode]
    have hc := length_le_length_flatMap (putPair putBytes putBytes)
      (fun b => by rw [length_put_binding]; omega) writes
    refine (reads_variant 1 rfl).bind ?_
    refine (reads_list (by omega) fun b hm => ?_).map _
    have hb := length_le_flatMap (putPair putBytes putBytes) hm
    rw [length_put_binding] at hb
    exact reads_pair (reads_bytes (by omega)) (reads_bytes (by omega))

theorem Entry.reads {e : Entry} (h : e.payload.length < 2 ^ 64) :
    Reads Entry.get e.payload e := by
  have hl : e.payload.length = 8 + e.operation.encode.length + 8 := by
    simp [payload]
    omega
  rw [payload, List.append_assoc]
  refine (reads_uint64 e.lsn).bind ?_
  exact (Operation.reads (by omega)).bind ((reads_uint64 e.timestamp).map _)

theorem Operation.exact_get : Exact Operation.get Operation.encode := by
  intro bs o rest h
  obtain ⟨get, mid, hvariant, hget⟩ := bind_eq_ok_iff.mp h
  obtain ⟨index, rfl, hindex⟩ := variant_eq_ok hvariant
  clear h hvariant
  rcases hn : index.toNat with _ | _ | n
  · obtain rfl : index = 0 := UInt32.toNat_inj.mp hn
    cases hindex
    obtain ⟨key, mid, hkey, hget⟩ := bind_eq_ok_iff.mp hget
    obtain ⟨value, hvalue, rfl⟩ := map_eq_ok_iff.mp hget
    rw [inverts_bytes.exact hkey, inverts_bytes.exact hvalue]
    simp only [encode, List.append_assoc]
  · obtain rfl : index = 1 := UInt32.toNat_inj.mp hn
    cases hindex
    obtain ⟨writes, hwrites, rfl⟩ := map_eq_ok_iff.mp hget
    rw [(inverts_bytes.pair inverts_bytes).list.exact hwrites]
    simp only [encode, List.append_assoc]
  · rw [hn] at hindex
    cases hindex

theorem Entry.exact_get : Exact Entry.get Entry.payload := by
  intro bs e rest h
  obtain ⟨lsn, mid, hlsn, h⟩ := bind_eq_ok_iff.mp h
  obtain ⟨operation, mid, hoperation, h⟩ := bind_eq_ok_iff.mp h
  obtain ⟨timestamp, htimestamp, rfl⟩ := map_eq_ok_iff.mp h
  rw [exact_uint64 hlsn, Operation.exact_get hoperation, exact_uint64 htimestamp]
  simp only [payload, List.append_assoc]

end PeerBook.Journal
