import CoroDB.Framework.Checksum
import CoroDB.Storage.Wal

/-!
# Damaged payloads in the log

The checksum of a record is the 32-bit FNV-1a hash of its payload.
-/

namespace CoroDB

open Framework

section Fnv

theorem fnvPrime_mul_inverse : (16777619 : UInt32) * 899433627 = 1 := by decide

theorem fnvRound_injective_state (c : UInt8) :
    Function.Injective fun hash : UInt32 => (hash ^^^ c.toUInt32) * 16777619 := by
  intro a b h
  have hmul : a ^^^ c.toUInt32 = b ^^^ c.toUInt32 := by
    have := congrArg (· * (899433627 : UInt32)) h
    simpa only [UInt32.mul_assoc, fnvPrime_mul_inverse, UInt32.mul_one] using this
  exact (UInt32.xor_left_inj _).mp hmul

theorem fnvRound_injective_symbol (hash : UInt32) :
    Function.Injective fun c : UInt8 => (hash ^^^ c.toUInt32) * 16777619 := by
  intro a b h
  have hmul : hash ^^^ a.toUInt32 = hash ^^^ b.toUInt32 := by
    have := congrArg (· * (899433627 : UInt32)) h
    simpa only [UInt32.mul_assoc, fnvPrime_mul_inverse, UInt32.mul_one] using this
  exact UInt8.toUInt32_inj.mp ((UInt32.xor_right_inj _).mp hmul)

theorem computePayloadChecksum_set_ne {payload : Bytes} {j : Nat} {b : UInt8}
    (hj : j < payload.length) (hb : b ≠ payload[j]) :
    computePayloadChecksum (payload.set j b) ≠ computePayloadChecksum payload :=
  foldl_set_ne fnvRound_injective_state fnvRound_injective_symbol _ hj hb

end Fnv

theorem decodeWalRecord_damaged {r : WalRecord} (hr : r.Fits) {j : Nat} {b : UInt8}
    (hj : j < r.payload.length) (hb : b ≠ r.payload[j]) (rest : Bytes) :
    decodeWalRecord (r.type :: (leBytes 4 r.payload.length ++
      (leBytes 4 (computePayloadChecksum r.payload).toNat ++ (r.payload.set j b ++ rest)))) =
        none := by
  have hlen : ofLeBytes (leBytes 4 r.payload.length) = (r.payload.set j b).length := by
    rw [ofLeBytes_leBytes, List.length_set]
    exact Nat.mod_eq_of_lt hr
  have hsum : ofLeBytes (leBytes 4 (computePayloadChecksum r.payload).toNat) =
      (computePayloadChecksum r.payload).toNat := by
    rw [ofLeBytes_leBytes]
    exact Nat.mod_eq_of_lt (computePayloadChecksum r.payload).toNat_lt
  have htake : ∀ n (bs : Bytes), (leBytes 4 n ++ bs).take 4 = leBytes 4 n :=
    fun n bs => List.take_left' (leBytes_length 4 n)
  have hdrop : ∀ n (bs : Bytes), (leBytes 4 n ++ bs).drop 4 = bs :=
    fun n bs => List.drop_left' (leBytes_length 4 n)
  have hdrop8 : ∀ bs : Bytes, bs.drop 8 = (bs.drop 4).drop 4 := fun bs => by simp
  simp only [decodeWalRecord, hdrop8, htake, hdrop, hlen, hsum]
  rw [if_neg (by simp only [List.length_append, leBytes_length]; omega),
    if_neg (by simp only [List.length_append]; omega), List.take_left, if_pos]
  intro heq
  exact computePayloadChecksum_set_ne hj hb (UInt32.toNat_inj.mp heq)

/-- The place of a byte of a payload in the file of a new log. -/
def payloadOffset (rs : List WalRecord) (i j : Nat) : Nat :=
  (appendWal (openWal none) (rs.take i)).length + 9 + j

theorem appendWal_eq_append_cons {rs : List WalRecord} {i : Nat} (hi : i < rs.length) :
    appendWal (openWal none) rs = appendWal (openWal none) (rs.take i) ++
      (rs[i].type :: (leBytes 4 rs[i].payload.length ++
        (leBytes 4 (computePayloadChecksum rs[i].payload).toNat ++
          (rs[i].payload ++ walFraming.encodeAll (rs.drop (i + 1)))))) := by
  have hsplit : rs = rs.take i ++ rs[i] :: rs.drop (i + 1) := by
    rw [List.getElem_cons_drop, List.take_append_drop]
  have hencode := congrArg (appendWal (openWal none)) hsplit
  rw [hencode, appendWal_eq, appendWal_eq, Framing.encodeAll_append, Framing.encodeAll_cons]
  simp only [walFraming, encodeWalRecord, List.append_assoc, List.cons_append]

/-- One changed byte in the payload of a record: reading stops right before the record. -/
theorem walReadRecords_damaged {rs : List WalRecord} (hfits : ∀ r ∈ rs, r.Fits) {i j : Nat}
    {b : UInt8} (hi : i < rs.length) (hj : j < rs[i].payload.length)
    (hb : b ≠ rs[i].payload[j]) :
    walReadRecords ((appendWal (openWal none) rs).set (payloadOffset rs i j) b) = rs.take i := by
  have hset : (appendWal (openWal none) rs).set (payloadOffset rs i j) b =
      walMagic ++ (walFraming.encodeAll (rs.take i) ++
        (rs[i].type :: (leBytes 4 rs[i].payload.length ++
          (leBytes 4 (computePayloadChecksum rs[i].payload).toNat ++
            (rs[i].payload.set j b ++ walFraming.encodeAll (rs.drop (i + 1))))))) := by
    rw [appendWal_eq_append_cons hi, payloadOffset, Nat.add_assoc, List.set_append_right _ _ (by omega),
      Nat.add_sub_cancel_left, show 9 + j = 8 + j + 1 by omega, List.set_cons_succ,
      List.set_append_right _ _ (by rw [leBytes_length]; omega), leBytes_length,
      List.set_append_right _ _ (by rw [leBytes_length]; omega), leBytes_length,
      show 8 + j - 4 - 4 = j by omega, List.set_append_left _ _ hj, appendWal_eq, List.append_assoc]
    rfl
  rw [hset, walReadRecords_magic_append, Framing.readAll_eq_iff]
  refine ⟨fun r hr => hfits r (List.mem_of_mem_take hr), _, rfl, ?_⟩
  exact decodeWalRecord_damaged (hfits _ (List.getElem_mem hi)) hj hb _

/-- The second byte of the second payload of a log is changed. -/
theorem walReadRecords_damaged_second :
    walReadRecords ((appendWal (openWal none) threeRecords).set (payloadOffset threeRecords 1 1) 5) =
      [⟨1, [7]⟩] :=
  walReadRecords_damaged (i := 1) (j := 1) (b := 5) (by decide) (by decide) (by decide) (by decide)

theorem walReadRecords_ne_of_oversized {r r' : WalRecord} (hr : r.payload.length = 2 ^ 32) (j : Nat)
    (b : UInt8) :
    walReadRecords ((appendWal (openWal none) [r, r']).set (payloadOffset [r, r'] 1 j) b) ≠ [r] := by
  have hfile : appendWal (openWal none) [r, r'] =
      appendWal (openWal none) [r] ++ encodeWalRecord r' := rfl
  have hfront : payloadOffset [r, r'] 1 j =
      (appendWal (openWal none) [r]).length + (9 + j) := Nat.add_assoc ..
  rw [hfile, hfront, List.set_append_right _ _ (Nat.le_add_right _ _), appendWal_eq, openWal, List.append_assoc, walReadRecords_magic_append, Ne,
    Framing.readAll_eq_iff]
  rintro ⟨hfits, -⟩
  have hlt : r.payload.length < 2 ^ 32 := hfits r List.mem_cons_self
  omega

def oversizedRecord : WalRecord := ⟨1, List.replicate (2 ^ 32) 0⟩

/-- A changed byte in the record behind it: the record before the damaged one is not returned. -/
theorem walReadRecords_loses_oversized :
    walReadRecords ((appendWal (openWal none) [oversizedRecord, ⟨1, [7]⟩]).set
      (payloadOffset [oversizedRecord, ⟨1, [7]⟩] 1 0) 8) ≠
        [oversizedRecord, ⟨1, [7]⟩].take 1 :=
  walReadRecords_ne_of_oversized (List.length_replicate ..) 0 8

end CoroDB
