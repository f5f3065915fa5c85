import CoroDB.Framework.Checksum
import CoroDB.Storage.Sstable

/-!
# One changed byte changes a CRC-32C

The round of the checksum that looks a byte up in the table is eight steps of one bit, each of which
can be undone: the top bit of the polynomial is set, so the top bit of the result tells which way the
step went.
-/

namespace CoroDB

open Framework

namespace Crc32c

def bitStep (c : BitVec 32) : BitVec 32 :=
  if c.getLsbD 0 then 0x82F63B78#32 ^^^ (c >>> 1) else c >>> 1

theorem bitStep_xor {a b : BitVec 32} (hb : b.getLsbD 0 = false) :
    bitStep (a ^^^ b) = bitStep a ^^^ (b >>> 1) := by
  rw [bitStep, bitStep, BitVec.getLsbD_xor, hb, Bool.xor_false, BitVec.ushiftRight_xor_distrib]
  split_ifs
  · rw [BitVec.xor_assoc]
  · rfl

theorem iterate_bitStep_xor (n : Nat) {a b : BitVec 32} (hb : ∀ k < n, b.getLsbD k = false) :
    bitStep^[n] (a ^^^ b) = bitStep^[n] a ^^^ (b >>> n) := by
  induction n generalizing a b with
  | zero => simp
  | succ n ih =>
    have hshift : ∀ k < n, (b >>> 1).getLsbD k = false := by
      intro k hk
      rw [BitVec.getLsbD_ushiftRight]
      exact hb (1 + k) (by omega)
    rw [Function.iterate_succ_apply, Function.iterate_succ_apply, bitStep_xor (hb 0 (by omega)),
      ih hshift, ← BitVec.shiftRight_add, Nat.add_comm]

theorem bitStep_top (c : BitVec 32) : (bitStep c).getLsbD 31 = c.getLsbD 0 := by
  rw [bitStep]
  cases hlow : c.getLsbD 0 with
  | false => simp
  | true => simp

theorem bitStep_injective : Function.Injective bitStep := by
  intro a b h
  have hlow : a.getLsbD 0 = b.getLsbD 0 := by rw [← bitStep_top, ← bitStep_top, h]
  have hshift : a >>> 1 = b >>> 1 := by
    rw [bitStep, bitStep, hlow] at h
    split_ifs at h with hbit
    · exact (BitVec.xor_right_inj _).mp h
    · exact h
  apply BitVec.eq_of_getLsbD_eq
  intro i hi
  cases i with
  | zero => exact hlow
  | succ i =>
    have hbit := congrArg (fun c => BitVec.getLsbD c i) hshift
    simpa only [BitVec.getLsbD_ushiftRight, Nat.add_comm] using hbit

theorem and_one_eq_one_iff (c : UInt32) : c &&& 1 = 1 ↔ c.toBitVec.getLsbD 0 = true := by
  rw [← UInt32.toNat_inj, UInt32.toNat_and, BitVec.getLsbD, UInt32.toNat_toBitVec, Nat.testBit_zero,
    decide_eq_true_iff]
  exact Iff.of_eq (congrArg (· = 1) (Nat.and_one_is_mod c.toNat))

theorem crcTableEntry_toBitVec (i : UInt32) :
    (crcTableEntry i).toBitVec = bitStep^[8] i.toBitVec := by
  have hstep : Function.Semiconj UInt32.toBitVec (fun c : UInt32 =>
      if c &&& 1 = 1 then (0x82F63B78 : UInt32) ^^^ (c >>> 1) else c >>> 1) bitStep := by
    intro c
    simp only [bitStep, and_one_eq_one_iff]
    split_ifs
    · rfl
    · rfl
  rw [crcTableEntry, List.foldl_const, List.length_range]
  exact hstep.iterate_right 8 i

def round (crc : UInt32) (b : UInt8) : UInt32 :=
  crcTableEntry ((crc ^^^ b.toUInt32) &&& 0xFF) ^^^ (crc >>> 8)

theorem getLsbD_mask (k : Nat) : (0xFF#32).getLsbD k = decide (k < 8) := by
  rw [BitVec.getLsbD, show (0xFF#32).toNat = 2 ^ 8 - 1 from rfl, Nat.testBit_two_pow_sub_one]

theorem getLsbD_byte (b : UInt8) {k : Nat} (hk : 8 ≤ k) :
    b.toUInt32.toBitVec.getLsbD k = false := by
  have hlt : b.toUInt32.toNat < 2 ^ k := by
    rw [UInt8.toNat_toUInt32]
    exact lt_of_lt_of_le b.toNat_lt (Nat.pow_le_pow_right (by decide) hk)
  exact Nat.testBit_lt_two_pow hlt

theorem round_toBitVec (crc : UInt32) (b : UInt8) :
    (round crc b).toBitVec = bitStep^[8] (crc ^^^ b.toUInt32).toBitVec := by
  obtain ⟨x, hx⟩ : ∃ x, (crc ^^^ b.toUInt32).toBitVec = x := ⟨_, rfl⟩
  have hsplit : x = (x &&& 0xFF#32) ^^^ (x &&& ~~~0xFF#32) := by
    apply BitVec.eq_of_getLsbD_eq
    intro i hi
    simp only [BitVec.getLsbD_xor, BitVec.getLsbD_and, BitVec.getLsbD_not, hi, decide_true]
    cases x.getLsbD i <;> cases (0xFF#32).getLsbD i <;> rfl
  have hlow : ∀ k < 8, (x &&& ~~~0xFF#32).getLsbD k = false := by
    intro k hk
    rw [BitVec.getLsbD_and, BitVec.getLsbD_not, getLsbD_mask]
    simp [hk]
  have hhigh : (x &&& ~~~0xFF#32) >>> 8 = crc.toBitVec >>> 8 := by
    apply BitVec.eq_of_getLsbD_eq
    intro i hi
    rw [← hx, BitVec.getLsbD_ushiftRight, BitVec.getLsbD_ushiftRight, BitVec.getLsbD_and,
      BitVec.getLsbD_not, getLsbD_mask, UInt32.toBitVec_xor, BitVec.getLsbD_xor,
      getLsbD_byte b (by omega), Bool.xor_false]
    rcases Nat.lt_or_ge (8 + i) 32 with hlt | hge
    · simp [hlt]
    · simp [BitVec.getLsbD_of_ge crc.toBitVec (8 + i) hge]
  rw [round, UInt32.toBitVec_xor, crcTableEntry_toBitVec, UInt32.toBitVec_and, hx]
  nth_rewrite 2 [hsplit]
  rw [iterate_bitStep_xor 8 hlow, hhigh]
  rfl

theorem round_injective_state (b : UInt8) : Function.Injective fun crc => round crc b := by
  intro c d h
  have hsteps := congrArg UInt32.toBitVec h
  simp only [round_toBitVec] at hsteps
  have hxor := bitStep_injective.iterate 8 hsteps
  exact (UInt32.xor_left_inj _).mp (UInt32.eq_of_toBitVec_eq hxor)

theorem round_injective_symbol (crc : UInt32) : Function.Injective (round crc) := by
  intro a b h
  have hsteps := congrArg UInt32.toBitVec h
  simp only [round_toBitVec] at hsteps
  have hxor := bitStep_injective.iterate 8 hsteps
  exact UInt8.toUInt32_inj.mp ((UInt32.xor_right_inj _).mp (UInt32.eq_of_toBitVec_eq hxor))

end Crc32c

theorem crc32c_set_ne {data : Bytes} {i : Nat} {b : UInt8} (hi : i < data.length)
    (hb : b ≠ data[i]) : crc32c (data.set i b) ≠ crc32c data := by
  intro heq
  have hfold := (UInt32.xor_left_inj _).mp heq
  exact foldl_set_ne Crc32c.round_injective_state Crc32c.round_injective_symbol _ hi hb hfold

end CoroDB
