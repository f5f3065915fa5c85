import CoroDB.Storage.Crc32c

/-!
# The checksum bit by bit

CRC-32C as a division of bits, the low bit of a byte first: up to 32 bits are taken by steps that can
be undone, so that no burst of this length goes unnoticed.
-/

namespace CoroDB

open Framework

namespace Crc32c

def byteBits (b : UInt8) : List Bool := (List.range 8).map b.toBitVec.getLsbD

def bits (data : Bytes) : List Bool := data.flatMap byteBits

/-- A step of the division by the reflected polynomial. -/
def feed (c : BitVec 32) (bit : Bool) : BitVec 32 :=
  if c.getLsbD 0 ^^ bit then (c >>> 1) ^^^ 0x82F63B78#32 else c >>> 1

/-- The reflected CRC with the Castagnoli polynomial; it starts with ones and is inverted at the end. -/
def bitwise (data : Bytes) : BitVec 32 := (bits data).foldl feed (BitVec.allOnes 32) ^^^ BitVec.allOnes 32

def pack (bs : List Bool) : BitVec 32 := (BitVec.ofBoolListLE bs).setWidth 32

variable {bs bs' : List Bool} {b : Bool} {i : Nat}

theorem pack_getLsbD (hi : i < 32) : (pack bs).getLsbD i = bs.getD i false := by
  simp [pack, hi, List.getD_eq_getElem?_getD]

theorem pack_injective (hlength : bs.length = bs'.length) (hle : bs.length ≤ 32)
    (h : pack bs = pack bs') : bs = bs' := by
  apply List.ext_getElem hlength
  intro i hi hi'
  have hbit := congrArg (fun w => BitVec.getLsbD w i) h
  simpa [pack_getLsbD (hi.trans_le hle), List.getD_eq_getElem, hi, hi'] using hbit

theorem feed_eq (c : BitVec 32) (bit : Bool) : feed c bit = bitStep (c ^^^ pack [bit]) := by
  have hlow : (c ^^^ pack [bit]).getLsbD 0 = (c.getLsbD 0 ^^ bit) := by
    rw [BitVec.getLsbD_xor, pack_getLsbD (by decide)]
    rfl
  have hshift : (c ^^^ pack [bit]) >>> 1 = c >>> 1 := by
    apply BitVec.eq_of_getLsbD_eq
    intro i hi
    rw [BitVec.getLsbD_ushiftRight, BitVec.getLsbD_ushiftRight, BitVec.getLsbD_xor]
    by_cases h32 : 1 + i < 32
    · rw [pack_getLsbD h32]
      simp
    · rw [BitVec.getLsbD_of_ge c _ (by omega), BitVec.getLsbD_of_ge _ _ (by omega)]
      rfl
  rw [feed, bitStep, hlow, hshift, BitVec.xor_comm]

theorem pack_cons (b : Bool) (bs : List Bool) : pack (b :: bs) = pack [b] ^^^ (pack bs <<< 1) := by
  apply BitVec.eq_of_getLsbD_eq
  intro i hi
  rw [BitVec.getLsbD_xor, pack_getLsbD hi, pack_getLsbD hi]
  cases i with
  | zero => simp
  | succ i =>
    rw [BitVec.getLsbD_shiftLeft, Nat.add_sub_cancel, pack_getLsbD (Nat.lt_of_succ_lt hi)]
    simp [hi]

theorem foldl_feed (c : BitVec 32) (hle : bs.length ≤ 32) :
    bs.foldl feed c = bitStep^[bs.length] (c ^^^ pack bs) := by
  induction bs generalizing c with
  | nil =>
    have hnil : pack [] = 0#32 := rfl
    simp [hnil]
  | cons b bs ih =>
    rw [List.length_cons] at hle
    have hlow : (pack bs <<< 1).getLsbD 0 = false := by simp
    have hback : (pack bs <<< 1) >>> 1 = pack bs := by
      apply BitVec.eq_of_getLsbD_eq
      intro i hi
      rw [BitVec.getLsbD_ushiftRight, BitVec.getLsbD_shiftLeft, Nat.add_sub_cancel_left]
      by_cases htop : 1 + i < 32
      · simp [htop]
      · rw [pack_getLsbD hi, List.getD_eq_default _ _ (by omega), Bool.and_false]
    rw [List.foldl_cons, ih _ (by omega), List.length_cons, Function.iterate_succ_apply, feed_eq,
      pack_cons b bs, ← BitVec.xor_assoc, bitStep_xor hlow, hback]

theorem length_byteBits (b : UInt8) : (byteBits b).length = 8 := by
  rw [byteBits, List.length_map, List.length_range]

theorem pack_byteBits (b : UInt8) : pack (byteBits b) = b.toUInt32.toBitVec := by
  apply BitVec.eq_of_getLsbD_eq
  intro i hi
  rw [pack_getLsbD hi]
  by_cases h8 : i < 8
  · simp [byteBits, h8, hi, List.getD_eq_getElem?_getD]
  · rw [getLsbD_byte b (by omega), List.getD_eq_default _ _ (by rw [length_byteBits]; omega)]

theorem byteBits_injective : Function.Injective byteBits := by
  intro b b' h
  have hpack := congrArg pack h
  rw [pack_byteBits, pack_byteBits] at hpack
  exact UInt8.toUInt32_inj.mp (UInt32.eq_of_toBitVec_eq hpack)

theorem round_eq_foldl (crc : UInt32) (b : UInt8) :
    (round crc b).toBitVec = (byteBits b).foldl feed crc.toBitVec := by
  rw [round_toBitVec, foldl_feed _ (by rw [length_byteBits]; decide), length_byteBits, pack_byteBits,
    UInt32.toBitVec_xor]

theorem bits_cons (b : UInt8) (data : Bytes) : bits (b :: data) = byteBits b ++ bits data :=
  List.flatMap_cons

theorem foldl_round_eq (crc : UInt32) (data : Bytes) :
    (data.foldl round crc).toBitVec = (bits data).foldl feed crc.toBitVec := by
  induction data generalizing crc with
  | nil => rfl
  | cons b data ih =>
    rw [List.foldl_cons, ih, round_eq_foldl, bits_cons, List.foldl_append]

theorem crc32c_eq_bitwise (data : Bytes) : (crc32c data).toBitVec = bitwise data := by
  have hfold := foldl_round_eq 0xFFFFFFFF data
  rw [bitwise, crc32c, UInt32.toBitVec_xor]
  exact congrArg (· ^^^ BitVec.allOnes 32) hfold

theorem length_bits (data : Bytes) : (bits data).length = 8 * data.length := by
  induction data with
  | nil => rfl
  | cons b data ih =>
    rw [bits_cons, List.length_append, length_byteBits, ih, List.length_cons]
    omega

theorem bits_injective : Function.Injective bits := by
  intro data data' h
  induction data generalizing data' with
  | nil =>
    have hlength := congrArg List.length h
    rw [length_bits, length_bits] at hlength
    exact (List.eq_nil_of_length_eq_zero (by simpa using hlength.symm)).symm
  | cons b data ih =>
    cases data' with
    | nil =>
      have hlength := congrArg List.length h
      simp [length_bits] at hlength
    | cons b' data' =>
      rw [bits_cons, bits_cons] at h
      obtain ⟨hb, hdata⟩ := List.append_inj h (by rw [length_byteBits, length_byteBits])
      rw [byteBits_injective hb, ih hdata]

theorem feed_injective (bit : Bool) : Function.Injective fun c => feed c bit := by
  intro c d h
  simp only [feed_eq] at h
  exact (BitVec.xor_left_inj _).mp (bitStep_injective h)

theorem foldl_feed_ne (start : Nat) (hlength : bs.length = bs'.length) (hne : bs ≠ bs')
    (hsame : ∀ i, i < start ∨ start + 32 ≤ i → bs[i]? = bs'[i]?) (c : BitVec 32) :
    bs.foldl feed c ≠ bs'.foldl feed c := by
  have hfront : bs.take start = bs'.take start := by
    apply List.ext_getElem?
    intro i
    rw [List.getElem?_take, List.getElem?_take]
    split_ifs with hi
    · exact hsame i (.inl hi)
    · rfl
  have hback : (bs.drop start).drop 32 = (bs'.drop start).drop 32 := by
    apply List.ext_getElem?
    intro i
    rw [List.drop_drop, List.drop_drop, List.getElem?_drop, List.getElem?_drop]
    exact hsame _ (.inr (by omega))
  have hsplit : ∀ l : List Bool, l = l.take start ++ ((l.drop start).take 32 ++ (l.drop start).drop 32) := by
    intro l
    rw [List.take_append_drop, List.take_append_drop]
  intro heq
  apply hne
  rw [hsplit bs, hsplit bs', hfront, hback, List.foldl_append, List.foldl_append, List.foldl_append,
    List.foldl_append] at heq
  have hwindow := foldl_injective feed_injective _ heq
  generalize (bs'.take start).foldl feed c = d at hwindow
  have hlengths : ((bs.drop start).take 32).length = ((bs'.drop start).take 32).length := by
    rw [List.length_take, List.length_take, List.length_drop, List.length_drop, hlength]
  have hshort : ((bs.drop start).take 32).length ≤ 32 := List.length_take_le _ _
  rw [foldl_feed _ hshort, foldl_feed _ (hlengths ▸ hshort), hlengths] at hwindow
  have hpack := (BitVec.xor_right_inj _).mp (bitStep_injective.iterate _ hwindow)
  rw [hsplit bs, hsplit bs', hfront, hback, pack_injective hlengths hshort hpack]

end Crc32c

/-- The checksum through the table is the bitwise one, and strings of one length that differ only
within 32 bits in a row have different checksums. -/
theorem crc32c_bitwise_burst :
    (∀ data, (crc32c data).toBitVec = Crc32c.bitwise data) ∧
      ∀ (data data' : Bytes) (start : Nat), data.length = data'.length → data ≠ data' →
        (∀ i, i < start ∨ start + 32 ≤ i → (Crc32c.bits data)[i]? = (Crc32c.bits data')[i]?) →
        crc32c data ≠ crc32c data' := by
  refine ⟨Crc32c.crc32c_eq_bitwise, ?_⟩
  intro data data' start hlength hne hsame heq
  have hbits : (Crc32c.bits data).length = (Crc32c.bits data').length := by
    rw [Crc32c.length_bits, Crc32c.length_bits, hlength]
  have hwords := congrArg UInt32.toBitVec heq
  rw [Crc32c.crc32c_eq_bitwise, Crc32c.crc32c_eq_bitwise] at hwords
  exact Crc32c.foldl_feed_ne start hbits (fun h => hne (Crc32c.bits_injective h)) hsame _
    ((BitVec.xor_left_inj _).mp hwords)

/-- Four bytes in the middle of six. -/
theorem crc32c_fourBytes :
    crc32c [0x31, 0x32, 0x33, 0x34, 0x35, 0x36] ≠ crc32c [0x31, 0xFF, 0x00, 0x80, 0x01, 0x36] := by
  refine crc32c_bitwise_burst.2 [0x31, 0x32, 0x33, 0x34, 0x35, 0x36]
    [0x31, 0xFF, 0x00, 0x80, 0x01, 0x36] 8 rfl (by decide) ?_
  intro i hi
  rcases Nat.lt_or_ge i 48 with hlt | hge
  · revert hi
    revert hlt
    revert i
    decide
  · rw [List.getElem?_eq_none (by simpa [Crc32c.length_bits] using hge),
      List.getElem?_eq_none (by simpa [Crc32c.length_bits] using hge)]

end CoroDB
