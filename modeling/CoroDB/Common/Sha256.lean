import CoroDB.Framework.BlockStream
import CoroDB.Storage.Value

/-!
# SHA-256

The streaming `Sha256` class, and the digest of FIPS 180-4 that it computes.
-/

namespace CoroDB

open Framework

/-- The eight words of a hash value, and the working variables of a round. -/
structure HashWords where
  a : UInt32
  b : UInt32
  c : UInt32
  d : UInt32
  e : UInt32
  f : UInt32
  g : UInt32
  h : UInt32
  deriving DecidableEq, Repr

namespace Sha256

def kK : List UInt32 := [
  0x428a2f98, 0x71374491, 0xb5c0fbcf, 0xe9b5dba5, 0x3956c25b, 0x59f111f1, 0x923f82a4, 0xab1c5ed5,
  0xd807aa98, 0x12835b01, 0x243185be, 0x550c7dc3, 0x72be5d74, 0x80deb1fe, 0x9bdc06a7, 0xc19bf174,
  0xe49b69c1, 0xefbe4786, 0x0fc19dc6, 0x240ca1cc, 0x2de92c6f, 0x4a7484aa, 0x5cb0a9dc, 0x76f988da,
  0x983e5152, 0xa831c66d, 0xb00327c8, 0xbf597fc7, 0xc6e00bf3, 0xd5a79147, 0x06ca6351, 0x14292967,
  0x27b70a85, 0x2e1b2138, 0x4d2c6dfc, 0x53380d13, 0x650a7354, 0x766a0abb, 0x81c2c92e, 0x92722c85,
  0xa2bfe8a1, 0xa81a664b, 0xc24b8b70, 0xc76c51a3, 0xd192e819, 0xd6990624, 0xf40e3585, 0x106aa070,
  0x19a4c116, 0x1e376c08, 0x2748774c, 0x34b0bcb5, 0x391c0cb3, 0x4ed8aa4a, 0x5b9cca4f, 0x682e6ff3,
  0x748f82ee, 0x78a5636f, 0x84c87814, 0x8cc70208, 0x90befffa, 0xa4506ceb, 0xbef9a3f7, 0xc67178f2]

def initialState : HashWords :=
  ⟨0x6a09e667, 0xbb67ae85, 0x3c6ef372, 0xa54ff53a, 0x510e527f, 0x9b05688c, 0x1f83d9ab, 0x5be0cd19⟩

def rotr (x n : UInt32) : UInt32 := (x >>> n) ||| (x <<< (32 - n))

/-- Word `i` of a block, its first byte highest. -/
def blockWord (block : Bytes) (i : Nat) : UInt32 :=
  ((block.getD (i * 4) 0).toUInt32 <<< 24) ||| ((block.getD (i * 4 + 1) 0).toUInt32 <<< 16) |||
    ((block.getD (i * 4 + 2) 0).toUInt32 <<< 8) ||| (block.getD (i * 4 + 3) 0).toUInt32

def wordBytes (w : UInt32) : Bytes :=
  [(w >>> 24).toUInt8, (w >>> 16).toUInt8, (w >>> 8).toUInt8, w.toUInt8]

section Transform

/-- The loop that computes `w[i]` from the words before it. -/
def extend (w : List UInt32) (i : Nat) : List UInt32 :=
  let s0 := rotr (w.getD (i - 15) 0) 7 ^^^ rotr (w.getD (i - 15) 0) 18 ^^^ (w.getD (i - 15) 0 >>> 3)
  let s1 := rotr (w.getD (i - 2) 0) 17 ^^^ rotr (w.getD (i - 2) 0) 19 ^^^ (w.getD (i - 2) 0 >>> 10)
  w ++ [w.getD (i - 16) 0 + s0 + w.getD (i - 7) 0 + s1]

def expand (block : Bytes) : List UInt32 :=
  (List.range' 16 48).foldl extend ((List.range 16).map (blockWord block))

def round (w : List UInt32) (v : HashWords) (i : Nat) : HashWords :=
  let s1 := rotr v.e 6 ^^^ rotr v.e 11 ^^^ rotr v.e 25
  let ch := (v.e &&& v.f) ^^^ (~~~v.e &&& v.g)
  let t1 := v.h + s1 + ch + kK.getD i 0 + w.getD i 0
  let s0 := rotr v.a 2 ^^^ rotr v.a 13 ^^^ rotr v.a 22
  let maj := (v.a &&& v.b) ^^^ (v.a &&& v.c) ^^^ (v.b &&& v.c)
  let t2 := s0 + maj
  ⟨t1 + t2, v.a, v.b, v.c, v.d + t1, v.e, v.f, v.g⟩

def transform (state : HashWords) (block : Bytes) : HashWords :=
  let v := (List.range 64).foldl (round (expand block)) state
  ⟨state.a + v.a, state.b + v.b, state.c + v.c, state.d + v.d, state.e + v.e, state.f + v.f,
    state.g + v.g, state.h + v.h⟩

end Transform

end Sha256

def Sha256.emptyStream : BlockStream HashWords UInt8 64 := ⟨initialState, [], Nat.succ_pos 63⟩

/-- The hash in the making: the state with the buffer, and the number of bytes as a `uint64_t`. -/
structure Sha256 where
  stream : BlockStream HashWords UInt8 64 := Sha256.emptyStream
  total : Nat := 0

namespace Sha256

def update (s : Sha256) (data : Bytes) : Sha256 :=
  ⟨s.stream.update transform data, (s.total + data.length) % 2 ^ 64⟩

/-- The loop that fills the buffer with zeros up to the place of the length. -/
def padZeros : Nat → Sha256 → Sha256
  | 0, s => s
  | fuel + 1, s => if s.stream.buf.length = 56 then s else padZeros fuel (s.update [0])

def lengthBytes (bits : Nat) : Bytes :=
  (List.range 8).map fun i => UInt8.ofNat (bits >>> (56 - 8 * i))

def digestBytes (w : HashWords) : Bytes :=
  [w.a, w.b, w.c, w.d, w.e, w.f, w.g, w.h].flatMap wordBytes

def final (s : Sha256) : Bytes :=
  let bits := s.total * 8 % 2 ^ 64
  let padded := (padZeros 64 (s.update [0x80])).update (lengthBytes bits)
  digestBytes padded.stream.state

end Sha256

def sha256 (data : Bytes) : Bytes := (({} : Sha256).update data).final

/-! ## FIPS 180-4 -/

namespace Fips

open Sha256 (rotr blockWord wordBytes kK)

def ch (x y z : UInt32) : UInt32 := (x &&& y) ^^^ (~~~x &&& z)

def maj (x y z : UInt32) : UInt32 := (x &&& y) ^^^ (x &&& z) ^^^ (y &&& z)

def upperSigma0 (x : UInt32) : UInt32 := rotr x 2 ^^^ rotr x 13 ^^^ rotr x 22

def upperSigma1 (x : UInt32) : UInt32 := rotr x 6 ^^^ rotr x 11 ^^^ rotr x 25

def lowerSigma0 (x : UInt32) : UInt32 := rotr x 7 ^^^ rotr x 18 ^^^ (x >>> 3)

def lowerSigma1 (x : UInt32) : UInt32 := rotr x 17 ^^^ rotr x 19 ^^^ (x >>> 10)

def schedule (block : Bytes) (t : Nat) : UInt32 :=
  if t < 16 then blockWord block t
  else lowerSigma1 (schedule block (t - 2)) + schedule block (t - 7) +
    lowerSigma0 (schedule block (t - 15)) + schedule block (t - 16)
termination_by t

theorem schedule_of_ge (block : Bytes) {t : Nat} (ht : 16 ≤ t) :
    schedule block t = lowerSigma1 (schedule block (t - 2)) + schedule block (t - 7) +
      lowerSigma0 (schedule block (t - 15)) + schedule block (t - 16) := by
  rw [schedule, if_neg (not_lt.mpr ht)]

/-- Step `t` of the hash computation. -/
def step (block : Bytes) (v : HashWords) (t : Nat) : HashWords :=
  let t₁ := v.h + upperSigma1 v.e + ch v.e v.f v.g + kK.getD t 0 + schedule block t
  let t₂ := upperSigma0 v.a + maj v.a v.b v.c
  ⟨t₁ + t₂, v.a, v.b, v.c, v.d + t₁, v.e, v.f, v.g⟩

def compress (hash : HashWords) (block : Bytes) : HashWords :=
  let v := (List.range 64).foldl (step block) hash
  ⟨hash.a + v.a, hash.b + v.b, hash.c + v.c, hash.d + v.d, hash.e + v.e, hash.f + v.f, hash.g + v.g,
    hash.h + v.h⟩

/-- The number of zero bytes of the padding, the fewest that bring the length to eight bytes below a
multiple of the block length. -/
def zeroCount (length : Nat) : Nat := (119 - length % 64) % 64

/-- The message with its padding: a one bit, zeros, and the length in bits as a word of 64 bits. -/
def pad (m : Bytes) : Bytes :=
  m ++ [0x80] ++ List.replicate (zeroCount m.length) 0 ++
    (List.range 8).map fun i => UInt8.ofNat (8 * m.length / 256 ^ (7 - i))

def digest (m : Bytes) : Bytes :=
  let hash := (BlockStream.blocksOf 64 (pad m)).foldl compress Sha256.initialState
  [hash.a, hash.b, hash.c, hash.d, hash.e, hash.f, hash.g, hash.h].flatMap wordBytes

theorem zeroCount_spec (length : Nat) :
    zeroCount length < 64 ∧ (length + 1 + zeroCount length) % 64 = 56 := by
  rw [zeroCount]
  omega

theorem length_pad (m : Bytes) : (pad m).length % 64 = 0 := by
  have hzeros := (zeroCount_spec m.length).2
  simp only [pad, List.length_append, List.length_cons, List.length_nil, List.length_replicate,
    List.length_map, List.length_range]
  omega

end Fips

namespace Sha256

section Compression

variable {block : Bytes}

theorem length_expand_prefix (block : Bytes) (k : Nat) :
    ((List.range' 16 k).foldl extend ((List.range 16).map (blockWord block))).length = 16 + k := by
  induction k with
  | zero => simp
  | succ k ih =>
    rw [List.range'_concat, List.foldl_append, List.foldl_cons, List.foldl_nil, extend,
      List.length_append, ih]
    rfl

theorem expand_prefix_getD (block : Bytes) (k i : Nat) (hi : i < 16 + k) :
    ((List.range' 16 k).foldl extend ((List.range 16).map (blockWord block))).getD i 0 =
      Fips.schedule block i := by
  induction k generalizing i with
  | zero =>
    rw [Fips.schedule, if_pos hi]
    simp [List.getD_eq_getElem?_getD, hi]
  | succ k ih =>
    have hlength := length_expand_prefix block k
    rw [List.range'_concat, List.foldl_append, List.foldl_cons, List.foldl_nil, extend, Nat.one_mul]
    rcases Nat.lt_or_ge i (16 + k) with hlt | hge
    · rw [List.getD_append _ _ _ _ (by rwa [hlength])]
      exact ih i hlt
    · obtain rfl : i = 16 + k := by omega
      rw [List.getD_append_right _ _ _ _ (by rw [hlength]), hlength, Nat.sub_self, List.getD_cons_zero,
        ih _ (by omega), ih _ (by omega), ih _ (by omega), ih _ (by omega),
        Fips.schedule_of_ge block (Nat.le_add_right 16 k), ← Fips.lowerSigma0, ← Fips.lowerSigma1]
      ac_rfl

theorem round_eq_step (block : Bytes) (v : HashWords) {i : Nat} (hi : i < 64) :
    round (expand block) v i = Fips.step block v i := by
  have hword : (expand block).getD i 0 = Fips.schedule block i := expand_prefix_getD block 48 i hi
  simp only [round, Fips.step, hword]
  rfl

theorem transform_eq_compress : transform = Fips.compress := by
  funext state block
  have hrounds : (List.range 64).foldl (round (expand block)) state =
      (List.range 64).foldl (Fips.step block) state := by
    apply List.foldl_ext
    intro v i hi
    exact round_eq_step block v (List.mem_range.mp hi)
  rw [transform, Fips.compress, hrounds]

end Compression

section Stream

variable {s : Sha256} {m : Bytes}

/-- The bytes so far have been taken in, and their number fits in the counter. -/
structure Holds (s : Sha256) (m : Bytes) : Prop where
  absorbed : ∃ blocks, BlockStream.Absorbed transform initialState m s.stream blocks
  total : s.total = m.length % 2 ^ 64

theorem holds_empty : Holds {} [] := ⟨⟨[], by simp, rfl, rfl⟩, rfl⟩

theorem Holds.update (h : Holds s m) (data : Bytes) : Holds (s.update data) (m ++ data) := by
  obtain ⟨blocks, hblocks⟩ := h.absorbed
  refine ⟨hblocks.update data, ?_⟩
  rw [Sha256.update, h.total, Nat.mod_add_mod, List.length_append]

theorem Holds.pieces (h : Holds s m) (pieces : List Bytes) :
    Holds (pieces.foldl Sha256.update s) (m ++ pieces.flatten) := by
  induction pieces generalizing s m with
  | nil => simpa using h
  | cons piece pieces ih =>
    rw [List.foldl_cons, List.flatten_cons, ← List.append_assoc]
    exact ih (h.update piece)

theorem Holds.length_buf (h : Holds s m) : s.stream.buf.length = m.length % 64 := by
  obtain ⟨blocks, hblocks⟩ := h.absorbed
  exact hblocks.length_buf

theorem Holds.padZeros {fuel k : Nat} (h : Holds s m) (hk : (m.length + k) % 64 = 56) (hk64 : k < 64)
    (hfuel : k ≤ fuel) : Holds (padZeros fuel s) (m ++ List.replicate k 0) := by
  induction k generalizing fuel s m with
  | zero =>
    rw [Nat.add_zero, ← h.length_buf] at hk
    cases fuel with
    | zero => simpa [Sha256.padZeros] using h
    | succ fuel => simpa [Sha256.padZeros, hk] using h
  | succ k ih =>
    obtain ⟨fuel, rfl⟩ : ∃ n, fuel = n + 1 := ⟨fuel - 1, by omega⟩
    have hne : s.stream.buf.length ≠ 56 := by
      rw [h.length_buf]
      omega
    rw [Sha256.padZeros, if_neg hne, List.replicate_succ, List.append_cons]
    apply ih (h.update [0]) _ (by omega) (by omega)
    rw [List.length_append, List.length_singleton]
    omega

theorem lengthBytes_eq (length : Nat) :
    lengthBytes (8 * length) =
      (List.range 8).map fun i => UInt8.ofNat (8 * length / 256 ^ (7 - i)) := by
  apply List.map_congr_left
  intro i hi
  have hi := List.mem_range.mp hi
  have hpow : 2 ^ (56 - 8 * i) = 256 ^ (7 - i) := by
    rw [show 56 - 8 * i = 8 * (7 - i) by omega, Nat.pow_mul]
  rw [Nat.shiftRight_eq_div_pow, hpow]

theorem Holds.final (h : Holds s m) (hm : m.length < 2 ^ 61) : s.final = Fips.digest m := by
  obtain ⟨hzeros, hplace⟩ := Fips.zeroCount_spec m.length
  have hbits : s.total * 8 % 2 ^ 64 = 8 * m.length := by
    rw [h.total, Nat.mod_eq_of_lt (by omega), Nat.mod_eq_of_lt (by omega), Nat.mul_comm]
  have hfilled : Holds (Sha256.padZeros 64 (s.update [0x80]))
      (m ++ [0x80] ++ List.replicate (Fips.zeroCount m.length) 0) := by
    apply (h.update [0x80]).padZeros _ hzeros hzeros.le
    rw [List.length_append]
    exact hplace
  have hpadded := hfilled.update (lengthBytes (8 * m.length))
  have hpad : m ++ [0x80] ++ List.replicate (Fips.zeroCount m.length) 0 ++
      lengthBytes (8 * m.length) = Fips.pad m := by
    rw [lengthBytes_eq, Fips.pad]
  rw [hpad] at hpadded
  obtain ⟨blocks, hblocks⟩ := hpadded.absorbed
  have hstate := hblocks.state_of_whole (Fips.length_pad m)
  rw [transform_eq_compress] at hstate
  simp only [Sha256.final, hbits, hstate]
  rfl

end Stream

end Sha256

/-- The digest of `abc` that the standard gives as an example. -/
theorem Fips.digest_abc : Fips.digest [0x61, 0x62, 0x63] = [
    0xba, 0x78, 0x16, 0xbf, 0x8f, 0x01, 0xcf, 0xea, 0x41, 0x41, 0x40, 0xde, 0x5d, 0xae, 0x22, 0x23,
    0xb0, 0x03, 0x61, 0xa3, 0x96, 0x17, 0x7a, 0x9c, 0xb4, 0x10, 0xff, 0x61, 0xf2, 0x00, 0x15, 0xad] := by
  have hsha : sha256 [0x61, 0x62, 0x63] = Fips.digest [0x61, 0x62, 0x63] :=
    (Sha256.holds_empty.update _).final (by decide)
  rw [← hsha]
  decide +kernel

/-- However a message below `2 ^ 61` bytes is cut into updates, the result is its digest. -/
theorem sha256_pieces (pieces : List Bytes) (hlength : pieces.flatten.length < 2 ^ 61) :
    (pieces.foldl Sha256.update {}).final = Fips.digest pieces.flatten ∧
      sha256 pieces.flatten = Fips.digest pieces.flatten :=
  ⟨(Sha256.holds_empty.pieces pieces).final hlength,
    (Sha256.holds_empty.update pieces.flatten).final hlength⟩

/-- The message in two pieces. -/
theorem sha256_twoPieces :
    (((({} : Sha256).update [0x61]).update [0x62, 0x63])).final = Fips.digest [0x61, 0x62, 0x63] :=
  (sha256_pieces [[0x61], [0x62, 0x63]] (by decide)).1

end CoroDB
