import CoroDB.Framework.BufferReader
import CoroDB.Storage.SstSource

/-!
# The footer of a level file

The Bloom filter of the keys of a file has no false negatives, also after it was written and read.
-/

namespace CoroDB

open Framework

namespace BloomFilter

section Membership

def bitSet (bits : Bytes) (bit : Nat) : Bool :=
  bits.getD (bit / 8) 0 &&& (1 <<< UInt8.ofNat (bit % 8)) != 0

def maybeContains (f : BloomFilter) (key : Bytes) : Bool :=
  f.bits.isEmpty || (positions f.size f.numHashes key).all (bitSet f.bits)

theorem mask_ne_zero (bit : Nat) : (1 : UInt8) <<< UInt8.ofNat (bit % 8) ≠ 0 := by
  have hlt : bit % 8 < 8 := Nat.mod_lt bit (by decide)
  interval_cases bit % 8 <;> decide

theorem or_and_eq_zero_iff {x y mask : UInt8} :
    (x ||| y) &&& mask = 0 ↔ x &&& mask = 0 ∧ y &&& mask = 0 := by
  have hdistrib : (x ||| y) &&& mask = (x &&& mask) ||| (y &&& mask) :=
    UInt8.eq_of_toBitVec_eq BitVec.and_or_distrib_right
  rw [hdistrib, UInt8.or_eq_zero_iff]

theorem setBit_getD {bits : Bytes} {bit : Nat} (h : bit / 8 < bits.length) (i : Nat) :
    (setBit bits bit).getD i 0 = if bit / 8 = i then
      bits.getD i 0 ||| (1 <<< UInt8.ofNat (bit % 8)) else bits.getD i 0 := by
  rw [setBit, List.getD_eq_getElem?_getD, List.getElem?_modify, List.getD_eq_getElem?_getD]
  split_ifs with hi
  · subst hi
    simp [h]
  · simp

theorem bitSet_setBit {bits : Bytes} {bit : Nat} (h : bit / 8 < bits.length) :
    bitSet (setBit bits bit) bit = true := by
  rw [bitSet, setBit_getD h, if_pos rfl, bne_iff_ne, ne_eq, or_and_eq_zero_iff, UInt8.and_self]
  intro hzero
  exact mask_ne_zero bit hzero.2

theorem bitSet_mono {bits : Bytes} {p bit : Nat} (hp : bitSet bits p = true)
    (h : bit / 8 < bits.length) : bitSet (setBit bits bit) p = true := by
  rw [bitSet, bne_iff_ne] at hp
  rw [bitSet, setBit_getD h, bne_iff_ne]
  split_ifs with hbyte
  · intro hzero
    exact hp (or_and_eq_zero_iff.mp hzero).1
  · exact hp

theorem bitSet_foldl {bits : Bytes} {ps : List Nat} (hps : ∀ p ∈ ps, p / 8 < bits.length) {p : Nat}
    (hp : bitSet bits p = true ∨ p ∈ ps) : bitSet (ps.foldl setBit bits) p = true := by
  induction ps generalizing bits with
  | nil =>
    rcases hp with hp | hp
    · exact hp
    · cases hp
  | cons bit ps ih =>
    have hbit := hps bit List.mem_cons_self
    rw [List.foldl_cons]
    apply ih
    · intro q hq
      rw [setBit, List.length_modify]
      exact hps q (List.mem_cons_of_mem bit hq)
    · rcases hp with hp | hp
      · exact Or.inl (bitSet_mono hp hbit)
      · rcases List.mem_cons.mp hp with rfl | hp
        · exact Or.inl (bitSet_setBit hbit)
        · exact Or.inr hp

theorem positions_lt {size : Nat} (h : 0 < size) {numHashes : Nat} {key : Bytes} {p : Nat}
    (hp : p ∈ positions size numHashes key) : p < size := by
  obtain ⟨i, -, rfl⟩ := List.mem_map.mp hp
  exact Nat.mod_lt _ h

theorem build_maybeContains {keys : List Bytes} {key : Bytes} (h : key ∈ keys) :
    (build keys).maybeContains key = true := by
  have hsize := (sizeFor_le keys).1
  rw [build_eq (List.ne_nil_of_mem h), maybeContains, Bool.or_eq_true, List.all_eq_true]
  right
  intro p hp
  apply bitSet_foldl
  · intro q hq
    obtain ⟨k, -, hk⟩ := List.mem_flatMap.mp hq
    have hlt := positions_lt (by omega) hk
    rw [List.length_replicate]
    omega
  · exact Or.inr (List.mem_flatMap.mpr ⟨key, h, hp⟩)

/-- A key of the list is found in the filter that is read back. -/
theorem maybeContains_deserialize {keys : List Bytes} {key : Bytes} (h : key ∈ keys) :
    ∃ f, deserialize (build keys).serialize = some f ∧ f.maybeContains key = true :=
  ⟨build keys, deserialize_serialize (build_fits keys), build_maybeContains h⟩

/-- The second of two keys. -/
theorem maybeContains_deserialize_second :
    ∃ f, deserialize (build [[1], [2, 3]]).serialize = some f ∧ f.maybeContains [2, 3] = true :=
  maybeContains_deserialize (by decide)

end Membership

end BloomFilter

section Found

/-- The footer of a filter of any keys and of any checksums is found behind any bytes. -/
theorem findSstFooter_append (keys : List Bytes) (pageCrcs : List UInt32)
    (h : (SstFooter.mk (BloomFilter.build keys) pageCrcs).serialize.length < 2 ^ 32) (data : Bytes) :
    findSstFooter (data ++ serializeSstFooter ⟨BloomFilter.build keys, pageCrcs⟩) =
      some ⟨BloomFilter.build keys, pageCrcs⟩ :=
  findSstFooter_of_fits data (SstFooter.fits_of_build h)

/-- A footer behind an older one. -/
theorem findSstFooter_append_older :
    findSstFooter (serializeSstFooter ⟨BloomFilter.build [[1]], [7]⟩ ++
      serializeSstFooter ⟨BloomFilter.build [[2], [3]], [8, 9]⟩) =
        some ⟨BloomFilter.build [[2], [3]], [8, 9]⟩ := by
  apply findSstFooter_append
  decide

end Found

section Bounds

open BufferReader

def BloomFilter.reader : BufferReader BloomFilter := do
  need 5
  let size ← word 4
  let numHashes ← word 1
  need ((size + 7) / 8)
  let bits ← read ((size + 7) / 8)
  pure ⟨size, numHashes, bits⟩

/-- The filter of a footer is copied from it without a check of its length. -/
def SstFooter.readBloom : BufferReader BloomFilter := do
  let bloomLen ← word 4
  if bloomLen = 0 then pure BloomFilter.empty
  else do
    let data ← read bloomLen
    nested BloomFilter.reader data

def SstFooter.readPageCrcs : BufferReader (List UInt32) := do
  let left ← remaining
  if 4 ≤ left then do
    let count ← word 4
    if left = 4 + count * 4 then do
      let table ← read (count * 4)
      pure (leWords count table)
    else pure []
  else pure []

def SstFooter.reader : BufferReader SstFooter := do
  need 8
  let magic ← word 4
  require (magic = footerMagic)
  let bloom ← readBloom
  let pageCrcs ← readPageCrcs
  pure ⟨bloom, pageCrcs⟩

theorem BloomFilter.reader_inside : Needs 0 BloomFilter.reader 0 := by
  apply needs_need.bind
  intro _
  apply (needs_word (by decide : 4 + 1 ≤ 5)).bind
  intro size
  apply (needs_word (by decide : 1 + 0 ≤ 1)).bind
  intro numHashes
  apply needs_need.bind
  intro _
  apply (needs_read (by simp : (size + 7) / 8 + 0 ≤ (size + 7) / 8)).bind
  intro bits
  exact Needs.pure _

theorem BloomFilter.reader_result (data : Bytes) :
    (run BloomFilter.reader data).result = BloomFilter.deserialize data := by
  rw [BloomFilter.deserialize]
  by_cases hlen : data.length < 5
  · have hread : BloomFilter.reader data 0 = .refused := bind_refused (need_of_lt (by omega))
    rw [run_refused hread, if_pos (Or.inl hlen)]
    rfl
  by_cases hbits : data.length < 5 + (ofLeBytes (data.take 4) + 7) / 8
  · have hread : BloomFilter.reader data 0 = .refused := by
      rw [BloomFilter.reader, bind_value (need_of_le (by omega)), bind_value (word_zero (by omega)),
        bind_value (word_of_le (by omega)), bind_refused (need_of_lt (by omega))]
    rw [run_refused hread, if_pos (Or.inr hbits)]
    rfl
  · have hread : BloomFilter.reader data 0 = .value (⟨ofLeBytes (data.take 4),
        ofLeBytes ((data.drop 4).take 1),
        (data.drop 5).take ((ofLeBytes (data.take 4) + 7) / 8)⟩,
        5 + (ofLeBytes (data.take 4) + 7) / 8) := by
      rw [BloomFilter.reader, bind_value (need_of_le (by omega)), bind_value (word_zero (by omega)),
        bind_value (word_of_le (by omega)), bind_value (need_of_le (by omega)),
        bind_value (read_of_le (by omega))]
      rfl
    rw [run_value hread, if_neg (by omega)]
    rfl

def SstFooter.bloomLen (bs : Bytes) : Nat := ofLeBytes ((bs.drop 4).take 4)

theorem SstFooter.readBloom_outside {bs : Bytes} (h : 8 ≤ bs.length)
    (hlen : bs.length < 8 + bloomLen bs) : readBloom bs 4 = .outside := by
  have hne : ofLeBytes ((bs.drop 4).take 4) ≠ 0 := by
    change bloomLen bs ≠ 0
    omega
  rw [readBloom, bind_value (word_of_le (by omega)), if_neg hne]
  exact bind_outside (read_of_lt hlen)

theorem SstFooter.readBloom_inside {bs : Bytes} (hlen : 8 + bloomLen bs ≤ bs.length) :
    readBloom bs 4 = (if bloomLen bs = 0 then some BloomFilter.empty
      else BloomFilter.deserialize ((bs.drop 8).take (bloomLen bs))).elim .refused
        fun f => .value (f, 8 + bloomLen bs) := by
  rw [readBloom, bind_value (word_of_le (by omega)), ← bloomLen]
  by_cases hzero : bloomLen bs = 0
  · rw [if_pos hzero, if_pos hzero, hzero]
    rfl
  · rw [if_neg hzero, if_neg hzero, bind_value (read_of_le hlen),
      nested_eq (BloomFilter.reader_inside.run_ne_outside _), BloomFilter.reader_result]

def SstFooter.crcTable (table : Bytes) : List UInt32 :=
  let count := ofLeBytes (table.take 4)
  if 4 ≤ table.length ∧ table.length = 4 + count * 4 then leWords count (table.drop 4) else []

theorem SstFooter.readPageCrcs_inside {bs : Bytes} {pos : Nat} (h : pos ≤ bs.length) :
    ∃ pos', readPageCrcs bs pos = .value (crcTable (bs.drop pos), pos') := by
  rw [readPageCrcs, bind_value rfl, crcTable, List.length_drop]
  by_cases hleft : 4 ≤ bs.length - pos
  · rw [if_pos hleft, bind_value (word_of_le (by omega))]
    by_cases hcount : bs.length - pos = 4 + ofLeBytes ((bs.drop pos).take 4) * 4
    · have htable : (bs.drop (pos + 4)).take (ofLeBytes ((bs.drop pos).take 4) * 4) =
          bs.drop (pos + 4) := by
        apply List.take_of_length_le
        rw [List.length_drop]
        omega
      rw [if_pos hcount, bind_value (read_of_le (by omega)), if_pos ⟨hleft, hcount⟩, htable,
        List.drop_drop]
      exact ⟨_, rfl⟩
    · rw [if_neg hcount, if_neg fun hboth => hcount hboth.2]
      exact ⟨_, rfl⟩
  · rw [if_neg hleft, if_neg fun hboth => hleft hboth.1]
    exact ⟨_, rfl⟩

/-- The bytes are too few for a footer or not one, or its filter lies inside them. -/
def SstFooter.BloomInside (bs : Bytes) : Prop :=
  bs.length < 8 ∨ ofLeBytes (bs.take 4) ≠ footerMagic ∨ 8 + bloomLen bs ≤ bs.length

theorem SstFooter.deserialize_eq {bs : Bytes} (hlen : 8 ≤ bs.length)
    (hmagic : ofLeBytes (bs.take 4) = footerMagic) :
    SstFooter.deserialize bs = (if bloomLen bs = 0 then some BloomFilter.empty
      else BloomFilter.deserialize ((bs.drop 8).take (bloomLen bs))).map
        fun f => ⟨f, crcTable (bs.drop (8 + bloomLen bs))⟩ := by
  rw [SstFooter.deserialize, if_neg (by simp [hlen, hmagic])]
  rfl

theorem SstFooter.reader_inside {bs : Bytes} (h : BloomInside bs) :
    run reader bs ≠ .outside ∧ (run reader bs).result = SstFooter.deserialize bs := by
  by_cases hlen : bs.length < 8
  · have hread : reader bs 0 = .refused := bind_refused (need_of_lt (by omega))
    rw [run_refused hread, SstFooter.deserialize, if_pos (Or.inl hlen)]
    exact ⟨by simp, rfl⟩
  by_cases hmagic : ofLeBytes (bs.take 4) = footerMagic
  · have hbloom : 8 + bloomLen bs ≤ bs.length := by
      rcases h with h | h | h
      · exact absurd h hlen
      · exact absurd hmagic h
      · exact h
    have hstart : reader bs 0 = (readBloom >>= fun bloom => readPageCrcs >>= fun pageCrcs =>
        pure ⟨bloom, pageCrcs⟩ : BufferReader SstFooter) bs 4 := by
      rw [reader, bind_value (need_of_le (by omega)), bind_value (word_zero (by omega)),
        bind_value (require_of hmagic)]
    obtain ⟨pos', hcrcs⟩ := readPageCrcs_inside hbloom
    have hfilter := readBloom_inside hbloom
    rw [deserialize_eq (not_lt.mp hlen) hmagic]
    cases hf : (if bloomLen bs = 0 then some BloomFilter.empty
        else BloomFilter.deserialize ((bs.drop 8).take (bloomLen bs))) with
    | none =>
      rw [hf] at hfilter
      rw [run_refused (hstart.trans (bind_refused hfilter))]
      exact ⟨by simp, rfl⟩
    | some f =>
      rw [hf] at hfilter
      rw [run_value (hstart.trans ((bind_value hfilter).trans (bind_value hcrcs)))]
      exact ⟨by simp, rfl⟩
  · have hread : reader bs 0 = .refused := by
      rw [reader, bind_value (need_of_le (by omega)), bind_value (word_zero (by omega)),
        bind_refused (require_of_not hmagic)]
    rw [run_refused hread, SstFooter.deserialize, if_pos (Or.inr hmagic)]
    exact ⟨by simp, rfl⟩

/-- A footer is read inside its bounds just when its filter lies inside them. -/
theorem sstFooter_reader_inside_iff (bs : Bytes) :
    run SstFooter.reader bs ≠ .outside ↔ SstFooter.BloomInside bs := by
  constructor
  · intro h
    by_contra hout
    simp only [SstFooter.BloomInside, not_or, not_not, not_lt, not_le] at hout
    obtain ⟨hlen, hmagic, hbloom⟩ := hout
    apply h
    apply run_outside
    rw [SstFooter.reader, bind_value (need_of_le (by omega)), bind_value (word_zero (by omega)),
      bind_value (require_of hmagic)]
    exact bind_outside (SstFooter.readBloom_outside hlen hbloom)
  · intro h
    exact (SstFooter.reader_inside h).1

/-- A footer that ends behind the length of its filter. -/
theorem sstFooter_reads_outside :
    run SstFooter.reader (leBytes 4 footerMagic ++ leBytes 4 1) = .outside := by
  decide

end Bounds

end CoroDB
