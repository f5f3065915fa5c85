import CoroDB.Storage.CommitTsScan
import CoroDB.Storage.RowCodec

/-!
# Reading level files page by page

A level file is read through the buffer pool, one page at a time, and every page of its records is
checked against the checksum the footer has for it.
-/

namespace CoroDB

open Framework

inductive ReadError where
  | pageChecksum
  | decode (e : DecodeError)
  deriving DecidableEq, Repr

def alignUp (n : Nat) : Nat := (n + pageSize - 1) / pageSize * pageSize

def BloomFilter.deserialize (bs : Bytes) : Option BloomFilter :=
  let size := ofLeBytes (bs.take 4)
  if bs.length < 5 ∨ bs.length < 5 + (size + 7) / 8 then none
  else some ⟨size, ofLeBytes ((bs.drop 4).take 1), (bs.drop 5).take ((size + 7) / 8)⟩

def leWords (count : Nat) (bs : Bytes) : List UInt32 :=
  (List.range count).map fun i => UInt32.ofNat (ofLeBytes ((bs.drop (4 * i)).take 4))

/-- The footer in its bytes. A body that ends behind the filter has no checksums, and so has one whose
length does not go with the number of checksums. -/
def SstFooter.deserialize (bs : Bytes) : Option SstFooter :=
  if bs.length < 8 ∨ ofLeBytes (bs.take 4) ≠ footerMagic then none
  else
    let bloomLen := ofLeBytes ((bs.drop 4).take 4)
    let table := bs.drop (8 + bloomLen)
    let count := ofLeBytes (table.take 4)
    (if bloomLen = 0 then some BloomFilter.empty
      else BloomFilter.deserialize ((bs.drop 8).take bloomLen)).map fun bloom =>
        ⟨bloom, if 4 ≤ table.length ∧ table.length = 4 + count * 4 then leWords count (table.drop 4)
          else []⟩

def trailerFooter (file : Bytes) : Option SstFooter :=
  let trailer := file.drop (file.length - 8)
  let bodyLen := ofLeBytes (trailer.take 4)
  let body := (file.drop (file.length - 8 - bodyLen)).take bodyLen
  if 16 ≤ file.length ∧ 8 ≤ bodyLen ∧ bodyLen + 8 ≤ file.length ∧
      (crc32c body).toNat = ofLeBytes (trailer.drop 4) then
    SstFooter.deserialize body
  else none

/-- The footer from the last magic number in the last 256 KiB on. -/
def scannedFooter (file : Bytes) : Option SstFooter :=
  let tail := file.drop (file.length - 256 * 1024)
  ((List.range tail.length).reverse.find? fun i =>
    (tail.drop i).take 4 = leBytes 4 footerMagic).bind fun i => SstFooter.deserialize (tail.drop i)

/-- The footer that is found in a level file: behind its trailer, or else by its magic number. -/
def findSstFooter (file : Bytes) : Option SstFooter :=
  (trailerFooter file).or (if 8 ≤ file.length then scannedFooter file else none)

/-- The footer of a level file, without filter and checksums when none is found. -/
def loadSstFooter (file : Bytes) : SstFooter :=
  (findSstFooter file).getD ⟨BloomFilter.empty, []⟩

/-- An open level file: the page its records start at, the number of bytes from there on, and its
footer. -/
structure SstSource where
  file : Bytes
  offsetPages : Nat
  dataBytes : Nat
  footer : SstFooter

def openSource (file : Bytes) : Option SstSource :=
  let aligned := alignUp (8 + ofLeBytes ((file.drop 4).take 4))
  if file.length < 8 ∨ ofLeBytes (file.take 4) ≠ lsmMagic ∨ file.length < aligned then none
  else some ⟨file, aligned / pageSize % 2 ^ 32, file.length - aligned, loadSstFooter file⟩

namespace SstSource

/-- A page as the buffer pool loads it: zeros follow the end of the file. -/
def page (s : SstSource) (n : Nat) : Bytes :=
  let bs := (s.file.drop (n * pageSize)).take pageSize
  bs ++ List.replicate (pageSize - bs.length) 0

def verifyPageCrc (s : SstSource) (n : Nat) (data : Bytes) : Bool :=
  n < s.offsetPages || (s.footer.pageCrcs[n - s.offsetPages]?).all fun crc => crc32c data == crc

/-- Read `n` bytes from an offset behind the header, page by page. -/
def readBytes (s : SstSource) : Nat → Nat → Nat → Except ReadError Bytes
  | 0, _, _ => .ok []
  | fuel + 1, off, n =>
    if n = 0 then .ok []
    else
      let number := (s.offsetPages + off / pageSize % 2 ^ 32) % 2 ^ 32
      let inPage := off % pageSize
      let take := min (pageSize - inPage) n
      if s.verifyPageCrc number (s.page number) = false then .error .pageChecksum
      else (s.readBytes fuel (off + take) (n - take)).map
        fun rest => ((s.page number).drop inPage).take take ++ rest

def data (s : SstSource) : Bytes := s.file.drop (s.offsetPages * pageSize)

/-- A file of fewer than 2 ^ 32 pages whose pages all pass their checks. -/
structure Intact (s : SstSource) : Prop where
  dataBytes : s.dataBytes = s.data.length
  small : s.file.length ≤ 2 ^ 32 * pageSize
  verified : ∀ n, s.verifyPageCrc n (s.page n) = true

theorem page_drop_take {s : SstSource} {n inPage count : Nat} (hcount : inPage + count ≤ pageSize)
    (hfile : n * pageSize + inPage + count ≤ s.file.length) :
    ((s.page n).drop inPage).take count = (s.file.drop (n * pageSize + inPage)).take count := by
  have hlen : inPage + count ≤ ((s.file.drop (n * pageSize)).take pageSize).length := by
    simp only [List.length_take, List.length_drop]
    omega
  rw [page, List.drop_append_of_le_length (by omega), List.take_append_of_le_length (by simp; omega),
    List.drop_take, List.drop_drop, List.take_take, Nat.min_eq_left (by omega)]

theorem Intact.readBytes {s : SstSource} (h : s.Intact) {fuel off n : Nat} (hfuel : n ≤ fuel)
    (hin : off + n ≤ s.dataBytes) : s.readBytes fuel off n = .ok ((s.data.drop off).take n) := by
  have hpage : 0 < pageSize := by decide
  induction fuel generalizing off n with
  | zero =>
    obtain rfl : n = 0 := by omega
    simp [SstSource.readBytes]
  | succ fuel ih =>
    by_cases hn : n = 0
    · simp [SstSource.readBytes, hn]
    have hlen : s.data.length = s.file.length - s.offsetPages * pageSize := List.length_drop ..
    have hbytes := h.dataBytes
    have hsmall := h.small
    have hmod : off % pageSize < pageSize := Nat.mod_lt off hpage
    have hdiv : off / pageSize * pageSize + off % pageSize = off := Nat.div_add_mod' off pageSize
    have hnumber : (s.offsetPages + off / pageSize % 2 ^ 32) % 2 ^ 32 =
        s.offsetPages + off / pageSize := by
      have hlt : s.offsetPages + off / pageSize < 2 ^ 32 := by
        apply Nat.lt_of_mul_lt_mul_right (a := pageSize)
        rw [Nat.add_mul]
        omega
      rw [Nat.mod_eq_of_lt (by omega : off / pageSize < 2 ^ 32), Nat.mod_eq_of_lt hlt]
    obtain ⟨count, hcount⟩ : ∃ count, min (pageSize - off % pageSize) n = count := ⟨_, rfl⟩
    have hpos : 0 < count ∧ count ≤ n ∧ off % pageSize + count ≤ pageSize := by omega
    have hstart : (s.offsetPages + off / pageSize) * pageSize + off % pageSize =
        s.offsetPages * pageSize + off := by
      rw [Nat.add_mul]
      omega
    rw [SstSource.readBytes, if_neg hn]
    simp only [h.verified, hnumber, hcount, Bool.true_eq_false, if_false]
    rw [ih (by omega) (by omega), page_drop_take hpos.2.2 (by omega), hstart, ← List.drop_drop]
    have hsplit : (s.data.drop off).take n = (s.data.drop off).take count ++
        (s.data.drop (off + count)).take (n - count) := by
      rw [← List.drop_drop, ← List.take_add, Nat.add_sub_cancel' hpos.2.1]
    rw [hsplit]
    rfl

end SstSource

section Footer

/-- A filter whose fields fit their bytes, with the bits its size asks for. -/
structure BloomFilter.Fits (f : BloomFilter) : Prop where
  size : f.size < 2 ^ 32
  numHashes : f.numHashes < 256
  bits : f.bits.length = (f.size + 7) / 8

theorem BloomFilter.deserialize_serialize {f : BloomFilter} (h : f.Fits) :
    BloomFilter.deserialize f.serialize = some f := by
  have hsize : ofLeBytes (f.serialize.take 4) = f.size := by
    rw [serialize, List.append_assoc, List.take_left' (leBytes_length 4 _), ofLeBytes_leBytes]
    exact Nat.mod_eq_of_lt h.size
  have hdrop4 : f.serialize.drop 4 = leBytes 1 f.numHashes ++ f.bits := by
    rw [serialize, List.append_assoc]
    exact List.drop_left' (leBytes_length 4 _)
  have hhashes : ofLeBytes ((f.serialize.drop 4).take 1) = f.numHashes := by
    rw [hdrop4, List.take_left' (leBytes_length 1 _), ofLeBytes_leBytes]
    exact Nat.mod_eq_of_lt h.numHashes
  have hbits : f.serialize.drop 5 = f.bits := by
    rw [show 5 = 4 + 1 from rfl, ← List.drop_drop, hdrop4]
    exact List.drop_left' (leBytes_length 1 _)
  have hlen : f.serialize.length = 5 + f.bits.length := by
    simp only [serialize, List.length_append, leBytes_length]
  rw [deserialize, hsize, hlen, ← h.bits, if_neg (by omega), hhashes, hbits, List.take_length]

theorem leWords_flatMap (ws : List UInt32) :
    leWords ws.length (ws.flatMap fun c => leBytes 4 c.toNat) = ws := by
  induction ws with
  | nil => rfl
  | cons w ws ih =>
    have hw : w.toNat < 256 ^ 4 := w.toNat_lt
    have hshift : ∀ i, (leBytes 4 w.toNat ++ ws.flatMap fun c => leBytes 4 c.toNat).drop
        (4 * (i + 1)) = (ws.flatMap fun c => leBytes 4 c.toNat).drop (4 * i) := by
      intro i
      rw [Nat.mul_succ, Nat.add_comm, ← List.drop_drop, List.drop_left' (leBytes_length 4 _)]
    rw [leWords] at ih
    rw [leWords, List.length_cons, List.range_succ_eq_map, List.map_cons, List.map_map,
      List.flatMap_cons]
    simp only [Function.comp_def, Nat.succ_eq_add_one, hshift, ih, Nat.mul_zero, List.drop_zero]
    rw [List.take_left' (leBytes_length 4 _), ofLeBytes_leBytes, Nat.mod_eq_of_lt hw,
      UInt32.ofNat_toNat]

/-- A footer that its bytes give back. -/
structure SstFooter.Fits (f : SstFooter) : Prop where
  bloom : f.bloom.Fits
  pageCrcs : f.pageCrcs.length < 2 ^ 32
  body : f.serialize.length < 2 ^ 32

theorem length_flatMap_leBytes (ws : List UInt32) :
    (ws.flatMap fun c => leBytes 4 c.toNat).length = ws.length * 4 := by
  induction ws with
  | nil => rfl
  | cons w ws ih =>
    simp only [List.flatMap_cons, List.length_append, leBytes_length, ih, List.length_cons]
    omega

theorem SstFooter.deserialize_serialize {f : SstFooter} (h : f.Fits) :
    SstFooter.deserialize f.serialize = some f := by
  let table := leBytes 4 f.pageCrcs.length ++ f.pageCrcs.flatMap fun c => leBytes 4 c.toNat
  have heq : f.serialize = leBytes 4 footerMagic ++ (leBytes 4 f.bloom.serialize.length ++
      (f.bloom.serialize ++ table)) := by
    simp only [serialize, table, List.append_assoc]
  have hbloomLen : f.bloom.serialize.length < 256 ^ 4 := by
    have := h.body
    rw [heq] at this
    simp only [List.length_append] at this
    omega
  have hbloomPos : f.bloom.serialize.length ≠ 0 := by
    simp only [BloomFilter.serialize, List.length_append, leBytes_length]
    omega
  have hmagic : ofLeBytes (f.serialize.take 4) = footerMagic := by
    rw [heq, List.take_left' (leBytes_length 4 _), ofLeBytes_leBytes]
    rfl
  have hdrop4 : f.serialize.drop 4 =
      leBytes 4 f.bloom.serialize.length ++ (f.bloom.serialize ++ table) := by
    rw [heq]
    exact List.drop_left' (leBytes_length 4 _)
  have hlen : ofLeBytes ((f.serialize.drop 4).take 4) = f.bloom.serialize.length := by
    rw [hdrop4, List.take_left' (leBytes_length 4 _), ofLeBytes_leBytes]
    exact Nat.mod_eq_of_lt hbloomLen
  have hdrop8 : f.serialize.drop 8 = f.bloom.serialize ++ table := by
    rw [show 8 = 4 + 4 from rfl, ← List.drop_drop, hdrop4]
    exact List.drop_left' (leBytes_length 4 _)
  have htable : f.serialize.drop (8 + f.bloom.serialize.length) = table := by
    rw [← List.drop_drop, hdrop8, List.drop_left]
  have hcount : ofLeBytes (table.take 4) = f.pageCrcs.length := by
    rw [List.take_left' (leBytes_length 4 _), ofLeBytes_leBytes]
    exact Nat.mod_eq_of_lt h.pageCrcs
  have htableLen : table.length = 4 + f.pageCrcs.length * 4 := by
    simp only [table, List.length_append, leBytes_length, length_flatMap_leBytes]
  have hcrcs : leWords f.pageCrcs.length (table.drop 4) = f.pageCrcs := by
    rw [List.drop_left' (leBytes_length 4 _), leWords_flatMap]
  have hlong : ¬ (f.serialize.length < 8 ∨ ofLeBytes (f.serialize.take 4) ≠ footerMagic) := by
    rw [hmagic, heq]
    simp only [List.length_append, leBytes_length]
    omega
  rw [deserialize, if_neg hlong]
  simp only [hlen, htable, hcount]
  rw [if_neg hbloomPos, hdrop8, List.take_left, BloomFilter.deserialize_serialize h.bloom, hcrcs,
    Option.map_some, if_pos ⟨by omega, htableLen⟩]

theorem trailerFooter_append (before : Bytes) {f : SstFooter} (h : f.Fits) :
    trailerFooter (before ++ serializeSstFooter f) = some f := by
  let crc := leBytes 4 (crc32c f.serialize).toNat
  have hcrcLen : crc.length = 4 := leBytes_length 4 _
  have heq : before ++ serializeSstFooter f =
      before ++ (f.serialize ++ (leBytes 4 f.serialize.length ++ crc)) := by
    simp only [serializeSstFooter, crc, List.append_assoc]
  have hlen : (before ++ serializeSstFooter f).length = before.length + (f.serialize.length + 8) := by
    simp only [heq, List.length_append, leBytes_length, hcrcLen]
  have hbody : 8 ≤ f.serialize.length := by
    simp only [SstFooter.serialize, List.length_append, leBytes_length]
    omega
  have htrailer : (before ++ serializeSstFooter f).drop
      ((before ++ serializeSstFooter f).length - 8) = leBytes 4 f.serialize.length ++ crc := by
    rw [hlen, heq, show before.length + (f.serialize.length + 8) - 8 =
      before.length + f.serialize.length by omega, ← List.drop_drop, List.drop_left, List.drop_left]
  have hbodyLen : ofLeBytes ((leBytes 4 f.serialize.length ++ crc).take 4) =
      f.serialize.length := by
    rw [List.take_left' (leBytes_length 4 _), ofLeBytes_leBytes]
    exact Nat.mod_eq_of_lt h.body
  have hbytes : ((before ++ serializeSstFooter f).drop
      ((before ++ serializeSstFooter f).length - 8 - f.serialize.length)).take
        f.serialize.length = f.serialize := by
    rw [hlen, heq, show before.length + (f.serialize.length + 8) - 8 - f.serialize.length =
      before.length by omega, List.drop_left, List.take_left]
  have hcrc : ofLeBytes ((leBytes 4 f.serialize.length ++ crc).drop 4) =
      (crc32c f.serialize).toNat := by
    rw [List.drop_left' (leBytes_length 4 _), ofLeBytes_leBytes]
    exact Nat.mod_eq_of_lt (crc32c f.serialize).toNat_lt
  rw [trailerFooter, htrailer, hbodyLen, hbytes, hcrc, if_pos ⟨by omega, hbody, by omega, rfl⟩,
    SstFooter.deserialize_serialize h]

theorem findSstFooter_of_fits (before : Bytes) {f : SstFooter} (h : f.Fits) :
    findSstFooter (before ++ serializeSstFooter f) = some f := by
  rw [findSstFooter, trailerFooter_append before h]
  rfl

theorem loadSstFooter_append (before : Bytes) {f : SstFooter} (h : f.Fits) :
    loadSstFooter (before ++ serializeSstFooter f) = f := by
  rw [loadSstFooter, findSstFooter_of_fits before h]
  rfl

end Footer

section Written

def sstFooter (entries : List MemEntry) : SstFooter :=
  ⟨BloomFilter.build (distinctKeys entries), (sstPages (entries.flatMap sstRecord)).map crc32c⟩

/-- A file within the limits of its format: the length of the schema and of the footer fit their
fields, and so do the page numbers. -/
structure SstFits (columns : List Column) (entries : List MemEntry) : Prop where
  schema : (serializeSchema columns).length < 2 ^ 32
  footer : (sstFooter entries).serialize.length < 2 ^ 32
  file : fileSize columns entries ≤ 2 ^ 32 * pageSize

namespace BloomFilter

theorem foldl_setBit_length (ps : List Nat) (bits : Bytes) :
    (ps.foldl setBit bits).length = bits.length := by
  induction ps generalizing bits with
  | nil => rfl
  | cons p ps ih => rw [List.foldl_cons, ih, setBit, List.length_modify]

def sizeFor (keys : List Bytes) : Nat := max (keys.length * 8 % 2 ^ 32) 64

theorem sizeFor_le (keys : List Bytes) : 64 ≤ sizeFor keys ∧ sizeFor keys + 7 < 2 ^ 32 := by
  rw [sizeFor]
  omega

theorem build_eq {keys : List Bytes} (h : keys ≠ []) :
    build keys = ⟨sizeFor keys, 3, (keys.flatMap (positions (sizeFor keys) 3)).foldl setBit
      (List.replicate ((sizeFor keys + 7) / 8) 0)⟩ := by
  have hmod : (sizeFor keys + 7) % 2 ^ 32 = sizeFor keys + 7 :=
    Nat.mod_eq_of_lt (sizeFor_le keys).2
  rw [build, if_neg h, List.foldl_flatMap, ← hmod]
  rfl

theorem build_fits (keys : List Bytes) : (build keys).Fits := by
  by_cases h : keys = []
  · rw [build, if_pos h]
    exact ⟨by decide, by decide, by decide⟩
  · have hsize := sizeFor_le keys
    rw [build_eq h]
    refine ⟨?_, (by decide : 3 < 256), ?_⟩
    · change sizeFor keys < 2 ^ 32
      omega
    · simp only [foldl_setBit_length, List.length_replicate]

end BloomFilter

theorem SstFooter.fits_of_build {keys : List Bytes} {pageCrcs : List UInt32}
    (h : (SstFooter.mk (BloomFilter.build keys) pageCrcs).serialize.length < 2 ^ 32) :
    (SstFooter.mk (BloomFilter.build keys) pageCrcs).Fits := by
  refine ⟨BloomFilter.build_fits keys, ?_, h⟩
  simp only [SstFooter.serialize, List.length_append, leBytes_length, length_flatMap_leBytes] at h
  change pageCrcs.length < 2 ^ 32
  omega

theorem sstFooter_fits {columns : List Column} {entries : List MemEntry}
    (h : SstFits columns entries) : (sstFooter entries).Fits := SstFooter.fits_of_build h.footer

theorem sstPages_length {payload page : Bytes} (h : page ∈ sstPages payload) :
    page.length = pageSize := by
  obtain ⟨i, -, rfl⟩ := List.mem_map.mp h
  simp only [List.length_append, List.length_replicate, List.length_take]
  omega

theorem sstHeader_length (columns : List Column) :
    (sstHeader columns).length = alignUp (8 + (serializeSchema columns).length) := by
  simp only [sstHeader, alignUp, List.length_append, leBytes_length, List.length_replicate, pageSize]
  omega

theorem pageSize_dvd_sstHeader (columns : List Column) :
    (sstHeader columns).length / pageSize * pageSize = (sstHeader columns).length := by
  rw [sstHeader_length, alignUp, Nat.mul_div_cancel _ (by decide : 0 < pageSize)]

/-- The open file that `write_sstable` has written. -/
def sstSource (columns : List Column) (entries : List MemEntry) : SstSource :=
  ⟨sstImage columns entries, (sstHeader columns).length / pageSize,
    fileSize columns entries - (sstHeader columns).length, sstFooter entries⟩

theorem sstImage_parts (columns : List Column) (entries : List MemEntry) :
    sstImage columns entries = sstHeader columns ++
      ((sstPages (entries.flatMap sstRecord)).flatten ++ serializeSstFooter (sstFooter entries)) :=
  List.append_assoc ..

theorem sstSource_data (columns : List Column) (entries : List MemEntry) :
    (sstSource columns entries).data =
      (sstPages (entries.flatMap sstRecord)).flatten ++ serializeSstFooter (sstFooter entries) := by
  rw [SstSource.data, sstSource, pageSize_dvd_sstHeader, sstImage_parts, List.drop_left]

theorem sstSource_data_eq (columns : List Column) (entries : List MemEntry) :
    (sstSource columns entries).data = entries.flatMap sstRecord ++ sstTail entries := by
  rw [sstSource_data, sstPages_flatten, List.append_assoc]
  rfl

theorem openSource_sstImage {columns : List Column} {entries : List MemEntry}
    (h : SstFits columns entries) :
    openSource (sstImage columns entries) = some (sstSource columns entries) := by
  obtain ⟨rest, hrest⟩ : ∃ rest, sstImage columns entries =
      leBytes 4 lsmMagic ++ (leBytes 4 (serializeSchema columns).length ++ rest) := by
    simp only [sstImage_parts, sstHeader, List.append_assoc]
    exact ⟨_, rfl⟩
  have hmagic : ofLeBytes ((sstImage columns entries).take 4) = lsmMagic := by
    rw [hrest, List.take_left' (leBytes_length 4 _)]
    decide
  have hschema : ofLeBytes (((sstImage columns entries).drop 4).take 4) =
      (serializeSchema columns).length := by
    rw [hrest, List.drop_left' (leBytes_length 4 _), List.take_left' (leBytes_length 4 _),
      ofLeBytes_leBytes]
    exact Nat.mod_eq_of_lt h.schema
  have hfooter : loadSstFooter (sstImage columns entries) = sstFooter entries := by
    rw [sstImage_parts, ← List.append_assoc]
    exact loadSstFooter_append _ (sstFooter_fits h)
  have hheader : (sstHeader columns).length ≤ (sstImage columns entries).length := by
    rw [sstImage_parts, List.length_append]
    exact Nat.le_add_right ..
  have hlong : 8 ≤ (sstImage columns entries).length := by
    rw [hrest]
    simp only [List.length_append, leBytes_length]
    omega
  have hpages : (sstHeader columns).length / pageSize < 2 ^ 32 := by
    have := h.schema
    rw [sstHeader_length, alignUp, Nat.mul_div_cancel _ (by decide : 0 < pageSize), pageSize]
    omega
  rw [openSource, hmagic, hschema, ← sstHeader_length, hfooter, Nat.mod_eq_of_lt hpages]
  exact if_neg (by omega)

theorem sstSource_intact {columns : List Column} {entries : List MemEntry}
    (h : SstFits columns entries) : (sstSource columns entries).Intact := by
  refine ⟨?_, h.file, ?_⟩
  · rw [SstSource.data, sstSource, pageSize_dvd_sstHeader, List.length_drop]
    rfl
  · intro n
    rw [SstSource.verifyPageCrc, Bool.or_eq_true, decide_eq_true_eq]
    by_cases hn : n < (sstSource columns entries).offsetPages
    · exact .inl hn
    right
    obtain ⟨i, rfl⟩ := Nat.exists_eq_add_of_le (Nat.le_of_not_lt hn)
    rw [Nat.add_sub_cancel_left]
    change (((sstPages (entries.flatMap sstRecord)).map crc32c)[i]?).all _ = true
    rw [List.getElem?_map]
    by_cases hi : i < (sstPages (entries.flatMap sstRecord)).length
    · have hpage : (sstSource columns entries).page
          ((sstSource columns entries).offsetPages + i) =
            (sstPages (entries.flatMap sstRecord))[i] := by
        have hbytes : ((sstSource columns entries).file.drop
            (((sstSource columns entries).offsetPages + i) * pageSize)).take pageSize =
              (sstPages (entries.flatMap sstRecord))[i] := by
          rw [Nat.add_mul, ← List.drop_drop]
          change ((sstSource columns entries).data.drop (i * pageSize)).take pageSize = _
          rw [sstSource_data]
          exact take_drop_flatten (fun _ => sstPages_length) hi _
        rw [SstSource.page, hbytes, sstPages_length (List.getElem_mem hi), Nat.sub_self]
        exact List.append_nil _
      rw [hpage, List.getElem?_eq_getElem hi]
      simp
    · rw [List.getElem?_eq_none (by omega)]
      rfl

end Written

end CoroDB
