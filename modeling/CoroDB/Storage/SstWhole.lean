import CoroDB.Storage.Mvcc
import CoroDB.Storage.SstStream

/-!
# Reading a whole level file

`read_sstable` puts the pages of a level file together and takes records from them until too few bytes
are left.
-/

namespace CoroDB

open Framework

/-- The bytes of the pages from the one with number `i` on. -/
def SstSource.readPages (s : SstSource) : Nat → Nat → Except ReadError Bytes
  | 0, _ => .ok []
  | count + 1, i =>
    let number := (s.offsetPages + i) % 2 ^ 32
    if s.verifyPageCrc number (s.page number) = false then .error .pageChecksum
    else (s.readPages count (i + 1)).map fun rest =>
      (s.page number).take (min pageSize (s.dataBytes - i * pageSize)) ++ rest

/-- Take record after record; a round needs a header and the whole body. -/
def parseRecords (columns : List Column) : Nat → Bytes → Except DecodeError (List MemEntry)
  | 0, _ => .ok []
  | fuel + 1, bs =>
    if bs.length < 13 then .ok []
    else if bs.length < 13 + recordLen bs then .ok []
    else if recordType bs = 1 ∨ recordType bs = 2 then
      (decodeEntry columns (recordType bs) (recordTs bs) ((bs.drop 13).take (recordLen bs))).bind
        fun e => (parseRecords columns fuel (bs.drop (13 + recordLen bs))).map (e :: ·)
    else parseRecords columns fuel (bs.drop (13 + recordLen bs))

def readSstable (file : Bytes) (columns : List Column) : Except ReadError (List MemEntry) :=
  match openSource file with
  | none => .ok []
  | some s => (s.readPages ((s.dataBytes + pageSize - 1) / pageSize % 2 ^ 32) 0).bind fun buffer =>
      (parseRecords columns buffer.length buffer).mapError .decode

section Pages

variable {s : SstSource}

theorem SstSource.Intact.readPages (h : s.Intact) {count i : Nat}
    (hcount : (s.offsetPages + i + count) ≤ 2 ^ 32) (hdata : s.data.length ≤ (i + count) * pageSize) :
    s.readPages count i = .ok (s.data.drop (i * pageSize)) := by
  induction count generalizing i with
  | zero =>
    rw [Nat.add_zero] at hdata
    rw [SstSource.readPages, List.drop_of_length_le hdata]
  | succ count ih =>
    have hnumber : (s.offsetPages + i) % 2 ^ 32 = s.offsetPages + i := Nat.mod_eq_of_lt (by omega)
    have hpage : (s.page (s.offsetPages + i)).take (min pageSize (s.dataBytes - i * pageSize)) =
        (s.data.drop (i * pageSize)).take pageSize := by
      have hbytes : (s.file.drop ((s.offsetPages + i) * pageSize)).take pageSize =
          (s.data.drop (i * pageSize)).take pageSize := by
        rw [SstSource.data, List.drop_drop, Nat.add_mul]
      rw [SstSource.page, hbytes, h.dataBytes]
      apply List.take_left'
      rw [List.length_take, List.length_drop]
    rw [SstSource.readPages]
    simp only [hnumber, h.verified, Bool.true_eq_false, if_false]
    rw [ih (by omega) (by rw [show i + 1 + count = i + (count + 1) by omega]; exact hdata), hpage]
    simp only [Except.map]
    rw [Nat.succ_mul, ← List.drop_drop, List.take_append_drop]

theorem SstSource.Intact.readPages_all (h : s.Intact) (hoffset : 1 ≤ s.offsetPages)
    (hheader : s.offsetPages * pageSize ≤ s.file.length) :
    s.readPages ((s.dataBytes + pageSize - 1) / pageSize % 2 ^ 32) 0 = .ok s.data := by
  have hdata := h.dataBytes
  have hlength : s.data.length = s.file.length - s.offsetPages * pageSize := List.length_drop ..
  have hsmall := h.small
  simp only [pageSize] at hlength hsmall hheader
  have hcount : (s.dataBytes + pageSize - 1) / pageSize % 2 ^ 32 =
      (s.dataBytes + pageSize - 1) / pageSize := by
    apply Nat.mod_eq_of_lt
    simp only [pageSize]
    omega
  rw [hcount, h.readPages (by simp only [pageSize]; omega) (by simp only [pageSize]; omega)]
  simp

end Pages

section Parsing

variable {columns : List Column} {fuel : Nat}

theorem parseRecords_record {e : MemEntry} (he : e.Recorded columns) (rest : Bytes) :
    parseRecords columns (fuel + 1) (sstRecord e ++ rest) =
      (parseRecords columns fuel rest).map (e :: ·) := by
  rw [sstRecord_eq_header, List.append_assoc, parseRecords]
  simp only [recordLen_header he.body, recordType_header, recordTs_header, List.length_append,
    recordHeader_length]
  rw [if_neg (by omega), if_neg (by omega), if_pos e.wireType_eq, ← List.drop_drop,
    List.drop_left' (recordHeader_length e), List.drop_left, List.take_left,
    decodeEntry_sstBody he]
  rfl

theorem parseRecords_records {entries : List MemEntry} (h : ∀ e ∈ entries, e.Recorded columns)
    (rest : Bytes) :
    parseRecords columns (fuel + entries.length) (entries.flatMap sstRecord ++ rest) =
      (parseRecords columns fuel rest).map (entries ++ ·) := by
  induction entries with
  | nil =>
    rw [List.flatMap_nil, List.nil_append, List.length_nil, Nat.add_zero]
    cases parseRecords columns fuel rest <;> rfl
  | cons e entries ih =>
    rw [List.flatMap_cons, List.append_assoc, List.length_cons, ← Nat.add_assoc,
      parseRecords_record (h e List.mem_cons_self),
      ih fun e' he' => h e' (List.mem_cons_of_mem e he')]
    cases parseRecords columns fuel rest <;> rfl

theorem parseRecords_zeros (rest : Bytes) :
    parseRecords columns (fuel + 1) (List.replicate 13 0 ++ rest) =
      parseRecords columns fuel rest := by
  have hlen : recordLen (List.replicate 13 0 ++ rest) = 0 := rfl
  have htype : recordType (List.replicate 13 0 ++ rest) = 0 := rfl
  have hlong : 13 ≤ (List.replicate 13 (0 : UInt8) ++ rest).length := by simp
  rw [parseRecords, hlen, htype, if_neg (by omega), if_neg (by omega), if_neg (by decide),
    List.drop_left' (List.length_replicate ..)]

theorem parseRecords_padding (count n : Nat) (rest : Bytes) :
    parseRecords columns (fuel + count) (List.replicate (13 * count + n) 0 ++ rest) =
      parseRecords columns fuel (List.replicate n 0 ++ rest) := by
  induction count with
  | zero => simp
  | succ count ih =>
    rw [show 13 * (count + 1) + n = 13 + (13 * count + n) by omega, List.replicate_add,
      List.append_assoc, ← Nat.add_assoc, parseRecords_zeros, ih]

end Parsing

section Quiet

def WholeRecord (bs : Bytes) : Prop := 13 ≤ bs.length ∧ 13 + recordLen bs ≤ bs.length

/-- The record at the start of the bytes is whole and of no known type, and others follow it. -/
def SkipsTo (bs rest : Bytes) : Prop :=
  WholeRecord bs ∧ recordType bs ≠ 1 ∧ recordType bs ≠ 2 ∧ rest = bs.drop (13 + recordLen bs)

/-- Behind any number of records of no known type there is no whole row or deletion. -/
def Quiet (bs : Bytes) : Prop :=
  ∀ rest, Relation.ReflTransGen SkipsTo bs rest → WholeRecord rest →
    recordType rest ≠ 1 ∧ recordType rest ≠ 2

variable {bs : Bytes}

theorem quiet_of_not_whole (h : ¬ WholeRecord bs) : Quiet bs := by
  intro rest hrest hwhole
  cases hrest.cases_head with
  | inl heq => exact absurd (heq ▸ hwhole) h
  | inr hstep =>
    obtain ⟨next, hskip, -⟩ := hstep
    exact absurd hskip.1 h

theorem quiet_drop_iff (hwhole : WholeRecord bs) (h1 : recordType bs ≠ 1)
    (h2 : recordType bs ≠ 2) : Quiet (bs.drop (13 + recordLen bs)) ↔ Quiet bs := by
  constructor
  · intro h rest hrest hrestWhole
    cases hrest.cases_head with
    | inl heq => exact heq ▸ ⟨h1, h2⟩
    | inr hstep =>
      obtain ⟨next, hskip, hnext⟩ := hstep
      exact h rest (hskip.2.2.2 ▸ hnext) hrestWhole
  · intro h rest hrest
    exact h rest (.head ⟨hwhole, h1, h2, rfl⟩ hrest)

theorem parseRecords_eq_nil_iff (columns : List Column) {fuel : Nat} (hfuel : bs.length ≤ fuel) :
    parseRecords columns fuel bs = .ok [] ↔ Quiet bs := by
  induction fuel generalizing bs with
  | zero =>
    apply iff_of_true rfl
    apply quiet_of_not_whole
    rintro ⟨hlong, -⟩
    omega
  | succ fuel ih =>
    rw [parseRecords]
    by_cases hwhole : WholeRecord bs
    · rw [if_neg (not_lt.mpr hwhole.1), if_neg (not_lt.mpr hwhole.2)]
      split_ifs with htype
      · refine iff_of_false ?_ ?_
        · intro h
          cases hentry : decodeEntry columns (recordType bs) (recordTs bs)
              ((bs.drop 13).take (recordLen bs)) with
          | error err => simp [hentry, Except.bind] at h
          | ok e =>
            cases hrest : parseRecords columns fuel (bs.drop (13 + recordLen bs)) <;>
              simp [hentry, hrest, Except.bind, Except.map] at h
        · intro h
          have := h bs .refl hwhole
          omega
      · rw [not_or] at htype
        rw [ih, quiet_drop_iff hwhole htype.1 htype.2]
        rw [List.length_drop]
        have := hwhole.1
        omega
    · refine iff_of_true ?_ (quiet_of_not_whole hwhole)
      rw [WholeRecord, not_and_or, not_le, not_le] at hwhole
      split_ifs <;> first | rfl | omega

end Quiet

/-- What is behind the records for the reader: the zeros left over from records of thirteen of them,
and the footer. -/
def behindRecords (entries : List MemEntry) : Bytes :=
  List.replicate (dataPadding entries % 13) 0 ++ serializeSstFooter (sstFooter entries)

theorem readSstable_sstImage {columns : List Column} {entries : List MemEntry}
    (hfits : SstFits columns entries) (hentries : ∀ e ∈ entries, e.Recorded columns) :
    ∃ fuel, (behindRecords entries).length ≤ fuel ∧ readSstable (sstImage columns entries) columns =
      ((parseRecords columns fuel (behindRecords entries)).map (entries ++ ·)).mapError .decode := by
  have hoffset : 1 ≤ (sstSource columns entries).offsetPages := by
    change 1 ≤ (sstHeader columns).length / pageSize
    rw [sstHeader_length, alignUp, pageSize]
    omega
  have hheader : (sstSource columns entries).offsetPages * pageSize ≤
      (sstSource columns entries).file.length := by
    change (sstHeader columns).length / pageSize * pageSize ≤ (sstImage columns entries).length
    rw [pageSize_dvd_sstHeader, sstImage_parts, List.length_append]
    exact Nat.le_add_right ..
  have hdata : (sstSource columns entries).data = entries.flatMap sstRecord ++
      (List.replicate (13 * (dataPadding entries / 13) + dataPadding entries % 13) 0 ++
        serializeSstFooter (sstFooter entries)) := by
    rw [sstSource_data_eq, sstTail_eq, Nat.div_add_mod]
  obtain ⟨fuel, hfuel, hrest⟩ : ∃ fuel, (sstSource columns entries).data.length =
      fuel + dataPadding entries / 13 + entries.length ∧
        (behindRecords entries).length ≤ fuel := by
    have hrecords := length_le_flatMap_sstRecord entries
    refine ⟨(sstSource columns entries).data.length - dataPadding entries / 13 - entries.length,
      ?_, ?_⟩ <;>
    · rw [hdata]
      simp only [behindRecords, List.length_append, List.length_replicate]
      omega
  refine ⟨fuel, hrest, ?_⟩
  rw [readSstable, openSource_sstImage hfits]
  simp only [(sstSource_intact hfits).readPages_all hoffset hheader, Except.bind]
  rw [hfuel, hdata, parseRecords_records hentries, parseRecords_padding]
  rfl

theorem map_append_eq_ok_iff {entries : List MemEntry} {r : Except DecodeError (List MemEntry)} :
    (r.map (entries ++ ·)).mapError ReadError.decode = .ok entries ↔ r = .ok [] := by
  cases r with
  | error err => simp [Except.map, Except.mapError]
  | ok more => simp [Except.map, Except.mapError]

/-- The whole file reads back as the entries it was written from exactly where the zeros and the
footer behind its records are quiet. -/
theorem readSstable_sstImage_iff {columns : List Column} {entries : List MemEntry}
    (hfits : SstFits columns entries) (hentries : ∀ e ∈ entries, e.Recorded columns) :
    readSstable (sstImage columns entries) columns = .ok entries ↔
      Quiet (behindRecords entries) := by
  obtain ⟨fuel, hfuel, hread⟩ := readSstable_sstImage hfits hentries
  rw [hread, map_append_eq_ok_iff, parseRecords_eq_nil_iff columns hfuel]

theorem le_recordLen_footer {n : Nat} (hlow : 9 ≤ n) (hhigh : n < 13) (f : SstFooter) :
    2 ^ 29 ≤ recordLen (List.replicate n 0 ++ serializeSstFooter f) := by
  interval_cases n
  · exact (by decide : 2 ^ 29 ≤ ofLeBytes [0x31, 0x30, 0x54, 0x46])
  · exact (by decide : 2 ^ 29 ≤ ofLeBytes [0, 0x31, 0x30, 0x54])
  · exact (by decide : 2 ^ 29 ≤ ofLeBytes [0, 0, 0x31, 0x30])
  · exact (by decide : 2 ^ 29 ≤ ofLeBytes [0, 0, 0, 0x31])

/-- Behind nine zeros or more the magic number of the footer is taken for a length that no file of
this size has. -/
theorem readSstable_sstImage_of_padding {columns : List Column} {entries : List MemEntry}
    (hfits : SstFits columns entries) (hentries : ∀ e ∈ entries, e.Recorded columns)
    (hpadding : 9 ≤ dataPadding entries % 13)
    (hfooter : (serializeSstFooter (sstFooter entries)).length < 2 ^ 29) :
    readSstable (sstImage columns entries) columns = .ok entries := by
  obtain ⟨fuel, hfuel, hread⟩ := readSstable_sstImage hfits hentries
  rw [hread, map_append_eq_ok_iff, parseRecords_eq_nil_iff columns hfuel]
  apply quiet_of_not_whole
  rintro ⟨-, hwhole⟩
  have hmod := Nat.mod_lt (dataPadding entries) (by decide : 0 < 13)
  have hlen := le_recordLen_footer hpadding hmod (sstFooter entries)
  rw [behindRecords, List.length_append, List.length_replicate] at hwhole
  omega

/-- The footer of a file with one row and one deletion is not shifted onto a record. -/
theorem readSstable_rowAndDeletion :
    readSstable (sstImage keyColumn rowAndDeletion) keyColumn = .ok rowAndDeletion := by
  apply (readSstable_sstImage_iff rowAndDeletion_fits rowAndDeletion_recorded).mpr
  apply quiet_of_not_whole
  unfold WholeRecord
  decide +kernel

/-- Seven deletions and twenty-five rows: four zeros are left over behind their records, and their
keys leave forty bits of the filter clear. -/
def shiftedEntries : List MemEntry :=
  ([2, 5, 8, 9, 10, 12, 14] : List Int64).map (fun k => ⟨.int k, ⟨[]⟩, true, 1⟩) ++
    ([21, 22, 24, 25, 26, 27, 29, 30, 31, 36, 38, 39, 40, 41, 42, 43, 44, 45, 47, 48, 50, 52, 55,
      57, 58] : List Int64).map fun k => ⟨.int k, ⟨[.int k]⟩, false, 1⟩

theorem shiftedEntries_fits : SstFits keyColumn shiftedEntries :=
  SstFits.of_sizes (by decide) (by decide +kernel) (by decide +kernel)

theorem shiftedEntries_recorded : ∀ e ∈ shiftedEntries, e.Recorded keyColumn := by
  intro e he
  rcases List.mem_append.mp he with he | he
  · obtain ⟨k, -, rfl⟩ := List.mem_map.mp he
    exact .deletion (by simp [encodeKey, writeValue, leBytes_length])
  · obtain ⟨k, -, rfl⟩ := List.mem_map.mp he
    exact .live rfl rfl (by simp [encodeRow, writeValue, leBytes_length])

theorem shiftedEntries_not_quiet : ¬ Quiet (behindRecords shiftedEntries) := by
  have hlen : recordLen (behindRecords shiftedEntries) = 0 := by decide +kernel
  have htype : recordType (behindRecords shiftedEntries) = 0 := by decide +kernel
  have hlen' : recordLen ((behindRecords shiftedEntries).drop 13) = 0 := by decide +kernel
  have htype' : recordType ((behindRecords shiftedEntries).drop 13) = 1 := by decide +kernel
  have hlong : 26 ≤ (behindRecords shiftedEntries).length := by decide +kernel
  intro h
  have hskip : SkipsTo (behindRecords shiftedEntries) ((behindRecords shiftedEntries).drop 13) := by
    refine ⟨⟨by omega, by omega⟩, by omega, by omega, ?_⟩
    rw [hlen]
  refine (h _ (.single hskip) ⟨?_, ?_⟩).1 htype'
  · rw [List.length_drop]
    omega
  · rw [hlen', List.length_drop]
    omega

/-- The file of these entries does not read back as them. -/
theorem readSstable_shiftedEntries :
    SstFits keyColumn shiftedEntries ∧ (∀ e ∈ shiftedEntries, e.Recorded keyColumn) ∧
      Sorted shiftedEntries ∧
        readSstable (sstImage keyColumn shiftedEntries) keyColumn ≠ .ok shiftedEntries := by
  refine ⟨shiftedEntries_fits, shiftedEntries_recorded, by unfold Sorted; decide +kernel, ?_⟩
  intro h
  obtain ⟨fuel, hfuel, hread⟩ := readSstable_sstImage shiftedEntries_fits shiftedEntries_recorded
  rw [hread, map_append_eq_ok_iff, parseRecords_eq_nil_iff keyColumn hfuel] at h
  exact shiftedEntries_not_quiet h

end CoroDB
