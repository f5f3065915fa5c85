import CoroDB.Storage.SstSource

/-!
# Streaming a level file

A scan reads a level file record by record.
-/

namespace CoroDB

open Framework

section Records

def recordType (bs : Bytes) : Nat := ofLeBytes (bs.take 1)

def recordTs (bs : Bytes) : UInt64 := UInt64.ofNat (ofLeBytes ((bs.drop 1).take 8))

def recordLen (bs : Bytes) : Nat := ofLeBytes ((bs.drop 9).take 4)

def decodeEntry (columns : List Column) (type : Nat) (ts : UInt64) (rec : Bytes) :
    Except DecodeError MemEntry :=
  if type = 1 then
    (decodeRow rec columns).map fun row => ⟨extractKey row columns, row, false, ts⟩
  else
    (if rec = [] then .ok .null else decodeKey rec).map fun pk => ⟨pk, ⟨[]⟩, true, ts⟩

structure MemEntry.Recorded (e : MemEntry) (columns : List Column) : Prop where
  width : e.tombstone = false → e.row.values.length = columns.length
  key : e.tombstone = false → e.pk = extractKey e.row columns
  deleted : e.tombstone = true → e.row = ⟨[]⟩
  body : (sstBody e).length < 2 ^ 32

theorem MemEntry.Recorded.deletion {columns : List Column} {pk : Value} {ts : UInt64}
    (h : (encodeKey pk).length < 2 ^ 32) : MemEntry.Recorded ⟨pk, ⟨[]⟩, true, ts⟩ columns :=
  ⟨fun h => Bool.noConfusion h, fun h => Bool.noConfusion h, fun _ => rfl, h⟩

theorem MemEntry.Recorded.live {columns : List Column} {pk : Value} {row : Row} {ts : UInt64}
    (hwidth : row.values.length = columns.length) (hkey : pk = extractKey row columns)
    (h : (encodeRow row).length < 2 ^ 32) : MemEntry.Recorded ⟨pk, row, false, ts⟩ columns :=
  ⟨fun _ => hwidth, fun _ => hkey, fun h => Bool.noConfusion h, h⟩

def MemEntry.wireType (e : MemEntry) : Nat := if e.tombstone then 2 else 1

def recordHeader (e : MemEntry) : Bytes :=
  leBytes 1 e.wireType ++ (leBytes 8 e.commitTs.toNat ++ leBytes 4 (sstBody e).length)

theorem sstRecord_eq_header (e : MemEntry) : sstRecord e = recordHeader e ++ sstBody e := by
  simp only [sstRecord_eq, recordHeader, List.append_assoc, MemEntry.wireType]

theorem recordHeader_length (e : MemEntry) : (recordHeader e).length = 13 := by
  simp [recordHeader, leBytes_length]

theorem recordType_header (e : MemEntry) (rest : Bytes) :
    recordType (recordHeader e ++ rest) = e.wireType := by
  rw [recordType, recordHeader, List.append_assoc, List.take_left' (leBytes_length 1 _),
    ofLeBytes_leBytes, MemEntry.wireType]
  split_ifs <;> rfl

theorem recordTs_header (e : MemEntry) (rest : Bytes) :
    recordTs (recordHeader e ++ rest) = e.commitTs := by
  have hword : ofLeBytes (leBytes 8 e.commitTs.toNat) = e.commitTs.toNat := by
    rw [ofLeBytes_leBytes]
    exact Nat.mod_eq_of_lt e.commitTs.toNat_lt
  rw [recordTs, recordHeader, List.append_assoc, List.drop_left' (leBytes_length 1 _),
    List.append_assoc, List.take_left' (leBytes_length 8 _), hword, UInt64.ofNat_toNat]

theorem recordLen_header {e : MemEntry} (h : (sstBody e).length < 2 ^ 32) (rest : Bytes) :
    recordLen (recordHeader e ++ rest) = (sstBody e).length := by
  have hdrop9 : ∀ bs : Bytes, bs.drop 9 = (bs.drop 1).drop 8 := fun bs => by simp
  rw [recordLen, recordHeader, List.append_assoc, hdrop9, List.drop_left' (leBytes_length 1 _),
    List.append_assoc, List.drop_left' (leBytes_length 8 _), List.take_left' (leBytes_length 4 _),
    ofLeBytes_leBytes]
  exact Nat.mod_eq_of_lt h

theorem MemEntry.wireType_eq (e : MemEntry) : e.wireType = 1 ∨ e.wireType = 2 := by
  rw [wireType]
  split_ifs
  · exact .inr rfl
  · exact .inl rfl

theorem decodeEntry_sstBody {e : MemEntry} {columns : List Column} (h : e.Recorded columns) :
    decodeEntry columns e.wireType e.commitTs (sstBody e) = .ok e := by
  have hbody := h.body
  obtain ⟨pk, row, tombstone, ts⟩ := e
  cases tombstone with
  | false =>
    obtain ⟨hfits, hcount⟩ := Row.fits_of_encodeRow hbody
    have hrow := decodeRow_encodeRow (h.width rfl) hfits hcount
    have hkey : pk = extractKey row columns := h.key rfl
    simp [decodeEntry, MemEntry.wireType, sstBody, hrow, hkey, Except.map]
  | true =>
    have hkey := decodeKey_encodeKey (Value.fits_of_writeValue hbody)
    have hrow : row = ⟨[]⟩ := h.deleted rfl
    have hne : encodeKey pk ≠ [] := by
      have := length_le_writeValue pk
      intro hnil
      simp only [encodeKey] at hnil
      simp [hnil] at this
    simp [decodeEntry, MemEntry.wireType, sstBody, hkey, hrow, hne, Except.map]

end Records

section Streaming

namespace SstSource

/-- The record at a position, with the position behind it; nothing at the end of the records. -/
def nextRec (s : SstSource) (columns : List Column) (pos : Nat) :
    Except ReadError (Option (MemEntry × Nat)) :=
  if s.dataBytes < pos + 13 then .ok none
  else (s.readBytes 13 pos 13).bind fun h =>
    if recordType h ≠ 1 ∧ recordType h ≠ 2 then .ok none
    else if s.dataBytes < pos + 13 + recordLen h then .ok none
    else (s.readBytes (recordLen h) (pos + 13) (recordLen h)).bind fun rec =>
      ((decodeEntry columns (recordType h) (recordTs h) rec).mapError .decode).map fun e =>
        some (e, pos + 13 + recordLen h)

/-- The records from a position on, at most `fuel` of them. -/
def drain (s : SstSource) (columns : List Column) : Nat → Nat → Except ReadError (List MemEntry)
  | 0, _ => .ok []
  | fuel + 1, pos => (s.nextRec columns pos).bind fun
    | none => .ok []
    | some (e, pos') => (s.drain columns fuel pos').map (e :: ·)

variable {s : SstSource} {columns : List Column} {pos : Nat}

theorem Intact.nextRec_record (h : s.Intact) {e : MemEntry} {rest : Bytes}
    (hdata : s.data.drop pos = sstRecord e ++ rest) (he : e.Recorded columns) :
    s.nextRec columns pos = .ok (some (e, pos + (sstRecord e).length)) := by
  have hlen : pos + (13 + (sstBody e).length) ≤ s.dataBytes := by
    have := congrArg List.length hdata
    rw [sstRecord_eq_header] at this
    simp only [List.length_append, List.length_drop, recordHeader_length] at this
    rw [h.dataBytes]
    omega
  rw [sstRecord_eq_header, List.append_assoc] at hdata
  have hheader : s.readBytes 13 pos 13 = .ok (recordHeader e ++ []) := by
    rw [h.readBytes le_rfl (by omega), hdata, List.take_left' (recordHeader_length e),
      List.append_nil]
  have hbody : s.readBytes (sstBody e).length (pos + 13) (sstBody e).length =
      .ok (sstBody e) := by
    rw [h.readBytes le_rfl (by omega), ← List.drop_drop, hdata,
      List.drop_left' (recordHeader_length e), List.take_left]
  have htype : ¬ (e.wireType ≠ 1 ∧ e.wireType ≠ 2) := by
    have := e.wireType_eq
    omega
  rw [nextRec, if_neg (by omega), hheader]
  simp only [Except.bind, recordType_header, recordLen_header he.body, recordTs_header]
  rw [if_neg htype, if_neg (by omega), hbody]
  simp only [decodeEntry_sstBody he, Except.mapError, Except.map, sstRecord_eq_header,
    List.length_append, recordHeader_length, Nat.add_assoc]

theorem Intact.nextRec_end (h : s.Intact) {b : UInt8} {rest : Bytes}
    (hdata : s.data.drop pos = b :: rest) (h1 : b ≠ 1) (h2 : b ≠ 2) :
    s.nextRec columns pos = .ok none := by
  rw [nextRec]
  split_ifs with hshort
  · rfl
  · have htype : recordType ((s.data.drop pos).take 13) = b.toNat := by
      simp [recordType, hdata, ofLeBytes]
    have hne : recordType ((s.data.drop pos).take 13) ≠ 1 ∧
        recordType ((s.data.drop pos).take 13) ≠ 2 := by
      rw [htype]
      exact ⟨fun hb => h1 (UInt8.toNat_inj.mp hb), fun hb => h2 (UInt8.toNat_inj.mp hb)⟩
    rw [h.readBytes le_rfl (by omega)]
    simp only [Except.bind]
    rw [if_pos hne]

theorem Intact.drain_records (h : s.Intact) {es : List MemEntry} {fuel : Nat} {b : UInt8}
    {rest : Bytes} (hdata : s.data.drop pos = es.flatMap sstRecord ++ b :: rest)
    (h1 : b ≠ 1) (h2 : b ≠ 2) (hes : ∀ e ∈ es, e.Recorded columns) (hfuel : es.length < fuel) :
    s.drain columns fuel pos = .ok es := by
  induction es generalizing pos fuel with
  | nil =>
    obtain ⟨fuel, rfl⟩ : ∃ n, fuel = n + 1 := ⟨fuel - 1, by omega⟩
    rw [drain, h.nextRec_end hdata h1 h2]
    rfl
  | cons e es ih =>
    obtain ⟨fuel, rfl⟩ : ∃ n, fuel = n + 1 := ⟨fuel - 1, by omega⟩
    rw [List.flatMap_cons, List.append_assoc] at hdata
    have hnext : s.data.drop (pos + (sstRecord e).length) = es.flatMap sstRecord ++ b :: rest := by
      rw [← List.drop_drop, hdata, List.drop_left]
    rw [drain, h.nextRec_record hdata (hes e List.mem_cons_self)]
    simp only [Except.bind]
    rw [ih hnext (fun e' he' => hes e' (List.mem_cons_of_mem e he'))
      (Nat.lt_of_succ_lt_succ hfuel)]
    rfl

end SstSource

/-- The entries of a level file as the streaming reader takes them, at most `fuel` of them. -/
def streamSstable (columns : List Column) (fuel : Nat) (file : Bytes) :
    Except ReadError (List MemEntry) :=
  match openSource file with
  | none => .ok []
  | some s => s.drain columns fuel 0

def dataPadding (entries : List MemEntry) : Nat :=
  ((entries.flatMap sstRecord).length + pageSize - 1) / pageSize * pageSize -
    (entries.flatMap sstRecord).length

theorem sstTail_eq (entries : List MemEntry) :
    sstTail entries =
      List.replicate (dataPadding entries) 0 ++ serializeSstFooter (sstFooter entries) := rfl

theorem serializeSstFooter_eq_cons (f : SstFooter) :
    ∃ rest, serializeSstFooter f = 0x31 :: rest := by
  simp only [serializeSstFooter, SstFooter.serialize, List.append_assoc]
  exact ⟨_, rfl⟩

theorem sstTail_eq_cons (entries : List MemEntry) :
    ∃ b rest, sstTail entries = b :: rest ∧ b ≠ 1 ∧ b ≠ 2 := by
  obtain ⟨rest, hfooter⟩ := serializeSstFooter_eq_cons (sstFooter entries)
  rw [sstTail_eq, hfooter]
  cases dataPadding entries with
  | zero => exact ⟨0x31, rest, rfl, by decide, by decide⟩
  | succ n => exact ⟨0, _, rfl, by decide, by decide⟩

/-- The streaming reader, run until it finds no further record, returns the entries that
`write_sstable` was given. -/
theorem streamSstable_sstImage {columns : List Column} {entries : List MemEntry}
    (hfits : SstFits columns entries) (hentries : ∀ e ∈ entries, e.Recorded columns) {fuel : Nat}
    (hfuel : entries.length < fuel) :
    streamSstable columns fuel (sstImage columns entries) = .ok entries := by
  obtain ⟨b, rest, htail, h1, h2⟩ := sstTail_eq_cons entries
  have hdata : (sstSource columns entries).data.drop 0 =
      entries.flatMap sstRecord ++ b :: rest := by
    rw [List.drop_zero, sstSource_data_eq, htail]
  simp only [streamSstable, openSource_sstImage hfits]
  exact (sstSource_intact hfits).drain_records hdata h1 h2 hentries hfuel

theorem fileSize_le (columns : List Column) (entries : List MemEntry) :
    fileSize columns entries ≤ (serializeSchema columns).length +
      (entries.flatMap sstRecord).length + (sstFooter entries).serialize.length +
        2 * pageSize + 16 := by
  rw [fileSize, sstImage_length, sstTail_eq, schemaPadding, dataPadding]
  simp only [serializeSstFooter, List.length_append, List.length_replicate, leBytes_length, pageSize]
  omega

theorem SstFits.of_sizes {columns : List Column} {entries : List MemEntry}
    (hschema : (serializeSchema columns).length < 2 ^ 32)
    (hfooter : (sstFooter entries).serialize.length < 2 ^ 32)
    (hpayload : (entries.flatMap sstRecord).length ≤ 2 ^ 44) : SstFits columns entries := by
  refine ⟨hschema, hfooter, (fileSize_le columns entries).trans ?_⟩
  rw [pageSize]
  omega

def keyColumn : List Column := [⟨[107], .int64, true, true⟩]

def rowAndDeletion : List MemEntry :=
  [⟨.int 1, ⟨[.int 1]⟩, false, 5⟩, ⟨.int 2, ⟨[]⟩, true, 6⟩]

theorem rowAndDeletion_fits : SstFits keyColumn rowAndDeletion :=
  SstFits.of_sizes (by decide) (by decide +kernel) (by decide)

theorem rowAndDeletion_recorded : ∀ e ∈ rowAndDeletion, e.Recorded keyColumn := by
  intro e he
  rcases List.mem_cons.mp he with rfl | he
  · exact .live rfl rfl (by decide)
  · rw [List.mem_singleton.mp he]
    exact .deletion (by decide)

theorem streamSstable_rowAndDeletion :
    streamSstable keyColumn 3 (sstImage keyColumn rowAndDeletion) = .ok rowAndDeletion :=
  streamSstable_sstImage rowAndDeletion_fits rowAndDeletion_recorded (by decide)

end Streaming

section WideSchema

def wideColumn : Column := ⟨[97, 97, 97], .int64, false, false⟩

theorem serializeSchema_wide (n : Nat) :
    serializeSchema (List.replicate n wideColumn) =
      leBytes 4 n ++ (List.replicate n [3, 0, 97, 97, 97, 1]).flatten := by
  have hblock : ∀ m, (List.replicate m wideColumn).flatMap (fun col =>
      leBytes 2 col.name.length ++ col.name ++
        leBytes 1 (typeToWire col.type ||| (if col.notNull then 0x40 else 0) |||
          (if col.primaryKey then 0x80 else 0))) =
        (List.replicate m [3, 0, 97, 97, 97, 1]).flatten := by
    intro m
    induction m with
    | zero => rfl
    | succ m ih =>
      rw [List.replicate_succ, List.flatMap_cons, ih, List.replicate_succ, List.flatten_cons]
      rfl
  rw [serializeSchema, List.length_replicate, hblock]

theorem SstSource.drain_of_first {s : SstSource} {columns : List Column} {b : UInt8} {rest : Bytes}
    (hoffset : s.offsetPages < 2 ^ 32) (hpage : s.page s.offsetPages = b :: rest) (h1 : b ≠ 1)
    (h2 : b ≠ 2) (fuel : Nat) {entries : List MemEntry}
    (h : s.drain columns fuel 0 = .ok entries) : entries = [] := by
  cases fuel with
  | zero => simpa [drain, eq_comm] using h
  | succ fuel =>
    have hnumber : (s.offsetPages + 0 / pageSize % 2 ^ 32) % 2 ^ 32 = s.offsetPages := by
      rw [Nat.zero_div, Nat.zero_mod, Nat.add_zero, Nat.mod_eq_of_lt hoffset]
    have htype : ∀ bs, recordType (b :: bs) = b.toNat := fun bs => by simp [recordType, ofLeBytes]
    have hne : b.toNat ≠ 1 ∧ b.toNat ≠ 2 :=
      ⟨fun hb => h1 (UInt8.toNat_inj.mp hb), fun hb => h2 (UInt8.toNat_inj.mp hb)⟩
    rw [drain, nextRec] at h
    split_ifs at h with hshort
    · simpa [Except.bind, eq_comm] using h
    · rw [readBytes, if_neg (by decide)] at h
      simp only [hnumber, hpage] at h
      cases hcheck : s.verifyPageCrc s.offsetPages (b :: rest) with
      | false => simp [hcheck, Except.bind] at h
      | true =>
        simpa [hcheck, Except.bind, Except.map, readBytes, pageSize, htype, hne, eq_comm] using h

/-- The length of a schema of 2 ^ 32 bytes reads as zero: the reader takes the second page of the
schema for the first page of records. -/
theorem openSource_wide {n : Nat} (hn : 4 + 6 * n = 2 ^ 32) (entries : List MemEntry) :
    ∃ s, openSource (sstImage (List.replicate n wideColumn) entries) = some s ∧
      s.offsetPages = 1 ∧ s.page 1 = 97 :: (s.page 1).tail := by
  let blocks := List.replicate n ([3, 0, 97, 97, 97, 1] : Bytes)
  have hwidth : ∀ block ∈ blocks, block.length = 6 := by
    intro block hblock
    rw [List.eq_of_mem_replicate hblock]
    rfl
  have hschema : (serializeSchema (List.replicate n wideColumn)).length = 2 ^ 32 := by
    rw [serializeSchema_wide, List.length_append, leBytes_length, List.length_flatten,
      List.map_replicate, List.sum_replicate, ← hn, smul_eq_mul, Nat.mul_comm]
    rfl
  obtain ⟨rest, hfile⟩ : ∃ rest, sstImage (List.replicate n wideColumn) entries =
      leBytes 4 lsmMagic ++ (leBytes 4 (2 ^ 32) ++ (leBytes 4 n ++ (blocks.flatten ++ rest))) := by
    rw [sstImage_eq, hschema, serializeSchema_wide]
    exact ⟨_, by rw [List.append_assoc]⟩
  have hblock : ((blocks.flatten ++ rest).drop (1363 * 6)).take 6 = [3, 0, 97, 97, 97, 1] := by
    rw [take_drop_flatten hwidth (by simp [blocks]; omega)]
    simp [blocks]
  have hdrop : (sstImage (List.replicate n wideColumn) entries).drop (1 * pageSize) =
      97 :: 97 :: 97 :: 1 :: (blocks.flatten ++ rest).drop (1363 * 6 + 6) := by
    rw [show 1 * pageSize = 4 + (4 + (4 + (1363 * 6 + 2))) from rfl, hfile, ← List.drop_drop,
      List.drop_left' (leBytes_length 4 _), ← List.drop_drop, List.drop_left' (leBytes_length 4 _),
      ← List.drop_drop, List.drop_left' (leBytes_length 4 _), ← List.drop_drop,
      ← List.take_append_drop 6 ((blocks.flatten ++ rest).drop (1363 * 6)), hblock, List.drop_drop]
    rfl
  have hmagic : ofLeBytes ((sstImage (List.replicate n wideColumn) entries).take 4) = lsmMagic := by
    rw [hfile, List.take_left' (leBytes_length 4 _)]
    decide
  have hlen : ofLeBytes (((sstImage (List.replicate n wideColumn) entries).drop 4).take 4) = 0 := by
    rw [hfile, List.drop_left' (leBytes_length 4 _), List.take_left' (leBytes_length 4 _)]
    decide
  have hsize := pageSize_le_fileSize (List.replicate n wideColumn) entries
  have hopen : ¬ ((sstImage (List.replicate n wideColumn) entries).length < 8 ∨
      lsmMagic ≠ lsmMagic ∨
        (sstImage (List.replicate n wideColumn) entries).length < alignUp (8 + 0)) := by
    simp only [fileSize, pageSize] at hsize
    simp only [alignUp, pageSize]
    omega
  have hsource : openSource (sstImage (List.replicate n wideColumn) entries) =
      some ⟨sstImage (List.replicate n wideColumn) entries, 1,
        (sstImage (List.replicate n wideColumn) entries).length - alignUp (8 + 0),
        loadSstFooter (sstImage (List.replicate n wideColumn) entries)⟩ := by
    rw [openSource, hmagic, hlen, if_neg hopen]
    rfl
  refine ⟨_, hsource, rfl, ?_⟩
  rw [SstSource.page, hdrop]
  rfl

theorem streamSstable_ne_of_wide {n : Nat} (hn : 4 + 6 * n = 2 ^ 32) {entries : List MemEntry}
    (hentries : entries ≠ []) (fuel : Nat) :
    streamSstable (List.replicate n wideColumn) fuel
      (sstImage (List.replicate n wideColumn) entries) ≠ .ok entries := by
  intro h
  obtain ⟨s, hopen, hoffset, hpage⟩ := openSource_wide hn entries
  simp only [streamSstable, hopen] at h
  rw [← hoffset] at hpage
  exact hentries (SstSource.drain_of_first (by rw [hoffset]; decide) hpage (by decide) (by decide)
    fuel h)

def oneDeletion : List MemEntry := [⟨.int 1, ⟨[]⟩, true, 5⟩]

theorem oneDeletion_recorded (columns : List Column) : ∀ e ∈ oneDeletion, e.Recorded columns := by
  intro e he
  rw [List.mem_singleton.mp he]
  exact .deletion (by decide)

/-- A table with so many columns that their description takes 2 ^ 32 bytes. -/
def wideColumns : List Column := List.replicate 715827882 wideColumn

/-- The streaming reader does not find the entry of a file of that table. -/
theorem streamSstable_wideColumns :
    (∀ e ∈ oneDeletion, e.Recorded wideColumns) ∧
      ∀ fuel, streamSstable wideColumns fuel (sstImage wideColumns oneDeletion) ≠ .ok oneDeletion :=
  ⟨oneDeletion_recorded wideColumns,
    streamSstable_ne_of_wide (by norm_num) (List.cons_ne_nil _ _)⟩

end WideSchema

end CoroDB
