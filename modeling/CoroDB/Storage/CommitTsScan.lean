import CoroDB.Framework.Scan
import CoroDB.Storage.Sstable
import CoroDB.Storage.Wal
import CoroDB.Txn.TransactionManager

/-!
# The commit timestamps of a data directory

`max_observed_commit_ts` reads the logs and level files of a data directory a second time, and the
database starts its timestamps behind the largest one it finds.
-/

namespace CoroDB

open Framework

/-- One round of the reading loop over a level file: the timestamp of a record and the bytes behind
its body. -/
def nextCommitTs (bs : Bytes) : Option (UInt64 × Bytes) :=
  if bs.length < 13 then none
  else some (UInt64.ofNat (ofLeBytes ((bs.drop 1).take 8)),
    bs.drop (13 + ofLeBytes ((bs.drop 9).take 4)))

def sstCommitTs (file : Bytes) : List UInt64 :=
  if file.length < 8 then []
  else if ofLeBytes (file.take 4) ≠ lsmMagic then []
  else scan nextCommitTs file.length (file.drop (8 + ofLeBytes ((file.drop 4).take 4)))

def payloadTs (r : WalRecord) : UInt64 := UInt64.ofNat (ofLeBytes (r.payload.take 8))

def rowTs (r : WalRecord) : Option UInt64 :=
  if (r.type = 11 ∨ r.type = 12) ∧ 8 ≤ r.payload.length then some (payloadTs r) else none

def barrierTs (r : WalRecord) : Option UInt64 :=
  if r.type = 14 ∧ 8 ≤ r.payload.length then some (payloadTs r) else none

def walCommitTs (file : Bytes) : List UInt64 := (walReadRecords file).filterMap rowTs

/-- A log, or the commit log: its bytes and the records that were appended to it. -/
structure LogFile where
  file : Bytes
  records : List WalRecord
  deriving DecidableEq

/-- A level file, by what `write_sstable` was given. -/
structure LevelFile where
  columns : List Column
  entries : List MemEntry
  deriving DecidableEq

structure DataDirectory where
  logs : List LogFile
  levels : List LevelFile
  deriving DecidableEq

namespace DataDirectory

def observedCommitTs (d : DataDirectory) : List UInt64 :=
  d.logs.flatMap (fun f => walCommitTs f.file) ++
    d.levels.flatMap fun f => sstCommitTs (sstImage f.columns f.entries)

def maxObservedCommitTs (d : DataDirectory) : UInt64 := d.observedCommitTs.foldl max 0

/-- The timestamp stands in an entry of a level file, a row or delete record of a log, or a record
of the commit log. -/
def Stored (d : DataDirectory) (ts : UInt64) : Prop :=
  (∃ f ∈ d.levels, ∃ e ∈ f.entries, e.commitTs = ts) ∨
    (∃ f ∈ d.logs, ∃ r ∈ f.records, rowTs r = some ts) ∨
    ∃ f ∈ d.logs, ∃ r ∈ f.records, barrierTs r = some ts

def openManager (d : DataDirectory) : TransactionManager :=
  if 0 < d.maxObservedCommitTs then
    TransactionManager.bootstrapMinNextTs {} (d.maxObservedCommitTs + 1)
  else {}

end DataDirectory

def sstBody (e : MemEntry) : Bytes := if e.tombstone then encodeKey e.pk else encodeRow e.row

def schemaPadding (columns : List Column) : Nat :=
  (8 + (serializeSchema columns).length + pageSize - 1) / pageSize * pageSize -
    (8 + (serializeSchema columns).length)

/-- The zeros behind the schema are a whole number of empty records, and the schema and every
record fit their length fields. -/
def LevelFile.Aligned (f : LevelFile) : Prop :=
  (serializeSchema f.columns).length < 2 ^ 32 ∧ schemaPadding f.columns % 13 = 0 ∧
    ∀ e ∈ f.entries, (sstBody e).length < 2 ^ 32

namespace DataDirectory

/-- The timestamp stands in an aligned level file, or in a row or delete record that
`wal_read_records` returns. -/
def Found (d : DataDirectory) (ts : UInt64) : Prop :=
  (∃ f ∈ d.levels, f.Aligned ∧ ∃ e ∈ f.entries, e.commitTs = ts) ∨
    ∃ f ∈ d.logs, ∃ r ∈ walReadRecords f.file, rowTs r = some ts

/-- Every stored timestamp is zero, or at most one that is found. -/
def Covered (d : DataDirectory) : Prop :=
  ∀ ts, d.Stored ts → ts = 0 ∨ ∃ ts', d.Found ts' ∧ ts ≤ ts'

end DataDirectory

section Level

theorem sstRecord_eq (e : MemEntry) :
    sstRecord e = leBytes 1 (if e.tombstone then 2 else 1) ++ leBytes 8 e.commitTs.toNat ++
      leBytes 4 (sstBody e).length ++ sstBody e := rfl

theorem nextCommitTs_header (wire : Nat) (ts : UInt64) {len : Nat} (h : len < 2 ^ 32)
    (rest : Bytes) :
    nextCommitTs (leBytes 1 wire ++ (leBytes 8 ts.toNat ++ (leBytes 4 len ++ rest))) =
      some (ts, rest.drop len) := by
  have hwire : ∀ bs, (leBytes 1 wire ++ bs).drop 1 = bs :=
    fun bs => List.drop_left' (leBytes_length 1 wire)
  have hts : ∀ bs, (leBytes 8 ts.toNat ++ bs).drop 8 = bs :=
    fun bs => List.drop_left' (leBytes_length 8 _)
  have hlen : ∀ bs, (leBytes 4 len ++ bs).drop 4 = bs :=
    fun bs => List.drop_left' (leBytes_length 4 _)
  have hlong : ¬ (leBytes 1 wire ++ (leBytes 8 ts.toNat ++ (leBytes 4 len ++ rest))).length < 13 := by
    simp only [List.length_append, leBytes_length]
    omega
  have hdrop9 : ∀ bs : Bytes, bs.drop 9 = (bs.drop 1).drop 8 := fun bs => by simp
  have hdrop13 : ∀ (bs : Bytes) n, bs.drop (13 + n) = ((((bs.drop 1).drop 8).drop 4)).drop n :=
    fun bs n => by simp [Nat.add_comm]
  have htsWord : ofLeBytes (leBytes 8 ts.toNat) = ts.toNat := by
    rw [ofLeBytes_leBytes]
    exact Nat.mod_eq_of_lt ts.toNat_lt
  have hlenWord : ofLeBytes (leBytes 4 len) = len := by
    rw [ofLeBytes_leBytes]
    exact Nat.mod_eq_of_lt h
  rw [nextCommitTs, if_neg hlong, hdrop9, hdrop13, hwire, hts, hlen,
    List.take_left' (leBytes_length 8 _), List.take_left' (leBytes_length 4 _), htsWord, hlenWord,
    UInt64.ofNat_toNat]

theorem nextCommitTs_zeros (rest : Bytes) :
    nextCommitTs (List.replicate 13 0 ++ rest) = some (0, rest) := by
  have hzeros : List.replicate 13 (0 : UInt8) = leBytes 1 0 ++ (leBytes 8 0 ++ leBytes 4 0) := by
    decide
  rw [hzeros, List.append_assoc, List.append_assoc]
  exact nextCommitTs_header 0 0 (by decide) rest

theorem nextCommitTs_record {e : MemEntry} (h : (sstBody e).length < 2 ^ 32) (rest : Bytes) :
    nextCommitTs (sstRecord e ++ rest) = some (e.commitTs, rest) := by
  rw [sstRecord_eq, List.append_assoc, List.append_assoc, List.append_assoc,
    nextCommitTs_header _ _ h, List.drop_left]

/-- What follows the records of a level file: the zeros of the last page and the footer. -/
def sstTail (entries : List MemEntry) : Bytes :=
  let payload := entries.flatMap sstRecord
  List.replicate ((payload.length + pageSize - 1) / pageSize * pageSize - payload.length) 0 ++
    serializeSstFooter ⟨BloomFilter.build (distinctKeys entries), (sstPages payload).map crc32c⟩

theorem sstPages_flatten (payload : Bytes) :
    (sstPages payload).flatten = payload ++ List.replicate
      ((payload.length + pageSize - 1) / pageSize * pageSize - payload.length) 0 := by
  apply flatten_blocks
  simp only [pageSize]
  omega

theorem sstImage_eq (columns : List Column) (entries : List MemEntry) :
    sstImage columns entries =
      leBytes 4 lsmMagic ++ (leBytes 4 (serializeSchema columns).length ++
        (serializeSchema columns ++ (List.replicate (schemaPadding columns) 0 ++
          (entries.flatMap sstRecord ++ sstTail entries)))) := by
  have hheader : (leBytes 4 lsmMagic ++ (leBytes 4 (serializeSchema columns).length ++
      serializeSchema columns)).length = 8 + (serializeSchema columns).length := by
    simp only [List.length_append, leBytes_length]
    omega
  simp only [sstImage, sstHeader, sstTail, sstPages_flatten, List.append_assoc, hheader, schemaPadding]

theorem sstCommitTs_sstImage {columns : List Column} (entries : List MemEntry)
    (h : (serializeSchema columns).length < 2 ^ 32) :
    sstCommitTs (sstImage columns entries) =
      scan nextCommitTs (sstImage columns entries).length
        (List.replicate (schemaPadding columns) 0 ++
          (entries.flatMap sstRecord ++ sstTail entries)) := by
  have hlong : 8 ≤ (sstImage columns entries).length :=
    le_trans (by decide) (pageSize_le_fileSize columns entries)
  have hmagic : ofLeBytes ((sstImage columns entries).take 4) = lsmMagic := by
    rw [sstImage_eq, List.take_left' (leBytes_length 4 _), ofLeBytes_leBytes]
    rfl
  have hdrop4 : (sstImage columns entries).drop 4 =
      leBytes 4 (serializeSchema columns).length ++
        (serializeSchema columns ++ (List.replicate (schemaPadding columns) 0 ++
          (entries.flatMap sstRecord ++ sstTail entries))) := by
    rw [sstImage_eq]
    exact List.drop_left' (leBytes_length 4 _)
  have hschema : ofLeBytes (((sstImage columns entries).drop 4).take 4) =
      (serializeSchema columns).length := by
    rw [hdrop4, List.take_left' (leBytes_length 4 _), ofLeBytes_leBytes]
    exact Nat.mod_eq_of_lt h
  have hdrop : (sstImage columns entries).drop (8 + (serializeSchema columns).length) =
      List.replicate (schemaPadding columns) 0 ++
        (entries.flatMap sstRecord ++ sstTail entries) := by
    rw [show 8 + (serializeSchema columns).length = 4 + (4 + (serializeSchema columns).length) by
      omega, ← List.drop_drop, hdrop4, ← List.drop_drop, List.drop_left' (leBytes_length 4 _),
      List.drop_left]
  rw [sstCommitTs, if_neg (not_lt.mpr hlong), if_neg (not_not.mpr hmagic), hschema, hdrop]

theorem sstImage_length (columns : List Column) (entries : List MemEntry) :
    (sstImage columns entries).length = 8 + (serializeSchema columns).length +
      (schemaPadding columns + (entries.flatMap sstRecord).length + (sstTail entries).length) := by
  rw [sstImage_eq]
  simp only [List.length_append, leBytes_length, List.length_replicate]
  omega

theorem length_le_flatMap_sstRecord (entries : List MemEntry) :
    entries.length ≤ (entries.flatMap sstRecord).length := by
  rw [List.length_flatMap, ← List.length_map (fun e => (sstRecord e).length)]
  apply List.length_le_sum_of_one_le
  intro n hn
  obtain ⟨e, -, rfl⟩ := List.mem_map.mp hn
  simp only [sstRecord_eq, List.length_append, leBytes_length]
  omega

theorem mem_sstCommitTs {f : LevelFile} (h : f.Aligned) {e : MemEntry} (he : e ∈ f.entries) :
    e.commitTs ∈ sstCommitTs (sstImage f.columns f.entries) := by
  obtain ⟨hschema, hpadding, hbodies⟩ := h
  have hlength := sstImage_length f.columns f.entries
  obtain ⟨count, hcount⟩ := Nat.dvd_of_mod_eq_zero hpadding
  have hrecords := length_le_flatMap_sstRecord f.entries
  rw [sstCommitTs_sstImage f.entries hschema, hcount, replicate_mul_eq_flatMap,
    scan_flatMap_append (fun _ _ => nextCommitTs_zeros) (by simp; omega),
    scan_flatMap_append (fun e he => nextCommitTs_record (hbodies e he)) (by simp; omega)]
  simp only [List.mem_append, List.mem_map]
  exact .inr (.inl ⟨e, he, rfl⟩)

end Level

theorem le_foldl_max {ts : UInt64} {l : List UInt64} (a : UInt64) (h : ts ∈ l ∨ ts ≤ a) :
    ts ≤ l.foldl max a := by
  induction l generalizing a with
  | nil => exact h.resolve_left List.not_mem_nil
  | cons b l ih =>
    apply ih
    rcases h with h | h
    · rcases List.mem_cons.mp h with rfl | h
      · exact .inr (le_max_right a ts)
      · exact .inl h
    · exact .inr (h.trans (le_max_left a b))

theorem foldl_max_eq_zero {l : List UInt64} (h : ∀ ts ∈ l, ts = 0) : l.foldl max 0 = 0 := by
  induction l with
  | nil => rfl
  | cons b l ih =>
    rw [List.foldl_cons, h b List.mem_cons_self, max_self]
    exact ih fun ts hts => h ts (List.mem_cons_of_mem b hts)

namespace DataDirectory

variable {d : DataDirectory}

theorem Found.le_maxObservedCommitTs {ts : UInt64} (h : d.Found ts) :
    ts ≤ d.maxObservedCommitTs := by
  refine le_foldl_max 0 (.inl ?_)
  rw [observedCommitTs, List.mem_append]
  rcases h with ⟨f, hf, hal, e, he, rfl⟩ | ⟨f, hf, r, hr, hts⟩
  · exact .inr (List.mem_flatMap.mpr ⟨f, hf, mem_sstCommitTs hal he⟩)
  · exact .inl (List.mem_flatMap.mpr ⟨f, hf, List.mem_filterMap.mpr ⟨r, hr, hts⟩⟩)

theorem openManager_nextTs (d : DataDirectory) (h : d.maxObservedCommitTs.toNat + 1 < 2 ^ 64) :
    d.openManager.nextTs.toNat = d.maxObservedCommitTs.toNat + 1 := by
  have hsucc : (d.maxObservedCommitTs + 1).toNat = d.maxObservedCommitTs.toNat + 1 := by
    rw [UInt64.toNat_add]
    exact Nat.mod_eq_of_lt (by simpa using h)
  rw [openManager]
  split
  · next hpos =>
    have hlt : (1 : UInt64) < d.maxObservedCommitTs + 1 := by
      rw [UInt64.lt_iff_toNat_lt] at hpos ⊢
      rw [hsucc]
      simpa using hpos
    rw [TransactionManager.bootstrapMinNextTs, if_pos hlt]
    exact hsucc
  · next hzero =>
    obtain hmax : d.maxObservedCommitTs = 0 := le_antisymm (not_lt.mp hzero) (UInt64.zero_le)
    rw [hmax]
    rfl

/-- Where every stored timestamp is covered by one that the reader finds, the largest timestamp it
reports is at least every stored one, and a database opened on the directory hands out larger ones
only, until its counter wraps. -/
theorem stored_lt_handedOut (h : d.Covered) :
    (∀ ts, d.Stored ts → ts ≤ d.maxObservedCommitTs) ∧
      ∀ cs : List TxnCall, d.maxObservedCommitTs.toNat + 1 + cs.length < 2 ^ 64 →
        ∀ new ∈ d.openManager.handedOut cs, ∀ ts, d.Stored ts → ts < new := by
  have hmax : ∀ ts, d.Stored ts → ts ≤ d.maxObservedCommitTs := by
    intro ts hts
    rcases h ts hts with rfl | ⟨ts', hfound, hle⟩
    · exact UInt64.zero_le
    · exact hle.trans hfound.le_maxObservedCommitTs
  refine ⟨hmax, fun cs hwrap new hnew ts hts => ?_⟩
  have hnext := openManager_nextTs d (by omega)
  have hle := TransactionManager.nextTs_le_of_mem_handedOut (by rw [hnext]; exact hwrap) hnew
  have hts := hmax ts hts
  rw [UInt64.le_iff_toNat_le] at hle hts
  rw [UInt64.lt_iff_toNat_lt]
  omega

/-- A row of a later commit in the log of its table and its record in the commit log, and an
earlier row in an aligned level file. -/
def coveredDirectory : DataDirectory :=
  let row : WalRecord := ⟨11, leBytes 8 7 ++ encodeRow ⟨[.int 2]⟩⟩
  let barrier : WalRecord := ⟨14, leBytes 8 7⟩
  ⟨[⟨appendWal (openWal none) [row], [row]⟩, ⟨appendWal (openWal none) [barrier], [barrier]⟩],
    [⟨[⟨List.replicate 13 97, .int64, true, true⟩], [⟨.int 1, ⟨[.int 1]⟩, false, 5⟩]⟩]⟩

theorem coveredDirectory_covered : coveredDirectory.Covered := by
  have hrow : rowTs ⟨11, leBytes 8 7 ++ encodeRow ⟨[.int 2]⟩⟩ = some 7 := by decide
  have hrow' : barrierTs ⟨11, leBytes 8 7 ++ encodeRow ⟨[.int 2]⟩⟩ = none := by decide
  have hbarrier : barrierTs ⟨14, leBytes 8 7⟩ = some 7 := by decide
  have hbarrier' : rowTs ⟨14, leBytes 8 7⟩ = none := by decide
  have hfound : coveredDirectory.Found 7 := .inr ⟨_, List.mem_cons_self, _, by decide, hrow⟩
  intro ts hts
  refine .inr ⟨7, hfound, ?_⟩
  simp only [Stored, coveredDirectory, List.mem_cons, List.not_mem_nil, or_false, exists_eq_left,
    exists_eq_or_imp, hrow, hrow', hbarrier, hbarrier', Option.some.injEq, reduceCtorEq,
    false_or] at hts
  rcases hts with rfl | rfl | rfl
  · decide
  · exact le_refl _
  · exact le_refl _

theorem stored_lt_handedOut_coveredDirectory :
    coveredDirectory.Covered ∧
      (∀ ts, coveredDirectory.Stored ts → ts ≤ coveredDirectory.maxObservedCommitTs) ∧
      ∀ cs : List TxnCall, coveredDirectory.maxObservedCommitTs.toNat + 1 + cs.length < 2 ^ 64 →
        ∀ new ∈ coveredDirectory.openManager.handedOut cs, ∀ ts, coveredDirectory.Stored ts →
          ts < new :=
  ⟨coveredDirectory_covered, stored_lt_handedOut coveredDirectory_covered⟩

def oneLetterColumns : List Column := [⟨[105], .int64, true, true⟩]

def rowAtFive : MemEntry := ⟨.int 1, ⟨[.int 1]⟩, false, 5⟩

private theorem sstTail_rowAtFive_length : (sstTail [rowAtFive]).length < 2 ^ 23 := by
  have hbits : (BloomFilter.build (distinctKeys [rowAtFive])).bits.length = 8 := by
    decide +kernel
  have hpayload : ([rowAtFive].flatMap sstRecord).length = 26 := by decide
  simp only [sstTail, sstPages, serializeSstFooter, SstFooter.serialize, BloomFilter.serialize,
    hpayload, hbits, List.length_append, leBytes_length, List.length_replicate, List.length_map,
    List.length_flatMap, List.map_map, List.length_range, pageSize]
  simp

theorem sstCommitTs_rowAtFive {ts : UInt64}
    (h : ts ∈ sstCommitTs (sstImage oneLetterColumns [rowAtFive])) : ts = 0 := by
  have hschema : (serializeSchema oneLetterColumns).length = 8 := by decide
  have hpadding : schemaPadding oneLetterColumns = 13 * 628 + 12 := by
    simp only [schemaPadding, hschema, pageSize]
  have hfront : List.replicate 12 (0 : UInt8) ++ leBytes 1 1 =
      leBytes 1 0 ++ (leBytes 8 (0 : UInt64).toNat ++ leBytes 4 (2 ^ 24)) := by
    decide
  obtain ⟨bs, hrecord, hbs⟩ : ∃ bs, [rowAtFive].flatMap sstRecord = leBytes 1 1 ++ bs ∧
      bs.length = 25 := ⟨([rowAtFive].flatMap sstRecord).tail, by decide, by decide⟩
  have hbeyond : (bs ++ sstTail [rowAtFive]).drop (2 ^ 24) = [] := by
    apply List.drop_of_length_le
    have htail := sstTail_rowAtFive_length
    rw [List.length_append, hbs]
    omega
  have hlength := sstImage_length oneLetterColumns [rowAtFive]
  obtain ⟨fuel, hfuel⟩ : ∃ n, (sstImage oneLetterColumns [rowAtFive]).length -
      (List.range 628).length = n + 2 := ⟨_, (Nat.sub_add_cancel (by simp; omega)).symm⟩
  have hrest : scan nextCommitTs (fuel + 2) (List.replicate 12 0 ++
      ([rowAtFive].flatMap sstRecord ++ sstTail [rowAtFive])) = [0] := by
    rw [hrecord, List.append_assoc, ← List.append_assoc, hfront, List.append_assoc,
      List.append_assoc, scan, nextCommitTs_header 0 0 (by decide), hbeyond]
    rfl
  rw [sstCommitTs_sstImage _ (by rw [hschema]; decide), hpadding, List.replicate_add,
    List.append_assoc, replicate_mul_eq_flatMap,
    scan_flatMap_append (fun _ _ => nextCommitTs_zeros) (by simp; omega), hfuel, hrest] at h
  rcases List.mem_append.mp h with h | h
  · obtain ⟨-, -, hts⟩ := List.mem_map.mp h
    exact hts.symm
  · exact List.mem_singleton.mp h

def oneRowDirectory : DataDirectory := ⟨[], [⟨oneLetterColumns, [rowAtFive]⟩]⟩

theorem oneRowDirectory_maxObservedCommitTs : oneRowDirectory.maxObservedCommitTs = 0 := by
  apply foldl_max_eq_zero
  intro ts hts
  rw [observedCommitTs, List.mem_append] at hts
  rcases hts with hts | hts
  · exact absurd hts List.not_mem_nil
  · obtain ⟨f, hf, hts⟩ := List.mem_flatMap.mp hts
    rw [List.mem_singleton.mp hf] at hts
    exact sstCommitTs_rowAtFive hts

/-- The only stored timestamp of the directory is not found, and the first transaction after a
restart gets a smaller one. -/
theorem stored_ts_not_observed :
    oneRowDirectory.Stored 5 ∧ oneRowDirectory.maxObservedCommitTs = 0 ∧
      oneRowDirectory.openManager.handedOut [.begin] = [1] := by
  have hmax := oneRowDirectory_maxObservedCommitTs
  have hopen : oneRowDirectory.openManager = {} := by
    rw [openManager, hmax, if_neg (lt_irrefl 0)]
  refine ⟨.inl ⟨_, List.mem_singleton_self _, rowAtFive, List.mem_singleton_self _, rfl⟩, hmax, ?_⟩
  rw [hopen]
  rfl

end DataDirectory

end CoroDB
