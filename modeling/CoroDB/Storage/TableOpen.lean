import CoroDB.Framework.KeyMap
import CoroDB.Storage.Mvcc
import CoroDB.Storage.RowCodec
import CoroDB.Storage.Wal

/-!
# Opening a table

The constructor of `Table` loads the schema of a table that has files, and replays its log.
-/

namespace CoroDB

open Framework InputStream Ascii

/-- The regular files of the data directory by name. -/
abbrev DataFiles := KeyMap (KeyEq.ofDecidableEq Bytes) Bytes

def walPath (name : Bytes) : Bytes := name ++ ascii ".wal"

def basePath (name : Bytes) : Bytes := name ++ ascii ".lsm.L0"

/-- The log, the level files and the index files of a table. -/
def ofTable (name fname : Bytes) : Bool :=
  fname == walPath name || (name ++ ascii ".lsm.").isPrefixOf fname ||
    (decide (4 < fname.length) && (ascii ".idx").isSuffixOf fname &&
      (name ++ ascii ".").isPrefixOf fname)

/-- Why a table cannot be loaded. `environment` stands for an error that does not come from the bytes
of the files, such as a failed read or a failed allocation. -/
inductive LoadError where
  | notFound
  | invalidHeader
  | schema
  | decode (e : DecodeError)
  | environment
  deriving DecidableEq, Repr

def readHeader (file : Bytes) : Except LoadError (List Column) :=
  let magic := (ofBytes file).readWord 4
  let schemaBytes := magic.2.readWord 4
  if schemaBytes.2.failed || magic.1 != lsmMagic then .error .invalidHeader
  else
    match deserializeSchema (schemaBytes.2.readPadded schemaBytes.1).1 with
    | none => .error .schema
    | some columns => .ok columns

/-- The magic number of a level file and a schema that has room for the number of its columns. -/
def ValidHeader (file : Bytes) : Prop :=
  8 ≤ file.length ∧ ofLeBytes (file.take 4) = lsmMagic ∧ 4 ≤ ofLeBytes ((file.drop 4).take 4)

def headerColumns (file : Bytes) : List Column := (readHeader file).toOption.getD []

def tsReplayed (committed : Option (List UInt64)) (ts : UInt64) : Bool :=
  committed.all fun log => log.contains ts

/-- What a record of the log puts into the memtable: types 1 and 2 are a row and a deletion without
timestamp, types 11 and 12 have it in front. -/
def replayRecord (committed : Option (List UInt64)) (columns : List Column) (r : WalRecord) :
    Except DecodeError (Option MemEntry) :=
  let ts := UInt64.ofNat (ofLeBytes (r.payload.take 8))
  let deletion (bs : Bytes) (ts : UInt64) : Except DecodeError (Option MemEntry) :=
    (if bs = [] then .ok .null else decodeKey bs).map fun key => some ⟨key, ⟨[]⟩, true, ts⟩
  let insertion (bs : Bytes) (ts : UInt64) : Except DecodeError (Option MemEntry) :=
    (decodeRow bs columns).map fun row => some ⟨extractKey row columns, row, false, ts⟩
  if r.type = 2 then deletion r.payload 0
  else if r.type = 1 then insertion r.payload 0
  else if r.type = 12 then
    if r.payload.length < 8 ∨ tsReplayed committed ts = false then .ok none
    else deletion (r.payload.drop 8) ts
  else if r.type = 11 then
    if r.payload.length < 8 ∨ tsReplayed committed ts = false then .ok none
    else insertion (r.payload.drop 8) ts
  else .ok none

def replayAll (committed : Option (List UInt64)) (columns : List Column) :
    List MemEntry → List WalRecord → Except DecodeError (List MemEntry)
  | memtable, [] => .ok memtable
  | memtable, r :: rs =>
    match replayRecord committed columns r with
    | .error e => .error e
    | .ok none => replayAll committed columns memtable rs
    | .ok (some e) => replayAll committed columns (mergeEntries [e] memtable) rs

namespace DataFiles

def tableExists (d : DataFiles) (name : Bytes) : Bool := d.entries.any fun f => ofTable name f.1

def dropTableFiles (d : DataFiles) (name : Bytes) : DataFiles :=
  d.filterKeys fun fname => !ofTable name fname

def createTable (d : DataFiles) (name : Bytes) (columns : List Column) : DataFiles :=
  ((d.dropTableFiles name).assign (basePath name) (sstImage columns [])).assign (walPath name)
    walMagic

def walRecords (d : DataFiles) (name : Bytes) : List WalRecord :=
  ((d.get? (walPath name)).map walReadRecords).getD []

def loadState (d : DataFiles) (name : Bytes) (committed : Option (List UInt64)) :
    Except LoadError (List Column × List MemEntry) :=
  match d.get? (basePath name) with
  | none => .error .notFound
  | some file =>
    match readHeader file with
    | .error e => .error e
    | .ok columns =>
      match replayAll committed columns [] (d.walRecords name) with
      | .error e => .error (.decode e)
      | .ok memtable => .ok (columns, memtable)

/-- The columns of a table, `loaded` if the table is in memory. The fault is an error that the
environment raises while the files are read. -/
def loadSchema (d : DataFiles) (name : Bytes) (loaded : List Column)
    (committed : Option (List UInt64)) (fault : Bool) : Except LoadError (List Column) :=
  if loaded ≠ [] then .ok loaded
  else if fault then .error .environment
  else (d.loadState name committed).map Prod.fst

def openTable (d : DataFiles) (name : Bytes) (columns loaded : List Column)
    (committed : Option (List UInt64)) (fault : Bool) : DataFiles :=
  if d.tableExists name then
    match d.loadSchema name loaded committed fault with
    | .ok _ => d
    | .error _ => d.createTable name columns
  else d.createTable name columns

def FilesKept (name : Bytes) (d d' : DataFiles) : Prop :=
  ∀ fname content, ofTable name fname = true → d.get? fname = some content →
    d'.get? fname = some content

/-- Level 0 is there with a valid header, and every record of the log that is replayed decodes under
its schema. -/
def Loadable (d : DataFiles) (name : Bytes) (committed : Option (List UInt64)) : Prop :=
  ∃ file, d.get? (basePath name) = some file ∧ ValidHeader file ∧
    ∀ r ∈ d.walRecords name, ∃ e, replayRecord committed (headerColumns file) r = .ok e

def Blank (d : DataFiles) (name : Bytes) (columns : List Column) : Prop :=
  ∀ fname content, ofTable name fname = true → d.get? fname = some content →
    fname = basePath name ∧ content = sstImage columns [] ∨
      fname = walPath name ∧ content = walMagic

end DataFiles

section Load

theorem deserializeSchema_isSome (bs : Bytes) :
    (deserializeSchema bs).isSome = true ↔ 4 ≤ bs.length := by
  by_cases h : 4 ≤ bs.length
  · rw [deserializeSchema, readWord_of_le h]
    simp [ofBytes, h]
  · simp [deserializeSchema, readWord_of_lt (not_le.mp h), h]

theorem readHeader_isOk (file : Bytes) :
    (∃ columns, readHeader file = .ok columns) ↔ ValidHeader file := by
  by_cases h8 : 8 ≤ file.length
  · have hrest : 4 ≤ (file.drop 4).length := by simp; omega
    have hschema := deserializeSchema_isSome
      ((ofBytes ((file.drop 4).drop 4)).readPadded (ofLeBytes ((file.drop 4).take 4))).1
    rw [readPadded_length] at hschema
    rw [readHeader, readWord_of_le (by omega : 4 ≤ file.length), readWord_of_le hrest, ValidHeader,
      ← hschema]
    by_cases hmagic : ofLeBytes (file.take 4) = lsmMagic
    · cases hd : deserializeSchema
          ((ofBytes ((file.drop 4).drop 4)).readPadded (ofLeBytes ((file.drop 4).take 4))).1 with
      | none => simp [ofBytes, hmagic]
      | some columns => simp [ofBytes, hmagic, h8]
    · simp [ofBytes, hmagic]
  · have hfail : (((ofBytes file).readWord 4).2.readWord 4).2.failed = true := by
      by_cases h4 : 4 ≤ file.length
      · have hshort : (file.drop 4).length < 4 := by simp; omega
        rw [readWord_of_le h4, readWord_of_lt hshort]
      · rw [readWord_of_lt (not_le.mp h4), readWord_failed]
    simp [readHeader, hfail, ValidHeader, h8]

theorem headerColumns_of_ok {file : Bytes} {columns : List Column}
    (h : readHeader file = .ok columns) : headerColumns file = columns := by
  rw [headerColumns, h]
  rfl

theorem replayAll_isOk {committed : Option (List UInt64)} {columns : List Column}
    {m : List MemEntry} {rs : List WalRecord} :
    (∃ m', replayAll committed columns m rs = .ok m') ↔
      ∀ r ∈ rs, ∃ e, replayRecord committed columns r = .ok e := by
  induction rs generalizing m with
  | nil => simp [replayAll]
  | cons r rs ih =>
    rw [List.forall_mem_cons, replayAll]
    cases hr : replayRecord committed columns r with
    | error e => simp
    | ok o =>
      cases o with
      | none => simpa using ih
      | some e => simpa using ih

end Load

namespace DataFiles

variable {d : DataFiles} {name : Bytes} {columns loaded : List Column}
  {committed : Option (List UInt64)} {fault : Bool}

theorem loadState_isOk :
    (∃ x, d.loadState name committed = .ok x) ↔ d.Loadable name committed := by
  rw [loadState, Loadable]
  cases hfile : d.get? (basePath name) with
  | none => simp
  | some file =>
    have hheader := readHeader_isOk file
    simp only [Option.some.injEq, exists_eq_left']
    cases hread : readHeader file with
    | error e =>
      have hbad : ¬ ValidHeader file := by simpa [hread] using hheader
      simp [hbad]
    | ok columns =>
      have hvalid : ValidHeader file := hheader.mp ⟨columns, hread⟩
      rw [headerColumns_of_ok hread, ← replayAll_isOk (m := [])]
      cases hreplay : replayAll committed columns [] (d.walRecords name) with
      | error e => simp [hreplay]
      | ok memtable => simp [hreplay, hvalid]

theorem loadSchema_isOk :
    (∃ cols, d.loadSchema name loaded committed fault = .ok cols) ↔
      loaded ≠ [] ∨ fault = false ∧ d.Loadable name committed := by
  rw [loadSchema, ← loadState_isOk]
  split_ifs with hloaded hfault
  · simp [hloaded]
  · simp [hloaded, hfault]
  · cases d.loadState name committed with
    | error e => simp [hloaded, Except.map]
    | ok x => simp [hfault, Except.map]

theorem basePath_ne_walPath (name : Bytes) : basePath name ≠ walPath name := by
  intro h
  have := congrArg List.length h
  simp [basePath, walPath, ascii] at this

theorem get?_createTable (d : DataFiles) (columns : List Column) {fname : Bytes}
    (h : ofTable name fname = true) :
    (d.createTable name columns).get? fname =
      if walPath name = fname then some walMagic
      else if basePath name = fname then some (sstImage columns []) else none := by
  have hdrop : (d.dropTableFiles name).get? fname = none := by
    rw [dropTableFiles, KeyMap.get?_filterKeys fun a b hab => by rw [KeyEq.ofDecidableEq_eq.mp hab]]
    simp [h]
  rw [createTable, KeyMap.get?_assign, KeyMap.get?_assign, hdrop]
  simp only [KeyEq.ofDecidableEq_eq]

theorem tableExists_of_get? {fname content : Bytes} (h : ofTable name fname = true)
    (hget : d.get? fname = some content) : d.tableExists name = true := by
  obtain ⟨p, hp, heq, -⟩ := KeyMap.get?_eq_some_iff.mp hget
  rw [KeyEq.ofDecidableEq_eq] at heq
  exact List.any_eq_true.mpr ⟨p, hp, heq ▸ h⟩

theorem filesKept_createTable_iff :
    FilesKept name d (d.createTable name columns) ↔ d.Blank name columns := by
  apply forall_congr'
  intro fname
  apply forall_congr'
  intro content
  apply imp_congr_right
  intro hof
  apply imp_congr_right
  intro _
  have hne := basePath_ne_walPath name
  rw [get?_createTable d columns hof]
  split_ifs with hwal hbase
  · subst hwal
    simp [hne.symm, eq_comm]
  · subst hbase
    simp [hne, eq_comm]
  · simp [Ne.symm hwal, Ne.symm hbase]

/-- The construction of a table keeps its files exactly when the table is in memory, or its files can
be loaded and the environment raises no error, or it has no file but those of a new table. -/
theorem filesKept_openTable_iff (d : DataFiles) (name : Bytes) (columns loaded : List Column)
    (committed : Option (List UInt64)) (fault : Bool) :
    FilesKept name d (d.openTable name columns loaded committed fault) ↔
      loaded ≠ [] ∨ fault = false ∧ d.Loadable name committed ∨ d.Blank name columns := by
  rw [← or_assoc, ← loadSchema_isOk, openTable]
  cases hexists : d.tableExists name with
  | false =>
    have hnone : ∀ fname content, ofTable name fname = true → d.get? fname ≠ some content := by
      intro fname content hof hget
      rw [tableExists_of_get? hof hget] at hexists
      exact Bool.noConfusion hexists
    constructor
    · exact fun _ => .inr fun fname content hof hget => absurd hget (hnone fname content hof)
    · exact fun _ fname content hof hget => absurd hget (hnone fname content hof)
  | true =>
    simp only [if_true]
    cases hload : d.loadSchema name loaded committed fault with
    | ok cols => simp [FilesKept]
    | error e => simpa using filesKept_createTable_iff

theorem get?_openTable_of_error {level : Bytes} {e : LoadError}
    (hload : d.loadSchema name loaded committed fault = .error e)
    (hof : ofTable name level = true) (hwal : walPath name ≠ level) (hbase : basePath name ≠ level) :
    (d.openTable name columns loaded committed fault).get? level = none := by
  have hcreate : d.openTable name columns loaded committed fault = d.createTable name columns := by
    rw [openTable, hload]
    split_ifs <;> rfl
  rw [hcreate, get?_createTable d columns hof, if_neg hwal, if_neg hbase]

def idColumns : List Column := [⟨ascii "id", .int64, true, true⟩]

def rowInLevelOne (levelZero : Bytes) : DataFiles :=
  (KeyMap.empty.assign (ascii "t.lsm.L0") levelZero).assign (ascii "t.lsm.L1")
    (sstImage idColumns [⟨.int 1, ⟨[.int 1]⟩, false, 1⟩])

/-- A failed read of an intact table, or a level 0 that has lost its header, and the row of level 1 is
gone. -/
theorem openTable_removes_level :
    (rowInLevelOne (sstImage idColumns [])).get? (ascii "t.lsm.L1") =
        some (sstImage idColumns [⟨.int 1, ⟨[.int 1]⟩, false, 1⟩]) ∧
      ((rowInLevelOne (sstImage idColumns [])).openTable (ascii "t") [] [] none true).get?
        (ascii "t.lsm.L1") = none ∧
      ((rowInLevelOne []).openTable (ascii "t") [] [] none false).get? (ascii "t.lsm.L1") = none := by
  refine ⟨?_, ?_, ?_⟩
  · rw [rowInLevelOne, KeyMap.get?_assign, if_pos (by decide)]
  · exact get?_openTable_of_error (e := .environment) rfl (by decide) (by decide) (by decide)
  · exact get?_openTable_of_error (e := .invalidHeader) (by decide) (by decide) (by decide)
      (by decide)

end DataFiles

end CoroDB
