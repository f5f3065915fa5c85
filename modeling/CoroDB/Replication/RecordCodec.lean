import CoroDB.Framework.BufferReader
import CoroDB.Storage.RowCodec

/-!
# The bytes of a replication record

A record starts with its type.
-/

namespace CoroDB

open Framework BufferReader InputStream

section Schema

def encodeColumn (col : Column) : Bytes :=
  leBytes 2 col.name.length ++ col.name ++
    leBytes 1 (typeToWire col.type ||| (if col.notNull then 0x40 else 0) |||
      (if col.primaryKey then 0x80 else 0))

theorem serializeSchema_eq (columns : List Column) :
    serializeSchema columns = leBytes 4 columns.length ++ columns.flatMap encodeColumn := rfl

theorem readColumn_encodeColumn {col : Column} (h : col.name.length < 2 ^ 16) (rest : Bytes) :
    readColumn (ofBytes (encodeColumn col ++ rest)) = (col, ofBytes rest) := by
  obtain ⟨name, type, notNull, primaryKey⟩ := col
  have hname : name.length < 256 ^ 2 := h
  cases type <;> cases notNull <;> cases primaryKey <;>
    simp [readColumn, encodeColumn, List.append_assoc, readWord_append hname,
      readPadded_append rfl, readWord_append, typeToWire, wireToType, Nat.testBit]

theorem readColumns_encodeColumns {columns : List Column}
    (h : ∀ col ∈ columns, col.name.length < 2 ^ 16) (rest : Bytes) :
    readColumns columns.length (ofBytes (columns.flatMap encodeColumn ++ rest)) = columns := by
  induction columns with
  | nil => rfl
  | cons col columns ih =>
    rw [List.flatMap_cons, List.append_assoc, List.length_cons, readColumns,
      readColumn_encodeColumn (h col List.mem_cons_self),
      ih fun c hc => h c (List.mem_cons_of_mem col hc)]

/-- The lengths of a schema fit their fields. -/
structure SchemaFits (columns : List Column) : Prop where
  count : columns.length < 2 ^ 32
  names : ∀ col ∈ columns, col.name.length < 2 ^ 16

theorem deserializeSchema_serializeSchema {columns : List Column} (h : SchemaFits columns) :
    deserializeSchema (serializeSchema columns) = some columns := by
  have hcount : columns.length < 256 ^ 4 := h.count
  have hread := readColumns_encodeColumns h.names []
  rw [List.append_nil] at hread
  rw [deserializeSchema, serializeSchema_eq, readWord_append hcount, if_neg (by simp [ofBytes]),
    hread]

theorem name_length_of_mem_readColumns {count : Nat} {s : InputStream} {col : Column}
    (h : col ∈ readColumns count s) : col.name.length < 2 ^ 16 := by
  induction count generalizing s with
  | zero => cases h
  | succ count ih =>
    rcases List.mem_cons.mp h with rfl | h
    · simp only [readColumn, readPadded_length]
      exact readWord_lt s 2
    · exact ih h

theorem length_readColumns (count : Nat) (s : InputStream) :
    (readColumns count s).length = count := by
  induction count generalizing s with
  | zero => rfl
  | succ count ih => rw [readColumns, List.length_cons, ih]

theorem schemaFits_of_deserialize {bs : Bytes} {columns : List Column}
    (h : deserializeSchema bs = some columns) : SchemaFits columns := by
  rw [deserializeSchema] at h
  split_ifs at h
  obtain rfl := Option.some.inj h
  constructor
  · rw [length_readColumns]
    exact readWord_lt (ofBytes bs) 4
  · intro col hcol
    exact name_length_of_mem_readColumns hcol

end Schema

inductive WireRecord where
  | applyRow (table : Bytes) (commitTs : UInt64) (rowWire : Bytes)
  | applyDelete (table : Bytes) (commitTs : UInt64) (rowWire : Bytes)
  | commit (commitTs : UInt64)
  | createTable (table : Bytes) (columns : List Column)
  | dropTable (table : Bytes)
  deriving DecidableEq

/-- What a payload is read as: a record, the return value false, or an exception. -/
inductive Deserialized where
  | record (r : WireRecord)
  | refused
  | threw
  deriving DecidableEq

inductive RawRecord where
  | applyRow (table : Bytes) (commitTs : UInt64) (rowWire : Bytes)
  | applyDelete (table : Bytes) (commitTs : UInt64) (rowWire : Bytes)
  | commit (commitTs : UInt64)
  | createTable (table schema : Bytes)
  | dropTable (table : Bytes)

namespace RawRecord

def encodeTable (table : Bytes) : Bytes := leBytes 1 table.length ++ table

def encodeWire (wire : Bytes) : Bytes := leBytes 4 wire.length ++ wire

def encodeChange (table : Bytes) (commitTs : UInt64) (rowWire : Bytes) : Bytes :=
  encodeTable table ++ (leBytes 8 commitTs.toNat ++ encodeWire rowWire)

def encode : RawRecord → Bytes
  | applyRow table commitTs rowWire => leBytes 1 1 ++ encodeChange table commitTs rowWire
  | applyDelete table commitTs rowWire => leBytes 1 2 ++ encodeChange table commitTs rowWire
  | commit commitTs => leBytes 1 3 ++ leBytes 8 commitTs.toNat
  | createTable table schema => leBytes 1 4 ++ (encodeTable table ++ encodeWire schema)
  | dropTable table => leBytes 1 5 ++ encodeTable table

def readTable : BufferReader Bytes := do
  let len ← checkedWord 1
  checkedRead len

def readWire : BufferReader Bytes := do
  let len ← checkedWord 4
  checkedRead len

def readCommitTs : BufferReader UInt64 := do
  let ts ← checkedWord 8
  pure (UInt64.ofNat ts)

def readChange (make : Bytes → UInt64 → Bytes → RawRecord) : BufferReader RawRecord := do
  let table ← readTable
  let commitTs ← readCommitTs
  let rowWire ← readWire
  pure (make table commitTs rowWire)

def readBody : Nat → BufferReader RawRecord
  | 1 => readChange applyRow
  | 2 => readChange applyDelete
  | 3 => do
    let commitTs ← readCommitTs
    pure (commit commitTs)
  | 4 => do
    let table ← readTable
    let schema ← readWire
    pure (createTable table schema)
  | 5 => do
    let table ← readTable
    pure (dropTable table)
  | _ => do
    require False
    pure (commit 0)

def reader : BufferReader RawRecord := do
  let type ← checkedWord 1
  readBody type

def decodeSchema : RawRecord → Deserialized
  | applyRow table commitTs rowWire => .record (.applyRow table commitTs rowWire)
  | applyDelete table commitTs rowWire => .record (.applyDelete table commitTs rowWire)
  | commit commitTs => .record (.commit commitTs)
  | createTable table schema =>
    match deserializeSchema schema with
    | none => .threw
    | some [] => .refused
    | some (col :: cols) => .record (.createTable table (col :: cols))
  | dropTable table => .record (.dropTable table)

end RawRecord

namespace WireRecord

def raw : WireRecord → RawRecord
  | applyRow table commitTs rowWire => .applyRow table commitTs rowWire
  | applyDelete table commitTs rowWire => .applyDelete table commitTs rowWire
  | commit commitTs => .commit commitTs
  | createTable table columns => .createTable table (serializeSchema columns)
  | dropTable table => .dropTable table

def serialize (r : WireRecord) : Bytes := r.raw.encode

def deserialize (payload : Bytes) : Deserialized :=
  match (RawRecord.reader.run payload).result with
  | some raw => raw.decodeSchema
  | none => .refused

end WireRecord

namespace RawRecord

def Fits : RawRecord → Prop
  | applyRow table _ rowWire => table.length < 2 ^ 8 ∧ rowWire.length < 2 ^ 32
  | applyDelete table _ rowWire => table.length < 2 ^ 8 ∧ rowWire.length < 2 ^ 32
  | commit _ => True
  | createTable table schema => table.length < 2 ^ 8 ∧ schema.length < 2 ^ 32
  | dropTable table => table.length < 2 ^ 8

def table : RawRecord → Bytes
  | applyRow table _ _ => table
  | applyDelete table _ _ => table
  | commit _ => []
  | createTable table _ => table
  | dropTable table => table

section Reads

theorem reads_readTable {table : Bytes} (h : table.length < 2 ^ 8) :
    Reads readTable (encodeTable table) table :=
  (reads_checkedWord h).bind (reads_checkedRead rfl)

theorem reads_readWire {wire : Bytes} (h : wire.length < 2 ^ 32) :
    Reads readWire (encodeWire wire) wire :=
  (reads_checkedWord h).bind (reads_checkedRead rfl)

theorem reads_readCommitTs (commitTs : UInt64) :
    Reads readCommitTs (leBytes 8 commitTs.toNat) commitTs := by
  have hts : commitTs.toNat < 256 ^ 8 := commitTs.toNat_lt
  have hlast := (reads_checkedWord hts).last (g := UInt64.ofNat)
  rwa [UInt64.ofNat_toNat] at hlast

theorem reads_readChange {table rowWire : Bytes} (make : Bytes → UInt64 → Bytes → RawRecord)
    (commitTs : UInt64) (htable : table.length < 2 ^ 8) (hrow : rowWire.length < 2 ^ 32) :
    Reads (readChange make) (encodeChange table commitTs rowWire) (make table commitTs rowWire) :=
  (reads_readTable htable).bind ((reads_readCommitTs commitTs).bind (reads_readWire hrow).last)

theorem reads_reader {raw : RawRecord} (h : raw.Fits) : Reads reader raw.encode raw := by
  cases raw with
  | applyRow table commitTs rowWire =>
    exact (reads_checkedWord (by decide)).bind (reads_readChange applyRow commitTs h.1 h.2)
  | applyDelete table commitTs rowWire =>
    exact (reads_checkedWord (by decide)).bind (reads_readChange applyDelete commitTs h.1 h.2)
  | commit commitTs =>
    exact (reads_checkedWord (by decide)).bind (reads_readCommitTs commitTs).last
  | createTable table schema =>
    exact (reads_checkedWord (by decide)).bind
      ((reads_readTable h.1).bind (reads_readWire h.2).last)
  | dropTable table => exact (reads_checkedWord (by decide)).bind (reads_readTable h).last

theorem stable_reader : Stable reader := by
  have htable : Stable readTable := (stable_checkedWord 1).bind stable_checkedRead
  have hwire : Stable readWire := (stable_checkedWord 4).bind stable_checkedRead
  have hts : Stable readCommitTs := (stable_checkedWord 8).bind fun _ => .pure _
  have hchange (make) : Stable (readChange make) :=
    htable.bind fun _ => hts.bind fun _ => hwire.bind fun _ => .pure _
  apply (stable_checkedWord 1).bind
  intro type
  rw [readBody.eq_def]
  split
  · exact hchange applyRow
  · exact hchange applyDelete
  · exact hts.bind fun _ => .pure _
  · exact htable.bind fun _ => hwire.bind fun _ => .pure _
  · exact htable.bind fun _ => .pure _
  · exact (stable_require False).bind fun _ => .pure _

theorem needs_reader : Needs 0 reader 0 := by
  have htable : Needs 0 readTable 0 := needs_checkedWord.bind fun _ => needs_checkedRead
  have hwire : Needs 0 readWire 0 := needs_checkedWord.bind fun _ => needs_checkedRead
  have hts : Needs 0 readCommitTs 0 := needs_checkedWord.bind fun _ => .pure _
  have hchange (make) : Needs 0 (readChange make) 0 :=
    htable.bind fun _ => hts.bind fun _ => hwire.bind fun _ => .pure _
  apply needs_checkedWord.bind
  intro type
  rw [readBody.eq_def]
  split
  · exact hchange applyRow
  · exact hchange applyDelete
  · exact hts.bind fun _ => .pure _
  · exact htable.bind fun _ => hwire.bind fun _ => .pure _
  · exact htable.bind fun _ => .pure _
  · exact needs_require.bind fun _ => .pure _

end Reads

section Values

variable {buf : Bytes} {pos pos' : Nat} {raw : RawRecord}

theorem readTable_length {table : Bytes} (h : readTable buf pos = .value (table, pos')) :
    table.length < 2 ^ 8 := by
  obtain ⟨len, pos₁, hlen, hread⟩ := bind_eq_value h
  rw [checkedRead_length hread]
  exact checkedWord_lt hlen

theorem table_length_of_readBody {type : Nat} (h : readBody type buf pos = .value (raw, pos')) :
    raw.table.length < 2 ^ 8 := by
  have hchange {make : Bytes → UInt64 → Bytes → RawRecord}
      (hmake : ∀ table ts row, (make table ts row).table = table)
      (h : readChange make buf pos = .value (raw, pos')) : raw.table.length < 2 ^ 8 := by
    obtain ⟨table, pos₁, htable, h⟩ := bind_eq_value h
    obtain ⟨ts, pos₂, -, h⟩ := bind_eq_value h
    obtain ⟨row, pos₃, -, h⟩ := bind_eq_value h
    cases h
    rw [hmake]
    exact readTable_length htable
  rw [readBody.eq_def] at h
  split at h
  · exact hchange (fun _ _ _ => rfl) h
  · exact hchange (fun _ _ _ => rfl) h
  · obtain ⟨ts, pos₁, -, h⟩ := bind_eq_value h
    cases h
    exact Nat.two_pow_pos 8
  · obtain ⟨table, pos₁, htable, h⟩ := bind_eq_value h
    obtain ⟨schema, pos₂, -, h⟩ := bind_eq_value h
    cases h
    exact readTable_length htable
  · obtain ⟨table, pos₁, htable, h⟩ := bind_eq_value h
    cases h
    exact readTable_length htable
  · obtain ⟨u, pos₁, hfalse, -⟩ := bind_eq_value h
    cases hfalse

theorem table_length_of_run (h : reader.run buf = .value raw) : raw.table.length < 2 ^ 8 := by
  obtain ⟨pos, h⟩ := run_eq_value h
  obtain ⟨type, pos₁, -, h⟩ := bind_eq_value h
  exact table_length_of_readBody h

end Values

end RawRecord

namespace WireRecord

def table : WireRecord → Bytes
  | applyRow table _ _ => table
  | applyDelete table _ _ => table
  | commit _ => []
  | createTable table _ => table
  | dropTable table => table

def rowWire : WireRecord → Bytes
  | applyRow _ _ rowWire => rowWire
  | applyDelete _ _ rowWire => rowWire
  | _ => []

/-- The columns of a new table, of which there is at least one, fit the fields of a schema. -/
def ColumnsFit : WireRecord → Prop
  | createTable _ columns =>
    columns ≠ [] ∧ SchemaFits columns ∧ (serializeSchema columns).length < 2 ^ 32
  | _ => True

structure Fits (r : WireRecord) : Prop where
  table : r.table.length < 2 ^ 8
  columns : r.ColumnsFit

/-- A record is read back as it was, and no front part of it is read as a record. -/
structure Faithful (r : WireRecord) : Prop where
  roundTrip : deserialize r.serialize = .record r
  prefixes : ∀ k < r.serialize.length, ∀ r', deserialize (r.serialize.take k) ≠ .record r'

variable {r : WireRecord} {raw : RawRecord} {payload : Bytes}

theorem deserialize_of_run (h : RawRecord.reader.run payload = .value raw) :
    deserialize payload = raw.decodeSchema := by
  simp only [deserialize, h, Outcome.result]

theorem run_of_deserialize (h : deserialize payload = .record r) :
    ∃ raw, RawRecord.reader.run payload = .value raw ∧ raw.decodeSchema = .record r := by
  cases hrun : RawRecord.reader.run payload with
  | value raw => exact ⟨raw, rfl, (deserialize_of_run hrun).symm.trans h⟩
  | refused => simp [deserialize, hrun, Outcome.result] at h
  | outside => simp [deserialize, hrun, Outcome.result] at h

theorem Fits.raw_fits (h : r.Fits) (hrow : r.rowWire.length < 2 ^ 32) : r.raw.Fits := by
  cases r with
  | applyRow table commitTs rowWire => exact ⟨h.table, hrow⟩
  | applyDelete table commitTs rowWire => exact ⟨h.table, hrow⟩
  | commit commitTs => trivial
  | createTable table columns => exact ⟨h.table, h.columns.2.2⟩
  | dropTable table => exact h.table

theorem Fits.decodeSchema (h : r.Fits) : r.raw.decodeSchema = .record r := by
  cases r with
  | createTable table columns =>
    obtain ⟨hne, hfits, -⟩ := h.columns
    simp only [WireRecord.raw, RawRecord.decodeSchema, deserializeSchema_serializeSchema hfits]
    cases columns with
    | nil => exact absurd rfl hne
    | cons col columns => rfl
  | _ => rfl

theorem Fits.faithful (h : r.Fits) (hrow : r.rowWire.length < 2 ^ 32) : r.Faithful := by
  have hreads : Reads RawRecord.reader r.serialize r.raw := RawRecord.reads_reader (h.raw_fits hrow)
  have hrun := hreads.run_append []
  rw [List.append_nil] at hrun
  constructor
  · rw [deserialize_of_run hrun, h.decodeSchema]
  · intro k hk r' hr'
    obtain ⟨raw, hraw, -⟩ := run_of_deserialize hr'
    exact hreads.run_take_ne_value RawRecord.stable_reader RawRecord.needs_reader hk raw hraw

theorem table_of_decodeSchema (h : raw.decodeSchema = .record r) : raw.table = r.table := by
  cases raw with
  | createTable table schema =>
    rw [RawRecord.decodeSchema] at h
    split at h
    · cases h
    · cases h
    · cases h
      rfl
  | _ =>
    cases h
    rfl

theorem columns_of_decodeSchema {table : Bytes} {columns : List Column}
    (h : raw.decodeSchema = .record (.createTable table columns)) :
    columns ≠ [] ∧ SchemaFits columns := by
  cases raw with
  | createTable table schema =>
    rw [RawRecord.decodeSchema] at h
    split at h
    · cases h
    · cases h
    · rename_i col cols hschema
      cases h
      exact ⟨List.cons_ne_nil col cols, schemaFits_of_deserialize hschema⟩
  | _ => cases h

/-- A schema whose length does not fit its field is read as a shorter one, and so is a front part of
the record. -/
theorem not_faithful_of_schema {table : Bytes} {columns : List Column}
    (htable : table.length < 2 ^ 8) (hschema : 2 ^ 32 ≤ (serializeSchema columns).length) :
    ¬ (createTable table columns).Faithful := by
  intro h
  let schema := serializeSchema columns
  let short := schema.take (schema.length % 2 ^ 32)
  have hmod : schema.length % 2 ^ 32 < 2 ^ 32 := Nat.mod_lt _ (by decide)
  have hlen : short.length = schema.length % 2 ^ 32 := by
    rw [List.length_take, min_eq_left (Nat.mod_le _ _)]
  have hreads : Reads RawRecord.reader (RawRecord.createTable table short).encode
      (.createTable table short) := RawRecord.reads_reader ⟨htable, by omega⟩
  have hsplit : (createTable table columns).serialize =
      (RawRecord.createTable table short).encode ++ schema.drop (schema.length % 2 ^ 32) := by
    have hword : leBytes 4 schema.length = leBytes 4 short.length := by
      apply leBytes_eq_of_mod_eq
      rw [hlen]
      exact (Nat.mod_mod _ _).symm
    change leBytes 1 4 ++ (RawRecord.encodeTable table ++ (leBytes 4 schema.length ++ schema)) =
      leBytes 1 4 ++ (RawRecord.encodeTable table ++ (leBytes 4 short.length ++ short)) ++ _
    rw [hword, List.append_assoc, List.append_assoc, List.append_assoc, List.take_append_drop]
  have hwhole := hreads.run_append (schema.drop (schema.length % 2 ^ 32))
  have hfront := hreads.run_append []
  rw [← hsplit] at hwhole
  rw [List.append_nil] at hfront
  have htake : (createTable table columns).serialize.take
      (RawRecord.createTable table short).encode.length =
        (RawRecord.createTable table short).encode := by
    rw [hsplit, List.take_left]
  apply h.prefixes (RawRecord.createTable table short).encode.length _ (createTable table columns)
  · rw [htake, deserialize_of_run hfront, ← deserialize_of_run hwhole, h.roundTrip]
  · rw [hsplit, List.length_append, List.length_drop]
    change 2 ^ 32 ≤ schema.length at hschema
    omega

theorem Faithful.fits (h : r.Faithful) : r.Fits := by
  obtain ⟨raw, hrun, hraw⟩ := run_of_deserialize h.roundTrip
  have htable : r.table.length < 2 ^ 8 :=
    table_of_decodeSchema hraw ▸ RawRecord.table_length_of_run hrun
  refine ⟨htable, ?_⟩
  cases r with
  | createTable table columns =>
    obtain ⟨hne, hfits⟩ := columns_of_decodeSchema hraw
    refine ⟨hne, hfits, ?_⟩
    by_contra hschema
    exact not_faithful_of_schema htable (not_lt.mp hschema) h
  | _ => trivial

/-- A record with a row or a key of less than `2 ^ 32` bytes is read back, and its front parts are
refused, exactly when its names and its columns fit their fields. -/
theorem faithful_iff_fits (r : WireRecord) (hrow : r.rowWire.length < 2 ^ 32) :
    r.Faithful ↔ r.Fits :=
  ⟨Faithful.fits, fun h => h.faithful hrow⟩

/-- The record of a new table with one column. -/
theorem faithful_oneColumn :
    (createTable [116] [⟨[105, 100], .int64, true, true⟩]).Faithful := by
  apply (faithful_iff_fits _ (by decide)).mpr
  refine ⟨by decide, by decide, ⟨by decide, ?_⟩, by decide⟩
  intro col hcol
  rw [List.mem_singleton.mp hcol]
  decide

/-- A table without columns is refused, and a column name of `2 ^ 16` bytes, which is read as an
empty name, is lost. -/
theorem not_faithful_columns :
    deserialize (createTable [116] []).serialize = .refused ∧
      ¬ (createTable [116] [⟨List.replicate (2 ^ 16) 97, .int64, false, false⟩]).Faithful := by
  refine ⟨by decide, ?_⟩
  intro h
  have hname := h.fits.columns.2.1.names _ List.mem_cons_self
  rw [List.length_replicate] at hname
  omega

end WireRecord

end CoroDB
