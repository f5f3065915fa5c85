import CoroDB.Storage.Value

/-!
# SSTable files

Entries of a table, the byte image `write_sstable` gives them, and the two things the engine reads
back without decoding an image: the file size and the checksum in the footer trailer.
-/

namespace CoroDB

open Framework

inductive TypeKind where
  | int64
  | text
  | null
  | float64
  | boolean
  | date
  | decimal
  deriving DecidableEq, Repr

structure Column where
  name : Bytes
  type : TypeKind
  notNull : Bool
  primaryKey : Bool
  deriving DecidableEq, Repr

structure Row where
  values : List Value
  deriving DecidableEq, Repr

structure MemEntry where
  pk : Value
  row : Row
  tombstone : Bool
  commitTs : UInt64
  deriving DecidableEq, Repr

def MemEntry.content (e : MemEntry) : Option Row := if e.tombstone then none else some e.row

def pageSize : Nat := 8192

def lsmMagic : Nat := 0x4c534d32

def footerMagic : Nat := 0x46543031

def typeToWire : TypeKind → Nat
  | .int64 => 1
  | .text => 2
  | .null => 0
  | .float64 => 3
  | .boolean => 4
  | .date => 5
  | .decimal => 6

def serializeSchema (columns : List Column) : Bytes :=
  leBytes 4 columns.length ++ columns.flatMap fun col =>
    leBytes 2 col.name.length ++ col.name ++
      leBytes 1 (typeToWire col.type ||| (if col.notNull then 0x40 else 0) |||
        (if col.primaryKey then 0x80 else 0))

def writeValue : Value → Bytes
  | .null => leBytes 1 0
  | .int i => leBytes 1 1 ++ leBytes 8 i.toUInt64.toNat
  | .double d => leBytes 1 3 ++ leBytes 8 d.bits.toNat
  | .text s => leBytes 1 2 ++ leBytes 4 s.length ++ s

def encodeRow (row : Row) : Bytes :=
  leBytes 4 row.values.length ++ row.values.flatMap writeValue

def encodeKey (key : Value) : Bytes := writeValue key

def extractKey (row : Row) (columns : List Column) : Value :=
  if columns.countP (·.primaryKey) < 2 then row.values.headD .null
  else .text ((columns.zipIdx.filter (·.1.primaryKey)).flatMap fun c =>
    encodeKey (row.values.getD c.2 .null))

/-- One entry of the byte-indexed table of the reflected Castagnoli polynomial. -/
def crcTableEntry (i : UInt32) : UInt32 :=
  (List.range 8).foldl
    (fun (c : UInt32) _ => if c &&& 1 = 1 then (0x82F63B78 : UInt32) ^^^ (c >>> 1) else c >>> 1) i

def crc32c (data : Bytes) : UInt32 :=
  (data.foldl (fun (crc : UInt32) b => crcTableEntry ((crc ^^^ b.toUInt32) &&& 0xFF) ^^^ (crc >>> 8))
    0xFFFFFFFF) ^^^ 0xFFFFFFFF

structure BloomFilter where
  size : Nat
  numHashes : Nat
  bits : Bytes
  deriving DecidableEq, Repr

namespace BloomFilter

def empty : BloomFilter := ⟨0, 3, []⟩

def hash (key : Bytes) : UInt64 × UInt64 :=
  key.foldl (fun h b => ((h.1 ^^^ b.toUInt64) * 1099511628211,
    (h.2 ^^^ (b ^^^ 0x5A).toUInt64) * 1099511628211)) (14695981039346656037, 14695981039346656037)

def positions (size numHashes : Nat) (key : Bytes) : List Nat :=
  (List.range numHashes).map fun i =>
    ((hash key).1 + UInt64.ofNat i * (hash key).2).toNat % size

def setBit (bits : Bytes) (bit : Nat) : Bytes :=
  bits.modify (bit / 8) (· ||| (1 <<< UInt8.ofNat (bit % 8)))

def build (keys : List Bytes) : BloomFilter :=
  if keys = [] then empty
  else
    let size := max (keys.length * 8 % 2 ^ 32) 64
    ⟨size, 3, keys.foldl (fun bits k => (positions size 3 k).foldl setBit bits)
      (List.replicate ((size + 7) % 2 ^ 32 / 8) 0)⟩

def serialize (f : BloomFilter) : Bytes := leBytes 4 f.size ++ leBytes 1 f.numHashes ++ f.bits

end BloomFilter

structure SstFooter where
  bloom : BloomFilter
  pageCrcs : List UInt32
  deriving DecidableEq, Repr

def SstFooter.serialize (f : SstFooter) : Bytes :=
  leBytes 4 footerMagic ++ leBytes 4 f.bloom.serialize.length ++ f.bloom.serialize ++
    leBytes 4 f.pageCrcs.length ++ f.pageCrcs.flatMap fun c => leBytes 4 c.toNat

def serializeSstFooter (f : SstFooter) : Bytes :=
  f.serialize ++ leBytes 4 f.serialize.length ++ leBytes 4 (crc32c f.serialize).toNat

def sstRecord (e : MemEntry) : Bytes :=
  let body := if e.tombstone then encodeKey e.pk else encodeRow e.row
  leBytes 1 (if e.tombstone then 2 else 1) ++ leBytes 8 e.commitTs.toNat ++
    leBytes 4 body.length ++ body

def sstHeader (columns : List Column) : Bytes :=
  let schema := serializeSchema columns
  let header := leBytes 4 lsmMagic ++ leBytes 4 schema.length ++ schema
  header ++ List.replicate ((header.length + pageSize - 1) / pageSize * pageSize - header.length) 0

/-- The records cut into pages, the last one padded with zeros. -/
def sstPages (payload : Bytes) : List Bytes :=
  (List.range ((payload.length + pageSize - 1) / pageSize)).map fun i =>
    let page := (payload.drop (i * pageSize)).take pageSize
    page ++ List.replicate (pageSize - page.length) 0

def distinctKeys (entries : List MemEntry) : List Bytes :=
  (entries.map fun e => encodeKey e.pk).destutter (· ≠ ·)

/-- The file that `write_sstable` renames into place. -/
def sstImage (columns : List Column) (entries : List MemEntry) : Bytes :=
  let pages := sstPages (entries.flatMap sstRecord)
  let footer : SstFooter := ⟨BloomFilter.build (distinctKeys entries), pages.map crc32c⟩
  sstHeader columns ++ pages.flatten ++ serializeSstFooter footer

def fileSize (columns : List Column) (entries : List MemEntry) : Nat :=
  (sstImage columns entries).length

/-- The checksum in the last four bytes of a file, zero when the trailer is not one. -/
def sstFooterTrailerCrc (file : Bytes) : Nat :=
  if file.length < 16 then 0
  else
    let trailer := file.drop (file.length - 8)
    let bodyLen := ofLeBytes (trailer.take 4)
    if bodyLen < 8 ∨ file.length < bodyLen + 8 then 0 else ofLeBytes (trailer.drop 4)

theorem pageSize_le_fileSize (columns : List Column) (entries : List MemEntry) :
    pageSize ≤ fileSize columns entries := by
  have hheader : pageSize ≤ (sstHeader columns).length := by
    simp only [sstHeader, List.length_append, leBytes_length, List.length_replicate, pageSize]
    omega
  simp only [fileSize, sstImage, List.length_append]
  omega

end CoroDB
