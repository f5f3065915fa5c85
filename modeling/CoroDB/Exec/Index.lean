import CoroDB.Txn.Session
import CoroDB.Txn.Table
import CoroDB.Framework.KeyedList
import CoroDB.Framework.Multimap

/-!
# Secondary indexes

An index of a table is a multimap from the values of a column, or from the encoded values of several
columns, to the keys of the rows that have or had them.
-/

namespace CoroDB

open Framework

section Definitions

/-- The indexes of a table: the columns with an index of their own, the composite indexes, and the
names under which indexes were created. -/
structure IndexDefs where
  indexedColumns : List Bytes := []
  compositeIndexes : KeyMap (KeyEq.ofDecidableEq Bytes) (List Bytes) := .empty
  nameRegistry : KeyMap (KeyEq.ofDecidableEq Bytes) Bytes := .empty

namespace IndexDefs

variable (d : IndexDefs) (indexName : Bytes)

def register (value : Bytes) : IndexDefs :=
  if indexName = [] then d else { d with nameRegistry := d.nameRegistry.assign indexName value }

/-- `Table::create_index`; the columns of a composite index are joined in the registry. -/
def createIndex (columns : List Bytes) : IndexDefs :=
  match columns with
  | [] => d
  | [column] =>
    let d' := if column ∈ d.indexedColumns then d
      else { d with indexedColumns := d.indexedColumns ++ [column] }
    d'.register indexName column
  | _ =>
    let d' := if d.compositeIndexes.contains indexName then d
      else { d with compositeIndexes := d.compositeIndexes.assign indexName columns }
    d'.register indexName ([0x1f].intercalate columns)

/-- `Table::drop_index`, which finds single columns only. -/
def dropIndex : Option IndexDefs :=
  let column := (d.nameRegistry.get? indexName).getD indexName
  if column ∈ d.indexedColumns then
    some { d with
      indexedColumns := d.indexedColumns.erase column
      nameRegistry := d.nameRegistry.erase indexName }
  else none

end IndexDefs

end Definitions

section Keys

def compositePart : Value → Bytes
  | .null => [0]
  | .int i => 1 :: leBytes 8 i.toUInt64.toNat
  | .double d => 2 :: leBytes 8 d.bits.toNat
  | .text s => 3 :: leBytes 4 s.length ++ s

def encodeComposite (values : List Value) : Value := .text (values.flatMap compositePart)

namespace SqlTable

variable (t : SqlTable)

def findColumn (name : Bytes) : Option Nat := t.columns.findIdx? fun c => c.name = name

def columnValue (column : Bytes) (row : Row) : Option Value :=
  (t.findColumn column).bind fun i => row.values[i]?

def compositeKey (columns : List Bytes) (row : Row) : Option Value :=
  (columns.mapM fun c => t.columnValue c row).map encodeComposite

end SqlTable

end Keys

structure IndexedTable where
  table : SqlTable
  defs : IndexDefs
  indexes : KeyMap (KeyEq.ofDecidableEq Bytes) (List (Value × Value))

namespace IndexedTable

section Maintenance

variable (t : IndexedTable)

def entriesOf (name : Bytes) : List (Value × Value) := (t.indexes.get? name).getD []

def builtEntries (keyOf : Row → Option Value) : List (Value × Value) :=
  (t.table.scanVisible maxTs).filterMap fun row =>
    if row.values.isEmpty then none else (keyOf row).map fun v => (v, t.table.rowKey row)

def rebuild (name : Bytes) (keyOf : Row → Option Value) : IndexedTable :=
  { t with
    indexes := t.indexes.assign name
      ((t.builtEntries keyOf).foldl (fun m e => Multimap.emplace valueLess m e.1 e.2) []) }

def buildIndex (indexName : Bytes) : List Bytes → IndexedTable
  | [] => t
  | [column] =>
    if column ∈ t.defs.indexedColumns then t else t.rebuild column (t.table.columnValue column)
  | columns =>
    if t.defs.compositeIndexes.contains indexName then t
    else t.rebuild indexName (t.table.compositeKey columns)

/-- `Table::create_index`. -/
def createIndex (indexName : Bytes) (columns : List Bytes) : Except String IndexedTable :=
  if columns.any fun c => (t.table.findColumn c).isNone then .error "[Table] Unknown column"
  else
    .ok { t.buildIndex indexName columns with defs := t.defs.createIndex indexName columns }

/-- `Table::drop_index`. -/
def dropIndex (indexName : Bytes) : Option IndexedTable :=
  (t.defs.dropIndex indexName).map fun defs =>
    { t with
      defs
      indexes := t.indexes.erase ((t.defs.nameRegistry.get? indexName).getD indexName) }

def persistRowDelete (key : Value) (commitTs : UInt64) : IndexedTable :=
  { t with table := t.table.persistRowDelete key commitTs }

end Maintenance

end IndexedTable

/-- The bounds of a range of keys; a bound that is missing admits every key. -/
structure KeyRange where
  low : Option Value := none
  lowInclusive : Bool := false
  high : Option Value := none
  highInclusive : Bool := false

namespace KeyRange

variable (r : KeyRange)

def first (m : List (Value × Value)) : Nat :=
  r.low.elim 0 fun l =>
    if r.lowInclusive then Multimap.lowerBound valueLess m l else Multimap.upperBound valueLess m l

def last (m : List (Value × Value)) : Nat :=
  r.high.elim m.length fun h =>
    if r.highInclusive then Multimap.upperBound valueLess m h else Multimap.lowerBound valueLess m h

end KeyRange

namespace IndexedTable

section Lookup

variable (t : IndexedTable)

/-- `Table::lookup_index_range`; there is no answer when the first position is behind the last, for
the iterator then never meets its end. -/
def lookupIndexRange (column : Bytes) (r : KeyRange) : Option (List Value) :=
  let m := t.entriesOf column
  if r.first m ≤ r.last m then
    some (valueKeyEq.dedup ((Multimap.slice m (r.first m) (r.last m)).map Prod.snd))
  else none

/-- `Table::lookup_index`, on `equal_range`. -/
def lookupIndex (column : Bytes) (key : Value) : List Value :=
  let m := t.entriesOf column
  valueKeyEq.dedup
    ((Multimap.slice m (Multimap.lowerBound valueLess m key)
      (Multimap.upperBound valueLess m key)).map Prod.snd)

end Lookup

end IndexedTable

end CoroDB
