import CoroDB.Txn.Dml
import CoroDB.Txn.TransactionManager

/-!
# Statements of many sessions

The transaction layer as a machine: `exec` runs one statement of one session on the tables, the
transaction manager, the row locks and the session.
-/

namespace CoroDB

open Framework

inductive Statement (ν : Type) where
  | begin
  | commit
  | rollback
  | savepoint (name : String)
  | rollbackTo (name : String)
  | releaseSavepoint (name : String)
  | setTransaction (level : IsolationLevel)
  | select (subqueries tables : List ν)
  | insert (p : InsertPlan ν)
  | update (subqueries : List ν) (p : List (List Row) → UpdatePlan ν)
  | delete (subqueries : List ν) (p : List (List Row) → DeletePlan ν)

structure Database (ν ι : Type) [DecidableEq ν] where
  tables : ν → SqlTable
  txnManager : TransactionManager
  rowLocks : RowLocks ν
  sessions : ι → Session ν

/-- The rows of every table scan of a query, those of its subqueries first; nothing for the other
statements. -/
abbrev Output (ν : Type) := Except (SqlError ν) (List (List Row))

variable {ν ι : Type} [DecidableEq ν] [DecidableEq ι]

section Scan

namespace Session

def readSnapshot (s : Session ν) : UInt64 := if s.snapshotTs ≠ 0 then s.snapshotTs else maxTs

def bufferFor (s : Session ν) (name : ν) : Option TableTxnBuffer :=
  if s.inTransaction then s.writeBuffer.get? name else none

def tracksReads (s : Session ν) : Bool := s.inTransaction && s.isolation == .serializable

end Session

namespace TableTxnBuffer

variable (columns : List Column) (b : TableTxnBuffer)

def shown (row : Row) : Option Row :=
  if row.values.isEmpty then some row
  else if b.deletes.contains (extractKey row columns) then none
  else some (b.currentRow (extractKey row columns) row)

/-- Whether the scan has returned the buffered row of a key in place of a committed one. -/
def emitted (rows : List Row) (pk : Value) : Bool :=
  rows.any fun row => !row.values.isEmpty && !b.deletes.contains (extractKey row columns) &&
    b.upserts.contains (extractKey row columns) && valueEq (extractKey row columns) pk

def overlay (rows : List Row) : List Row :=
  rows.filterMap (b.shown columns) ++
    (b.upserts.entries.filter fun p => !b.emitted columns rows p.1).map Prod.snd

end TableTxnBuffer

def overlayRows (columns : List Column) (buffer : Option TableTxnBuffer) (rows : List Row) :
    List Row :=
  buffer.elim rows fun b => b.overlay columns rows

/-- The keys that a scan records, those of the committed rows that the transaction still sees. -/
def recordedKeys (columns : List Column) (buffer : Option TableTxnBuffer) (rows : List Row) :
    List Value :=
  (rows.filter fun row => !row.values.isEmpty &&
    !buffer.any fun b => b.deletes.contains (extractKey row columns)).map (extractKey · columns)

namespace Session

def trackScan (s : Session ν) (name : ν) (t : SqlTable) (rows : List Row) : Session ν :=
  if s.tracksReads then
    { s with
      tableReadVersions := s.tableReadVersions.assign name t.writeCounter
      readSet := (recordedKeys t.columns (s.bufferFor name) rows).foldl
        (fun set pk => set.assign (name, pk) ()) s.readSet }
  else s

def seqScan (tables : ν → SqlTable) (s : Session ν) (name : ν) : Option (List Row × Session ν) :=
  ((tables name).scanVisibleStream s.readSnapshot).map fun rows =>
    (overlayRows (tables name).columns (s.bufferFor name) rows, s.trackScan name (tables name) rows)

def scanAll (tables : ν → SqlTable) (s : Session ν) : List ν → Option (List (List Row) × Session ν)
  | [] => some ([], s)
  | name :: names =>
    (s.seqScan tables name).bind fun first =>
      (scanAll tables first.2 names).map fun rest => (first.1 :: rest.1, rest.2)

/-- The session that runs the subqueries: outside a transaction it reads the latest versions, inside
one it keeps the snapshot it has. -/
def forSubqueries (s : Session ν) : Session ν := if s.inTransaction then s else { s with snapshotTs := 0 }

def resolveSubqueries (tables : ν → SqlTable) (s : Session ν) (subqueries : List ν) :
    Option (List (List Row) × Session ν) :=
  (s.forSubqueries.scanAll tables subqueries).map fun r =>
    (r.1, { r.2 with snapshotTs := s.snapshotTs })

end Session

end Scan

section Control

namespace Session

/-- The session outside a transaction; the savepoints stay where the source does not clear them. -/
def ended (s : Session ν) : Session ν :=
  { s with currentTxnId := 0, snapshotTs := 0, writeBuffer := .empty, readSet := .empty,
           tableReadVersions := .empty }

def prepareSnapshot (s : Session ν) (m : TransactionManager) : UInt64 × TransactionManager :=
  if s.inTransaction then
    match s.isolation with
    | .readUncommitted => (maxTs, m)
    | .readCommitted => m.allocateTs
    | _ => (s.snapshotTs, m)
  else m.allocateTs

def prepareForStatement (s : Session ν) (isSelect : Bool) (m : TransactionManager) :
    Session ν × TransactionManager :=
  let snapshot := s.prepareSnapshot m
  let auto := if !s.inTransaction && !isSelect then snapshot.2.allocateTs else (0, snapshot.2)
  ({ s with snapshotTs := snapshot.1, autoCommitTs := auto.1 }, auto.2)

end Session

def valuesEqual (a b : List Value) : Bool :=
  a.length == b.length && (a.zip b).all fun p => valueEq p.1 p.2

def rowChanged (t : SqlTable) (pk : Value) (snapshot : UInt64) : Bool :=
  match t.lookupVisible pk snapshot, t.lookupVisible pk maxTs with
  | none, none => false
  | some old, some cur => !valuesEqual old.values cur.values
  | _, _ => true

def serializationConflict (tables : ν → SqlTable) (s : Session ν) : Option ν :=
  if s.isolation = .serializable then
    ((s.readSet.entries.find? fun p => rowChanged (tables p.1.1) p.1.2 s.snapshotTs).map
        fun p => p.1.1).or
      ((s.tableReadVersions.entries.find? fun p => (tables p.1).writeCounter != p.2).map Prod.fst)
  else none

def TableTxnBuffer.writes (b : TableTxnBuffer) : List SqlTable.Write :=
  b.deletes.entries.map (fun p => .delete p.1) ++ b.upserts.entries.map fun p => .upsert p.2

def applyTableBuffer (ts : UInt64) (tables : ν → SqlTable) (p : ν × TableTxnBuffer) : ν → SqlTable :=
  Function.update tables p.1 ((tables p.1).applyWrites p.2.writes ts)

def applyBuffer (tables : ν → SqlTable) (b : TxnWriteBuffer ν) (ts : UInt64) : ν → SqlTable :=
  b.entries.foldl (applyTableBuffer ts) tables

end Control

namespace Database

variable (db : Database ν ι) (i : ι)

def setSession (s : Session ν) : Database ν ι :=
  { db with sessions := Function.update db.sessions i s }

def aborted : Bool :=
  (db.sessions i).inTransaction &&
    db.txnManager.getState (db.sessions i).currentTxnId == some .failed

def begin : Database ν ι × Output ν :=
  let s := db.sessions i
  if s.inTransaction then (db, .error .transactionInProgress)
  else
    let started := db.txnManager.begin
    let snapshot := match s.isolation with
      | .repeatableRead => (started.2.getReadTs started.1).getD 0
      | .serializable => (started.2.getReadTs started.1).getD 0
      | _ => 0
    ({ db with txnManager := started.2 }.setSession i
      { s with currentTxnId := started.1, savepoints := [], snapshotTs := snapshot }, .ok [])

def abandon (m : TransactionManager) (s : Session ν) : Database ν ι :=
  { db with
    txnManager := m
    rowLocks := db.rowLocks.releaseAll (db.sessions i).currentTxnId }.setSession i s

def commit : Database ν ι × Output ν :=
  let s := db.sessions i
  let rolledBack := (db.txnManager.rollback s.currentTxnId).2
  if s.inTransaction = false then (db, .error .noActiveTransaction)
  else if db.aborted i then (db.abandon i rolledBack s.ended, .error .cannotCommitFailed)
  else
    match serializationConflict db.tables s with
    | some table =>
      (db.abandon i (rolledBack.markFailed s.currentTxnId) s.ended,
        .error (.serializationFailure table))
    | none =>
      match db.txnManager.commit s.currentTxnId with
      | (none, m) => (db.abandon i (m.markFailed s.currentTxnId) s.ended, .error .commitFailed)
      | (some ts, m) =>
        ({ db.abandon i m { s.ended with savepoints := [] } with
            tables := applyBuffer db.tables s.writeBuffer ts }, .ok [])

def rollback : Database ν ι × Output ν :=
  let s := db.sessions i
  if s.inTransaction = false then (db, .error .noActiveTransaction)
  else
    (db.abandon i (db.txnManager.rollback s.currentTxnId).2 { s.ended with savepoints := [] }, .ok [])

def savepoint (name : String) : Database ν ι × Output ν :=
  let s := db.sessions i
  if s.inTransaction = false then (db, .error .noActiveTransaction)
  else
    (db.setSession i { s with
      savepoints := s.savepoints ++ [⟨name, s.writeBuffer, s.readSet, s.tableReadVersions⟩] }, .ok [])

def savepointsUpTo (savepoints : List (Savepoint ν)) (name : String) : List (Savepoint ν) :=
  (savepoints.reverse.dropWhile fun sp => sp.name != name).reverse

def rollbackTo (name : String) : Database ν ι × Output ν :=
  let s := db.sessions i
  if s.inTransaction = false then (db, .error .noActiveTransaction)
  else
    let kept := savepointsUpTo s.savepoints name
    match kept.getLast? with
    | none => (db, .error (.savepointNotFound name))
    | some sp =>
      (db.setSession i { s with
        writeBuffer := sp.writeBuffer
        readSet := sp.readSet
        tableReadVersions := sp.tableReadVersions
        savepoints := kept }, .ok [])

def releaseSavepoint (name : String) : Database ν ι × Output ν :=
  let s := db.sessions i
  if s.inTransaction = false then (db, .error .noActiveTransaction)
  else
    match (savepointsUpTo s.savepoints name).getLast? with
    | none => (db, .error (.savepointNotFound name))
    | some _ =>
      (db.setSession i { s with savepoints := (savepointsUpTo s.savepoints name).dropLast }, .ok [])

def setTransaction (level : IsolationLevel) : Database ν ι × Output ν :=
  let s := db.sessions i
  if s.inTransaction then (db, .error .setTransactionInside)
  else (db.setSession i { s with isolation := level }, .ok [])

def select (subqueries tables : List ν) : Option (Database ν ι × Output ν) :=
  ((db.sessions i).resolveSubqueries db.tables subqueries).bind fun sub =>
    let prepared := sub.2.prepareForStatement true db.txnManager
    (prepared.1.scanAll db.tables tables).map fun outer =>
      ({ db with txnManager := prepared.2 }.setSession i outer.2, .ok (sub.1 ++ outer.1))

def result : Option (SqlError ν) → Output ν
  | none => .ok []
  | some e => .error e

def runDml (s : Session ν) (table : ν)
    (inTxn : UInt64 → TxnWork ν → Option (SqlError ν) × TxnWork ν)
    (auto : UInt64 → Option (SqlError ν) × SqlTable) : Database ν ι × Output ν :=
  let prepared := s.prepareForStatement false db.txnManager
  if s.inTransaction then
    let r := inTxn s.currentTxnId ⟨s.writeBuffer.forTable table, db.rowLocks⟩
    let m := if r.1.isSome then prepared.2.markFailed s.currentTxnId else prepared.2
    ({ db with txnManager := m, rowLocks := r.2.locks }.setSession i
      { prepared.1 with writeBuffer := prepared.1.writeBuffer.assign table r.2.buffer }, result r.1)
  else
    let r := auto prepared.1.autoCommitTs
    ({ db with
        txnManager := prepared.2
        tables := Function.update db.tables table r.2 }.setSession i prepared.1, result r.1)

def insert (p : InsertPlan ν) : Database ν ι × Output ν :=
  let t := db.tables p.table
  match insertRows t.columns p with
  | .error e => db.runDml i (db.sessions i) p.table (fun _ w => (some e, w)) fun _ => (some e, t)
  | .ok rows =>
    db.runDml i (db.sessions i) p.table
      (fun txnId => txnInsert t.columns txnId (fun pk => (t.lookupVisible pk maxTs).isSome) p.table
        rows)
      (autoInsert t rows)

def update (s : Session ν) (p : UpdatePlan ν) : Database ν ι × Output ν :=
  let t := db.tables p.table
  db.runDml i s p.table (fun txnId => txnUpdate t.columns (t.scanVisible maxTs) txnId p)
    (autoUpdate t p)

def delete (s : Session ν) (p : DeletePlan ν) : Database ν ι × Output ν :=
  let t := db.tables p.table
  db.runDml i s p.table (fun txnId => txnDelete t.columns (t.scanVisible maxTs) txnId p)
    (autoDelete t p)

def exec (db : Database ν ι) (i : ι) : Statement ν → Option (Database ν ι × Output ν)
  | .begin => some (db.begin i)
  | .commit => some (db.commit i)
  | .rollback => some (db.rollback i)
  | .savepoint name => some (db.savepoint i name)
  | .rollbackTo name => some (db.rollbackTo i name)
  | .releaseSavepoint name => some (db.releaseSavepoint i name)
  | .setTransaction level => some (db.setTransaction i level)
  | .select subqueries tables =>
    if db.aborted i then some (db, .error .transactionAborted) else db.select i subqueries tables
  | .insert p =>
    if db.aborted i then some (db, .error .transactionAborted) else some (db.insert i p)
  | .update subqueries p =>
    if db.aborted i then some (db, .error .transactionAborted)
    else ((db.sessions i).resolveSubqueries db.tables subqueries).map fun sub =>
      db.update i sub.2 (p sub.1)
  | .delete subqueries p =>
    if db.aborted i then some (db, .error .transactionAborted)
    else ((db.sessions i).resolveSubqueries db.tables subqueries).map fun sub =>
      db.delete i sub.2 (p sub.1)

def step (db : Database ν ι) (a : ι × Statement ν) : Option (Database ν ι) :=
  (db.exec a.1 a.2).map Prod.fst

def fresh (tables : ν → SqlTable) : Database ν ι := ⟨tables, {}, .empty, fun _ => {}⟩

def execAll (db : Database ν ι) : List (ι × Statement ν) → Option (Database ν ι × List (Output ν))
  | [] => some (db, [])
  | a :: as =>
    (db.exec a.1 a.2).bind fun r => (execAll r.1 as).map fun rest => (rest.1, r.2 :: rest.2)

end Database

section Sample

def SqlTable.intColumn (primaryKey : Bool) : Column := ⟨[], .int64, false, primaryKey⟩

theorem SqlTable.oneColumn_ne (primaryKey : Bool) : [intColumn primaryKey] ≠ [] :=
  List.cons_ne_nil _ _

def SqlTable.accounts : SqlTable := .fresh [intColumn true, intColumn false] (by decide)

def Statement.setColumn (table : ν) (k : Nat) (v : Value) : Statement ν :=
  .update [] fun _ => ⟨table, none, [⟨k, fun _ => .ok v⟩]⟩

end Sample

end CoroDB
