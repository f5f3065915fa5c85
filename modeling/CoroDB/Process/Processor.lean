import CoroDB.Process.Statement
import CoroDB.Storage.Compaction

/-!
# The query processor

`QueryProcessor::run` on the text of one statement: the refusals, the statements that are handled
before the check for an aborted transaction, `EXPLAIN`, and the block whose errors mark the
transaction as failed.
-/

namespace CoroDB

open Framework

inductive ProcessError (ν : Type) where
  | parse
  | replica
  | createUserDenied
  | authenticationFailed
  | notAuthenticated
  | readOnlyRole
  | analyzeUnknownTable
  | backupTarget
  | preparedNotFound
  | notEnoughParameters
  | plan (message : String)
  | utility (message : String)
  | unsupportedPlan
  | evaluation (message : String)
  | sql (e : SqlError ν)
  deriving DecidableEq

/-- What the client gets for a statement that raises no error; an error under `EXPLAIN ANALYZE` is
such an answer. -/
inductive ProcessedQuery (ν : Type) where
  | message (text : String)
  | rows (rows : List Row)
  | explained
  | executionError (e : ProcessError ν)
  deriving DecidableEq

abbrev Reply (ν : Type) := Except (ProcessError ν) (ProcessedQuery ν)

structure Processor (ν ι : Type) [DecidableEq ν] where
  db : Database ν ι
  catalog : List ν
  indexes : ν → IndexDefs
  stats : ν → TableStats
  preparedStmts : ι → String → Option (Plan ν)
  preparedSql : ι → String → Option Bytes
  users : KeyMap (KeyEq.ofDecidableEq String) (String × UserRole)
  login : ι → Option (String × UserRole)
  readOnly : Bool

/-- What the processor is given: the parser, the text of a double, the collection of statistics and
when it is due, the data directory, the limits of the levels of a table, and whether the storage
engine has a pool for its compactions. -/
structure Environment (ν : Type) where
  parse : Bytes → Option (Ast ν)
  doubleText : Double → Bytes
  collect : SqlTable → UInt64 → TableStats
  autoAnalyze : Bool
  stale : SqlTable → TableStats → Bool
  baseDir : String
  lsm : List Column → LsmConfig
  pool : Bool

namespace SqlTable

def flushed (t : SqlTable) : SqlTable := if t.memtable = [] then t else t.flush

def compacted (cfg : LsmConfig) (gcHorizon : UInt64) (t : SqlTable) : Option SqlTable :=
  (compactLevels cfg gcHorizon t.files).map fun files => { t with files := files }

/-- A table after `checkpoint`, none when a compaction does not end. With a pool the flush compacts
the table too. -/
def checkpointed (cfg : LsmConfig) (pool : Bool) (gcHorizon : UInt64) (t : SqlTable) :
    Option SqlTable :=
  (if pool ∧ t.memtable ≠ [] then t.flushed.compacted cfg gcHorizon else some t.flushed).bind
    (compacted cfg gcHorizon)

end SqlTable

variable {ν ι : Type} [DecidableEq ν] [DecidableEq ι]

namespace Database

variable (db : Database ν ι) (i : ι)

def markFailed : Database ν ι :=
  if (db.sessions i).inTransaction then
    { db with txnManager := db.txnManager.markFailed (db.sessions i).currentTxnId }
  else db

/-- `TransactionController::handle`. -/
def handle : TxnControl → Database ν ι × Output ν
  | .begin => db.begin i
  | .commit => db.commit i
  | .rollback none => db.rollback i
  | .rollback (some name) => db.rollbackTo i name
  | .savepoint name => db.savepoint i name
  | .releaseSavepoint name => db.releaseSavepoint i name
  | .setTransaction level => db.setTransaction i level

def modify (table : ν) (inTxn : UInt64 → TxnWork ν → Option (SqlError ν) × TxnWork ν)
    (auto : UInt64 → Option (SqlError ν) × SqlTable) : Database ν ι × Option (SqlError ν) :=
  let s := db.sessions i
  let prepared := s.prepareForStatement false db.txnManager
  if s.inTransaction then
    let r := inTxn s.currentTxnId ⟨s.writeBuffer.forTable table, db.rowLocks⟩
    ({ db with txnManager := prepared.2, rowLocks := r.2.locks }.setSession i
      { prepared.1 with writeBuffer := prepared.1.writeBuffer.assign table r.2.buffer }, r.1)
  else
    let r := auto prepared.1.autoCommitTs
    ({ db with
        txnManager := prepared.2
        tables := Function.update db.tables table r.2 }.setSession i prepared.1, r.1)

def modifyInsert (p : InsertPlan ν) : Database ν ι × Option (SqlError ν) :=
  let t := db.tables p.table
  match insertRows t.columns p with
  | .error e => db.modify i p.table (fun _ w => (some e, w)) fun _ => (some e, t)
  | .ok rows =>
    db.modify i p.table
      (fun txnId => txnInsert t.columns txnId (fun pk => (t.lookupVisible pk maxTs).isSome) p.table
        rows)
      (autoInsert t rows)

def modifyUpdate (p : UpdatePlan ν) : Database ν ι × Option (SqlError ν) :=
  let t := db.tables p.table
  db.modify i p.table (fun txnId => txnUpdate t.columns (t.scanVisible maxTs) txnId p)
    (autoUpdate t p)

def modifyDelete (p : DeletePlan ν) : Database ν ι × Option (SqlError ν) :=
  let t := db.tables p.table
  db.modify i p.table (fun txnId => txnDelete t.columns (t.scanVisible maxTs) txnId p)
    (autoDelete t p)

/-- `prepare_for_statement` and the executor on a plan. -/
def executePlan (isSelect : Bool) :
    Plan ν → Option (Database ν ι × Except (ProcessError ν) (List Row))
  | .select p =>
    let prepared := (db.sessions i).prepareForStatement isSelect db.txnManager
    (prepared.1.scanAll db.tables p.tables).map fun r =>
      ({ db with txnManager := prepared.2 }.setSession i r.2, (p.rows r.1).mapError .evaluation)
  | .insert p => some (outcome (db.modifyInsert i p))
  | .update p => some (outcome (db.modifyUpdate i p))
  | .delete p => some (outcome (db.modifyDelete i p))
  | .utility _ =>
    let prepared := (db.sessions i).prepareForStatement isSelect db.txnManager
    some ({ db with txnManager := prepared.2 }.setSession i prepared.1, .error .unsupportedPlan)
where
  outcome (r : Database ν ι × Option (SqlError ν)) :
      Database ν ι × Except (ProcessError ν) (List Row) :=
    (r.1, r.2.elim (.ok []) fun e => .error (.sql e))

end Database

namespace Processor

variable (env : Environment ν) (P : Processor ν ι) (i : ι)

section Parts

def registered (t : ν) : Bool := t ∈ P.catalog

def schema : Schema ν := fun t =>
  if P.registered t then some ⟨(P.db.tables t).columns, P.indexes t, P.stats t⟩ else none

def hasUsers : Bool := P.users.entries ≠ []

def roleOf (name : String) : UserRole := ((P.users.get? name).map Prod.snd).getD .readWrite

def setPreparedStmts (stmts : String → Option (Plan ν)) : Processor ν ι :=
  { P with preparedStmts := Function.update P.preparedStmts i stmts }

def setPreparedSql (texts : String → Option Bytes) : Processor ν ι :=
  { P with preparedSql := Function.update P.preparedSql i texts }

def clearPrepared : Processor ν ι := P.setPreparedStmts i fun _ => none

def markFailed : Processor ν ι := { P with db := P.db.markFailed i }

def refusal (a : Ast ν) : Option (ProcessError ν) :=
  if P.readOnly && a.changesData then some .replica
  else match a with
    | .createUser _ _ _ =>
      if P.hasUsers && !((P.login i).any fun u => P.roleOf u.1 == .admin) then
        some .createUserDenied
      else none
    | .auth name password =>
      if (P.users.get? name).any fun u => u.1 == password then none else some .authenticationFailed
    | _ =>
      match P.login i with
      | none => if P.hasUsers then some .notAuthenticated else none
      | some u =>
        if P.hasUsers && u.2 == .readOnly && !a.isRead then some .readOnlyRole else none

def checkpointAll (gcHorizon : UInt64) : List ν → (ν → SqlTable) → Option (ν → SqlTable)
  | [], tables => some tables
  | n :: names, tables =>
    ((tables n).checkpointed (env.lsm (tables n).columns) env.pool gcHorizon).bind fun t =>
      checkpointAll gcHorizon names (Function.update tables n t)

/-- `LSMTreeEngine::checkpoint`. -/
def checkpoint : Option (Processor ν ι) :=
  (checkpointAll env P.db.txnManager.minActiveReadTs P.catalog P.db.tables).map fun tables =>
    { P with db := { P.db with tables := tables } }

def snapshotTs : UInt64 × Processor ν ι :=
  let s := P.db.sessions i
  if s.inTransaction then (s.snapshotTs, P)
  else
    let allocated := P.db.txnManager.allocateTs
    (allocated.1, { P with db := { P.db with txnManager := allocated.2 } })

def analyzeTable (snapshotTs : UInt64) (table : ν) : Processor ν ι :=
  { P with stats := Function.update P.stats table (env.collect (P.db.tables table) snapshotTs) }

def staleTables (tables : List ν) : List ν :=
  tables.filter fun t => P.registered t && env.stale (P.db.tables t) (P.stats t)

def maybeAutoAnalyze (tables : List ν) : Processor ν ι :=
  if env.autoAnalyze then
    let allocated := P.snapshotTs i
    let stale := P.staleTables env tables
    let refreshed := stale.foldl (fun Q t => Q.analyzeTable env allocated.1 t) allocated.2
    if stale = [] then refreshed else refreshed.clearPrepared i
  else P

def resolveSubqueries (tables : List ν) :
    Option (Except (ProcessError ν) (List (List Row) × Processor ν ι)) :=
  if tables.all P.registered then
    ((P.db.sessions i).resolveSubqueries P.db.tables tables).map fun r =>
      .ok (r.1, { P with db := P.db.setSession i r.2 })
  else some (.error (.plan "[LogicalPlanner] Unknown table"))

/-- `UtilityProcessor::process`. -/
def utility : Ddl ν → Except (ProcessError ν) (Processor ν ι)
  | .createTable table columns =>
    if P.registered table then .error (.utility "[Process] Table already exists")
    else if h : columns = [] then .error (.utility "[Storage] Table without columns")
    else .ok { P with
      db := { P.db with tables := Function.update P.db.tables table (.fresh columns h) }
      catalog := P.catalog ++ [table]
      indexes := Function.update P.indexes table {}
      stats := Function.update P.stats table {} }
  | .createIndex table indexName columns =>
    .ok { P with
      indexes := Function.update P.indexes table ((P.indexes table).createIndex indexName columns) }
  | .dropTable table ifExists =>
    if P.registered table then
      let t := P.db.tables table
      .ok { P with
        db := { P.db with tables := Function.update P.db.tables table (.fresh t.columns t.columns_ne) }
        catalog := P.catalog.erase table
        stats := Function.update P.stats table {} }
    else if ifExists then .ok P
    else .error (.utility "[Process] Table not found")
  | .dropIndex table indexName ifExists =>
    match table.filter P.registered with
    | none => if ifExists then .ok P else .error (.utility "[Process] DROP INDEX table not found")
    | some t =>
      match (P.indexes t).dropIndex indexName with
      | some d => .ok { P with indexes := Function.update P.indexes t d }
      | none => if ifExists then .ok P else .error (.utility "[Process] Index not found")

end Parts

section Statements

/-- What comes before the subqueries: a query may refresh the statistics of its tables. -/
def started (a : Ast ν) : Processor ν ι :=
  match a with
  | .select q => P.maybeAutoAnalyze env i q.tables
  | _ => P

def runPlanned (a : Ast ν) (rows : List (List Row)) : Option (Processor ν ι × Reply ν) :=
  match buildPhysicalPlan P.schema rows a with
  | .error message => some (P.markFailed i, .error (.plan message))
  | .ok (.utility d) =>
    match P.utility d with
    | .error e => some (P.markFailed i, .error e)
    | .ok P => some (P, .ok (.message "OK"))
  | .ok plan =>
    (P.db.executePlan i a.isSelect plan).map fun r =>
      let P := { P with db := r.1 }
      match r.2 with
      | .ok rows => (P, .ok (if a.isSelect then .rows rows else .message "OK"))
      | .error e => (if a.isSelect then P else P.markFailed i, .error e)

/-- The block of `run_impl` whose errors mark the transaction as failed. -/
def runStatement (a : Ast ν) : Option (Processor ν ι × Reply ν) :=
  let P := P.started env i a
  (P.resolveSubqueries i a.subqueries).bind fun
    | .error e => some (P.markFailed i, .error e)
    | .ok (rows, P) => (if a.isDdl then P.clearPrepared i else P).runPlanned i a rows

def prepare (name : String) (sql : Bytes) : Option (Processor ν ι × Reply ν) :=
  if Ascii.placeholder ∈ sql then
    some (P.setPreparedSql i (Function.update (P.preparedSql i) name (some sql)),
      .ok (.message "PREPARE"))
  else
    match env.parse sql with
    | none => some (P, .error .parse)
    | some a =>
      (P.resolveSubqueries i a.subqueries).map fun
        | .error e => (P, .error e)
        | .ok (rows, P) =>
          match buildPhysicalPlan P.schema rows a with
          | .error message => (P, .error (.plan message))
          | .ok plan =>
            (P.setPreparedStmts i (Function.update (P.preparedStmts i) name (some plan)),
              .ok (.message "PREPARE"))

/-- `EXECUTE` of a statement that was prepared without placeholders. -/
def executePrepared (name : String) : Option (Processor ν ι × Reply ν) :=
  match P.preparedStmts i name with
  | none => some (P, .error .preparedNotFound)
  | some plan =>
    (P.db.executePlan i false plan).map fun r => ({ P with db := r.1 }, r.2.map .rows)

def deallocate (name : Option String) : Processor ν ι :=
  match name with
  | none => P.clearPrepared i
  | some name => P.setPreparedStmts i (Function.update (P.preparedStmts i) name none)

def explain (analyze : Bool) (inner : Ast ν) : Option (Processor ν ι × Reply ν) :=
  (P.resolveSubqueries i inner.subqueries).bind fun
    | .error e => some (P, .error e)
    | .ok (rows, P) =>
      match buildPhysicalPlan P.schema rows inner with
      | .error message => some (P, .error (.plan message))
      | .ok plan =>
        if analyze && !plan.isUtility then
          (P.db.executePlan i inner.isSelect plan).map fun r =>
            ({ P with db := r.1 }, .ok (match r.2 with
              | .ok _ => .explained
              | .error e => .executionError e))
        else some (P, .ok .explained)

def analyze (table : Option ν) : Processor ν ι × Reply ν :=
  let allocated := P.snapshotTs i
  let tables := table.elim P.catalog fun t => [t]
  if tables.all P.registered then
    ((tables.foldl (fun Q t => Q.analyzeTable env allocated.1 t) allocated.2).clearPrepared i,
      .ok (.message "ANALYZE"))
  else (allocated.2, .error .analyzeUnknownTable)

def control (c : TxnControl) : Processor ν ι × Reply ν :=
  let r := P.db.handle i c
  ({ P with db := r.1 }, (r.2.map fun _ => .message "OK").mapError .sql)

/-- The statements after the refusals, in the order of `run_impl`; `again` runs the text of a
prepared statement with its parameters. -/
def dispatch (again : Processor ν ι → Bytes → Option (Processor ν ι × Reply ν)) :
    Ast ν → Option (Processor ν ι × Reply ν)
  | .createUser name password role =>
    some ({ P with users := P.users.assign name (password, role) }, .ok (.message "CREATE USER"))
  | .auth name _ =>
    some ({ P with login := Function.update P.login i (some (name, P.roleOf name)) },
      .ok (.message "AUTH OK"))
  | .control c => some (P.control i c)
  | .checkpoint => (P.checkpoint env).map fun P => (P, .ok (.message "CHECKPOINT"))
  | .showStatus => some (P, .ok (.message "STATUS"))
  | .analyze table => some (P.analyze env i table)
  | .backup target =>
    if target = env.baseDir ∨ target = "" then some (P, .error .backupTarget)
    else (P.checkpoint env).map fun P => (P, .ok (.message "BACKUP OK"))
  | .prepare name sql => P.prepare env i name sql
  | .execute name params =>
    match P.preparedSql i name with
    | none => P.executePrepared i name
    | some template =>
      match splice env.doubleText template params with
      | none => some (P, .error .notEnoughParameters)
      | some sql => again P sql
  | .deallocate name => some (P.deallocate i name, .ok (.message "DEALLOCATE"))
  | .explain analyze inner =>
    if P.db.aborted i then some (P, .error (.sql .transactionAborted))
    else P.explain i analyze inner
  | a =>
    if P.db.aborted i then some (P, .error (.sql .transactionAborted))
    else P.runStatement env i a

/-- `QueryProcessor::run`, none when it does not return: a prepared text may execute itself. -/
def run : Nat → Processor ν ι → ι → Bytes → Option (Processor ν ι × Reply ν)
  | 0, _, _, _ => none
  | fuel + 1, P, i, sql =>
    match env.parse sql with
    | none => some (P, .error .parse)
    | some a =>
      match P.refusal i a with
      | some e => some (P, .error e)
      | none => P.dispatch env i (fun P sql => run fuel P i sql) a

end Statements

variable {env P i} {P' : Processor ν ι} {fuel : Nat} {sql : Bytes} {reply : Reply ν}

end Processor

section Sample

def Processor.sample (readOnly : Bool) : Processor Unit Unit where
  db := .fresh fun _ => .accounts
  catalog := [()]
  indexes _ := {}
  stats _ := {}
  preparedStmts _ _ := none
  preparedSql _ _ := none
  users := .empty
  login _ := none
  readOnly := readOnly

def Query.onTable {π : Type} (plan : π) : Query Unit π where
  tables := [()]
  subqueries := []
  plan schema _ := if (schema ()).isSome then .ok plan else .error "[LogicalPlanner] Unknown table"

def Environment.ofTexts (texts : List (Bytes × Ast Unit)) : Environment Unit where
  parse sql := (texts.find? fun p => p.1 == sql).map Prod.snd
  doubleText _ := []
  collect _ _ := {}
  autoAnalyze := false
  stale _ _ := false
  baseDir := "data"
  lsm columns := ⟨columns, 2 ^ 16, 3⟩
  pool := true

end Sample

end CoroDB
