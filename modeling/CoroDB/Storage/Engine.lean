import CoroDB.Framework.Ownership
import CoroDB.Framework.Replay
import CoroDB.Framework.Run
import CoroDB.Storage.LevelJobs

/-!
# Tables, logs and the commit log

The engine over all its tables: writers that put a version into the memtable and the write-ahead log
of a table under its lock, commits that append to the commit log, flushes and checkpoints that move
versions into the level files and truncate the logs, one lock section or file operation to a step.
-/

namespace CoroDB

open Framework

/-- What a table has in memory and on disk. The log is its records in order, the first `walSynced`
of which are on stable storage. -/
structure TableStore (ι : Type*) where
  memtable : List MemEntry
  memtableBytes : Nat
  wal : List MemEntry
  walSynced : Nat
  levels : LevelStore ι

namespace TableStore

variable {ι : Type*}

/-- The lock section of a write: the version goes into the memtable and the log. -/
def put (x : TableStore ι) (e : MemEntry) (bytes : Nat) : TableStore ι :=
  { x with memtable := mergeEntries [e] x.memtable, memtableBytes := x.memtableBytes + bytes,
           wal := x.wal ++ [e] }

def moveOut (x : TableStore ι) : TableStore ι :=
  { x with memtable := [], memtableBytes := 0 }

def truncate (x : TableStore ι) : TableStore ι := { x with wal := [], walSynced := 0 }

end TableStore

/-- What a thread does next to a table, or to the commit log. -/
inductive EngineOp (ν : Type*) where
  | flushNonempty (table : ν)
  | flush (table : ν) (job : LevelJob)
  | compact (table : ν) (job : LevelJob)
  | truncateWal (table : ν)
  | truncateCommitLog
  deriving DecidableEq

/-- The state of the engine: what each thread has still to do, and `written`, the versions written
so far to each table, the last one first. -/
structure Engine (ν ι : Type*) where
  tables : ν → TableStore ι
  commitLog : List UInt64
  commitSynced : Nat
  commitLogPresent : Bool
  programs : ι → List (EngineOp ν)
  written : ν → List MemEntry

structure EngineConfig (ν : Type*) where
  tables : List ν
  complete : ∀ table, table ∈ tables
  nodup : tables.Nodup
  columns : ν → List Column
  memtableLimitBytes : Nat
  l0CompactionThresholdBytes : Nat
  lsmMaxLevel : Nat

def EngineConfig.lsm {ν : Type*} (cfg : EngineConfig ν) (table : ν) : LsmConfig :=
  ⟨cfg.columns table, cfg.l0CompactionThresholdBytes, cfg.lsmMaxLevel⟩

inductive EngineAction (ν ι : Type*) where
  | appendRow (thread : ι) (table : ν) (row : Row) (commitTs : UInt64)
  | deleteRowByKey (table : ν) (key : Value) (commitTs : UInt64)
  | markCommitted (commitTs : UInt64)
  | syncWal (table : ν)
  | syncCommitLog
  | flushMemtable (thread : ι) (table : ν)
  | checkpoint (thread : ι)
  | advance (thread : ι) (gcHorizon : UInt64)

namespace Engine

variable {ν ι : Type*} [DecidableEq ν] [DecidableEq ι]

def setTable (s : Engine ν ι) (table : ν) (x : TableStore ι) : Engine ν ι :=
  { s with tables := Function.update s.tables table x }

def setProgram (s : Engine ν ι) (i : ι) (p : List (EngineOp ν)) : Engine ν ι :=
  { s with programs := Function.update s.programs i p }

def put (s : Engine ν ι) (table : ν) (e : MemEntry) (bytes : Nat) : Engine ν ι :=
  { s.setTable table ((s.tables table).put e bytes) with
    written := Function.update s.written table (e :: s.written table) }

def startFlush (s : Engine ν ι) (i : ι) (table : ν) (rest : List (EngineOp ν)) : Engine ν ι :=
  (s.setTable table (s.tables table).moveOut).setProgram i
    (.flush table (.flush (s.tables table).memtable) :: rest)

def checkpointProgram (cfg : EngineConfig ν) : List (EngineOp ν) :=
  cfg.tables.map .flushNonempty ++ (cfg.tables.map (.compact · .compact) ++
    (cfg.tables.map .truncateWal ++ [.truncateCommitLog]))

def runOp (cfg : EngineConfig ν) (gcHorizon : UInt64) (s : Engine ν ι) (i : ι)
    (rest : List (EngineOp ν)) : EngineOp ν → Option (Engine ν ι)
  | .flushNonempty table =>
    if (s.tables table).memtable = [] then some (s.setProgram i rest)
    else some (s.startFlush i table rest)
  | .flush table job =>
    (job.act (cfg.lsm table) gcHorizon i (s.tables table).levels).map fun r =>
      (s.setTable table { s.tables table with levels := r.1 }).setProgram i
        ((if r.2 = .done then .truncateWal table else .flush table r.2) :: rest)
  | .compact table job =>
    (job.act (cfg.lsm table) gcHorizon i (s.tables table).levels).map fun r =>
      (s.setTable table { s.tables table with levels := r.1 }).setProgram i
        (if r.2 = .done then rest else .compact table r.2 :: rest)
  | .truncateWal table =>
    some ((s.setTable table (s.tables table).truncate).setProgram i rest)
  | .truncateCommitLog =>
    some { s.setProgram i rest with commitLog := [], commitSynced := 0 }

def appendRow (cfg : EngineConfig ν) (s : Engine ν ι) (i : ι) (table : ν) (row : Row)
    (commitTs : UInt64) : Engine ν ι :=
  let s' := s.put table ⟨extractKey row (cfg.columns table), row, false, commitTs⟩
    (encodeRow row).length
  if cfg.memtableLimitBytes ≤ (s'.tables table).memtableBytes then s'.startFlush i table []
  else s'

/-- One step; none when the thread is not free, or its operation does not end. -/
def step (cfg : EngineConfig ν) (s : Engine ν ι) : EngineAction ν ι → Option (Engine ν ι)
  | .appendRow i table row commitTs =>
    if s.programs i = [] then some (s.appendRow cfg i table row commitTs) else none
  | .deleteRowByKey table key commitTs => some (s.put table ⟨key, ⟨[]⟩, true, commitTs⟩ 0)
  | .markCommitted commitTs =>
    if commitTs = 0 then some s
    else some { s with commitLog := s.commitLog ++ [commitTs], commitLogPresent := true }
  | .syncWal table =>
    some (s.setTable table { s.tables table with walSynced := (s.tables table).wal.length })
  | .syncCommitLog => some { s with commitSynced := s.commitLog.length }
  | .flushMemtable i table =>
    if s.programs i = [] then some (s.startFlush i table []) else none
  | .checkpoint i =>
    if s.programs i = [] then some (s.setProgram i (checkpointProgram cfg)) else none
  | .advance i gcHorizon =>
    match s.programs i with
    | [] => none
    | op :: rest => s.runOp cfg gcHorizon i rest op

end Engine

/-- A record is replayed when it has no timestamp, the commit log has its timestamp, or there is no
commit log. -/
def tsCommitted (commitLogPresent : Bool) (committedTs : List UInt64) (e : MemEntry) : Bool :=
  e.commitTs = 0 || !commitLogPresent || committedTs.contains e.commitTs

def loadState (commitLogPresent : Bool) (committedTs : List UInt64) (records : List MemEntry) :
    List MemEntry :=
  replay mvccLess (tsCommitted commitLogPresent committedTs) records

/-- What recovery finds of a table after a crash that leaves the given numbers of records. -/
def Engine.recovered {ν ι : Type*} (s : Engine ν ι) (walKept : ν → Nat) (commitKept : Nat)
    (table : ν) : TableHistory :=
  tableHistory (loadState s.commitLogPresent (s.commitLog.take commitKept)
    ((s.tables table).wal.take (walKept table))) (s.tables table).levels.files

end CoroDB
