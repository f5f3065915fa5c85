import CoroDB.Framework.Run
import CoroDB.Storage.Engine
import CoroDB.Storage.Recovery
import CoroDB.Storage.SstStream

/-!
# Checkpoints and crashes

`checkpoint` loads every table that is only on disk, flushes every memtable into level 0, then
truncates the logs of the tables and last the commit log.
-/

namespace CoroDB

open Framework

/-- What a table has on disk, whether this process writes its log, and its memtable when it is
loaded. -/
structure StoredTable where
  disk : DiskState
  wal : List MemEntry
  walWriter : Bool
  loaded : Option (List MemEntry)

structure StoredTables (ν : Type*) where
  tables : ν → StoredTable
  commitLog : List UInt64
  commitLogPresent : Bool
  commitLogWriter : Bool

inductive CheckpointOp (ν : Type*) where
  | flushTable (table : ν)
  | writeManifest
  | compactLevels (table : ν)
  | truncateWal (table : ν)
  | truncateCommitLog
  deriving DecidableEq

/-- The limits of every table, and whether the engine has a pool for its compactions. -/
structure CheckpointConfig (ν : Type*) where
  lsm : ν → LsmConfig
  pool : Bool

/-- A checkpoint at work: the memtable that is being flushed, and what is still to do. -/
structure CheckpointRun (ν : Type*) where
  store : StoredTables ν
  snapshot : Option (ν × List MemEntry)
  program : List (CheckpointOp ν)

namespace StoredTables

variable {ν : Type*}

def files (s : StoredTables ν) (table : ν) : LevelFiles := (s.tables table).disk.files

def replayed (s : StoredTables ν) (table : ν) : List MemEntry :=
  loadState s.commitLogPresent s.commitLog (s.tables table).wal

def memtable (s : StoredTables ν) (table : ν) : List MemEntry :=
  (s.tables table).loaded.getD (s.replayed table)

def visible (s : StoredTables ν) (table : ν) (pk : Value) (ts : UInt64) : Option Row :=
  visibleOutcome (s.memtable table) (s.files table) pk ts

/-- What a snapshot sees of a key after a crash and the next start; no result when the start runs
into undefined behaviour. -/
def visibleAfterRestart (cfg : CheckpointConfig ν) (s : StoredTables ν) (table : ν) (pk : Value)
    (ts : UInt64) : Option (Option Row) :=
  (reconcileWithManifest (cfg.lsm table).columns (s.tables table).disk).map fun disk =>
    visibleOutcome (s.replayed table) disk.files pk ts

variable [DecidableEq ν]

def setTable (s : StoredTables ν) (table : ν) (x : StoredTable) : StoredTables ν :=
  { s with tables := Function.update s.tables table x }

def writeL0 (s : StoredTables ν) (table : ν) (memtable : List MemEntry) : StoredTables ν :=
  let x := s.tables table
  s.setTable table { x with disk := ⟨x.disk.files.write 0
    (mergeEntries memtable (x.disk.files.entriesAt 0)), x.disk.manifest⟩ }

def writeManifest (cfg : CheckpointConfig ν) (s : StoredTables ν) : StoredTables ν :=
  { s with tables := fun table => { s.tables table with disk :=
      ⟨s.files table, manifestOf (cfg.lsm table).columns (s.files table)⟩ } }

def compact (cfg : CheckpointConfig ν) (gcHorizon : UInt64) (s : StoredTables ν) (table : ν) :
    Option (StoredTables ν) :=
  if l0Full (cfg.lsm table) (s.files table) then
    (compactLevels (cfg.lsm table) gcHorizon (s.files table)).map fun files =>
      (s.setTable table { s.tables table with
        disk := { (s.tables table).disk with files := files } }).writeManifest cfg
  else some s

def truncateWal (s : StoredTables ν) (table : ν) : StoredTables ν :=
  if (s.tables table).walWriter then s.setTable table { s.tables table with wal := [] } else s

def truncateCommitLog (s : StoredTables ν) : StoredTables ν :=
  if s.commitLogWriter then { s with commitLog := [] } else s

theorem truncateWal_tables (s : StoredTables ν) (table u : ν) :
    (s.truncateWal table).tables u = { s.tables u with
      wal := if u = table ∧ (s.tables u).walWriter = true then [] else (s.tables u).wal } := by
  by_cases hu : u = table
  · subst hu
    by_cases hwriter : (s.tables u).walWriter = true
    · simp [truncateWal, hwriter, setTable]
    · rw [truncateWal, if_neg hwriter, if_neg fun h => hwriter h.2]
  · by_cases hwriter : (s.tables table).walWriter = true
    · simp [truncateWal, hwriter, setTable, hu]
    · simp [truncateWal, hwriter, hu]

end StoredTables

namespace CheckpointRun

variable {ν : Type*} [DecidableEq ν]

def start (s : StoredTables ν) (tables : List ν) : CheckpointRun ν :=
  ⟨s, none, tables.map .flushTable ++ (tables.map .compactLevels ++
    (tables.map .truncateWal ++ [.truncateCommitLog]))⟩

/-- The next file operation; none at the end, or when a compaction does not end. -/
def step (cfg : CheckpointConfig ν) (r : CheckpointRun ν) (gcHorizon : UInt64) :
    Option (CheckpointRun ν) :=
  match r.snapshot, r.program with
  | some (table, memtable), rest =>
    some ⟨r.store.writeL0 table memtable, none, .writeManifest ::
      ((if cfg.pool then [.compactLevels table] else []) ++ .truncateWal table :: rest)⟩
  | none, [] => none
  | none, .flushTable table :: rest =>
    some ⟨r.store.setTable table { r.store.tables table with loaded := some [] },
      if r.store.memtable table = [] then none else some (table, r.store.memtable table), rest⟩
  | none, .writeManifest :: rest => some ⟨r.store.writeManifest cfg, none, rest⟩
  | none, .compactLevels table :: rest =>
    (r.store.compact cfg gcHorizon table).map fun store => ⟨store, none, rest⟩
  | none, .truncateWal table :: rest => some ⟨r.store.truncateWal table, none, rest⟩
  | none, .truncateCommitLog :: rest => some ⟨r.store.truncateCommitLog, none, rest⟩

end CheckpointRun

structure Logged (memtable replayed : List MemEntry) (files : LevelFiles) : Prop where
  logged : ∀ e ∈ memtable, e ∈ replayed
  stored : ∀ e ∈ replayed, e ∈ memtable ∨
    History.ofList files.entries (valueKey e.pk) e.commitTs = some e.content

namespace StoredTables

variable {ν : Type*}

def flushedFiles (s : StoredTables ν) (table : ν) : LevelFiles :=
  (s.files table).write 0 (mergeEntries (s.memtable table) ((s.files table).entriesAt 0))

/-- No activity: the manifest records the level files, every row of a memtable is committed and in
the log, and no level has reached the threshold of a compaction, before or after a flush. -/
structure Quiescent (cfg : CheckpointConfig ν) (s : StoredTables ν) : Prop where
  settled : ∀ table, Settled (cfg.lsm table).columns (s.tables table).disk
  walOrdered : ∀ table, Ordered (s.tables table).wal
  loaded : ∀ table memtable, (s.tables table).loaded = some memtable →
    Ordered memtable ∧ Sorted memtable ∧ Logged memtable (s.replayed table) (s.files table)
  below : ∀ table, l0Full (cfg.lsm table) (s.files table) = false ∧
    l0Full (cfg.lsm table) (s.flushedFiles table) = false

end StoredTables

section Replay

theorem Logged.tableHistory_eq {memtable replayed : List MemEntry} {files : LevelFiles}
    (h : Logged memtable replayed files) (hsorted : SortedVersions replayed) :
    tableHistory replayed files = tableHistory memtable files := by
  funext k t
  rw [tableHistory, tableHistory, History.ofList_append, History.ofList_append,
    History.overlay_apply, History.overlay_apply]
  cases hm : History.ofList memtable k t with
  | some c =>
    obtain ⟨e, he, rfl, rfl, rfl⟩ := History.exists_of_ofList hm
    rw [ofList_of_mem hsorted.sameCells (h.logged e he)]
  | none =>
    cases hr : History.ofList replayed k t with
    | none => rfl
    | some c =>
      obtain ⟨e, he, rfl, rfl, rfl⟩ := History.exists_of_ofList hr
      rcases h.stored e he with hmem | hfiles
      · exact absurd hm (History.ofList_ne_none hmem)
      · exact hfiles.symm

variable {wal : List MemEntry} {present : Bool}

theorem ofList_loadState (hwal : Ordered wal) (committedTs : List UInt64) (k : ValueKey)
    (t : UInt64) :
    History.ofList (loadState present committedTs wal) k t =
      if t = 0 || !present || committedTs.contains t then History.ofList wal.reverse k t
      else none := by
  rw [loadState, ofList_replay mvccLess_decides hwal, ← List.filter_reverse]
  exact History.ofList_filter_ts (ε := MemEntry) (fun t => t = 0 || !present || committedTs.contains t) _ k t

theorem ofList_loadState_nil (hwal : Ordered wal) (committedTs : List UInt64) {k : ValueKey}
    {t : UInt64} {c : Option Row} (h : History.ofList (loadState present [] wal) k t = some c) :
    History.ofList (loadState present committedTs wal) k t = some c := by
  rw [ofList_loadState hwal] at h ⊢
  split_ifs at h with ht
  rw [if_pos]
  · exact h
  · simp only [List.contains_nil, Bool.or_false] at ht
    simp [ht]

theorem loadState_ordered (hwal : Ordered wal) (committedTs : List UInt64) :
    Ordered (loadState present committedTs wal) :=
  fun e he => hwal e (mem_of_mem_replay he)

theorem loadState_sorted (hwal : Ordered wal) (committedTs : List UInt64) :
    SortedVersions (loadState present committedTs wal) :=
  replay_sorted mvccLess_decides hwal

end Replay

namespace StoredTables

variable {ν : Type*} {cfg : CheckpointConfig ν} {s : StoredTables ν}

theorem Quiescent.memtable (h : s.Quiescent cfg) (table : ν) :
    Ordered (s.memtable table) ∧ SortedVersions (s.memtable table) := by
  rw [StoredTables.memtable]
  cases hloaded : (s.tables table).loaded with
  | none => exact ⟨loadState_ordered (h.walOrdered table) _, loadState_sorted (h.walOrdered table) _⟩
  | some m =>
    obtain ⟨hordered, hsorted, -⟩ := h.loaded table m hloaded
    exact ⟨hordered, (sorted_iff hordered).mp hsorted⟩

theorem Quiescent.tableHistory_replayed (h : s.Quiescent cfg) (table : ν) :
    tableHistory (s.replayed table) (s.files table) =
      tableHistory (s.memtable table) (s.files table) := by
  rw [StoredTables.memtable]
  cases hloaded : (s.tables table).loaded with
  | none => rfl
  | some m =>
    exact (h.loaded table m hloaded).2.2.tableHistory_eq (loadState_sorted (h.walOrdered table) _)

theorem Quiescent.ofList_flushedFiles (h : s.Quiescent cfg) (table : ν) :
    History.ofList (s.flushedFiles table).entries =
      tableHistory (s.memtable table) (s.files table) :=
  LevelFiles.ofList_write_zero (h.memtable table).1 (h.memtable table).2
    ((h.settled table).ordered 0) ((h.settled table).sorted 0)

theorem Quiescent.flushedFiles_ordered (h : s.Quiescent cfg) (table : ν) :
    Ordered (s.flushedFiles table).entries := by
  intro e he
  obtain ⟨level, he⟩ := LevelFiles.mem_entries.mp he
  by_cases hlevel : level = 0
  · subst hlevel
    rw [flushedFiles, LevelFiles.entriesAt_write_self] at he
    exact mergeEntries_ordered (h.memtable table).1 ((h.settled table).ordered 0) e he
  · rw [flushedFiles, LevelFiles.entriesAt_write_of_ne hlevel] at he
    exact (h.settled table).ordered level e he

theorem flushedFiles_gapless {table : ν} (h : (s.files table).Gapless) :
    (s.flushedFiles table).Gapless := by
  intro level hlevel
  rw [flushedFiles, LevelFiles.write_file_of_ne _ (Nat.succ_ne_zero level)] at hlevel
  cases level with
  | zero => simp [flushedFiles]
  | succ level =>
    rw [flushedFiles, LevelFiles.write_file_of_ne _ (Nat.succ_ne_zero level)]
    exact h _ hlevel

/-- The table has nothing in memory, and its files hold what its memtable had. -/
def Done (s s' : StoredTables ν) (table : ν) : Prop :=
  (s'.tables table).loaded = some [] ∧ (s'.files table = s.flushedFiles table ∨
    s.memtable table = [] ∧ s'.files table = s.files table)

structure Unwritten (s s' : StoredTables ν) (table : ν) : Prop where
  files : s'.files table = s.files table
  wal : (s'.tables table).wal = (s.tables table).wal

theorem Done.files {s' : StoredTables ν} {table : ν} (h : Done s s' table) :
    s'.files table = s.files table ∨ s'.files table = s.flushedFiles table :=
  h.2.elim .inr fun h => .inl h.2

theorem Done.congr {s' s'' : StoredTables ν} {table : ν} (h : Done s s' table)
    (hfiles : s''.files table = s'.files table)
    (hloaded : (s''.tables table).loaded = (s'.tables table).loaded) : Done s s'' table := by
  rw [Done, hfiles, hloaded]
  exact h

theorem Done.ofList_files {s' : StoredTables ν} {table : ν} (h : Done s s' table)
    (hq : s.Quiescent cfg) :
    History.ofList (s'.files table).entries = tableHistory (s.memtable table) (s.files table) := by
  rcases h.2 with hfiles | ⟨hempty, hfiles⟩
  · rw [hfiles, hq.ofList_flushedFiles]
  · rw [hfiles, hempty]
    rfl

end StoredTables

open StoredTables

def FlushesFirst {ν : Type*} (done : ν → Prop) : List (CheckpointOp ν) → Prop
  | [] => True
  | .flushTable table :: rest => FlushesFirst (fun u => done u ∨ u = table) rest
  | .writeManifest :: rest => FlushesFirst done rest
  | .compactLevels _ :: rest => FlushesFirst done rest
  | .truncateWal table :: rest => done table ∧ FlushesFirst done rest
  | .truncateCommitLog :: rest => (∀ table, done table) ∧ FlushesFirst done rest

theorem FlushesFirst.mono {ν : Type*} {done done' : ν → Prop} {program : List (CheckpointOp ν)}
    (h : FlushesFirst done program) (hle : ∀ table, done table → done' table) :
    FlushesFirst done' program := by
  induction program generalizing done done' with
  | nil => trivial
  | cons op rest ih =>
    cases op with
    | flushTable table => exact ih h fun u => Or.imp_left (hle u)
    | writeManifest => exact ih h hle
    | compactLevels table => exact ih h hle
    | truncateWal table => exact ⟨hle table h.1, ih h.2 hle⟩
    | truncateCommitLog => exact ⟨fun table => hle table (h.1 table), ih h.2 hle⟩

namespace CheckpointRun

variable {ν : Type*} {cfg : CheckpointConfig ν} {s : StoredTables ν} {r : CheckpointRun ν}

/-- What holds at every point of a checkpoint that started from the tables `s`. -/
structure Inv (cfg : CheckpointConfig ν) (s : StoredTables ν) (r : CheckpointRun ν) : Prop where
  present : r.store.commitLogPresent = s.commitLogPresent
  commitLog : r.store.commitLog = s.commitLog ∨
    r.store.commitLog = [] ∧ ∀ table, Done s r.store table
  manifest : ∀ table, (r.store.tables table).disk.manifest =
      manifestOf (cfg.lsm table).columns (s.files table) ∨
    (r.store.tables table).disk.manifest =
      manifestOf (cfg.lsm table).columns (r.store.files table)
  table : ∀ table, Done s r.store table ∧ ((r.store.tables table).wal = (s.tables table).wal ∨
      (r.store.tables table).wal = []) ∨
    Unwritten s r.store table ∧ (r.snapshot = some (table, s.memtable table) ∨
      (r.store.tables table).loaded = (s.tables table).loaded)
  snapshot : ∀ table m, r.snapshot = some (table, m) → m = s.memtable table ∧
    Unwritten s r.store table ∧ (r.store.tables table).loaded = some []
  flushesFirst : FlushesFirst (fun table => Done s r.store table ∨ ∃ m, r.snapshot = some (table, m))
    r.program

theorem Inv.files (h : r.Inv cfg s) (table : ν) :
    r.store.files table = s.files table ∨ r.store.files table = s.flushedFiles table := by
  rcases h.table table with ⟨hdone, -⟩ | ⟨hsame, -⟩
  · exact hdone.files
  · exact .inl hsame.files

theorem Inv.ofList_replayed (h : r.Inv cfg s) (hq : s.Quiescent cfg) {table : ν} {k : ValueKey}
    {t : UInt64} {c : Option Row} (hc : History.ofList (r.store.replayed table) k t = some c) :
    tableHistory (s.memtable table) (s.files table) k t = some c := by
  have hwal : (r.store.tables table).wal = (s.tables table).wal ∨
      (r.store.tables table).wal = [] := by
    rcases h.table table with ⟨-, hwal⟩ | ⟨hsame, -⟩
    · exact hwal
    · exact .inl hsame.wal
  have hreplayed : History.ofList (s.replayed table) k t = some c := by
    rw [StoredTables.replayed, h.present] at hc
    rcases hwal with hwal | hwal
    · rw [hwal] at hc
      rcases h.commitLog with hlog | ⟨hlog, -⟩
      · rwa [hlog] at hc
      · rw [hlog] at hc
        exact ofList_loadState_nil (hq.walOrdered table) _ hc
    · rw [hwal] at hc
      cases hc
  rw [← hq.tableHistory_replayed, tableHistory, History.ofList_append, History.overlay_apply,
    hreplayed]
  rfl

theorem Inv.tableHistory_replayed (h : r.Inv cfg s) (hq : s.Quiescent cfg) (table : ν) :
    tableHistory (r.store.replayed table) (r.store.files table) =
      tableHistory (s.memtable table) (s.files table) := by
  by_cases hdone : Done s r.store table
  · rw [← hdone.ofList_files hq, tableHistory, History.ofList_append]
    apply History.overlay_eq_right
    intro k t c hc
    rw [hdone.ofList_files hq]
    exact h.ofList_replayed hq hc
  · rcases h.table table with ⟨hdone', -⟩ | ⟨hsame, -⟩
    · exact absurd hdone' hdone
    · have hlog : r.store.commitLog = s.commitLog :=
        h.commitLog.resolve_right fun hall => hdone (hall.2 table)
      rw [← hq.tableHistory_replayed, StoredTables.replayed, StoredTables.replayed, h.present, hlog,
        hsame.wal, hsame.files]

theorem Inv.file_of_ne (h : r.Inv cfg s) (table : ν) {level : Nat} (hlevel : level ≠ 0) :
    (r.store.files table).file level = (s.files table).file level := by
  rcases h.files table with hfiles | hfiles
  · rw [hfiles]
  · rw [hfiles, flushedFiles, LevelFiles.write_file_of_ne _ hlevel]

theorem Inv.files_ordered (h : r.Inv cfg s) (hq : s.Quiescent cfg) (table : ν) :
    Ordered (r.store.files table).entries := by
  rcases h.files table with hfiles | hfiles
  · rw [hfiles]
    exact (hq.settled table).orderedEntries
  · rw [hfiles]
    exact hq.flushedFiles_ordered table

theorem Inv.reconcile (h : r.Inv cfg s) (hq : s.Quiescent cfg) {table : ν}
    (hgap : (s.files table).Gapless) :
    ∃ disk, reconcileWithManifest (cfg.lsm table).columns (r.store.tables table).disk = some disk ∧
      disk.files = r.store.files table := by
  have hgapless : (r.store.files table).Gapless := by
    rcases h.files table with hfiles | hfiles
    · rw [hfiles]
      exact hgap
    · rw [hfiles]
      exact flushedFiles_gapless hgap
  have hnarrow : (r.store.files table).Narrow := by
    intro level hlevel
    rw [h.file_of_ne table (by omega)]
    exact (hq.settled table).narrow level hlevel
  apply reconcile_of_recorded _ hgapless
  intro k hk
  change ((r.store.files table).file (k + 1)).isSome = true at hk
  change recorded _ _ _ ((r.store.files table).file (k + 1)) = true
  rcases h.manifest table with hmanifest | hmanifest
  · rw [h.file_of_ne table (Nat.succ_ne_zero k)] at hk ⊢
    rw [hmanifest]
    exact recorded_manifestOf (hq.settled table).narrow hk
  · rw [hmanifest]
    exact recorded_manifestOf hnarrow hk

theorem Inv.visibleAfterRestart (h : r.Inv cfg s) (hq : s.Quiescent cfg) {table : ν}
    (hgap : (s.files table).Gapless) (pk : Value) (ts : UInt64) :
    r.store.visibleAfterRestart cfg table pk ts = some (s.visible table pk ts) := by
  obtain ⟨disk, hdisk, hfiles⟩ := h.reconcile hq hgap
  rw [StoredTables.visibleAfterRestart, hdisk, Option.map_some, hfiles, visible]
  cases hpk : pk.isNaN with
  | true => rw [visibleOutcome_of_isNaN hpk, visibleOutcome_of_isNaN hpk]
  | false =>
    have hreplayed : Ordered (r.store.replayed table) := by
      apply loadState_ordered
      rcases h.table table with ⟨-, hwal | hwal⟩ | ⟨hsame, -⟩
      · rw [hwal]
        exact hq.walOrdered table
      · rw [hwal]
        exact fun e he => absurd he List.not_mem_nil
      · rw [hsame.wal]
        exact hq.walOrdered table
    have hfiles₀ : Ordered (s.files table).entries := (hq.settled table).orderedEntries
    rw [visibleOutcome_eq_view (hreplayed.append (h.files_ordered hq table)) hpk,
      visibleOutcome_eq_view ((hq.memtable table).1.append hfiles₀) hpk,
      h.tableHistory_replayed hq]

theorem Inv.start (hq : s.Quiescent cfg) {tables : List ν} (hall : ∀ table, table ∈ tables) :
    (start s tables).Inv cfg s where
  present := rfl
  commitLog := .inl rfl
  manifest table := .inl (hq.settled table).manifest
  table table := .inr ⟨⟨rfl, rfl⟩, .inr rfl⟩
  snapshot table m h := by cases h
  flushesFirst := by
    have htruncate : ∀ (done : ν → Prop) (ts : List ν), (∀ table, done table) →
        FlushesFirst done (ts.map .compactLevels ++
          (tables.map .truncateWal ++ [.truncateCommitLog])) := by
      intro done ts hdone
      induction ts with
      | nil =>
        have hwal : ∀ us : List ν,
            FlushesFirst done (us.map .truncateWal ++ [.truncateCommitLog]) := by
          intro us
          induction us with
          | nil => exact ⟨hdone, trivial⟩
          | cons u us ih => exact ⟨hdone u, ih⟩
        exact hwal tables
      | cons t ts ih => exact ih
    have hflush : ∀ (ts : List ν) (done : ν → Prop), (∀ table, done table ∨ table ∈ ts) →
        FlushesFirst done (ts.map .flushTable ++ (tables.map .compactLevels ++
          (tables.map .truncateWal ++ [.truncateCommitLog]))) := by
      intro ts
      induction ts with
      | nil =>
        intro done hdone
        exact htruncate done tables fun table => (hdone table).resolve_right List.not_mem_nil
      | cons t ts ih =>
        intro done hdone
        apply ih
        intro table
        rcases hdone table with h | h
        · exact .inl (.inl h)
        · exact (List.mem_cons.mp h).imp .inr id
    exact hflush tables _ fun table => .inr (hall table)

theorem Inv.memtable_eq (h : r.Inv cfg s) {table : ν} (hdone : ¬ Done s r.store table)
    (hsame : Unwritten s r.store table)
    (hloaded : (r.store.tables table).loaded = (s.tables table).loaded) :
    r.store.memtable table = s.memtable table := by
  have hlog : r.store.commitLog = s.commitLog :=
    h.commitLog.resolve_right fun hall => hdone (hall.2 table)
  rw [StoredTables.memtable, StoredTables.memtable, StoredTables.replayed, StoredTables.replayed,
    h.present, hlog, hsame.wal, hloaded]

variable [DecidableEq ν]

theorem Inv.writeL0 (h : r.Inv cfg s) {table : ν} {m : List MemEntry}
    (hsnapshot : r.snapshot = some (table, m)) {rest : List (CheckpointOp ν)}
    (hrest : ∀ done : ν → Prop, done table → FlushesFirst done r.program →
      FlushesFirst done rest) :
    Inv cfg s ⟨r.store.writeL0 table m, none, rest⟩ := by
  obtain ⟨rfl, hsame, hloaded⟩ := h.snapshot table m hsnapshot
  let store := r.store.writeL0 table (s.memtable table)
  have hself : store.tables table = { r.store.tables table with disk :=
      ⟨s.flushedFiles table, (r.store.tables table).disk.manifest⟩ } := by
    rw [flushedFiles, ← hsame.files]
    exact Function.update_self ..
  have hother : ∀ u, u ≠ table → store.tables u = r.store.tables u :=
    fun u hu => Function.update_of_ne hu _ _
  have hdoneSelf : Done s store table := by
    refine ⟨?_, .inl ?_⟩
    · rw [hself]
      exact hloaded
    · rw [StoredTables.files, hself]
  have hdone : ∀ u, Done s r.store u → Done s store u := by
    intro u hu
    by_cases hut : u = table
    · exact hut ▸ hdoneSelf
    · exact hu.congr (by rw [StoredTables.files, hother u hut]; rfl) (by rw [hother u hut])
  refine ⟨h.present, h.commitLog.imp_right (And.imp_right fun hall u => hdone u (hall u)), ?_, ?_,
    fun _ _ hnone => (by cases hnone), ?_⟩
  · intro u
    by_cases hut : u = table
    · subst hut
      left
      change (store.tables u).disk.manifest = _
      rw [hself]
      rcases h.manifest u with hmanifest | hmanifest
      · exact hmanifest
      · rw [← hsame.files]
        exact hmanifest
    · change (store.tables u).disk.manifest = _ ∨ (store.tables u).disk.manifest =
        manifestOf _ (store.tables u).disk.files
      rw [hother u hut]
      exact h.manifest u
  · intro u
    change Done s store u ∧ _ ∨ Unwritten s store u ∧ _
    by_cases hut : u = table
    · subst hut
      refine .inl ⟨hdoneSelf, .inl ?_⟩
      rw [hself]
      exact hsame.wal
    · rcases h.table u with ⟨hu, hwal⟩ | ⟨hu, hmem⟩
      · refine .inl ⟨hdone u hu, ?_⟩
        rw [hother u hut]
        exact hwal
      · refine .inr ⟨⟨?_, ?_⟩, .inr ?_⟩
        · rw [StoredTables.files, hother u hut]
          exact hu.files
        · rw [hother u hut]
          exact hu.wal
        · rw [hother u hut]
          apply hmem.resolve_left
          rw [hsnapshot, Option.some.injEq, Prod.mk.injEq]
          exact fun heq => hut heq.1.symm
  · apply hrest _ (.inl hdoneSelf)
    apply h.flushesFirst.mono
    rintro u (hu | ⟨m, hm⟩)
    · exact .inl (hdone u hu)
    · rw [hsnapshot, Option.some.injEq, Prod.mk.injEq] at hm
      exact .inl (hm.1 ▸ hdoneSelf)

theorem Inv.flushTable (h : r.Inv cfg s) (hnone : r.snapshot = none) {table : ν}
    {rest : List (CheckpointOp ν)} (hprogram : r.program = .flushTable table :: rest) :
    Inv cfg s ⟨r.store.setTable table { r.store.tables table with loaded := some [] },
      if r.store.memtable table = [] then none else some (table, r.store.memtable table), rest⟩ := by
  let store := r.store.setTable table { r.store.tables table with loaded := some [] }
  have hself : store.tables table = { r.store.tables table with loaded := some [] } :=
    Function.update_self ..
  have hother : ∀ u, u ≠ table → store.tables u = r.store.tables u :=
    fun u hu => Function.update_of_ne hu _ _
  have hdisk : ∀ u, (store.tables u).disk = (r.store.tables u).disk ∧
      (store.tables u).wal = (r.store.tables u).wal := by
    intro u
    by_cases hut : u = table
    · subst hut
      rw [hself]
      exact ⟨rfl, rfl⟩
    · rw [hother u hut]
      exact ⟨rfl, rfl⟩
  have hfiles : ∀ u, store.files u = r.store.files u := fun u => by
    rw [StoredTables.files, (hdisk u).1, StoredTables.files]
  have hdone : ∀ u, Done s r.store u → Done s store u := by
    intro u hu
    apply hu.congr (hfiles u)
    by_cases hut : u = table
    · subst hut
      rw [hself]
      exact hu.1.symm
    · rw [hother u hut]
  have hcases : Done s store table ∧ r.store.memtable table = [] ∨
      Unwritten s store table ∧ r.store.memtable table = s.memtable table ∧
        r.store.memtable table ≠ [] := by
    by_cases hd : Done s r.store table
    · refine .inl ⟨hdone table hd, ?_⟩
      rw [StoredTables.memtable, hd.1, Option.getD_some]
    · rcases h.table table with ⟨hd', -⟩ | ⟨hsame, hloaded⟩
      · exact absurd hd' hd
      · rw [hnone] at hloaded
        have hmem := h.memtable_eq hd hsame (hloaded.resolve_left (by simp))
        by_cases hempty : r.store.memtable table = []
        · refine .inl ⟨⟨by rw [hself], .inr ⟨hmem ▸ hempty, ?_⟩⟩, hempty⟩
          rw [hfiles table, hsame.files]
        · refine .inr ⟨⟨?_, ?_⟩, hmem, hempty⟩
          · rw [hfiles table, hsame.files]
          · rw [(hdisk table).2, hsame.wal]
  refine ⟨h.present, h.commitLog.imp_right (And.imp_right fun hall u => hdone u (hall u)), ?_, ?_,
    ?_, ?_⟩
  · intro u
    change (store.tables u).disk.manifest = _ ∨ (store.tables u).disk.manifest =
      manifestOf _ (store.files u)
    rw [(hdisk u).1, hfiles u]
    exact h.manifest u
  · intro u
    change Done s store u ∧ _ ∨ Unwritten s store u ∧ _
    rw [(hdisk u).2]
    by_cases hut : u = table
    · subst hut
      rcases hcases with ⟨hd, -⟩ | ⟨hsame, hmem, hne⟩
      · refine .inl ⟨hd, ?_⟩
        rcases h.table u with ⟨-, hwal⟩ | ⟨hsame, -⟩
        · exact hwal
        · exact .inl hsame.wal
      · refine .inr ⟨hsame, .inl ?_⟩
        rw [← hmem]
        exact if_neg hne
    · rcases h.table u with ⟨hu, hwal⟩ | ⟨hu, hmem⟩
      · exact .inl ⟨hdone u hu, hwal⟩
      · rw [hnone] at hmem
        refine .inr ⟨⟨by rw [hfiles u, hu.files], by rw [(hdisk u).2, hu.wal]⟩, .inr ?_⟩
        rw [hother u hut]
        exact hmem.resolve_left (by simp)
  · intro u m hm
    change (if _ then none else some _) = some (u, m) at hm
    split_ifs at hm with hempty
    rw [Option.some.injEq, Prod.mk.injEq] at hm
    obtain ⟨rfl, rfl⟩ := hm
    rcases hcases with ⟨-, hempty'⟩ | ⟨hsame, hmem, -⟩
    · exact absurd hempty' hempty
    · exact ⟨hmem, hsame, by rw [hself]⟩
  · have hfirst := h.flushesFirst
    rw [hprogram, FlushesFirst, hnone] at hfirst
    apply hfirst.mono
    rintro u ((hu | ⟨m, hm⟩) | rfl)
    · exact .inl (hdone u hu)
    · cases hm
    · rcases hcases with ⟨hd, -⟩ | ⟨-, -, hne⟩
      · exact .inl hd
      · exact .inr ⟨_, if_neg hne⟩

omit [DecidableEq ν] in
theorem Inv.of_files_eq (h : r.Inv cfg s) (hnone : r.snapshot = none) {store : StoredTables ν}
    {rest : List (CheckpointOp ν)} (hpresent : store.commitLogPresent = r.store.commitLogPresent)
    (hfiles : ∀ u, store.files u = r.store.files u)
    (hloaded : ∀ u, (store.tables u).loaded = (r.store.tables u).loaded)
    (hlog : store.commitLog = r.store.commitLog ∨
      store.commitLog = [] ∧ ∀ u, Done s r.store u)
    (hwal : ∀ u, (store.tables u).wal = (r.store.tables u).wal ∨
      (store.tables u).wal = [] ∧ Done s r.store u)
    (hmanifest : ∀ u, (store.tables u).disk.manifest = (r.store.tables u).disk.manifest ∨
      (store.tables u).disk.manifest = manifestOf (cfg.lsm u).columns (r.store.files u))
    (hrest : FlushesFirst (Done s r.store) rest) : Inv cfg s ⟨store, none, rest⟩ := by
  have hdone : ∀ u, Done s r.store u → Done s store u := fun u hu => hu.congr (hfiles u) (hloaded u)
  refine ⟨hpresent.trans h.present, ?_, ?_, ?_, fun _ _ hm => (by cases hm), ?_⟩
  · rcases hlog with hlog | ⟨hlog, hall⟩
    · change store.commitLog = _ ∨ store.commitLog = [] ∧ _
      rw [hlog]
      exact h.commitLog.imp_right (And.imp_right fun hall u => hdone u (hall u))
    · exact .inr ⟨hlog, fun u => hdone u (hall u)⟩
  · intro u
    change (store.tables u).disk.manifest = _ ∨ (store.tables u).disk.manifest =
      manifestOf _ (store.files u)
    rw [hfiles u]
    rcases hmanifest u with hm | hm
    · rw [hm]
      exact h.manifest u
    · exact .inr hm
  · intro u
    change Done s store u ∧ ((store.tables u).wal = _ ∨ (store.tables u).wal = []) ∨
      Unwritten s store u ∧ _
    rcases hwal u with hwal | ⟨hwal, hu⟩
    · rcases h.table u with ⟨hu, hw⟩ | ⟨hu, hmem⟩
      · exact .inl ⟨hdone u hu, by rw [hwal]; exact hw⟩
      · rw [hnone] at hmem
        refine .inr ⟨⟨(hfiles u).trans hu.files, hwal.trans hu.wal⟩, .inr ?_⟩
        exact (hloaded u).trans (hmem.resolve_left (by simp))
    · exact .inl ⟨hdone u hu, .inr hwal⟩
  · exact hrest.mono fun u hu => .inl (hdone u hu)

theorem compact_of_below {store : StoredTables ν} {table : ν}
    (h : l0Full (cfg.lsm table) (store.files table) = false) (gcHorizon : UInt64) :
    store.compact cfg gcHorizon table = some store := by
  rw [StoredTables.compact, h]
  rfl

theorem Inv.compact_eq (h : r.Inv cfg s) (hq : s.Quiescent cfg) (gcHorizon : UInt64) (table : ν) :
    r.store.compact cfg gcHorizon table = some r.store := by
  have hfull : l0Full (cfg.lsm table) (r.store.files table) = false := by
    rcases h.files table with hfiles | hfiles
    · rw [hfiles]
      exact (hq.below table).1
    · rw [hfiles]
      exact (hq.below table).2
  exact compact_of_below hfull gcHorizon

/-- One step of a checkpoint keeps what a crash would leave. -/
theorem Inv.step (hq : s.Quiescent cfg) {r' : CheckpointRun ν} {gcHorizon : UInt64}
    (h : r.Inv cfg s) (hstep : r.step cfg gcHorizon = some r') : r'.Inv cfg s := by
  obtain ⟨store, snapshot, program⟩ := r
  cases snapshot with
  | some pending =>
    obtain ⟨table, m⟩ := pending
    obtain rfl := Option.some.inj hstep
    apply h.writeL0 rfl
    intro done htable hprogram
    change FlushesFirst done ((if cfg.pool then [.compactLevels table] else []) ++ _)
    split_ifs
    · exact ⟨htable, hprogram⟩
    · exact ⟨htable, hprogram⟩
  | none =>
    cases program with
    | nil => cases hstep
    | cons op rest =>
      have hfirst : FlushesFirst (Done s store) (op :: rest) :=
        h.flushesFirst.mono fun u hu => hu.resolve_right (by simp)
      cases op with
      | flushTable table =>
        obtain rfl := Option.some.inj hstep
        exact h.flushTable rfl rfl
      | writeManifest =>
        obtain rfl := Option.some.inj hstep
        exact h.of_files_eq rfl rfl (fun _ => rfl) (fun _ => rfl) (.inl rfl) (fun _ => .inl rfl)
          (fun _ => .inr rfl) hfirst
      | compactLevels table =>
        have hcompact := h.compact_eq hq gcHorizon table
        change (store.compact cfg gcHorizon table).map _ = some r' at hstep
        rw [hcompact, Option.map_some, Option.some.injEq] at hstep
        obtain rfl := hstep
        exact h.of_files_eq rfl rfl (fun _ => rfl) (fun _ => rfl) (.inl rfl) (fun _ => .inl rfl)
          (fun _ => .inl rfl) hfirst
      | truncateWal table =>
        obtain rfl := Option.some.inj hstep
        have htables := store.truncateWal_tables table
        refine h.of_files_eq rfl ?_ (fun u => ?_) (fun u => ?_) (.inl ?_) (fun u => ?_)
          (fun u => .inl ?_) hfirst.2
        · rw [truncateWal]
          split_ifs <;> rfl
        · rw [StoredTables.files, htables u]
          rfl
        · rw [htables u]
        · rw [truncateWal]
          split_ifs <;> rfl
        · rw [htables u]
          change (if _ then [] else _) = _ ∨ (if _ then [] else _) = _ ∧ _
          split_ifs with hu
          · exact .inr ⟨rfl, hu.1 ▸ hfirst.1⟩
          · exact .inl rfl
        · rw [htables u]
      | truncateCommitLog =>
        obtain rfl := Option.some.inj hstep
        change Inv cfg s ⟨if store.commitLogWriter then { store with commitLog := [] } else store,
          none, rest⟩
        split_ifs
        · exact h.of_files_eq rfl rfl (fun _ => rfl) (fun _ => rfl) (.inr ⟨rfl, hfirst.1⟩)
            (fun _ => .inl rfl) (fun _ => .inl rfl) hfirst.2
        · exact h.of_files_eq rfl rfl (fun _ => rfl) (fun _ => rfl) (.inl rfl)
            (fun _ => .inl rfl) (fun _ => .inl rfl) hfirst.2

theorem Inv.step_isSome (hq : s.Quiescent cfg) (h : r.Inv cfg s) (gcHorizon : UInt64)
    (hwork : r.snapshot ≠ none ∨ r.program ≠ []) : (r.step cfg gcHorizon).isSome = true := by
  obtain ⟨store, snapshot, program⟩ := r
  cases snapshot with
  | some pending => rfl
  | none =>
    cases program with
    | nil => simp at hwork
    | cons op rest =>
      cases op with
      | compactLevels table =>
        change ((store.compact cfg gcHorizon table).map _).isSome = true
        rw [h.compact_eq hq gcHorizon table]
        rfl
      | flushTable table => rfl
      | writeManifest => rfl
      | truncateWal table => rfl
      | truncateCommitLog => rfl

/-- Where no table has a gap in its level files, a crash at any point of a checkpoint and the next
start leave every snapshot the rows it saw before. -/
theorem visible_throughout (hq : s.Quiescent cfg) (hgap : ∀ table, (s.files table).Gapless)
    {tables : List ν} (hall : ∀ table, table ∈ tables) (gcHorizons : List UInt64) :
    Throughout (step cfg) (fun r => ∀ table pk ts,
      r.store.visibleAfterRestart cfg table pk ts = some (s.visible table pk ts))
      (start s tables) gcHorizons := by
  have hinv : Throughout (step cfg) (Inv cfg s) (start s tables) gcHorizons :=
    Throughout.of_invariant (fun _ _ _ h hstep => h.step hq hstep) (Inv.start hq hall)
  exact hinv.mono fun r h table => h.visibleAfterRestart hq (hgap table)

section Samples

theorem l0Full_eq_false {cfg : LsmConfig} {f : LevelFiles} {es : List MemEntry}
    (hfile : f.file 0 = some es)
    (h : (serializeSchema cfg.columns).length + (es.flatMap sstRecord).length +
      (sstFooter es).serialize.length + 2 * pageSize + 16 < cfg.l0CompactionThresholdBytes) :
    l0Full cfg f = false := by
  simp only [l0Full, hfile, decide_eq_false_iff_not, not_le]
  exact (fileSize_le cfg.columns es).trans_lt h

def roomyConfig : CheckpointConfig Unit := ⟨fun _ => ⟨smallConfig.columns, 2 ^ 20, 2⟩, true⟩

def oneRowStore : StoredTables Unit :=
  ⟨fun _ => ⟨createTable smallConfig, [sampleRow], true, some [sampleRow]⟩, [1], true, true⟩

theorem oneRowStore_quiescent : oneRowStore.Quiescent roomyConfig where
  settled _ := Settled.create smallConfig.columns
  walOrdered := fun () => by decide
  loaded _ m hm := by
    obtain rfl := Option.some.inj hm
    refine ⟨by decide, by decide, ⟨fun e he => ?_, fun e he => .inl ?_⟩⟩
    · exact he
    · exact he
  below := fun () => ⟨l0Full_eq_false rfl (by decide), l0Full_eq_false rfl (by decide)⟩

theorem fresh_gapless (table : Unit) : (oneRowStore.files table).Gapless := by
  intro level hlevel
  have habsent := LevelFiles.fresh.absent (level + 1) (Nat.succ_pos level)
  change (LevelFiles.fresh.file (level + 1)).isSome = true at hlevel
  simp [habsent] at hlevel

theorem oneRowStore_visible : Throughout (step roomyConfig) (fun r => ∀ table pk ts,
    r.store.visibleAfterRestart roomyConfig table pk ts = some (oneRowStore.visible table pk ts))
    (start oneRowStore [()]) (List.replicate 8 0) :=
  visible_throughout oneRowStore_quiescent fresh_gapless (fun _ => by simp) _

/-- A committed row in the memtable and the log of the table with a gap in its level files. -/
def gapStore : StoredTables Unit :=
  ⟨fun _ => ⟨⟨gapFiles, manifestOf smallConfig.columns gapFiles⟩,
    [⟨.int 3, ⟨[.int 3]⟩, false, 3⟩], true, some [⟨.int 3, ⟨[.int 3]⟩, false, 3⟩]⟩, [3], true, true⟩

theorem gapStore_quiescent : gapStore.Quiescent roomyConfig where
  settled _ := by
    have hmax : smallConfig.lsmMaxLevel < 256 := by decide
    have hsettled := gapFiles_reachable.settled hmax
    exact hsettled
  walOrdered := fun () => by decide
  loaded _ m hm := by
    obtain rfl := Option.some.inj hm
    exact ⟨by decide, by decide, ⟨fun e he => he, fun e he => .inl he⟩⟩
  below := fun () => ⟨l0Full_eq_false rfl (by decide), l0Full_eq_false rfl (by decide)⟩

theorem run_single {lsm : LsmConfig} {disk : DiskState} {m wal : List MemEntry} {log : List UInt64}
    {f : LevelFiles} (hm : m ≠ [])
    (hf : f = disk.files.write 0 (mergeEntries m (disk.files.entriesAt 0)))
    (hfull : l0Full lsm f = false) :
    run (step ⟨fun _ => lsm, true⟩) (start ⟨fun _ => ⟨disk, wal, true, some m⟩, log, true, true⟩ [()])
      (List.replicate 8 0) =
        some ⟨⟨fun _ => ⟨⟨f, manifestOf lsm.columns f⟩, [], true, some []⟩, [], true, true⟩, none,
          []⟩ := by
  have hcompact : ∀ (wal : List MemEntry) (rest : List (CheckpointOp Unit)),
      step ⟨fun _ => lsm, true⟩ ⟨⟨fun _ => ⟨⟨f, manifestOf lsm.columns f⟩, wal, true, some []⟩, log,
        true, true⟩, none, .compactLevels () :: rest⟩ 0 =
      some ⟨⟨fun _ => ⟨⟨f, manifestOf lsm.columns f⟩, wal, true, some []⟩, log, true, true⟩, none,
        rest⟩ := by
    intro wal rest
    exact congrArg (Option.map _) (compact_of_below hfull 0)
  have hflush : step ⟨fun _ => lsm, true⟩
      (start ⟨fun _ => ⟨disk, wal, true, some m⟩, log, true, true⟩ [()]) 0 =
      some ⟨⟨fun _ => ⟨disk, wal, true, some []⟩, log, true, true⟩, some ((), m),
        [.compactLevels (), .truncateWal (), .truncateCommitLog]⟩ := by
    have hsnapshot : (if m = [] then none else some ((), m)) = some ((), m) := if_neg hm
    rw [← hsnapshot]
    rfl
  have hwrite : step ⟨fun _ => lsm, true⟩ ⟨⟨fun _ => ⟨disk, wal, true, some []⟩, log, true, true⟩,
      some ((), m), [.compactLevels (), .truncateWal (), .truncateCommitLog]⟩ 0 =
      some ⟨⟨fun _ => ⟨⟨f, disk.manifest⟩, wal, true, some []⟩, log, true, true⟩, none,
        [.writeManifest, .compactLevels (), .truncateWal (), .compactLevels (), .truncateWal (),
          .truncateCommitLog]⟩ := by
    rw [hf]
    rfl
  have hmanifest : step ⟨fun _ => lsm, true⟩ ⟨⟨fun _ => ⟨⟨f, disk.manifest⟩, wal, true, some []⟩,
      log, true, true⟩, none, [.writeManifest, .compactLevels (), .truncateWal (),
        .compactLevels (), .truncateWal (), .truncateCommitLog]⟩ 0 =
      some ⟨⟨fun _ => ⟨⟨f, manifestOf lsm.columns f⟩, wal, true, some []⟩, log, true, true⟩, none,
        [.compactLevels (), .truncateWal (), .compactLevels (), .truncateWal (),
          .truncateCommitLog]⟩ := rfl
  have htruncate : ∀ (wal : List MemEntry) (rest : List (CheckpointOp Unit)),
      step ⟨fun _ => lsm, true⟩ ⟨⟨fun _ => ⟨⟨f, manifestOf lsm.columns f⟩, wal, true, some []⟩, log,
        true, true⟩, none, .truncateWal () :: rest⟩ 0 =
      some ⟨⟨fun _ => ⟨⟨f, manifestOf lsm.columns f⟩, [], true, some []⟩, log, true, true⟩, none,
        rest⟩ := fun _ _ => rfl
  simp only [List.replicate, run, hflush, Option.bind_some, hwrite, hmanifest, hcompact, htruncate]
  rfl

/-- The row of the memtable is gone when the table has a gap: the checkpoint puts it into level 0
and truncates the log, and the next start clears level 0. -/
theorem gapStore_loses_row :
    gapStore.Quiescent roomyConfig ∧ gapStore.visible () (.int 3) 3 = some ⟨[.int 3]⟩ ∧
      ∃ r, run (step roomyConfig) (start gapStore [()]) (List.replicate 8 0) = some r ∧
        r.program = [] ∧ r.store.visibleAfterRestart roomyConfig () (.int 3) 3 = some none := by
  have hfull : l0Full (roomyConfig.lsm ()) (gapFiles.write 0 (mergeEntries
      [⟨.int 3, ⟨[.int 3]⟩, false, 3⟩] (gapFiles.entriesAt 0))) = false := l0Full_eq_false rfl (by decide)
  obtain ⟨disk, hdisk, hentries⟩ := reconcile_clears_above_gap
    (mergeEntries [⟨.int 3, ⟨[.int 3]⟩, false, 3⟩] (gapFiles.entriesAt 0))
  refine ⟨gapStore_quiescent, by decide, _, run_single (by simp) rfl hfull, rfl, ?_⟩
  rw [visibleAfterRestart]
  change (reconcileWithManifest smallConfig.columns _).map _ = some none
  rw [hdisk, Option.map_some, Option.some.injEq, visibleOutcome, hentries]
  decide

end Samples

end CheckpointRun

end CoroDB
