import CoroDB.Txn.Database

/-!
# What statements do to a session

Reads change nothing of a session but what they record for the check of a Serializable transaction,
and preparing a statement changes its timestamps.
-/

namespace CoroDB

open Framework

variable {ν ι : Type} [DecidableEq ν] [DecidableEq ι]

namespace Session

variable {tables : ν → SqlTable} {s s' : Session ν} {name : ν} {names : List ν}
  {rows : List (List Row)}

def withReads (s : Session ν) (readSet : KeyMap (tableRowEq ν) Unit)
    (versions : KeyMap (KeyEq.ofDecidableEq ν) UInt64) : Session ν :=
  { s with readSet := readSet, tableReadVersions := versions }

theorem exists_trackScan (s : Session ν) (name : ν) (t : SqlTable) (rows : List Row) :
    ∃ r v, s.trackScan name t rows = s.withReads r v := by
  rw [trackScan]
  split_ifs
  · exact ⟨_, _, rfl⟩
  · exact ⟨s.readSet, s.tableReadVersions, rfl⟩

theorem scanAll_cons (h : s.scanAll tables (name :: names) = some (rows, s')) :
    ∃ read rest, (tables name).scanVisibleStream s.readSnapshot = some read ∧
      (s.trackScan name (tables name) read).scanAll tables names = some (rest, s') ∧
      rows = overlayRows (tables name).columns (s.bufferFor name) read :: rest := by
  obtain ⟨first, hfirst, hmap⟩ := Option.bind_eq_some_iff.mp h
  obtain ⟨⟨rest, s₁⟩, hrest, heq⟩ := Option.map_eq_some_iff.mp hmap
  obtain ⟨read, hread, rfl⟩ := Option.map_eq_some_iff.mp hfirst
  obtain ⟨rfl, rfl⟩ := Prod.mk.inj heq
  exact ⟨read, rest, hread, hrest, rfl⟩

theorem exists_scanAll (h : s.scanAll tables names = some (rows, s')) :
    ∃ r v, s' = s.withReads r v := by
  induction names generalizing s rows with
  | nil =>
    obtain ⟨-, rfl⟩ := Prod.mk.inj (Option.some.inj h)
    exact ⟨s.readSet, s.tableReadVersions, rfl⟩
  | cons name names ih =>
    obtain ⟨read, rest, -, hrest, -⟩ := scanAll_cons h
    obtain ⟨r, v, hs⟩ := ih hrest
    obtain ⟨r₁, v₁, hs₁⟩ := exists_trackScan s name (tables name) read
    exact ⟨r, v, by rw [hs, hs₁]; rfl⟩

theorem exists_resolveSubqueries (h : s.resolveSubqueries tables names = some (rows, s')) :
    ∃ r v, s' = s.withReads r v := by
  obtain ⟨q, hq, heq⟩ := Option.map_eq_some_iff.mp h
  obtain ⟨-, rfl⟩ := Prod.mk.inj heq
  obtain ⟨r, v, hs⟩ := exists_scanAll hq
  refine ⟨r, v, ?_⟩
  rw [hs, forSubqueries]
  split_ifs <;> rfl

theorem trackScan_of_not_tracks (h : s.tracksReads = false) (name : ν) (t : SqlTable) (rows : List Row) :
    s.trackScan name t rows = s :=
  if_neg (by simp [h])

theorem prepareForStatement_fixed (hin : s.inTransaction = true)
    (hlevel : s.isolation = .repeatableRead ∨ s.isolation = .serializable) (isSelect : Bool)
    (m : TransactionManager) :
    s.prepareForStatement isSelect m = ({ s with autoCommitTs := 0 }, m) := by
  rcases hlevel with hlevel | hlevel <;>
    simp [prepareForStatement, prepareSnapshot, hin, hlevel]

end Session

namespace Database

variable {db db' : Database ν ι} {i : ι} {out : List (List Row)}

@[simp]
theorem setSession_tables (s : Session ν) : (db.setSession i s).tables = db.tables := rfl

@[simp]
theorem setSession_txnManager (s : Session ν) : (db.setSession i s).txnManager = db.txnManager := rfl

@[simp]
theorem setSession_sessions_self (s : Session ν) : (db.setSession i s).sessions i = s :=
  Function.update_self ..

theorem setSession_sessions_of_ne {j : ι} (h : j ≠ i) (s : Session ν) :
    (db.setSession i s).sessions j = db.sessions j :=
  Function.update_of_ne h ..

theorem begin_eq (hidle : (db.sessions i).inTransaction = false)
    (hlevel : (db.sessions i).isolation = .repeatableRead ∨
      (db.sessions i).isolation = .serializable)
    (hnew : TransactionManager.find db.txnManager.txns db.txnManager.nextTxnId = none) :
    (db.begin i).1 = { db with txnManager := db.txnManager.begin.2 }.setSession i
      { db.sessions i with
        currentTxnId := db.txnManager.nextTxnId
        savepoints := []
        snapshotTs := db.txnManager.nextTs } := by
  have hread : db.txnManager.begin.2.getReadTs db.txnManager.begin.1 = some db.txnManager.nextTs :=
    TransactionManager.getReadTs_begin hnew
  rw [begin, if_neg (by simp [hidle])]
  rcases hlevel with hlevel | hlevel <;> simp only [hlevel, hread, Option.getD_some] <;> rfl

theorem update_eq (s : Session ν) (p : UpdatePlan ν) : db.update i s p =
    db.runDml i s p.table
      (fun txnId => txnUpdate (db.tables p.table).columns ((db.tables p.table).scanVisible maxTs)
        txnId p)
      (autoUpdate (db.tables p.table) p) := rfl

theorem delete_eq (s : Session ν) (p : DeletePlan ν) : db.delete i s p =
    db.runDml i s p.table
      (fun txnId => txnDelete (db.tables p.table).columns ((db.tables p.table).scanVisible maxTs)
        txnId p)
      (autoDelete (db.tables p.table) p) := rfl

end Database

end CoroDB
