import CoroDB.Txn.Database

/-!
# Replication records and the replica

The primary sends a record for every table it creates or drops, every row version it stores and every
commit.
-/

namespace CoroDB

open Framework

variable {ν : Type} [DecidableEq ν]

/-- A record of the stream. A table without columns is not decoded. -/
inductive ReplicationRecord (ν : Type) where
  | createTable (table : ν) (columns : List Column) (h : columns ≠ [])
  | dropTable (table : ν)
  | applyRow (table : ν) (row : Row) (commitTs : UInt64)
  | applyDelete (table : ν) (key : Value) (commitTs : UInt64)
  | commit (commitTs : UInt64)

/-- The tables of a storage engine and the timestamps in its commit log. -/
structure ReplEngine (ν : Type) where
  tables : ν → Option SqlTable
  commitLog : List UInt64 := []

namespace SqlTable

def appendRow (t : SqlTable) (row : Row) (commitTs : UInt64) : SqlTable :=
  t.put ⟨t.rowKey row, row, false, commitTs⟩

def deleteRowByKey (t : SqlTable) (key : Value) (commitTs : UInt64) : SqlTable :=
  t.put ⟨key, ⟨[]⟩, true, commitTs⟩

end SqlTable

namespace ReplEngine

def setTable (e : ReplEngine ν) (table : ν) (t : Option SqlTable) : ReplEngine ν :=
  { e with tables := Function.update e.tables table t }

def markCommitted (e : ReplEngine ν) (commitTs : UInt64) : ReplEngine ν :=
  if commitTs = 0 then e else { e with commitLog := e.commitLog ++ [commitTs] }

def applyReplicationRecord (e : ReplEngine ν) : ReplicationRecord ν → Bool × ReplEngine ν
  | .createTable table columns h =>
    if (e.tables table).isSome then (true, e) else (true, e.setTable table (some (.fresh columns h)))
  | .dropTable table =>
    if (e.tables table).isSome then (true, e.setTable table none) else (true, e)
  | .commit commitTs => (true, e.markCommitted commitTs)
  | .applyRow table row commitTs =>
    match e.tables table with
    | none => (false, e)
    | some t => (true, e.setTable table (some (t.appendRow row commitTs)))
  | .applyDelete table key commitTs =>
    match e.tables table with
    | none => (false, e)
    | some t => (true, e.setTable table (some (t.deleteRowByKey key commitTs)))

/-- The row versions of a record are ones that the table may take. -/
def Takes (e : ReplEngine ν) : ReplicationRecord ν → Prop
  | .applyRow table row commitTs => ∀ t, e.tables table = some t →
      t.Takes ⟨t.rowKey row, row, false, commitTs⟩
  | .applyDelete table key commitTs => ∀ t, e.tables table = some t →
      t.Takes ⟨key, ⟨[]⟩, true, commitTs⟩
  | _ => True

def Sound (e : ReplEngine ν) : Prop := ∀ n t, e.tables n = some t → t.Sound

theorem setTable_self (e : ReplEngine ν) (table : ν) (t : Option SqlTable) :
    (e.setTable table t).tables table = t :=
  Function.update_self ..

theorem setTable_of_ne {table n : ν} (h : n ≠ table) (e : ReplEngine ν) (t : Option SqlTable) :
    (e.setTable table t).tables n = e.tables n :=
  Function.update_of_ne h ..

theorem Sound.setTable {e : ReplEngine ν} (h : e.Sound) {table : ν} {t : Option SqlTable}
    (ht : ∀ x, t = some x → x.Sound) : (e.setTable table t).Sound := by
  intro n x hx
  by_cases hn : n = table
  · rw [hn, setTable_self] at hx
    exact ht x hx
  · rw [setTable_of_ne hn] at hx
    exact h n x hx

theorem Sound.apply {e : ReplEngine ν} {r : ReplicationRecord ν} (h : e.Sound) (hr : e.Takes r) :
    (e.applyReplicationRecord r).2.Sound := by
  cases r with
  | createTable table columns hne =>
    rw [applyReplicationRecord]
    split_ifs
    · exact h
    · exact h.setTable fun x hx => Option.some.inj hx ▸ SqlTable.fresh_sound columns hne
  | dropTable table =>
    rw [applyReplicationRecord]
    split_ifs
    · exact h.setTable nofun
    · exact h
  | commit commitTs =>
    rw [applyReplicationRecord, markCommitted]
    split_ifs <;> exact h
  | applyRow table row commitTs =>
    cases ht : e.tables table with
    | none => simpa only [applyReplicationRecord, ht] using h
    | some t =>
      simp only [applyReplicationRecord, ht]
      exact h.setTable fun x hx => Option.some.inj hx ▸ (h table t ht).put (hr t ht)
  | applyDelete table key commitTs =>
    cases ht : e.tables table with
    | none => simpa only [applyReplicationRecord, ht] using h
    | some t =>
      simp only [applyReplicationRecord, ht]
      exact h.setTable fun x hx => Option.some.inj hx ▸ (h table t ht).put (hr t ht)

end ReplEngine

end CoroDB
