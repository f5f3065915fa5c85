import CoroDB.Exec.Aggregate
import CoroDB.Storage.ScanCache
import CoroDB.Txn.TableWrites

/-!
# Global aggregation

`AggregatePlan` without group columns: one state for each aggregate, updated by every record of the
child.
-/

namespace CoroDB

open Framework

def AggState.accumulate (truncate : Double → Int64) (a : AggregateExpr) (r : Record)
    (st : AggState) : Except String AggState :=
  match a.func, a.arg with
  | .sum, some arg | .avg, some arg => do
    match ← r.lookup arg with
    | .null => return st
    | .double d => return { st with sum := st.sum + truncate d, count := st.count + 1 }
    | .int i => return { st with sum := st.sum + i, count := st.count + 1 }
    | .text _ => .error "[Executor] SUM/AVG requires numeric values"
  | _, _ => st.update a r

/-- A table with the result of its last `scan_visible`, which the storage engine keeps. -/
structure CachedTable where
  table : SqlTable
  writeVersion : UInt64
  cache : ScanCache

def CachedTable.state (t : CachedTable) : TableState :=
  ⟨t.table.memtable, 0, t.table.files, t.writeVersion, t.cache⟩

/-- The child of an aggregation: a sequential scan, or another plan by the records it yields. -/
inductive AggregateChild (ν : Type) [DecidableEq ν] where
  | seqScan (tables : ν → CachedTable) (session : Session ν) (name : ν) (binding : Bytes)
  | other (records : List Record)

/-- `make_record_from_row`. -/
def SqlTable.record (t : SqlTable) (binding : Bytes) (row : Row) : Record :=
  ⟨t.columns.map fun c => ⟨binding, c.name⟩, row.values⟩

variable {ν : Type} [DecidableEq ν]

def AggregateChild.records : AggregateChild ν → Option (List Record)
  | .seqScan tables s name binding =>
    (s.seqScan (fun n => (tables n).table) name).map fun scan =>
      scan.1.map ((tables name).table.record binding)
  | .other records => some records

/-- The table that the child scans is one that the storage engine keeps. -/
def AggregateChild.Stored : AggregateChild ν → Prop
  | .seqScan tables _ name _ => (tables name).table.Stored
  | .other _ => True

/-- `scan_visible` returns, from its cache or not, the rows that the child's table has now. -/
def AggregateChild.CacheFresh : AggregateChild ν → Prop
  | .seqScan tables s name _ =>
    ((tables name).state.scanVisible s.readSnapshot).1 = (tables name).table.scanVisible s.readSnapshot
  | .other _ => True

namespace AggregatePlan

section Global

variable (divide : Int64 → Int64 → Double) (truncate : Double → Int64) (p : AggregatePlan)

def accumulateStates (states : List AggState) (r : Record) : Except String (List AggState) :=
  (p.aggregates.zip states).mapM fun a => a.2.accumulate truncate a.1 r

def allCountStar : Bool :=
  !p.aggregates.isEmpty && p.having.isNone && p.aggregates.all fun a => a.func = .count && a.arg.isNone

/-- The number of rows that the fast path counts, where it applies. -/
def rowCount : AggregateChild ν → Option Nat
  | .seqScan tables s name _ =>
    if p.allCountStar && !s.tracksReads &&
      (s.bufferFor name).all fun b => b.upserts.entries.isEmpty && b.deletes.entries.isEmpty then
      some ((tables name).state.scanVisible s.readSnapshot).1.length
    else none
  | .other _ => none

def globalItem (states : List AggState) (item : SelectItem) : Except String (ColumnRef × Value) :=
  match item.value with
  | .inl a => do
    return (aggregateColumn a item.aliasName, (← p.stateOf states a).finalize divide a.func)
  | .inr _ => .error "[Executor] Non-aggregate expression in global aggregation"

def emitGlobal (states : List AggState) : Except String (List Record) := do
  p.passesHaving ((← p.projections.mapM (p.globalItem divide states)) ++
    p.appendedColumns divide states)

def executeGlobal (child : AggregateChild ν) : Option (Except String (List Record)) :=
  match p.rowCount child with
  | some n =>
    some (p.emitGlobal divide (p.freshStates.map fun st => { st with count := Int64.ofNat n }))
  | none => child.records.map fun rows => do
    p.emitGlobal divide (← rows.foldlM (p.accumulateStates truncate) p.freshStates)

def executeChild (child : AggregateChild ν) : Option (Except String (List Record)) :=
  if p.groupBy = [] then p.executeGlobal divide truncate child
  else child.records.map (p.execute divide)

end Global

section OneGroup

variable (p : AggregatePlan)

def OneGroup (rows : List Record) : Prop :=
  ∀ x ∈ rows, ∀ y ∈ rows, ∃ k j, p.groupKey x = .ok k ∧ p.groupKey y = .ok j ∧
    groupKeyEq.eq k j = true

/-- The columns that are aggregated hold only `NULL` and integers. -/
def IntegralArguments (rows : List Record) : Prop :=
  ∀ r ∈ rows, ∀ a ∈ p.aggregates, ∀ arg, a.arg = some arg → ∀ v, r.lookup arg = .ok v →
    v = .null ∨ ∃ i, v = .int i

def OnlyAggregates : Prop := ∀ item ∈ p.projections, ∃ a, item.value = .inl a

variable {p} {divide : Int64 → Int64 → Double} {truncate : Double → Int64} {rows : List Record}

theorem accumulate_eq_update {a : AggregateExpr} {r : Record} {st : AggState}
    (h : ∀ arg, a.arg = some arg → ∀ v, r.lookup arg = .ok v → v = .null ∨ ∃ i, v = .int i) :
    st.accumulate truncate a r = st.update a r := by
  obtain ⟨func, arg⟩ := a
  cases arg with
  | none => cases func <;> rfl
  | some arg =>
    have hsame : ∀ func, func = .sum ∨ func = .avg →
        st.accumulate truncate ⟨func, some arg⟩ r = st.update ⟨func, some arg⟩ r := by
      intro func hfunc
      cases hv : r.lookup arg with
      | error e => rcases hfunc with rfl | rfl <;> simp [AggState.accumulate, AggState.update, hv, bind, Except.bind]
      | ok v =>
        rcases h arg rfl v hv with rfl | ⟨i, rfl⟩ <;> rcases hfunc with rfl | rfl <;>
          simp [AggState.accumulate, AggState.update, hv, bind, Except.bind]
    cases func with
    | sum => exact hsame .sum (.inl rfl)
    | avg => exact hsame .avg (.inr rfl)
    | count => rfl
    | min => rfl
    | max => rfl

theorem accumulateStates_eq_updateStates (h : p.IntegralArguments rows) (r : Record) (hr : r ∈ rows)
    (states : List AggState) :
    p.accumulateStates truncate states r = p.updateStates states r := by
  apply mapM_congr
  intro a ha
  exact accumulate_eq_update (h r hr a.1 (List.of_mem_zip ha).1)

theorem updateStates_of_allCountStar (h : p.allCountStar = true) {states : List AggState}
    (hlen : states.length = p.aggregates.length) (r : Record) :
    p.updateStates states r = .ok (states.map fun st => { st with count := st.count + 1 }) := by
  have hstar : ∀ a ∈ p.aggregates, a = ⟨.count, none⟩ := by
    intro a ha
    simp only [allCountStar, Bool.and_eq_true, List.all_eq_true] at h
    obtain ⟨hcount, harg⟩ : a.func = .count ∧ a.arg = none := by simpa using h.2 a ha
    cases a
    simp_all
  have hmap : (p.aggregates.zip states).map Prod.snd = states := List.map_snd_zip hlen.le
  rw [updateStates, mapM_eq_ok (g := fun a => { a.2 with count := a.2.count + 1 })]
  · conv_rhs => rw [← hmap, List.map_map]
    rfl
  · intro a ha
    rw [hstar a.1 (List.of_mem_zip ha).1]
    rfl

theorem foldlM_of_allCountStar (h : p.allCountStar = true) (rows : List Record) :
    rows.foldlM p.updateStates p.freshStates =
      .ok (p.freshStates.map fun st => { st with count := Int64.ofNat rows.length }) := by
  suffices hall : ∀ n : Nat, rows.foldlM p.updateStates
      (p.freshStates.map fun st => { st with count := Int64.ofNat n }) =
        .ok (p.freshStates.map fun st => { st with count := Int64.ofNat (n + rows.length) }) by
    simpa [freshStates, AggState.fresh] using hall 0
  induction rows with
  | nil => exact fun n => rfl
  | cons r rows ih =>
    intro n
    rw [List.foldlM_cons, updateStates_of_allCountStar h (by simp [freshStates])]
    have hnext := ih (n + 1)
    rw [Int64.ofNat_add] at hnext
    rw [List.length_cons, Nat.add_comm rows.length, ← Nat.add_assoc]
    simpa [bind, Except.bind, Function.comp_def] using hnext

theorem emitGlobal_eq_emitGroup (hproj : p.OnlyAggregates) (hhaving : p.having = none)
    (key : List Value) (states : List AggState) :
    p.emitGlobal divide states = p.emitGroup divide key states := by
  have hitems : p.projections.mapM (p.globalItem divide states) =
      p.projections.mapM (p.projectItem divide key states) := by
    apply mapM_congr
    intro item hitem
    obtain ⟨a, ha⟩ := hproj item hitem
    simp only [globalItem, projectItem, ha]
  rw [emitGlobal, hitems, appendedColumns_eq (by simp [hhaving]), emitGroup, outputColumns]
  simp only [List.append_nil]

theorem OneGroup.keys (h : p.OneGroup rows) :
    (∀ x ∈ rows, p.groupKey x = .ok (p.groupKeyOf x)) ∧
      ∀ x ∈ rows, ∀ y ∈ rows, groupKeyEq.eq (p.groupKeyOf x) (p.groupKeyOf y) = true := by
  have hkey : ∀ x ∈ rows, p.groupKey x = .ok (p.groupKeyOf x) := by
    intro x hx
    obtain ⟨k, -, hk, -⟩ := h x hx x hx
    exact groupKey_eq_ok ⟨k, hk⟩
  refine ⟨hkey, fun x hx y hy => ?_⟩
  obtain ⟨k, j, hk, hj, hkj⟩ := h x hx y hy
  rw [hkey x hx] at hk
  rw [hkey y hy] at hj
  rw [Except.ok.inj hk, Except.ok.inj hj]
  exact hkj

theorem execute_of_oneGroup (hhaving : p.having = none) (hproj : p.OnlyAggregates)
    (hgroup : p.OneGroup rows) (hne : rows ≠ []) :
    p.execute divide rows = (do
      p.emitGlobal divide (← rows.foldlM p.updateStates p.freshStates)) := by
  obtain ⟨hkey, hsame⟩ := hgroup.keys
  cases rows with
  | nil => exact absurd rfl hne
  | cons r run =>
    have hrun : ∀ x ∈ run, groupKeyEq.eq (p.groupKeyOf r) (p.groupKeyOf x) = true :=
      fun x hx => hsame r List.mem_cons_self x (List.mem_cons_of_mem r hx)
    rw [execute]
    cases p.strategy with
    | hash =>
      dsimp only
      rw [emitGroups_of_oneGroup hkey hrun, emitAppended_eq (by simp [hhaving])]
      simp only [emitGlobal_eq_emitGroup hproj hhaving (p.groupKeyOf r)]
    | sort =>
      dsimp only
      rw [streamGroups_of_oneGroup hkey hrun]
      simp only [emitGlobal_eq_emitGroup hproj hhaving ((run.map p.groupKeyOf).getLastD (p.groupKeyOf r))]

end OneGroup

end AggregatePlan

section FastPath

theorem SqlTable.Stored.eq_scanVisible {t : SqlTable} (h : t.Stored) {snapshot : UInt64}
    {rows : List Row} (hrows : t.scanVisibleStream snapshot = some rows) :
    rows = t.scanVisible snapshot := by
  have ho : Ordered t.versions := by
    intro e he
    rw [← Bool.not_eq_true]
    intro hnan
    rw [SqlTable.scanVisibleStream_of_isNaN ⟨e, he, hnan⟩] at hrows
    cases hrows
  rw [(h.sound ho).scanVisibleStream_eq] at hrows
  exact (Option.some.inj hrows).symm

theorem TableTxnBuffer.overlay_of_empty (columns : List Column) {b : TableTxnBuffer}
    (hupserts : b.upserts.entries = []) (hdeletes : b.deletes.entries = []) (rows : List Row) :
    b.overlay columns rows = rows := by
  have hshown : b.shown columns = some := by
    funext row
    simp [shown, currentRow, KeyMap.contains, KeyMap.get?, hupserts, hdeletes]
  rw [overlay, hshown, hupserts]
  simp

theorem AggregatePlan.rowCount_eq {p : AggregatePlan} {child : AggregateChild ν} {n : Nat}
    {rows : List Record} (hstored : child.Stored)
    (hcache : p.allCountStar = true → child.CacheFresh) (hcount : p.rowCount child = some n)
    (hrows : child.records = some rows) : p.allCountStar = true ∧ n = rows.length := by
  cases child with
  | other records => cases hcount
  | seqScan tables s name binding =>
    rw [rowCount, Option.ite_none_right_eq_some] at hcount
    obtain ⟨hfast, hn⟩ := hcount
    simp only [Bool.and_eq_true] at hfast
    obtain ⟨⟨hstar, -⟩, hbuffer⟩ := hfast
    obtain ⟨scan, hscan, rfl⟩ := Option.map_eq_some_iff.mp hrows
    obtain ⟨read, hread, rfl⟩ := Option.map_eq_some_iff.mp hscan
    have hover : overlayRows (tables name).table.columns (s.bufferFor name) read = read := by
      cases hb : s.bufferFor name with
      | none => rfl
      | some b =>
        rw [hb] at hbuffer
        simp at hbuffer
        exact TableTxnBuffer.overlay_of_empty _ hbuffer.1 hbuffer.2 read
    have hlen := congrArg List.length (SqlTable.Stored.eq_scanVisible hstored hread)
    refine ⟨hstar, ?_⟩
    rw [List.length_map, hover, hlen]
    rw [hcache hstar] at hn
    exact (Option.some.inj hn).symm

end FastPath

namespace AggregatePlan

theorem executeGlobal_of_rowCount {divide : Int64 → Int64 → Double} {truncate : Double → Int64}
    {p : AggregatePlan} {child : AggregateChild ν} {n : Nat} (h : p.rowCount child = some n) :
    p.executeGlobal divide truncate child =
      some (p.emitGlobal divide (p.freshStates.map fun st => { st with count := Int64.ofNat n })) := by
  rw [executeGlobal, h]

theorem executeGlobal_of_records {divide : Int64 → Int64 → Double} {truncate : Double → Int64}
    {p : AggregatePlan} {child : AggregateChild ν} {rows : List Record}
    (h : p.rowCount child = none) (hrows : child.records = some rows) :
    p.executeGlobal divide truncate child = some (do
      p.emitGlobal divide (← rows.foldlM (p.accumulateStates truncate) p.freshStates)) := by
  rw [executeGlobal, h, hrows]
  rfl

section Sample

/-- Two accounts `i` of the same balance `b`, committed at timestamp 1. -/
def equalBalances : SqlTable :=
  (SqlTable.fresh [⟨[105], .int64, false, true⟩, ⟨[98], .int64, false, false⟩] (by simp)).insertBatch
    [⟨[.int 1, .int 10]⟩, ⟨[.int 2, .int 10]⟩] 1

/-- A scan of the accounts, which nothing has read before, in a transaction that has written nothing. -/
def scanInTransaction : AggregateChild Unit :=
  .seqScan (fun _ => ⟨equalBalances, 1, TableState.created.cache⟩)
    { currentTxnId := 1, snapshotTs := 2 } () [116]

def countStar (groupBy : List ColumnRef) : AggregatePlan :=
  ⟨groupBy, [⟨.count, none⟩], [⟨.inl ⟨.count, none⟩, none⟩], none, .hash⟩

/-- The account 1 is deleted under the timestamp of its row after that has been flushed, the rows are
read, and the deletion is flushed. -/
def deletedUnderCache : TableState :=
  (run (TableState.step ⟨equalBalances.columns, 2 ^ 20⟩) .created
    [.append ⟨[.int 1, .int 10]⟩ 0, .append ⟨[.int 2, .int 10]⟩ 0, .flush, .delete (.int 1) 0, .scan 9,
      .flush]).getD .created

def scanUnderCache : AggregateChild Unit :=
  .seqScan (fun _ => ⟨{ equalBalances with
      memtable := deletedUnderCache.memtable, files := deletedUnderCache.files },
    deletedUnderCache.writeVersion, deletedUnderCache.cache⟩) { snapshotTs := 9 } () [116]

end Sample

end AggregatePlan

end CoroDB
