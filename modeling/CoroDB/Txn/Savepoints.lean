import CoroDB.Framework.UndoStack
import CoroDB.Txn.Dml
import CoroDB.Txn.TableWrites

/-!
# Savepoints

A savepoint keeps a copy of what a transaction has written and read.
-/

namespace CoroDB

open Framework

variable {ν ι : Type} [DecidableEq ν] [DecidableEq ι]

structure TxnData (ν : Type) [DecidableEq ν] where
  writeBuffer : TxnWriteBuffer ν
  readSet : KeyMap (tableRowEq ν) Unit
  tableReadVersions : KeyMap (KeyEq.ofDecidableEq ν) UInt64

abbrev TxnOp (ν : Type) [DecidableEq ν] := UndoOp String (TxnData ν)

namespace Savepoint

def entry (sp : Savepoint ν) : String × TxnData ν :=
  (sp.name, ⟨sp.writeBuffer, sp.readSet, sp.tableReadVersions⟩)

def ofEntry (m : String × TxnData ν) : Savepoint ν :=
  ⟨m.1, m.2.writeBuffer, m.2.readSet, m.2.tableReadVersions⟩

end Savepoint

namespace Session

def txnData (s : Session ν) : TxnData ν := ⟨s.writeBuffer, s.readSet, s.tableReadVersions⟩

def withTxnData (s : Session ν) (d : TxnData ν) : Session ν :=
  { s with
    writeBuffer := d.writeBuffer
    readSet := d.readSet
    tableReadVersions := d.tableReadVersions }

def undoStack (s : Session ν) : UndoStack String (TxnData ν) :=
  ⟨s.txnData, s.savepoints.reverse.map Savepoint.entry⟩

def withUndoStack (s : Session ν) (u : UndoStack String (TxnData ν)) : Session ν :=
  { s.withTxnData u.current with savepoints := (u.marks.map Savepoint.ofEntry).reverse }

theorem undoStack_withUndoStack (s : Session ν) (u : UndoStack String (TxnData ν)) :
    (s.withUndoStack u).undoStack = u := by
  have hentry : Savepoint.entry ∘ Savepoint.ofEntry = @id (String × TxnData ν) := rfl
  simp [undoStack, withUndoStack, hentry]
  rfl

theorem withUndoStack_entries (s : Session ν) (d : TxnData ν) (savepoints : List (Savepoint ν)) :
    s.withUndoStack ⟨d, savepoints.reverse.map Savepoint.entry⟩ =
      { s.withTxnData d with savepoints := savepoints } := by
  have hentry : Savepoint.ofEntry ∘ Savepoint.entry = @id (Savepoint ν) := rfl
  simp [withUndoStack, hentry]

theorem withUndoStack_undoStack (s : Session ν) : s.withUndoStack s.undoStack = s :=
  s.withUndoStack_entries s.txnData s.savepoints

theorem withUndoStack_withUndoStack (s : Session ν) (u u' : UndoStack String (TxnData ν)) :
    (s.withUndoStack u).withUndoStack u' = s.withUndoStack u' := rfl

theorem fromName_undoStack (s : Session ν) (name : String) :
    fromName name s.undoStack.marks =
      (Database.savepointsUpTo s.savepoints name).reverse.map Savepoint.entry := by
  rw [Database.savepointsUpTo, List.reverse_reverse, undoStack, fromName, List.dropWhile_map]
  rfl

end Session

namespace Database

def runOp (db : Database ν ι) (i : ι) : TxnOp ν → Database ν ι × Output ν
  | .change f =>
    (db.setSession i ((db.sessions i).withTxnData (f (db.sessions i).txnData)), .ok [])
  | .mark name => db.savepoint i name
  | .backTo name => db.rollbackTo i name
  | .release name => db.releaseSavepoint i name

def opStep (i : ι) (db : Database ν ι) (op : TxnOp ν) : Option (Database ν ι) :=
  match db.runOp i op with
  | (db', .ok _) => some db'
  | (_, .error _) => none

def withUndoStack (db : Database ν ι) (i : ι) (u : UndoStack String (TxnData ν)) : Database ν ι :=
  db.setSession i ((db.sessions i).withUndoStack u)

section Law

variable {db db' : Database ν ι} {i : ι}

theorem withUndoStack_sessions (u : UndoStack String (TxnData ν)) :
    (db.withUndoStack i u).sessions i = (db.sessions i).withUndoStack u :=
  setSession_sessions_self ..

theorem withUndoStack_self : db.withUndoStack i (db.sessions i).undoStack = db := by
  rw [withUndoStack, Session.withUndoStack_undoStack, setSession_self]

theorem withUndoStack_idem (u u' : UndoStack String (TxnData ν)) :
    (db.withUndoStack i u).withUndoStack i u' = db.withUndoStack i u' := by
  rw [withUndoStack, withUndoStack_sessions, Session.withUndoStack_withUndoStack, withUndoStack,
    setSession, setSession, Function.update_idem, withUndoStack, setSession]

/-- An operation of the session is an operation on its undo stack. -/
theorem opStep_eq (hin : (db.sessions i).inTransaction = true) (op : TxnOp ν) :
    opStep i db op = ((db.sessions i).undoStack.step op).map (db.withUndoStack i) := by
  have hactive : ¬ (db.sessions i).inTransaction = false := by simp [hin]
  cases op with
  | change f =>
    simp only [opStep, runOp, UndoStack.step, Option.map_some, withUndoStack, Session.undoStack,
      Session.withUndoStack_entries]
    rfl
  | mark name =>
    have hmarks : (name, (db.sessions i).txnData) :: (db.sessions i).undoStack.marks =
        ((db.sessions i).savepoints ++ [(⟨name, (db.sessions i).writeBuffer, (db.sessions i).readSet,
          (db.sessions i).tableReadVersions⟩ : Savepoint ν)]).reverse.map Savepoint.entry := by
      rw [List.reverse_append]
      rfl
    simp only [opStep, runOp, savepoint, if_neg hactive, UndoStack.step, Option.map_some]
    change _ = some (db.withUndoStack i ⟨_, (name, (db.sessions i).txnData) :: _⟩)
    rw [hmarks, withUndoStack, Session.withUndoStack_entries]
    rfl
  | backTo name =>
    simp only [opStep, runOp, rollbackTo, if_neg hactive, UndoStack.step,
      Session.fromName_undoStack, List.head?_map, List.head?_reverse]
    cases (savepointsUpTo (db.sessions i).savepoints name).getLast? with
    | none => rfl
    | some sp =>
      simp only [Option.map_some, withUndoStack, Session.withUndoStack_entries]
      rfl
  | release name =>
    simp only [opStep, runOp, releaseSavepoint, if_neg hactive, UndoStack.step,
      Session.fromName_undoStack, List.head?_map, List.head?_reverse]
    cases (savepointsUpTo (db.sessions i).savepoints name).getLast? with
    | none => rfl
    | some sp =>
      rw [← List.map_tail, List.tail_reverse]
      simp only [Option.map_some, withUndoStack, Session.withUndoStack_entries]
      rfl

theorem run_opStep_eq (hin : (db.sessions i).inTransaction = true) (ops : List (TxnOp ν)) :
    run (opStep i) db ops =
      (run UndoStack.step (db.sessions i).undoStack ops).map (db.withUndoStack i) := by
  induction ops generalizing db with
  | nil => exact congrArg some withUndoStack_self.symm
  | cons op ops ih =>
    rw [run, opStep_eq hin, run, Option.map_bind, Option.bind_map]
    congr 1
    funext u
    have hin' : ((db.withUndoStack i u).sessions i).inTransaction = true := by
      rw [withUndoStack_sessions]
      exact hin
    rw [Function.comp_apply, ih hin', withUndoStack_sessions, Session.undoStack_withUndoStack]
    congr 1
    funext u'
    exact withUndoStack_idem u u'

/-- Operations of a transaction that all succeed lead to the same state as what is left of them when
every ROLLBACK TO deletes what was executed after its savepoint. -/
theorem run_rolledBack {ops : List (TxnOp ν)} (hin : (db.sessions i).inTransaction = true)
    (hsaves : (db.sessions i).savepoints = []) (hrun : run (opStep i) db ops = some db') :
    run (opStep i) db (UndoOp.eraseUndone ops) = some db' := by
  have hmarks : (db.sessions i).undoStack.marks = [] := by simp [Session.undoStack, hsaves]
  rw [run_opStep_eq hin] at hrun ⊢
  obtain ⟨u, hu, rfl⟩ := Option.map_eq_some_iff.mp hrun
  rw [UndoStack.run_eraseUndone hmarks hu, Option.map_some]

def nestedStart : Database Unit Unit :=
  ⟨fun _ => SqlTable.accounts, {}, .empty, fun _ => { currentTxnId := 1 }⟩

def putRow (k : Int64) : TxnOp Unit :=
  .change fun d => { d with
    writeBuffer := d.writeBuffer.assign () ⟨.assign .empty (.int k) ⟨[.int k]⟩, .empty⟩ }

def nestedOps : List (TxnOp Unit) :=
  [.mark "a", putRow 1, .mark "a", putRow 2, .mark "b", .backTo "a", putRow 3, .release "a",
    putRow 4, .backTo "a", putRow 5]

def nestedEnd : Database Unit Unit := (run (opStep ()) nestedStart nestedOps).getD nestedStart

theorem nested_savepoints :
    run (opStep ()) nestedStart (UndoOp.eraseUndone nestedOps) = some nestedEnd :=
  run_rolledBack rfl rfl rfl

end Law

section Statements

variable {db db' : Database ν ι} {i : ι} {q : Statement ν} {out : Output ν}

def effect (db : Database ν ι) (i : ι) (q : Statement ν) (d : TxnData ν) : TxnData ν :=
  match (db.setSession i ((db.sessions i).withTxnData d)).exec i q with
  | some r => (r.1.sessions i).txnData
  | none => d

/-- A statement as an operation of the transaction; the statements that begin or end a transaction,
or set its isolation level, are none. -/
def opOf (db : Database ν ι) (i : ι) : Statement ν → Option (TxnOp ν)
  | .savepoint name => some (.mark name)
  | .rollbackTo name => some (.backTo name)
  | .releaseSavepoint name => some (.release name)
  | .begin => none
  | .commit => none
  | .rollback => none
  | .setTransaction _ => none
  | .select subqueries tables => some (.change (db.effect i (.select subqueries tables)))
  | .insert p => some (.change (db.effect i (.insert p)))
  | .update subqueries p => some (.change (db.effect i (.update subqueries p)))
  | .delete subqueries p => some (.change (db.effect i (.delete subqueries p)))

theorem effect_self (h : db.exec i q = some (db', out)) :
    db.effect i q (db.sessions i).txnData = (db'.sessions i).txnData := by
  have hself : db.setSession i ((db.sessions i).withTxnData (db.sessions i).txnData) = db :=
    setSession_self
  rw [effect, hself, h]

theorem savepoints_runDml {s : Session ν} {table : ν}
    {inTxn : UInt64 → TxnWork ν → Option (SqlError ν) × TxnWork ν}
    {auto : UInt64 → Option (SqlError ν) × SqlTable}
    (hs : ∃ r v, s = (db.sessions i).withReads r v)
    (h : db.runDml i s table inTxn auto = (db', out)) :
    (db'.sessions i).savepoints = (db.sessions i).savepoints := by
  obtain ⟨r, v, rfl⟩ := hs
  rw [runDml] at h
  split_ifs at h with hin
  · rw [← (Prod.mk.inj h).1]
    simp only [setSession_sessions_self]
    rfl
  · rw [← (Prod.mk.inj h).1]
    simp only [setSession_sessions_self]
    rfl

theorem savepoints_select {subqueries tables : List ν}
    (h : db.exec i (.select subqueries tables) = some (db', out)) :
    (db'.sessions i).savepoints = (db.sessions i).savepoints := by
  rw [exec] at h
  split_ifs at h
  · rw [← (Prod.mk.inj (Option.some.inj h)).1]
  · obtain ⟨⟨subRows, s₁⟩, hsub, h⟩ := Option.bind_eq_some_iff.mp h
    obtain ⟨⟨rows, s₂⟩, hscan, h⟩ := Option.map_eq_some_iff.mp h
    obtain ⟨r, v, rfl⟩ := Session.exists_resolveSubqueries hsub
    obtain ⟨r', v', rfl⟩ := Session.exists_scanAll hscan
    rw [← (Prod.mk.inj h).1, setSession_sessions_self]
    rfl

theorem savepoints_insert {p : InsertPlan ν} (h : db.exec i (.insert p) = some (db', out)) :
    (db'.sessions i).savepoints = (db.sessions i).savepoints := by
  rw [exec] at h
  split_ifs at h
  · rw [← (Prod.mk.inj (Option.some.inj h)).1]
  · have hrun := Option.some.inj h
    rw [insert] at hrun
    cases hrows : insertRows (db.tables p.table).columns p with
    | error e =>
      rw [hrows] at hrun
      exact savepoints_runDml ⟨_, _, rfl⟩ hrun
    | ok rows =>
      rw [hrows] at hrun
      exact savepoints_runDml ⟨_, _, rfl⟩ hrun

theorem savepoints_update {subqueries : List ν} {p : List (List Row) → UpdatePlan ν}
    (h : db.exec i (.update subqueries p) = some (db', out)) :
    (db'.sessions i).savepoints = (db.sessions i).savepoints := by
  rw [exec] at h
  split_ifs at h
  · rw [← (Prod.mk.inj (Option.some.inj h)).1]
  · obtain ⟨sub, hsub, hrun⟩ := Option.map_eq_some_iff.mp h
    rw [update_eq] at hrun
    exact savepoints_runDml (Session.exists_resolveSubqueries hsub) hrun

theorem savepoints_delete {subqueries : List ν} {p : List (List Row) → DeletePlan ν}
    (h : db.exec i (.delete subqueries p) = some (db', out)) :
    (db'.sessions i).savepoints = (db.sessions i).savepoints := by
  rw [exec] at h
  split_ifs at h
  · rw [← (Prod.mk.inj (Option.some.inj h)).1]
  · obtain ⟨sub, hsub, hrun⟩ := Option.map_eq_some_iff.mp h
    rw [delete_eq] at hrun
    exact savepoints_runDml (Session.exists_resolveSubqueries hsub) hrun

theorem step_change (h : db.exec i q = some (db', out))
    (hsaves : (db'.sessions i).savepoints = (db.sessions i).savepoints) :
    (db.sessions i).undoStack.step (.change (db.effect i q)) = some (db'.sessions i).undoStack := by
  rw [UndoStack.step, Session.undoStack, effect_self h, Session.undoStack, hsaves]

theorem step_of_runOp {op : TxnOp ν} {rows : List (List Row)}
    (hin : (db.sessions i).inTransaction = true) (h : db.runOp i op = (db', .ok rows)) :
    (db.sessions i).undoStack.step op = some (db'.sessions i).undoStack := by
  have hop : opStep i db op = some db' := by rw [opStep, h]
  rw [opStep_eq hin] at hop
  obtain ⟨u, hu, rfl⟩ := Option.map_eq_some_iff.mp hop
  rw [hu, withUndoStack_sessions, Session.undoStack_withUndoStack]

theorem exec_undoStack {op : TxnOp ν} {rows : List (List Row)}
    (hin : (db.sessions i).inTransaction = true) (hop : db.opOf i q = some op)
    (h : db.exec i q = some (db', .ok rows)) :
    (db.sessions i).undoStack.step op = some (db'.sessions i).undoStack := by
  cases q with
  | begin => simp [opOf] at hop
  | commit => simp [opOf] at hop
  | rollback => simp [opOf] at hop
  | setTransaction level => simp [opOf] at hop
  | savepoint name =>
    exact Option.some.inj hop ▸ step_of_runOp hin (Option.some.inj h)
  | rollbackTo name =>
    exact Option.some.inj hop ▸ step_of_runOp hin (Option.some.inj h)
  | releaseSavepoint name =>
    exact Option.some.inj hop ▸ step_of_runOp hin (Option.some.inj h)
  | select subqueries tables => exact Option.some.inj hop ▸ step_change h (savepoints_select h)
  | insert p => exact Option.some.inj hop ▸ step_change h (savepoints_insert h)
  | update subqueries p => exact Option.some.inj hop ▸ step_change h (savepoints_update h)
  | delete subqueries p => exact Option.some.inj hop ▸ step_change h (savepoints_delete h)

theorem Transition.currentTxnId {op : TxnOp ν} (h : Transition db i q db' out)
    (hin : (db.sessions i).inTransaction = true) (hop : db.opOf i q = some op) :
    (db'.sessions i).currentTxnId = (db.sessions i).currentTxnId := by
  cases h with
  | within s m out hs hm =>
    rw [setSession_sessions_self]
    exact hs.txnId
  | begin snapshot hq hidle hsnap =>
    rw [hq, opOf] at hop
    contradiction
  | abandon m savepoints out hin hm hq =>
    rcases hq with ⟨hq, -⟩ | hq
    · rw [hq, opOf] at hop
      contradiction
    · rw [hq, opOf] at hop
      contradiction
  | commit ts m hq hin hconflict hcommit =>
    rw [hq, opOf] at hop
    contradiction
  | dml table r s m hin haborted hdml hs hbuf hsaves hm =>
    rw [setSession_sessions_self]
    exact hs.txnId
  | auto table r s hidle hdml hs => simp [hin] at hidle

/-- The statement is not of the session, or it belongs to a transaction and succeeds. -/
def Succeeds (i : ι) (db : Database ν ι) (a : ι × Statement ν) : Prop :=
  a.1 = i → (db.opOf i a.2).isSome = true ∧
    ∃ db' rows, db.exec i a.2 = some (db', .ok rows)

def opsOf (i : ι) (db : Database ν ι) : List (ι × Statement ν) → List (TxnOp ν)
  | [] => []
  | a :: as =>
    let rest := ((db.step a).map fun db' => opsOf i db' as).getD []
    if a.1 = i then (db.opOf i a.2).toList ++ rest else rest

theorem Transition.sessions_of_ne {j : ι} (h : Transition db j q db' out) (hij : i ≠ j) :
    db'.sessions i = db.sessions i := by
  cases h <;> exact setSession_sessions_of_ne hij _

/-- Among the statements of all sessions, those of one transaction do to its data and its savepoints
what their operations do to an undo stack. -/
theorem run_undoStack {as : List (ι × Statement ν)} (hin : (db.sessions i).inTransaction = true)
    (hok : Guarded step (Succeeds i) db as) (hrun : run step db as = some db') :
    run UndoStack.step (db.sessions i).undoStack (opsOf i db as) =
      some (db'.sessions i).undoStack := by
  induction as generalizing db with
  | nil => rw [Option.some.inj hrun]; rfl
  | cons a as ih =>
    obtain ⟨db₁, hstep, hrun⟩ := run_cons hrun
    obtain ⟨⟨db₁, out⟩, hexec, rfl⟩ := Option.map_eq_some_iff.mp hstep
    have hnext := hok.2 _ hstep
    have hops : opsOf i db (a :: as) =
        if a.1 = i then (db.opOf i a.2).toList ++ opsOf i db₁ as else opsOf i db₁ as := by
      rw [opsOf, hstep]
      rfl
    rw [hops]
    split_ifs with hi
    · subst hi
      obtain ⟨hop, db₂, rows, hrows⟩ := hok.1 rfl
      obtain ⟨op, hop⟩ := Option.isSome_iff_exists.mp hop
      obtain ⟨rfl, rfl⟩ := Prod.mk.inj (Option.some.inj (hexec.symm.trans hrows))
      have hin' : (db₁.sessions a.1).inTransaction = true := by
        rw [Session.inTransaction, (exec_transition hexec).currentTxnId hin hop]
        exact hin
      rw [hop]
      change (UndoStack.step _ op).bind _ = _
      rw [exec_undoStack hin hop hrows, Option.bind_some]
      exact ih hin' hnext hrun
    · have hsame := (exec_transition hexec).sessions_of_ne (Ne.symm hi)
      rw [← hsame]
      exact ih (hsame ▸ hin) hnext hrun

/-- The data of a transaction and its savepoints are those of the statements that no ROLLBACK TO has
undone. -/
theorem run_statements_rolledBack {as : List (ι × Statement ν)}
    (hin : (db.sessions i).inTransaction = true) (hsaves : (db.sessions i).savepoints = [])
    (hok : Guarded step (Succeeds i) db as) (hrun : run step db as = some db') :
    run UndoStack.step (db.sessions i).undoStack (UndoOp.eraseUndone (opsOf i db as)) =
      some (db'.sessions i).undoStack :=
  UndoStack.run_eraseUndone (by simp [Session.undoStack, hsaves]) (run_undoStack hin hok hrun)

/-- Session `false` inserts a row and goes back to its savepoint while session `true` inserts one. -/
def undoneInsert : List (Bool × Statement Unit) :=
  [(false, .savepoint "a"), (true, .insert ⟨(), [0, 1], [[.int 1, .int 10]]⟩),
    (false, .insert ⟨(), [0, 1], [[.int 2, .int 20]]⟩), (false, .rollbackTo "a")]

def undoneStart : Database Unit Bool :=
  ((fresh fun _ => SqlTable.accounts).begin false).1

def undoneEnd : Database Unit Bool := (run step undoneStart undoneInsert).getD undoneStart

theorem undoneInsert_succeeds : Guarded step (Succeeds false) undoneStart undoneInsert := by
  refine ⟨fun _ => ⟨rfl, _, _, rfl⟩, fun db₁ h₁ => ?_⟩
  obtain rfl := Option.some.inj h₁
  refine ⟨fun h => Bool.noConfusion h, fun db₂ h₂ => ?_⟩
  obtain rfl := Option.some.inj h₂
  refine ⟨fun _ => ⟨rfl, _, _, rfl⟩, fun db₃ h₃ => ?_⟩
  obtain rfl := Option.some.inj h₃
  exact ⟨fun _ => ⟨rfl, _, _, rfl⟩, fun _ _ => trivial⟩

theorem undoneInsert_rolledBack :
    run UndoStack.step (undoneStart.sessions false).undoStack
        (UndoOp.eraseUndone (opsOf false undoneStart undoneInsert)) =
      some (undoneEnd.sessions false).undoStack :=
  run_statements_rolledBack rfl rfl undoneInsert_succeeds rfl

end Statements

end Database

end CoroDB
