import CoroDB.Process.Processor
import CoroDB.Txn.Transitions

/-!
# What the processor can do

Apart from transaction control every statement is a sequence of moves: it takes notes, reads as its
session, marks the transaction as failed, runs a plan that writes, changes a table or an index, or
moves the data of tables to other files.
-/

namespace CoroDB

open Framework

variable {ν ι : Type} [DecidableEq ν] [DecidableEq ι]

def Statement.modifies : Statement ν → Bool
  | insert _ => true
  | update _ _ => true
  | delete _ _ => true
  | _ => false

theorem Database.exists_exec_handle (db : Database ν ι) (i : ι) (c : TxnControl) :
    ∃ q, db.exec i q = some (db.handle i c) ∧ q.modifies = false := by
  cases c with
  | begin => exact ⟨.begin, rfl, rfl⟩
  | commit => exact ⟨.commit, rfl, rfl⟩
  | rollback toSavepoint =>
    cases toSavepoint with
    | none => exact ⟨.rollback, rfl, rfl⟩
    | some name => exact ⟨.rollbackTo name, rfl, rfl⟩
  | savepoint name => exact ⟨.savepoint name, rfl, rfl⟩
  | releaseSavepoint name => exact ⟨.releaseSavepoint name, rfl, rfl⟩
  | setTransaction level => exact ⟨.setTransaction level, rfl, rfl⟩

theorem Session.prepareForStatement_txns (s : Session ν) (isSelect : Bool) (m : TransactionManager) :
    (s.prepareForStatement isSelect m).2.txns = m.txns ∧
      (s.prepareForStatement isSelect m).2.nextTxnId = m.nextTxnId := by
  have hsnap : (s.prepareSnapshot m).2.txns = m.txns ∧
      (s.prepareSnapshot m).2.nextTxnId = m.nextTxnId := by
    rw [Session.prepareSnapshot]
    split_ifs
    · split <;> exact ⟨rfl, rfl⟩
    · exact ⟨rfl, rfl⟩
  rw [Session.prepareForStatement]
  dsimp only
  split_ifs <;> exact hsnap

namespace Processor

/-- One part of a statement of a session; `w` allows the parts that write. -/
inductive Move (i : ι) (w : Bool) (P : Processor ν ι) : Processor ν ι → Prop
  | notes (stats stmts texts users login) : Move i w P { P with
      stats := stats
      preparedStmts := stmts
      preparedSql := texts
      users := users
      login := login }
  | reads (s m) : (P.db.sessions i).Within s → m.txns = P.db.txnManager.txns →
      m.nextTxnId = P.db.txnManager.nextTxnId →
      Move i w P { P with db := { P.db with txnManager := m }.setSession i s }
  | fail : Move i w P (P.markFailed i)
  | write (isSelect plan r) : w = true → plan.isWrite = true →
      P.db.executePlan i isSelect plan = some r → Move i w P { P with db := r.1 }
  | utility (d P') : w = true → P.utility d = .ok P' → Move i w P P'
  | files (tables) : w = true → Move i w P { P with db := { P.db with tables := tables } }

abbrev Moves (i : ι) (w : Bool) : Processor ν ι → Processor ν ι → Prop :=
  Relation.ReflTransGen (Move i w)

variable {env : Environment ν} {P P' P'' : Processor ν ι} {i : ι} {w w' : Bool} {reply : Reply ν}

theorem Move.mono (hw : w = true → w' = true) (h : Move i w P P') : Move i w' P P' := by
  cases h with
  | notes stats stmts texts users login => exact .notes stats stmts texts users login
  | reads s m hs htxns hid => exact .reads s m hs htxns hid
  | fail => exact .fail
  | write isSelect plan r hr hplan h => exact .write isSelect plan r (hw hr) hplan h
  | utility d P' hr h => exact .utility d P' (hw hr) h
  | files tables hr => exact .files tables (hw hr)

theorem Moves.mono (hw : w = true → w' = true) (h : Moves i w P P') : Moves i w' P P' :=
  Relation.ReflTransGen.mono (fun _ _ => Move.mono hw) _ _ h

theorem Moves.of_eq (h : P' = P) : Moves i w P P' := by rw [h]

theorem moves_snapshotTs (P : Processor ν ι) (i : ι) : Moves i w P (P.snapshotTs i).2 := by
  rw [snapshotTs]
  split_ifs
  · exact .refl
  · have h := Move.reads (w := w) (P.db.sessions i) P.db.txnManager.allocateTs.2 (.refl _) rfl rfl
    have hself : Function.update P.db.sessions i (P.db.sessions i) = P.db.sessions :=
      Function.update_eq_self i P.db.sessions
    rw [Database.setSession, hself] at h
    exact .single h

theorem moves_clearPrepared (P : Processor ν ι) (i : ι) : Moves i w P (P.clearPrepared i) :=
  .single (.notes P.stats _ P.preparedSql P.users P.login)

theorem moves_analyzeTables (P : Processor ν ι) (ts : UInt64) (tables : List ν) :
    Moves i w P (tables.foldl (fun Q t => Q.analyzeTable env ts t) P) := by
  induction tables generalizing P with
  | nil => exact .refl
  | cons t tables ih =>
    exact .head (.notes _ P.preparedStmts P.preparedSql P.users P.login) (ih _)

theorem moves_maybeAutoAnalyze (P : Processor ν ι) (i : ι) (tables : List ν) :
    Moves i w P (P.maybeAutoAnalyze env i tables) := by
  have hrefreshed : Moves i w P ((P.staleTables env tables).foldl
      (fun Q t => Q.analyzeTable env (P.snapshotTs i).1 t) (P.snapshotTs i).2) :=
    (moves_snapshotTs P i).trans (moves_analyzeTables _ _ _)
  rw [maybeAutoAnalyze]
  dsimp only
  split_ifs
  · exact hrefreshed
  · exact hrefreshed.trans (moves_clearPrepared _ i)
  · exact .refl

theorem moves_started (P : Processor ν ι) (i : ι) (a : Ast ν) : Moves i w P (P.started env i a) := by
  cases a with
  | select q => exact moves_maybeAutoAnalyze P i q.tables
  | _ => exact .refl

theorem moves_resolveSubqueries {tables : List ν} {rows : List (List Row)}
    (h : P.resolveSubqueries i tables = some (.ok (rows, P'))) : Moves i w P P' := by
  rw [resolveSubqueries] at h
  split_ifs at h
  · obtain ⟨r, hr, heq⟩ := Option.map_eq_some_iff.mp h
    obtain ⟨-, rfl⟩ := Prod.mk.inj (Except.ok.inj heq)
    obtain ⟨reads, versions, hs⟩ := Session.exists_resolveSubqueries hr
    rw [hs]
    exact .single (.reads _ P.db.txnManager ((Session.Within.refl _).withReads reads versions)
      rfl rfl)
  · cases h

theorem moves_executePlan {isSelect : Bool} {p : Plan ν}
    {r : Database ν ι × Except (ProcessError ν) (List Row)}
    (h : P.db.executePlan i isSelect p = some r) : Moves i p.isWrite P { P with db := r.1 } := by
  have hprep := (P.db.sessions i).within_prepareForStatement isSelect P.db.txnManager
  have htxns := (P.db.sessions i).prepareForStatement_txns isSelect P.db.txnManager
  cases p with
  | select p =>
    obtain ⟨⟨rows, s⟩, hscan, rfl⟩ := Option.map_eq_some_iff.mp h
    obtain ⟨reads, versions, rfl⟩ := Session.exists_scanAll hscan
    exact .single (.reads _ _ (hprep.withReads reads versions) htxns.1 htxns.2)
  | insert p => exact .single (.write isSelect _ r rfl rfl h)
  | update p => exact .single (.write isSelect _ r rfl rfl h)
  | delete p => exact .single (.write isSelect _ r rfl rfl h)
  | utility d =>
    obtain rfl := Option.some.inj h
    exact .single (.reads _ _ hprep htxns.1 htxns.2)

theorem moves_prepare {name : String} {sql : Bytes}
    (h : P.prepare env i name sql = some (P', reply)) : Moves i w P P' := by
  rw [prepare] at h
  split_ifs at h
  · obtain ⟨rfl, -⟩ := Prod.mk.inj (Option.some.inj h)
    exact .single (.notes P.stats P.preparedStmts _ P.users P.login)
  · cases hparse : env.parse sql with
    | none =>
      rw [hparse] at h
      exact .of_eq (Prod.mk.inj (Option.some.inj h)).1.symm
    | some a =>
      rw [hparse] at h
      obtain ⟨resolved, hr, heq⟩ := Option.map_eq_some_iff.mp h
      cases resolved with
      | error e => exact .of_eq (Prod.mk.inj heq).1.symm
      | ok resolved =>
        obtain ⟨rows, Q⟩ := resolved
        have hQ : Moves i w P Q := moves_resolveSubqueries hr
        dsimp only at heq
        split at heq
        · obtain ⟨rfl, -⟩ := Prod.mk.inj heq
          exact hQ
        · obtain ⟨rfl, -⟩ := Prod.mk.inj heq
          exact hQ.tail (.notes Q.stats _ Q.preparedSql Q.users Q.login)

theorem moves_explain {analyze : Bool} {inner : Ast ν}
    (h : P.explain i analyze inner = some (P', reply)) : Moves i inner.isWriteStatement P P' := by
  obtain ⟨resolved, hr, heq⟩ := Option.bind_eq_some_iff.mp h
  cases resolved with
  | error e => exact .of_eq (Prod.mk.inj (Option.some.inj heq)).1.symm
  | ok resolved =>
    obtain ⟨rows, Q⟩ := resolved
    have hQ : Moves i inner.isWriteStatement P Q := moves_resolveSubqueries hr
    dsimp only at heq
    split at heq
    · obtain ⟨rfl, -⟩ := Prod.mk.inj (Option.some.inj heq)
      exact hQ
    · rename_i plan hplan
      split_ifs at heq
      · obtain ⟨r, hr, heq⟩ := Option.map_eq_some_iff.mp heq
        obtain ⟨rfl, -⟩ := Prod.mk.inj heq
        exact hQ.trans ((moves_executePlan hr).mono (isWrite_of_buildPhysicalPlan hplan))
      · obtain ⟨rfl, -⟩ := Prod.mk.inj (Option.some.inj heq)
        exact hQ

omit [DecidableEq ν] in
theorem isWriteStatement_of_utility {schema : Schema ν} {rows : List (List Row)} {a : Ast ν}
    {d : Ddl ν} (h : buildPhysicalPlan schema rows a = .ok (.utility d)) :
    a.isWriteStatement = true := by
  cases a with
  | ddl d => rfl
  | select q =>
    obtain ⟨r, -, heq⟩ := exceptMap_eq_ok.mp h
    cases heq
  | insert q => rfl
  | update q => rfl
  | delete q => rfl
  | _ => cases h

theorem moves_runPlanned {a : Ast ν} {rows : List (List Row)}
    (h : P.runPlanned i a rows = some (P', reply)) : Moves i a.isWriteStatement P P' := by
  rw [runPlanned] at h
  split at h
  · obtain ⟨rfl, -⟩ := Prod.mk.inj (Option.some.inj h)
    exact .single .fail
  · rename_i d hplan
    split at h
    · obtain ⟨rfl, -⟩ := Prod.mk.inj (Option.some.inj h)
      exact .single .fail
    · rename_i Q hQ
      obtain ⟨rfl, -⟩ := Prod.mk.inj (Option.some.inj h)
      exact .single (.utility d Q (isWriteStatement_of_utility hplan) hQ)
  · rename_i plan _ hplan
    obtain ⟨r, hr, heq⟩ := Option.map_eq_some_iff.mp h
    have hmoves : Moves i a.isWriteStatement P { P with db := r.1 } :=
      (moves_executePlan hr).mono (isWrite_of_buildPhysicalPlan hplan)
    dsimp only at heq
    split at heq
    · obtain ⟨rfl, -⟩ := Prod.mk.inj heq
      exact hmoves
    · obtain ⟨rfl, -⟩ := Prod.mk.inj heq
      split_ifs
      · exact hmoves
      · exact hmoves.tail .fail

theorem moves_runStatement {a : Ast ν} (h : P.runStatement env i a = some (P', reply)) :
    Moves i a.isWriteStatement P P' := by
  have hstart : Moves i a.isWriteStatement P (P.started env i a) := moves_started P i a
  obtain ⟨resolved, hr, heq⟩ := Option.bind_eq_some_iff.mp h
  cases resolved with
  | error e =>
    obtain ⟨rfl, -⟩ := Prod.mk.inj (Option.some.inj heq)
    exact hstart.tail .fail
  | ok resolved =>
    obtain ⟨rows, Q⟩ := resolved
    have hQ := hstart.trans (moves_resolveSubqueries hr)
    dsimp only at heq
    split_ifs at heq
    · exact (hQ.trans (moves_clearPrepared Q i)).trans (moves_runPlanned heq)
    · exact hQ.trans (moves_runPlanned heq)

theorem moves_executePrepared {name : String}
    (h : P.executePrepared i name = some (P', reply)) :
    Moves i ((P.preparedStmts i name).any Plan.isWrite) P P' := by
  rw [executePrepared] at h
  cases hplan : P.preparedStmts i name with
  | none =>
    rw [hplan] at h
    exact .of_eq (Prod.mk.inj (Option.some.inj h)).1.symm
  | some plan =>
    rw [hplan] at h
    obtain ⟨r, hr, heq⟩ := Option.map_eq_some_iff.mp h
    obtain ⟨rfl, -⟩ := Prod.mk.inj heq
    exact moves_executePlan hr

theorem moves_analyze (P : Processor ν ι) (i : ι) (table : Option ν) :
    Moves i w P (P.analyze env i table).1 := by
  rw [analyze]
  split_ifs
  · exact ((moves_snapshotTs P i).trans (moves_analyzeTables _ _ _)).trans (moves_clearPrepared _ i)
  · exact moves_snapshotTs P i

theorem moves_deallocate (P : Processor ν ι) (i : ι) (name : Option String) :
    Moves i w P (P.deallocate i name) := by
  cases name with
  | none => exact moves_clearPrepared P i
  | some name => exact .single (.notes P.stats _ P.preparedSql P.users P.login)

theorem move_checkpoint (hw : w = true) (h : P.checkpoint env = some P') : Move i w P P' := by
  obtain ⟨tables, -, rfl⟩ := Option.map_eq_some_iff.mp h
  exact .files tables hw

/-- A statement other than transaction control, once the text under its name is in its place. -/
theorem moves_dispatch {a : Ast ν} (ha : ∀ c, a ≠ .control c)
    (hw : a.changesData = true → w = true) (hcheckpoint : a = .checkpoint → w = true)
    (hx : ∀ name params, a = .execute name params →
      (P.preparedStmts i name).any Plan.isWrite = true → w = true)
    (h : P.dispatch env i (fun _ _ => none) a = some (P', reply)) : Moves i w P P' := by
  have hblock (ha : a.changesData = a.isWriteStatement)
      (h : (if P.db.aborted i then some (P, .error (.sql .transactionAborted))
        else P.runStatement env i a) = some (P', reply)) : Moves i w P P' := by
    split_ifs at h
    · exact .of_eq (Prod.mk.inj (Option.some.inj h)).1.symm
    · exact (moves_runStatement h).mono (ha ▸ hw)
  cases a with
  | createUser name password role =>
    obtain ⟨rfl, -⟩ := Prod.mk.inj (Option.some.inj h)
    exact .single (.notes P.stats P.preparedStmts P.preparedSql _ P.login)
  | auth name password =>
    obtain ⟨rfl, -⟩ := Prod.mk.inj (Option.some.inj h)
    exact .single (.notes P.stats P.preparedStmts P.preparedSql P.users _)
  | control c => exact absurd rfl (ha c)
  | checkpoint =>
    obtain ⟨Q, hQ, heq⟩ := Option.map_eq_some_iff.mp h
    obtain ⟨rfl, -⟩ := Prod.mk.inj heq
    exact .single (move_checkpoint (hcheckpoint rfl) hQ)
  | showStatus => exact .of_eq (Prod.mk.inj (Option.some.inj h)).1.symm
  | analyze table =>
    rw [← (Prod.mk.inj (Option.some.inj h)).1]
    exact moves_analyze P i table
  | backup target =>
    rw [dispatch] at h
    split_ifs at h
    · exact .of_eq (Prod.mk.inj (Option.some.inj h)).1.symm
    · obtain ⟨Q, hQ, heq⟩ := Option.map_eq_some_iff.mp h
      obtain ⟨rfl, -⟩ := Prod.mk.inj heq
      exact .single (move_checkpoint (hw rfl) hQ)
  | prepare name sql => exact moves_prepare h
  | execute name params =>
    rw [dispatch] at h
    split at h
    · exact (moves_executePrepared h).mono (hx name params rfl)
    · split at h
      · exact .of_eq (Prod.mk.inj (Option.some.inj h)).1.symm
      · cases h
  | deallocate name =>
    rw [← (Prod.mk.inj (Option.some.inj h)).1]
    exact moves_deallocate P i name
  | explain analyze inner =>
    rw [dispatch] at h
    split_ifs at h
    · exact .of_eq (Prod.mk.inj (Option.some.inj h)).1.symm
    · exact (moves_explain h).mono hw
  | _ => exact hblock rfl h

section Resolve

variable (env P i)

/-- The statement that a text stands for when the texts of its `EXECUTE`s are in their places, or the
error on the way there; none when the texts have no end. -/
def resolve : Nat → Bytes → Option (Except (ProcessError ν) (Ast ν))
  | 0, _ => none
  | fuel + 1, sql =>
    match env.parse sql with
    | none => some (.error .parse)
    | some a =>
      match P.refusal i a with
      | some e => some (.error e)
      | none =>
        match a with
        | .execute name params =>
          match P.preparedSql i name with
          | none => some (.ok (.execute name params))
          | some template =>
            match splice env.doubleText template params with
            | none => some (.error .notEnoughParameters)
            | some sql => resolve fuel sql
        | a => some (.ok a)

variable {env P i}

theorem run_eq (fuel : Nat) (sql : Bytes) : P.run env fuel i sql =
    (P.resolve env i fuel sql).bind fun
      | .error e => some (P, .error e)
      | .ok a => P.dispatch env i (fun _ _ => none) a := by
  induction fuel generalizing sql with
  | zero => rfl
  | succ fuel ih =>
    rw [run, resolve]
    cases hparse : env.parse sql with
    | none => rfl
    | some a =>
      dsimp only
      cases hrefusal : P.refusal i a with
      | some e => rfl
      | none =>
        cases a with
        | execute name params =>
          dsimp only
          rw [dispatch]
          cases htext : P.preparedSql i name with
          | none =>
            change P.executePrepared i name = P.dispatch env i (fun _ _ => none) (.execute name params)
            rw [dispatch, htext]
          | some template =>
            dsimp only
            cases hsplice : splice env.doubleText template params with
            | none => rfl
            | some sql => exact ih sql
        | _ => rfl

omit [DecidableEq ι] in
theorem refusal_of_resolve {fuel : Nat} {sql : Bytes} {a : Ast ν}
    (h : P.resolve env i fuel sql = some (.ok a)) : P.refusal i a = none := by
  induction fuel generalizing sql with
  | zero => cases h
  | succ fuel ih =>
    rw [resolve] at h
    split at h
    · cases h
    · split at h
      · cases h
      · rename_i b _ hrefusal
        split at h
        · split at h
          · rw [← Except.ok.inj (Option.some.inj h)]
            exact hrefusal
          · split at h
            · cases h
            · exact ih h
        · rw [← Except.ok.inj (Option.some.inj h)]
          exact hrefusal

theorem run_cases_of_resolve {fuel : Nat} {sql : Bytes}
    (h : P.run env fuel i sql = some (P', reply)) :
    (∃ e, P.resolve env i fuel sql = some (.error e) ∧ P' = P ∧ reply = .error e) ∨
      ∃ a, P.resolve env i fuel sql = some (.ok a) ∧
        P.dispatch env i (fun _ _ => none) a = some (P', reply) := by
  rw [run_eq] at h
  obtain ⟨resolved, hr, heq⟩ := Option.bind_eq_some_iff.mp h
  cases resolved with
  | error e =>
    obtain ⟨rfl, rfl⟩ := Prod.mk.inj (Option.some.inj heq)
    exact .inl ⟨e, hr, rfl, rfl⟩
  | ok a => exact .inr ⟨a, hr, heq⟩

end Resolve

end Processor

end CoroDB
