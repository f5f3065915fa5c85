import CoroDB.Process.ReadOnly
import CoroDB.Process.Tracked

/-!
# Statements in an open transaction

Inside a transaction a statement that writes works on the buffer of its session.
-/

namespace CoroDB

open Framework

variable {ν ι : Type} [DecidableEq ν] [DecidableEq ι]

/-- Whether a statement changes tables at once and for good, in a transaction too: it creates or
drops a table or an index, or moves the data of tables to other files. -/
def Ast.atOnce : Ast ν → Bool
  | .ddl _ => true
  | .checkpoint => true
  | .backup _ => true
  | _ => false

namespace Database

variable {db : Database ν ι} {i j : ι}

theorem modify_tables (hin : (db.sessions i).inTransaction = true) (table : ν)
    (inTxn : UInt64 → TxnWork ν → Option (SqlError ν) × TxnWork ν)
    (auto : UInt64 → Option (SqlError ν) × SqlTable) :
    (db.modify i table inTxn auto).1.tables = db.tables := by
  rw [modify]
  dsimp only
  rw [if_pos hin]
  rfl

theorem executePlan_tables (hin : (db.sessions i).inTransaction = true) {isSelect : Bool}
    {p : Plan ν} {r : Database ν ι × Except (ProcessError ν) (List Row)}
    (h : db.executePlan i isSelect p = some r) : r.1.tables = db.tables := by
  cases p with
  | select p =>
    obtain ⟨s, -, rfl⟩ := Option.map_eq_some_iff.mp h
    rfl
  | insert p =>
    obtain rfl := Option.some.inj h
    change (db.modifyInsert i p).1.tables = db.tables
    rw [modifyInsert]
    split <;> exact modify_tables hin p.table _ _
  | update p =>
    obtain rfl := Option.some.inj h
    exact modify_tables hin p.table _ _
  | delete p =>
    obtain rfl := Option.some.inj h
    exact modify_tables hin p.table _ _
  | utility d =>
    obtain rfl := Option.some.inj h
    rfl

theorem handle_tables {c : TxnControl}
    (hin' : ((db.handle i c).1.sessions i).inTransaction = true) :
    (db.handle i c).1.tables = db.tables := by
  obtain ⟨q, hq, hm⟩ := exists_exec_handle db i c
  generalize hr : db.handle i c = r at hq hin'
  obtain ⟨db', out⟩ := r
  rcases exec_transition hq with ⟨s, m, _, hs, -⟩ | ⟨snapshot, -, hout, -⟩ |
    ⟨m, savepoints, _, -, -, -⟩ | ⟨ts, m, -, -, -, -⟩ | ⟨table, r, s, m, -, -, hdml, -⟩ |
    ⟨table, r, s, -, hdml, -⟩
  · rfl
  · rfl
  · rfl
  · simp [abandon, setSession, Session.ended, Session.inTransaction] at hin'
  · cases hdml <;> cases hm
  · cases hdml <;> cases hm

theorem handle_others (hj : j ≠ i) (c : TxnControl) :
    (db.handle i c).1.sessions j = db.sessions j := by
  obtain ⟨q, hq, hm⟩ := exists_exec_handle db i c
  generalize hr : db.handle i c = r at hq
  obtain ⟨db', out⟩ := r
  rcases exec_transition hq with ⟨s, m, _, hs, -⟩ | ⟨snapshot, -, hout, -⟩ |
    ⟨m, savepoints, _, -, -, -⟩ | ⟨ts, m, -, -, -, -⟩ | ⟨table, r, s, m, -, -, hdml, -⟩ |
    ⟨table, r, s, -, hdml, -⟩
  all_goals exact Function.update_of_ne hj _ _

end Database

namespace Processor

variable {env : Environment ν} {P P' : Processor ν ι} {i j : ι} {fuel : Nat} {sql : Bytes}
  {reply : Reply ν}

omit [DecidableEq ι] [DecidableEq ν] in
theorem ddl_of_utility {schema : Schema ν} {rows : List (List Row)} {a : Ast ν} {d : Ddl ν}
    (h : buildPhysicalPlan schema rows a = .ok (.utility d)) : ∃ d, a = .ddl d := by
  cases a with
  | ddl d => exact ⟨d, rfl⟩
  | select q =>
    obtain ⟨r, -, heq⟩ := exceptMap_eq_ok.mp h
    cases heq
  | insert q =>
    obtain ⟨r, -, heq⟩ := exceptMap_eq_ok.mp h
    cases heq
  | update q =>
    obtain ⟨r, -, heq⟩ := exceptMap_eq_ok.mp h
    cases heq
  | delete q =>
    obtain ⟨r, -, heq⟩ := exceptMap_eq_ok.mp h
    cases heq
  | _ => cases h

theorem markFailed_tables (P : Processor ν ι) (i : ι) :
    (P.markFailed i).db.tables = P.db.tables :=
  (kept_of_move .fail).tables

theorem runPlanned_tables {a : Ast ν} {rows : List (List Row)} (ha : ∀ d, a ≠ .ddl d)
    (hin : (P.db.sessions i).inTransaction = true)
    (h : P.runPlanned i a rows = some (P', reply)) : P'.db.tables = P.db.tables := by
  rw [runPlanned] at h
  split at h
  · obtain ⟨rfl, -⟩ := Prod.mk.inj (Option.some.inj h)
    exact markFailed_tables P i
  · rename_i d hplan
    obtain ⟨d, hd⟩ := ddl_of_utility hplan
    exact absurd hd (ha d)
  · obtain ⟨r, hr, heq⟩ := Option.map_eq_some_iff.mp h
    have htables := Database.executePlan_tables hin hr
    dsimp only at heq
    split at heq
    · obtain ⟨rfl, -⟩ := Prod.mk.inj heq
      exact htables
    · obtain ⟨rfl, -⟩ := Prod.mk.inj heq
      split_ifs
      · exact htables
      · exact (markFailed_tables _ i).trans htables

theorem open_of_moves (hin : (P.db.sessions i).inTransaction = true) (h : Moves i false P P') :
    P'.db.tables = P.db.tables ∧ (P'.db.sessions i).inTransaction = true :=
  ⟨(kept_of_moves h).tables, ((stays_of_moves h).inTransaction i).trans hin⟩

theorem runStatement_tables {a : Ast ν} (ha : ∀ d, a ≠ .ddl d)
    (hin : (P.db.sessions i).inTransaction = true)
    (h : P.runStatement env i a = some (P', reply)) : P'.db.tables = P.db.tables := by
  have hstart : Moves i false P (P.started env i a) := moves_started P i a
  obtain ⟨resolved, hr, heq⟩ := Option.bind_eq_some_iff.mp h
  cases resolved with
  | error e =>
    obtain ⟨rfl, -⟩ := Prod.mk.inj (Option.some.inj heq)
    exact (open_of_moves hin (hstart.tail .fail)).1
  | ok resolved =>
    obtain ⟨rows, Q⟩ := resolved
    have hQ := hstart.trans (moves_resolveSubqueries hr)
    dsimp only at heq
    split_ifs at heq
    · obtain ⟨htables, hopen⟩ := open_of_moves hin (hQ.trans (moves_clearPrepared Q i))
      exact (runPlanned_tables ha hopen heq).trans htables
    · obtain ⟨htables, hopen⟩ := open_of_moves hin hQ
      exact (runPlanned_tables ha hopen heq).trans htables

theorem explain_tables {analyze : Bool} {inner : Ast ν}
    (hin : (P.db.sessions i).inTransaction = true)
    (h : P.explain i analyze inner = some (P', reply)) : P'.db.tables = P.db.tables := by
  obtain ⟨resolved, hr, heq⟩ := Option.bind_eq_some_iff.mp h
  cases resolved with
  | error e =>
    obtain ⟨rfl, -⟩ := Prod.mk.inj (Option.some.inj heq)
    rfl
  | ok resolved =>
    obtain ⟨rows, Q⟩ := resolved
    obtain ⟨htables, hopen⟩ := open_of_moves hin (moves_resolveSubqueries hr)
    dsimp only at heq
    split at heq
    · obtain ⟨rfl, -⟩ := Prod.mk.inj (Option.some.inj heq)
      exact htables
    · split_ifs at heq
      · obtain ⟨r, hexec, heq⟩ := Option.map_eq_some_iff.mp heq
        obtain ⟨rfl, -⟩ := Prod.mk.inj heq
        exact (Database.executePlan_tables hopen hexec).trans htables
      · obtain ⟨rfl, -⟩ := Prod.mk.inj (Option.some.inj heq)
        exact htables

theorem executePrepared_tables {name : String} (hin : (P.db.sessions i).inTransaction = true)
    (h : P.executePrepared i name = some (P', reply)) : P'.db.tables = P.db.tables := by
  rw [executePrepared] at h
  split at h
  · obtain ⟨rfl, -⟩ := Prod.mk.inj (Option.some.inj h)
    rfl
  · obtain ⟨r, hr, heq⟩ := Option.map_eq_some_iff.mp h
    obtain ⟨rfl, -⟩ := Prod.mk.inj heq
    exact Database.executePlan_tables hin hr

theorem dispatch_tables {a : Ast ν} (ha : a.atOnce = false)
    (hin : (P.db.sessions i).inTransaction = true)
    (h : P.dispatch env i (fun _ _ => none) a = some (P', reply))
    (hin' : (P'.db.sessions i).inTransaction = true) : P'.db.tables = P.db.tables := by
  have hblock (h : (if P.db.aborted i then some (P, .error (.sql .transactionAborted))
        else P.runStatement env i a) = some (P', reply)) : P'.db.tables = P.db.tables := by
    split_ifs at h
    · rw [← (Prod.mk.inj (Option.some.inj h)).1]
    · refine runStatement_tables (fun d hd => ?_) hin h
      rw [hd] at ha
      cases ha
  cases a with
  | control c =>
    obtain ⟨rfl, -⟩ := Prod.mk.inj (Option.some.inj h)
    exact Database.handle_tables hin'
  | createUser name password role =>
    obtain ⟨rfl, -⟩ := Prod.mk.inj (Option.some.inj h)
    rfl
  | auth name password =>
    obtain ⟨rfl, -⟩ := Prod.mk.inj (Option.some.inj h)
    rfl
  | checkpoint => cases ha
  | showStatus => rw [← (Prod.mk.inj (Option.some.inj h)).1]
  | analyze table =>
    rw [← (Prod.mk.inj (Option.some.inj h)).1]
    exact (open_of_moves hin (moves_analyze P i table)).1
  | backup target => cases ha
  | prepare name sql => exact (open_of_moves hin (moves_prepare h)).1
  | execute name params =>
    rw [dispatch] at h
    split at h
    · exact executePrepared_tables hin h
    · split at h
      · rw [← (Prod.mk.inj (Option.some.inj h)).1]
      · cases h
  | deallocate name =>
    rw [← (Prod.mk.inj (Option.some.inj h)).1]
    exact (open_of_moves hin (moves_deallocate P i name)).1
  | explain analyze inner =>
    rw [dispatch] at h
    split_ifs at h
    · rw [← (Prod.mk.inj (Option.some.inj h)).1]
    · exact explain_tables hin h
  | ddl d => cases ha
  | _ => exact hblock h

theorem run_tables (hatOnce : ∀ a, P.resolve env i fuel sql = some (.ok a) → a.atOnce = false)
    (hin : (P.db.sessions i).inTransaction = true)
    (h : P.run env fuel i sql = some (P', reply))
    (hin' : (P'.db.sessions i).inTransaction = true) : P'.db.tables = P.db.tables := by
  rcases run_cases_of_resolve h with ⟨e, -, rfl, -⟩ | ⟨a, hr, h⟩
  · rfl
  · exact dispatch_tables (hatOnce a hr) hin h hin'

theorem run_others (hj : j ≠ i) (h : P.run env fuel i sql = some (P', reply)) :
    P'.db.sessions j = P.db.sessions j := by
  rcases run_cases_of_resolve h with ⟨e, -, rfl, -⟩ | ⟨a, -, h⟩
  · rfl
  · by_cases ha : ∃ c, a = .control c
    · obtain ⟨c, rfl⟩ := ha
      obtain ⟨rfl, -⟩ := Prod.mk.inj (Option.some.inj h)
      exact Database.handle_others hj c
    · have hmoves : Moves i true P P' :=
        moves_dispatch (fun c hc => ha ⟨c, hc⟩) (fun _ => rfl) (fun _ => rfl) (fun _ _ _ _ => rfl) h
      exact (stays_of_moves hmoves).others j hj

end Processor

end CoroDB
