import CoroDB.Txn.Database
import CoroDB.Exec.Index
import CoroDB.Process.Parameters

/-!
# Statements and their plans

The statements that the query processor tells apart, and the plans that the planner makes of them.
-/

namespace CoroDB

open Framework

/-- The statistics of a table that the planner reads. -/
structure TableStats where
  totalRows : Nat := 0
  statsTs : UInt64 := 0
  deriving DecidableEq, Repr

structure TableInfo where
  columns : List Column
  indexes : IndexDefs
  stats : TableStats

/-- What the planner sees of the catalog. -/
abbrev Schema (ν : Type) := ν → Option TableInfo

/-- The tables that a query scans, and its rows as a function of the rows of the scans. -/
structure SelectPlan (ν : Type) where
  tables : List ν
  rows : List (List Row) → Except String (List Row)

inductive Ddl (ν : Type) where
  | createTable (table : ν) (columns : List Column)
  | createIndex (table : ν) (indexName : Bytes) (columns : List Bytes)
  | dropTable (table : ν) (ifExists : Bool)
  | dropIndex (table : Option ν) (indexName : Bytes) (ifExists : Bool)

inductive Plan (ν : Type) where
  | select (p : SelectPlan ν)
  | insert (p : InsertPlan ν)
  | update (p : UpdatePlan ν)
  | delete (p : DeletePlan ν)
  | utility (d : Ddl ν)

/-- A statement that is planned as a `π`. -/
structure Query (ν π : Type) where
  tables : List ν
  subqueries : List ν
  plan : Schema ν → List (List Row) → Except String π

inductive UserRole where
  | admin
  | readWrite
  | readOnly
  deriving DecidableEq, Repr

/-- The statements of `TransactionController::handle`. -/
inductive TxnControl where
  | begin
  | commit
  | rollback (toSavepoint : Option String)
  | savepoint (name : String)
  | releaseSavepoint (name : String)
  | setTransaction (level : IsolationLevel)
  deriving DecidableEq, Repr

inductive Ast (ν : Type) where
  | select (q : Query ν (SelectPlan ν))
  | insert (q : Query ν (InsertPlan ν))
  | update (q : Query ν (UpdatePlan ν))
  | delete (q : Query ν (DeletePlan ν))
  | ddl (d : Ddl ν)
  | control (c : TxnControl)
  | checkpoint
  | showStatus
  | analyze (table : Option ν)
  | backup (target : String)
  | prepare (name : String) (sql : Bytes)
  | execute (name : String) (params : List Value)
  | deallocate (name : Option String)
  | explain (analyze : Bool) (inner : Ast ν)
  | createUser (name password : String) (role : UserRole)
  | auth (name password : String)

namespace Plan

variable {ν : Type}

def isWrite : Plan ν → Bool
  | insert _ => true
  | update _ => true
  | delete _ => true
  | _ => false

/-- `UtilityProcessor::is_utility_plan`. -/
def isUtility : Plan ν → Bool
  | utility _ => true
  | _ => false

end Plan

namespace Ast

variable {ν : Type}

/-- `is_write_statement`. -/
def isWriteStatement : Ast ν → Bool
  | insert _ => true
  | update _ => true
  | delete _ => true
  | ddl _ => true
  | analyze _ => true
  | backup _ => true
  | _ => false

def changesData : Ast ν → Bool
  | explain _ inner => inner.isWriteStatement
  | a => a.isWriteStatement

/-- What a user of the role `read_only` may run. -/
def isRead : Ast ν → Bool
  | select _ => true
  | showStatus => true
  | control _ => true
  | auth _ _ => true
  | explain _ inner => !inner.isWriteStatement
  | _ => false

/-- `is_ddl`, which leaves out the two forms of `DROP`. -/
def isDdl : Ast ν → Bool
  | ddl (.createTable _ _) => true
  | ddl (.createIndex _ _ _) => true
  | _ => false

def isSelect : Ast ν → Bool
  | select _ => true
  | _ => false

/-- The tables of the subqueries that are resolved before the statement is planned. -/
def subqueries : Ast ν → List ν
  | select q => q.subqueries
  | update q => q.subqueries
  | delete q => q.subqueries
  | _ => []

end Ast

section Planner

variable {ν : Type}

/-- `PhysicalPlanner::build_ddl`. -/
def planDdl (schema : Schema ν) (d : Ddl ν) : Except String (Plan ν) :=
  match d with
  | .createTable table _ =>
    if (schema table).isSome then .error "[PhysicalPlanner] Table already exists"
    else .ok (.utility d)
  | .createIndex table _ columns =>
    match schema table with
    | none => .error "[PhysicalPlanner] Unknown table"
    | some info =>
      if columns.all fun c => info.columns.any fun col => col.name == c then .ok (.utility d)
      else .error "[PhysicalPlanner] Unknown column for index"
  | .dropTable _ _ => .ok (.utility d)
  | .dropIndex table _ ifExists =>
    if (table.all fun t => (schema t).isSome) || ifExists then .ok (.utility d)
    else .error "[PhysicalPlanner] Unknown table"

/-- `QueryProcessor::build_physical_plan`, after the subqueries are resolved. -/
def buildPhysicalPlan (schema : Schema ν) (rows : List (List Row)) :
    Ast ν → Except String (Plan ν)
  | .select q => (q.plan schema rows).map .select
  | .insert q => (q.plan schema rows).map .insert
  | .update q => (q.plan schema rows).map .update
  | .delete q => (q.plan schema rows).map .delete
  | .ddl d => planDdl schema d
  | _ => .error "[PhysicalPlanner] DDL form not handled by physical planner"

theorem isWrite_of_buildPhysicalPlan {schema : Schema ν} {rows : List (List Row)} {a : Ast ν}
    {p : Plan ν} (h : buildPhysicalPlan schema rows a = .ok p) (hp : p.isWrite = true) :
    a.isWriteStatement = true := by
  cases a with
  | select q =>
    obtain ⟨r, -, rfl⟩ := exceptMap_eq_ok.mp h
    cases hp
  | insert q => rfl
  | update q => rfl
  | delete q => rfl
  | ddl d => rfl
  | _ => cases h

end Planner

end CoroDB
