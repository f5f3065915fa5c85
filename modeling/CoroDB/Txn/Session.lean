import CoroDB.Framework.KeyMap
import CoroDB.Framework.Run
import CoroDB.Txn.Table

/-!
# Sessions and their write buffers

A transaction collects its writes in a buffer for each table, the rows it stores under their keys and
the keys it deletes, and takes a lock on every row it writes.
-/

namespace CoroDB

open Framework

/-- The containers of values use `ValueEq`. -/
def valueKeyEq : KeyEq Value where
  eq := valueEq
  symm {a b} h := by
    cases a <;> cases b <;> simp_all [valueEq, Double.equal]
  trans {a b c} h h' := by
    cases a <;> cases b <;> cases c <;> simp_all [valueEq, Double.equal]

theorem valueEq_comm (a b : Value) : valueEq a b = valueEq b a := valueKeyEq.comm

section Data

variable (ν : Type) [DecidableEq ν]

def tableRowEq : KeyEq (ν × Value) := (KeyEq.ofDecidableEq ν).prod valueKeyEq

inductive IsolationLevel where
  | readUncommitted
  | readCommitted
  | repeatableRead
  | serializable
  deriving DecidableEq, Repr

structure TableTxnBuffer where
  upserts : KeyMap valueKeyEq Row := .empty
  deletes : KeyMap valueKeyEq Unit := .empty

abbrev TxnWriteBuffer := KeyMap (KeyEq.ofDecidableEq ν) TableTxnBuffer

structure Savepoint where
  name : String
  writeBuffer : TxnWriteBuffer ν
  readSet : KeyMap (tableRowEq ν) Unit
  tableReadVersions : KeyMap (KeyEq.ofDecidableEq ν) UInt64

structure Session where
  currentTxnId : UInt64 := 0
  isolation : IsolationLevel := .readCommitted
  writeBuffer : TxnWriteBuffer ν := .empty
  snapshotTs : UInt64 := 0
  autoCommitTs : UInt64 := 0
  readSet : KeyMap (tableRowEq ν) Unit := .empty
  tableReadVersions : KeyMap (KeyEq.ofDecidableEq ν) UInt64 := .empty
  savepoints : List (Savepoint ν) := []

abbrev RowLocks := KeyMap (tableRowEq ν) UInt64

inductive SqlError where
  | nullViolation (column : Bytes)
  | typeMismatch (column : Bytes)
  | evaluation (message : String)
  | duplicateKeyInTransaction
  | duplicateKey
  | duplicateKeyInInsert
  | writeConflict (table : ν) (owner : UInt64)
  | transactionInProgress
  | noActiveTransaction
  | transactionAborted
  | cannotCommitFailed
  | serializationFailure (table : ν)
  | commitFailed
  | savepointNotFound (name : String)
  | setTransactionInside
  deriving DecidableEq, Repr

end Data

variable {ν : Type} [DecidableEq ν]

namespace Session

def inTransaction (s : Session ν) : Bool := s.currentTxnId != 0

end Session

namespace TxnWriteBuffer

def forTable (b : TxnWriteBuffer ν) (name : ν) : TableTxnBuffer := (b.get? name).getD {}

end TxnWriteBuffer

namespace RowLocks

def acquire (locks : RowLocks ν) (table : ν) (pk : Value) (txnId : UInt64) :
    Except (SqlError ν) (RowLocks ν) :=
  match locks.get? (table, pk) with
  | none => .ok (locks.assign (table, pk) txnId)
  | some owner => if owner = txnId then .ok locks else .error (.writeConflict table owner)

def releaseAll (locks : RowLocks ν) (txnId : UInt64) : RowLocks ν :=
  locks.filterValues fun owner => owner != txnId

end RowLocks

section Plans

variable (ν)

/-- The condition of a statement on a row: whether it is true, not false or unknown. -/
abbrev Condition := Option (Row → Except String Bool)

structure InsertPlan where
  table : ν
  columnIndexes : List Nat
  rows : List (List Value)

structure Assignment where
  columnIndex : Nat
  value : Row → Except String Value

structure UpdatePlan where
  table : ν
  condition : Condition
  assignments : List Assignment

structure DeletePlan where
  table : ν
  condition : Condition

end Plans

section Rows

def isNumeric : Value → Bool
  | .int _ => true
  | .double _ => true
  | _ => false

def isText : Value → Bool
  | .text _ => true
  | _ => false

def validateValue (c : Column) (v : Value) : Except (SqlError ν) Unit :=
  if v = .null then if c.notNull then .error (.nullViolation c.name) else .ok ()
  else
    let fits : Bool := match c.type with
      | .boolean => decide (v = .int 0 ∨ v = .int 1)
      | .date => match v with
        | .text s => decide (10 ≤ s.length)
        | _ => false
      | .text => isText v
      | .int64 => isNumeric v
      | .float64 => isNumeric v
      | .decimal => isNumeric v
      | .null => true
    if fits then .ok () else .error (.typeMismatch c.name)

def validateRowConstraints (columns : List Column) (row : Row) : Except (SqlError ν) Unit :=
  (columns.zip row.values).forM fun p => validateValue p.1 p.2

def holdsOn (condition : Condition) (row : Row) : Except (SqlError ν) Bool :=
  match condition with
  | none => .ok true
  | some f => (f row).mapError .evaluation

/-- A row of an INSERT: the given values in their columns, `NULL` in the others. -/
def insertRowOf (columns : List Column) (columnIndexes : List Nat) (values : List Value) : Row :=
  ⟨(columnIndexes.zip values).foldl (fun vs p => vs.set p.1 p.2)
    (List.replicate columns.length .null)⟩

def insertRows (columns : List Column) (p : InsertPlan ν) : Except (SqlError ν) (List Row) :=
  let rows := p.rows.map (insertRowOf columns p.columnIndexes)
  (rows.forM fun r => validateRowConstraints columns r).map fun _ => rows

def assignedValues (check : Nat → Value → Except (SqlError ν) Unit) (p : UpdatePlan ν) (row : Row) :
    Except (SqlError ν) (List (Nat × Value)) :=
  p.assignments.mapM fun a => do
    let v ← (a.value row).mapError .evaluation
    check a.columnIndex v
    return (a.columnIndex, v)

def setValues (row : Row) (assigned : List (Nat × Value)) : Row :=
  ⟨assigned.foldl (fun vs p => vs.set p.1 p.2) row.values⟩

def applyRowUpdate (columns : List Column) (p : UpdatePlan ν) (row : Row) :
    Except (SqlError ν) (Option Row) := do
  if ← holdsOn p.condition row then
    let newRow := setValues row (← assignedValues (fun _ _ => .ok ()) p row)
    validateRowConstraints columns newRow
    return some newRow
  else return none

def autoRowUpdate (columns : List Column) (p : UpdatePlan ν) (row : Row) :
    Except (SqlError ν) (Option Row) := do
  if ← holdsOn p.condition row then
    let check i v := (columns[i]?).elim (.ok ()) fun c => validateValue c v
    return some (setValues row (← assignedValues check p row))
  else return none

end Rows

end CoroDB
