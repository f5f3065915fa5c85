import CoroDB.Txn.Session

/-!
# Data statements

INSERT, UPDATE and DELETE.
-/

namespace CoroDB

open Framework

variable {ν : Type} [DecidableEq ν]

/-- What a statement of a transaction changes: its buffer for the table, and the row locks. -/
structure TxnWork (ν : Type) [DecidableEq ν] where
  buffer : TableTxnBuffer
  locks : RowLocks ν

namespace TableTxnBuffer

def currentRow (b : TableTxnBuffer) (pk : Value) (row : Row) : Row := (b.upserts.get? pk).getD row

def upsert (b : TableTxnBuffer) (pk : Value) (row : Row) : TableTxnBuffer :=
  { b with upserts := b.upserts.assign pk row }

def insert (b : TableTxnBuffer) (pk : Value) (row : Row) : TableTxnBuffer :=
  ⟨b.upserts.assign pk row, b.deletes.erase pk⟩

def delete (b : TableTxnBuffer) (pk : Value) : TableTxnBuffer :=
  ⟨b.upserts.erase pk, b.deletes.assign pk ()⟩

def eraseUpsert (b : TableTxnBuffer) (pk : Value) : TableTxnBuffer :=
  { b with upserts := b.upserts.erase pk }

end TableTxnBuffer

section InTransaction

variable (columns : List Column) (base : List Row) (txnId : UInt64)

def inBase (pk : Value) : Bool :=
  base.any fun r => !r.values.isEmpty && valueEq (extractKey r columns) pk

def txnInsertRow (present : Value → Bool) (table : ν) (w : TxnWork ν) (row : Row) :
    Except (SqlError ν) (TxnWork ν) :=
  let pk := extractKey row columns
  if !w.buffer.deletes.contains pk && w.buffer.upserts.contains pk then
    .error .duplicateKeyInTransaction
  else if !w.buffer.deletes.contains pk && present pk then .error .duplicateKey
  else (w.locks.acquire table pk txnId).map fun locks => ⟨w.buffer.insert pk row, locks⟩

def txnInsert (present : Value → Bool) (table : ν) (rows : List Row) (w : TxnWork ν) :
    Option (SqlError ν) × TxnWork ν :=
  attempt (txnInsertRow columns txnId present table) w rows

def txnUpdateBaseRow (p : UpdatePlan ν) (w : TxnWork ν) (row : Row) :
    Except (SqlError ν) (TxnWork ν) :=
  let pk := extractKey row columns
  if row.values.isEmpty || w.buffer.deletes.contains pk then .ok w
  else
    match applyRowUpdate columns p (w.buffer.currentRow pk row) with
    | .error e => .error e
    | .ok none => .ok w
    | .ok (some newRow) =>
      (w.locks.acquire p.table pk txnId).map fun locks => ⟨w.buffer.upsert pk newRow, locks⟩

def txnUpdatePureInsert (p : UpdatePlan ν) (w : TxnWork ν) (pk : Value) :
    Except (SqlError ν) (TxnWork ν) :=
  match w.buffer.upserts.get? pk with
  | none => .ok w
  | some row =>
    match applyRowUpdate columns p row with
    | .error e => .error e
    | .ok none => .ok w
    | .ok (some newRow) => .ok { w with buffer := w.buffer.upsert pk newRow }

def pureInserts (b : TableTxnBuffer) : List (Value × Row) :=
  b.upserts.entries.filter fun p => !inBase columns base p.1

def txnUpdate (p : UpdatePlan ν) (w : TxnWork ν) : Option (SqlError ν) × TxnWork ν :=
  match attempt (txnUpdateBaseRow columns txnId p) w base with
  | (some e, w') => (some e, w')
  | (none, w') =>
    attempt (txnUpdatePureInsert columns p) w' ((pureInserts columns base w'.buffer).map Prod.fst)

def txnDeleteBaseRow (p : DeletePlan ν) (w : TxnWork ν) (row : Row) :
    Except (SqlError ν) (TxnWork ν) :=
  let pk := extractKey row columns
  if row.values.isEmpty || w.buffer.deletes.contains pk then .ok w
  else
    match holdsOn p.condition (w.buffer.currentRow pk row) with
    | .error e => .error e
    | .ok false => .ok w
    | .ok true =>
      (w.locks.acquire p.table pk txnId).map fun locks => ⟨w.buffer.delete pk, locks⟩

def matchingKeys (condition : Condition) : List (Value × Row) → Except (SqlError ν) (List Value)
  | [] => .ok []
  | p :: rest => do
    let hit ← holdsOn condition p.2
    let keys ← matchingKeys condition rest
    return if hit then p.1 :: keys else keys

def txnDelete (p : DeletePlan ν) (w : TxnWork ν) : Option (SqlError ν) × TxnWork ν :=
  match attempt (txnDeleteBaseRow columns txnId p) w base with
  | (some e, w') => (some e, w')
  | (none, w') =>
    match matchingKeys p.condition (pureInserts columns base w'.buffer) with
    | .error e => (some e, w')
    | .ok keys => (none, { w' with buffer := keys.foldl TableTxnBuffer.eraseUpsert w'.buffer })

end InTransaction

section Autocommit

def checkNewKey (t : SqlTable) (seen : KeyMap valueKeyEq Unit) (row : Row) :
    Except (SqlError ν) (KeyMap valueKeyEq Unit) :=
  let pk := t.rowKey row
  if seen.contains pk then .error .duplicateKeyInInsert
  else if (t.lookupVisible pk maxTs).isSome then .error .duplicateKey
  else .ok (seen.assign pk ())

def autoInsert (t : SqlTable) (rows : List Row) (ts : UInt64) : Option (SqlError ν) × SqlTable :=
  match rows.foldlM (checkNewKey t) KeyMap.empty with
  | .error e => (some e, t)
  | .ok _ => (none, t.insertBatch rows ts)

def autoUpdateRow (p : UpdatePlan ν) (ts : UInt64) (t : SqlTable) (row : Row) :
    Except (SqlError ν) SqlTable :=
  match autoRowUpdate t.columns p row with
  | .error e => .error e
  | .ok none => .ok t
  | .ok (some newRow) => .ok (t.persistRowUpsert newRow ts)

def autoUpdate (t : SqlTable) (p : UpdatePlan ν) (ts : UInt64) : Option (SqlError ν) × SqlTable :=
  attempt (autoUpdateRow p ts) t (t.scanVisible maxTs)

def autoDelete (t : SqlTable) (p : DeletePlan ν) (ts : UInt64) : Option (SqlError ν) × SqlTable :=
  match matchingKeys p.condition ((t.scanVisible maxTs).map fun row => (t.rowKey row, row)) with
  | .error e => (some e, t)
  | .ok keys => (none, keys.foldl (fun t key => t.persistRowDelete key ts) t)

end Autocommit

section Rounds

variable {columns : List Column} {txnId : UInt64} {w w' : TxnWork ν} {row : Row}

theorem exceptMap_eq_ok {ε α β : Type} {f : α → β} {x : Except ε α} {b : β} :
    x.map f = .ok b ↔ ∃ a, x = .ok a ∧ f a = b := by
  cases x <;> simp [Except.map]

omit [DecidableEq ν] in
theorem mem_matchingKeys {condition : Condition} {l : List (Value × Row)} {keys : List Value}
    (h : matchingKeys (ν := ν) condition l = .ok keys) (pk : Value) :
    pk ∈ keys ↔ ∃ p ∈ l, p.1 = pk ∧ holdsOn (ν := ν) condition p.2 = .ok true := by
  induction l generalizing keys with
  | nil =>
    obtain rfl : [] = keys := Except.ok.inj h
    simp
  | cons p rest ih =>
    simp only [matchingKeys, bind, Except.bind] at h
    cases hp : holdsOn (ν := ν) condition p.2 with
    | error e => simp [hp] at h
    | ok hit =>
      cases hrest : matchingKeys (ν := ν) condition rest with
      | error e => simp [hp, hrest] at h
      | ok keys' =>
        simp only [hp, hrest, pure, Except.pure, Except.ok.injEq] at h
        subst h
        cases hit <;> simp [ih hrest, hp, eq_comm]

end Rounds

end CoroDB
