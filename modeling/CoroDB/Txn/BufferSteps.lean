import CoroDB.Framework.Throwing
import CoroDB.Txn.TxnView

/-!
# Data statements on a buffer

Every data statement keeps the keys of a buffer ordered and its rows full.
-/

namespace CoroDB

open Framework

variable {ν : Type} [DecidableEq ν]

section Shape

variable {columns : List Column} {base : List Row} {txnId : UInt64} {b : TableTxnBuffer}
  {w w' : TxnWork ν} {pk : Value} {row : Row}

theorem foldl_set_length (l : List (Nat × Value)) (vs : List Value) :
    (l.foldl (fun vs p => vs.set p.1 p.2) vs).length = vs.length := by
  induction l generalizing vs with
  | nil => rfl
  | cons p l ih => rw [List.foldl_cons, ih, List.length_set]

omit [DecidableEq ν] in
theorem insertRows_ok {columns : List Column} {p : InsertPlan ν} {rows : List Row}
    (h : insertRows columns p = .ok rows) :
    rows = p.rows.map (insertRowOf columns p.columnIndexes) := by
  obtain ⟨u, -, hu⟩ := exceptMap_eq_ok.mp h
  exact hu.symm

def UpdatePlan.Makes (p : UpdatePlan ν) (row newRow : Row) : Prop :=
  holdsOn (ν := ν) p.condition row = .ok true ∧ ∃ assigned,
    assignedValues (ν := ν) (fun _ _ => .ok ()) p row = .ok assigned ∧ newRow = setValues row assigned

omit [DecidableEq ν] in
theorem autoRowUpdate_ok {p : UpdatePlan ν} {newRow : Row}
    (h : autoRowUpdate columns p row = .ok (some newRow)) : p.Makes row newRow := by
  simp only [autoRowUpdate, bind, Except.bind] at h
  cases hc : holdsOn (ν := ν) p.condition row with
  | error e => simp [hc] at h
  | ok hit =>
    cases hit with
    | false => simp [hc, pure, Except.pure] at h
    | true =>
      simp only [hc, if_true] at h
      split at h
      · cases h
      · rename_i assigned ha
        refine ⟨hc, assigned, ?_, (Option.some.inj (Except.ok.inj h)).symm⟩
        refine mapM_ok_mono (fun a b hab => ?_) ha
        simp only [bind, Except.bind] at hab ⊢
        split at hab
        · cases hab
        · split at hab
          · cases hab
          · exact hab

omit [DecidableEq ν] in
theorem UpdatePlan.Makes.length {p : UpdatePlan ν} {newRow : Row} (h : p.Makes row newRow) :
    newRow.values.length = row.values.length := by
  obtain ⟨-, assigned, -, rfl⟩ := h
  exact foldl_set_length assigned row.values

end Shape

end CoroDB
