import CoroDB.Exec.JoinPlan
import CoroDB.Framework.Grouping
import CoroDB.Txn.Session

/-!
# Sorting

The sort of `OrderByPlan` without a limit: a stable sort by the keys in turn, each ascending or
descending.
-/

namespace CoroDB

open Framework

def lessBy : List LogicalSortKey → Record → Record → Except String Bool
  | [], _, _ => return false
  | key :: keys, a, b => do
    match ← compareOrder (← key.expr.eval a) (← key.expr.eval b) with
    | .eq => lessBy keys a b
    | .lt => return !key.desc
    | .gt => return key.desc

def insertBy (keys : List LogicalSortKey) (x : Record) : List Record → Except String (List Record)
  | [] => return [x]
  | y :: ys => do
    if ← lessBy keys y x then return y :: (← insertBy keys x ys)
    else return x :: y :: ys

def orderBy (keys : List LogicalSortKey) : List Record → Except String (List Record)
  | [] => return []
  | x :: xs => do insertBy keys x (← orderBy keys xs)

section Stable

theorem compareOrder_of_valueEq {x y : Value} (h : valueEq x y = true) :
    compareOrder x y = .ok .eq := by
  cases x <;> cases y <;> simp_all [valueEq, compareOrder, Value.toDouble, Double.less, Double.equal]

variable {κ : Type} {E : KeyEq κ} {k : Record → κ} {keys : List LogicalSortKey}

theorem insertBy_shuffled (hless : ∀ a b, lessBy keys a b = .ok true → E.eq (k a) (k b) = false)
    {x : Record} {ys out : List Record} (h : insertBy keys x ys = .ok out) :
    Shuffled E k (x :: ys) out := by
  induction ys generalizing out with
  | nil =>
    obtain rfl : [x] = out := Except.ok.inj h
    exact .refl _
  | cons y ys ih =>
    obtain ⟨less, hl, h⟩ := bind_eq_ok h
    cases less with
    | false =>
      obtain rfl : x :: y :: ys = out := Except.ok.inj h
      exact .refl _
    | true =>
      obtain ⟨rest, hrest, h⟩ := bind_eq_ok h
      obtain rfl : y :: rest = out := Except.ok.inj h
      exact .trans (.swap x y ys (E.comm.trans (hless y x hl))) (.cons y (ih hrest))

theorem orderBy_shuffled (keys : List LogicalSortKey)
    (hless : ∀ a b, lessBy keys a b = .ok true → E.eq (k a) (k b) = false)
    {rows out : List Record} (h : orderBy keys rows = .ok out) : Shuffled E k rows out := by
  induction rows generalizing out with
  | nil =>
    obtain rfl : [] = out := Except.ok.inj h
    exact .nil
  | cons x xs ih =>
    obtain ⟨sorted, hsorted, h⟩ := bind_eq_ok h
    exact .trans (.cons x (ih hsorted)) (insertBy_shuffled hless h)

end Stable

end CoroDB
