import CoroDB.Exec.Predicate

/-!
# Projection

`ValueVectorCompare`, by which `DISTINCT` keeps the set of the value lists it has seen.
-/

namespace CoroDB

def lessValues : List Value → List Value → Except String Bool
  | x :: xs, y :: ys => do
    match ← compareOrder x y with
    | .eq => lessValues xs ys
    | o => return o == .lt
  | _, _ => return false

/-- `ValueVectorCompare`: shorter lists first, then the first value that differs decides. -/
def valueVectorLess (a b : List Value) : Except String Bool :=
  if a.length ≠ b.length then return decide (a.length < b.length) else lessValues a b

end CoroDB
