import CoroDB.Storage.Sstable

/-!
# Predicates

Comparison of values and the three-valued evaluation of predicates by `BoolEvaluator`.
-/

namespace CoroDB

/-- The integer is an `int64_t`. -/
def FitsInt64 (n : Int) : Prop := -2 ^ 63 ≤ n ∧ n < 2 ^ 63

namespace Double

/-- The pattern of a natural number below `2 ^ 64`, rounded to the nearest double, ties to even. -/
def magnitudeOf (n : Nat) : Nat :=
  let e := n.log2
  if n = 0 then 0
  else if e ≤ 52 then (e + 1023) * 2 ^ 52 + (n - 2 ^ e) * 2 ^ (52 - e)
  else
    let q := n / 2 ^ (e - 52)
    let r := n % 2 ^ (e - 52)
    let half := 2 ^ (e - 53)
    (e + 1023) * 2 ^ 52 + ((if half < r ∨ half = r ∧ q % 2 = 1 then q + 1 else q) - 2 ^ 52)

/-- The conversion of an `int64_t`. -/
def ofInt64 (i : Int64) : Double :=
  ⟨UInt64.ofNat ((if i.toInt < 0 then 2 ^ 63 else 0) + magnitudeOf i.toInt.natAbs)⟩

end Double

section Compare

def Value.toDouble : Value → Option Double
  | .int i => some (.ofInt64 i)
  | .double d => some d
  | _ => none

/-- `BoolEvaluator::compare_order`. -/
def compareOrder (lhs rhs : Value) : Except String Ordering :=
  match lhs, rhs with
  | .null, .null => .ok .eq
  | .null, _ => .ok .gt
  | _, .null => .ok .lt
  | _, _ =>
    match lhs.toDouble, rhs.toDouble with
    | some l, some r => .ok (if l.less r then .lt else if r.less l then .gt else .eq)
    | _, _ =>
      match lhs, rhs with
      | .text l, .text r => .ok (if l < r then .lt else if r < l then .gt else .eq)
      | _, _ => .error "[Executor] Type mismatch in comparison"

end Compare

section Syntax

structure ColumnRef where
  table : Bytes
  name : Bytes
  deriving DecidableEq, Repr

def ColumnRef.qualifiedName (ref : ColumnRef) : Bytes :=
  if ref.table = [] then ref.name else ref.table ++ Ascii.ascii "." ++ ref.name

def textOf (name : Bytes) : String := String.ofList (name.map fun c => Char.ofNat c.toNat)

/-- The column names of a record, each with the name its table goes by. -/
structure Record where
  bindings : List ColumnRef
  values : List Value

inductive Expr where
  | column (ref : ColumnRef)
  | literal (v : Value)
  | computed (eval : Record → Except String Value)

inductive CompareOp where
  | eq
  | ne
  | lt
  | le
  | gt
  | ge
  | like
  | notLike
  | isNull
  | isNotNull
  deriving DecidableEq, Repr

structure Comparison where
  op : CompareOp
  lhs : Expr
  rhs : Expr

inductive BoolExpr where
  | comparison (cmp : Comparison)
  | and (left right : BoolExpr)
  | or (left right : BoolExpr)
  | not (inner : BoolExpr)
  | inList (expr : Expr) (values : List Expr) (negated : Bool)
  | between (expr low high : Expr) (negated : Bool)

end Syntax

section Evaluation

inductive SqlBool where
  | isTrue
  | isFalse
  | unknown
  deriving DecidableEq, Repr

namespace SqlBool

def ofBool (b : Bool) : SqlBool := if b then isTrue else isFalse

def and3 (a b : SqlBool) : SqlBool :=
  if a = isFalse ∨ b = isFalse then isFalse
  else if a = unknown ∨ b = unknown then unknown
  else isTrue

def or3 (a b : SqlBool) : SqlBool :=
  if a = isTrue ∨ b = isTrue then isTrue
  else if a = unknown ∨ b = unknown then unknown
  else isFalse

def not3 : SqlBool → SqlBool
  | isTrue => isFalse
  | isFalse => isTrue
  | unknown => unknown

end SqlBool

/-- `match_like`: the rest of the text and of the pattern, and where to go on after the last `%`. -/
def matchLike (t p : Bytes) (star : Option (Bytes × Bytes)) : Bool :=
  match t with
  | [] => p.all (· == 0x25)
  | c :: t' =>
    match p with
    | b :: p' =>
      if b = 0x5f ∨ b = c then matchLike t' p' star
      else if b = 0x25 then matchLike (c :: t') p' (some (p', c :: t'))
      else
        match star with
        | some (after, _ :: rest) => matchLike rest after (some (after, rest))
        | _ => false
    | [] =>
      match star with
      | some (after, _ :: rest) => matchLike rest after (some (after, rest))
      | _ => false
termination_by (max t.length (star.elim 0 fun s => s.2.length), t.length + p.length)
decreasing_by all_goals simp [Prod.lex_def] <;> omega

/-- `ExpressionEvaluator::lookup`. -/
def Record.lookup (r : Record) (ref : ColumnRef) : Except String Value :=
  match (r.bindings.zip r.values).find? fun b =>
    (ref.table = [] ∨ b.1.table = ref.table) ∧ b.1.name = ref.name with
  | some b => .ok b.2
  | none => .error ("[Executor] Column not found: " ++ textOf ref.qualifiedName)

def Expr.eval (r : Record) : Expr → Except String Value
  | .column ref => r.lookup ref
  | .literal v => .ok v
  | .computed f => f r

namespace CompareOp

def accepts : CompareOp → Ordering → Bool
  | .eq, o => o == .eq
  | .ne, o => o != .eq
  | .lt, o => o == .lt
  | .le, o => o != .gt
  | .gt, o => o == .gt
  | .ge, o => o != .lt
  | _, _ => false

end CompareOp

/-- `BoolEvaluator::eval_comparison`. -/
def Comparison.eval (c : Comparison) (r : Record) : Except String SqlBool := do
  let lhs ← c.lhs.eval r
  match c.op with
  | .isNull => return .ofBool (lhs == .null)
  | .isNotNull => return .ofBool (lhs != .null)
  | op =>
    let rhs ← c.rhs.eval r
    if lhs = .null ∨ rhs = .null then return .unknown
    if op = .like ∨ op = .notLike then
      match lhs, rhs with
      | .text t, .text p => return .ofBool (matchLike t p none == (op == .like))
      | _, _ => return .isFalse
    else return .ofBool (op.accepts (← compareOrder lhs rhs))

/-- The loop over the values of an `IN` list, with whether a `NULL` has been met. -/
def evalIn (lhs : Value) (negated : Bool) (r : Record) : Bool → List Expr → Except String SqlBool
  | hasNull, [] => return if hasNull then .unknown else .ofBool negated
  | hasNull, e :: es => do
    let rhs ← e.eval r
    if rhs = .null then evalIn lhs negated r true es
    else if valueEq lhs rhs then return .ofBool (!negated)
    else evalIn lhs negated r hasNull es

def inRange (v low high : Value) : Except String Bool := do
  if (← compareOrder v low) = .lt then return false
  return (← compareOrder v high) != .gt

/-- `BoolEvaluator::eval`. -/
def BoolExpr.eval (r : Record) : BoolExpr → Except String SqlBool
  | .comparison c => c.eval r
  | .and left right => do return .and3 (← left.eval r) (← right.eval r)
  | .or left right => do return .or3 (← left.eval r) (← right.eval r)
  | .not inner => do return .not3 (← inner.eval r)
  | .inList expr values negated => do
    let lhs ← expr.eval r
    if lhs = .null then return .unknown
    evalIn lhs negated r false values
  | .between expr low high negated => do
    let v ← expr.eval r
    let l ← low.eval r
    let h ← high.eval r
    if v = .null ∨ l = .null ∨ h = .null then return .unknown
    return .ofBool ((← inRange v l h) != negated)

def BoolExpr.holds (e : BoolExpr) (r : Record) : Bool :=
  match e.eval r with
  | .ok .isTrue => true
  | _ => false

def CompareOp.ordered : List CompareOp := [.eq, .ne, .lt, .le, .gt, .ge]

theorem Comparison.eval_of_ordered {op : CompareOp} (hop : op ∈ CompareOp.ordered) {lhs rhs : Expr}
    {r : Record} {x y : Value} (hx : lhs.eval r = .ok x) (hy : rhs.eval r = .ok y) :
    Comparison.eval ⟨op, lhs, rhs⟩ r =
      if x = .null ∨ y = .null then .ok .unknown
      else do return .ofBool (op.accepts (← compareOrder x y)) := by
  simp only [CompareOp.ordered, List.mem_cons, List.not_mem_nil, or_false] at hop
  rcases hop with rfl | rfl | rfl | rfl | rfl | rfl <;>
    simp only [Comparison.eval, hx, hy, bind, Except.bind, pure, Except.pure, reduceCtorEq,
      or_false, if_false]

end Evaluation

end CoroDB
