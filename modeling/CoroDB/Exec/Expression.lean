import CoroDB.Exec.Aggregate
import CoroDB.Sql.Tokenizer

/-!
# Scalar expressions

`ExpressionEvaluator`: arithmetic, concatenation, scalar functions and references to computed
aggregates over a record, and the predicates whose operands are such expressions.
-/

namespace CoroDB

open Framework Ascii

section Syntax

inductive BinaryOp where
  | add
  | sub
  | mul
  | div
  | mod
  | concat
  deriving DecidableEq, Repr

inductive ScalarFunc where
  | coalesce
  | nullif
  | upper
  | lower
  | length
  | trim
  | substr
  | abs
  deriving DecidableEq, Repr

/-- `Expression`, with the two kinds of pointers that may be empty. -/
inductive Expression where
  | column (ref : ColumnRef)
  | literal (v : Value)
  | binary (op : BinaryOp) (lhs rhs : Expression)
  | aggregate (a : AggregateExpr)
  | function (func : ScalarFunc) (args : List Expression)
  | nullBinary
  | nullFunction

end Syntax

/-- The operations on doubles, and `std::to_string` of one. -/
structure DoubleOps where
  add : Double → Double → Double
  sub : Double → Double → Double
  mul : Double → Double → Double
  div : Double → Double → Double
  text : Double → Bytes

section Binary

variable (ops : DoubleOps)

/-- The text of an operand of `||`: none for `NULL`. -/
def concatText : Value → Bytes
  | .null => []
  | .int i => intText i
  | .double d => ops.text d
  | .text s => s

def integerBinary (op : BinaryOp) (l r : Int64) : Except String Value :=
  match op with
  | .add => .ok (.int (l + r))
  | .sub => .ok (.int (l - r))
  | .mul => .ok (.int (l * r))
  | .div =>
    if r = 0 then .error "[Executor] Division by zero"
    else .ok (.double (ops.div (.ofInt64 l) (.ofInt64 r)))
  | .mod => if r = 0 then .error "[Executor] Modulo by zero" else .ok (.int (l % r))
  | .concat => .error "[Executor] Unknown binary operator"

def doubleBinary (op : BinaryOp) (l r : Double) : Except String Value :=
  match op with
  | .add => .ok (.double (ops.add l r))
  | .sub => .ok (.double (ops.sub l r))
  | .mul => .ok (.double (ops.mul l r))
  | .div =>
    if r.equal ⟨0⟩ then .error "[Executor] Division by zero" else .ok (.double (ops.div l r))
  | .mod => .error "[Executor] Modulo not supported for float operands"
  | .concat => .error "[Executor] Unknown binary operator"

def evalBinary (op : BinaryOp) (lhs rhs : Value) : Except String Value :=
  if op = .concat then .ok (.text (concatText ops lhs ++ concatText ops rhs))
  else if lhs = .null ∨ rhs = .null then .ok .null
  else
    match lhs, rhs with
    | .int l, .int r => integerBinary ops op l r
    | .text _, .int _ | .int _, .text _ | .text _, .text _ =>
      .error "[Executor] Unsupported operand type for arithmetic"
    | _, _ =>
      match lhs.toDouble, rhs.toDouble with
      | some l, some r => doubleBinary ops op l r
      | _, _ => .error "[Executor] Non-numeric operand in float arithmetic"

end Binary

section Functions

def toLower (c : UInt8) : UInt8 := if 65 ≤ c && c ≤ 90 then c + 32 else c

/-- The blanks that `TRIM` takes off. -/
def isTrimmed (c : UInt8) : Bool := c ∈ [32, 9, 10, 13]

def trim (s : Bytes) : Bytes := ((s.dropWhile isTrimmed).reverse.dropWhile isTrimmed).reverse

def textFunction (name : String) (f : Bytes → Value) : Value → Except String Value
  | .null => .ok .null
  | .text s => .ok (f s)
  | _ => .error s!"[Executor] {name} requires string argument"

/-- The `i`-th argument; to read past the last one is undefined in the source. -/
def argument (args : List (Except String Value)) (i : Nat) : Except String Value :=
  (args[i]?).getD (.error "[Executor] Missing argument")

def coalesce : List (Except String Value) → Except String Value
  | [] => .ok .null
  | arg :: args => do
    let v ← arg
    if v = .null then coalesce args else return v

/-- `SUBSTR` of a text: one-based start, length by default to the end. -/
def substr (args : List (Except String Value)) (s : Bytes) : Except String Value := do
  let start ← match ← argument args 1 with
    | .int i => pure i
    | _ => throw "[Executor] SUBSTR requires integer start position"
  let pos := (if start < 1 then 0 else start.toInt - 1).toNat
  if s.length ≤ pos then return .text []
  if 2 < args.length then
    match ← argument args 2 with
    | .int l => return .text ((s.drop pos).take l.toInt.toNat)
    | _ => throw "[Executor] SUBSTR requires integer length"
  else return .text (s.drop pos)

/-- `ExpressionEvaluator::eval_function`, over what each argument evaluates to; an argument that is
not read does not throw. -/
def evalFunction (func : ScalarFunc) (args : List (Except String Value)) : Except String Value :=
  match func with
  | .coalesce => coalesce args
  | .nullif => do
    let a ← argument args 0
    let b ← argument args 1
    return if valueEq a b then .null else a
  | .upper => do textFunction "UPPER" (fun s => .text (s.map toUpper)) (← argument args 0)
  | .lower => do textFunction "LOWER" (fun s => .text (s.map toLower)) (← argument args 0)
  | .length => do textFunction "LENGTH" (fun s => .int (.ofNat s.length)) (← argument args 0)
  | .trim => do textFunction "TRIM" (fun s => .text (trim s)) (← argument args 0)
  | .substr => do
    match ← argument args 0 with
    | .null => return .null
    | .text s => substr args s
    | _ => throw "[Executor] SUBSTR requires string as first argument"
  | .abs => do
    match ← argument args 0 with
    | .null => return .null
    | .int n => return .int (if n < 0 then -n else n)
    | _ => throw "[Executor] ABS requires integer argument"

end Functions

section Aggregates

def AggFunc.name : AggFunc → Bytes
  | .count => ascii "COUNT"
  | .sum => ascii "SUM"
  | .avg => ascii "AVG"
  | .min => ascii "MIN"
  | .max => ascii "MAX"

/-- `AggregateExpr::to_string`. -/
def AggregateExpr.toBytes (a : AggregateExpr) : Bytes :=
  a.func.name ++ ascii "(" ++ a.arg.elim (ascii "*") ColumnRef.qualifiedName ++ ascii ")"

/-- The value of an aggregate that has been computed into the record: the first column with the name
of the argument, else the last column. -/
def Record.aggregate (r : Record) (a : AggregateExpr) : Except String Value :=
  match a.arg.bind fun ref => (r.bindings.zip r.values).find? fun b => b.1.name = ref.name with
  | some b => .ok b.2
  | none =>
    match r.values.getLast? with
    | some v => .ok v
    | none => .error ("[Executor] Aggregate not found in record: " ++ textOf a.toBytes)

end Aggregates

section Evaluation

variable (ops : DoubleOps) (r : Record)

mutual

/-- `ExpressionEvaluator::eval`. -/
def Expression.eval : Expression → Except String Value
  | .column ref => r.lookup ref
  | .literal v => .ok v
  | .binary op lhs rhs => do
    let x ← lhs.eval
    let y ← rhs.eval
    evalBinary ops op x y
  | .aggregate a => r.aggregate a
  | .function func args => evalFunction func (Expression.evalArgs args)
  | .nullBinary => .error "[Executor] Invalid binary expression"
  | .nullFunction => .error "[Executor] Invalid function expression"

def Expression.evalArgs : List Expression → List (Except String Value)
  | [] => []
  | e :: es => e.eval :: Expression.evalArgs es

end

end Evaluation

section Predicates

/-- `BoolExpr`; a subquery is given by what it evaluates to, and a node with a missing part by its
error. -/
inductive BoolExpression where
  | comparison (op : CompareOp) (lhs rhs : Expression)
  | and (left right : BoolExpression)
  | or (left right : BoolExpression)
  | not (inner : BoolExpression)
  | inList (expr : Expression) (values : List Expression) (negated : Bool)
  | inSubquery (run : Record → Except String SqlBool)
  | between (expr low high : Expression) (negated : Bool)
  | malformed (error : String)

variable (ops : DoubleOps)

def Expression.toExpr : Expression → Expr
  | .column ref => .column ref
  | .literal v => .literal v
  | e => .computed fun r => e.eval ops r

theorem Expression.eval_toExpr (r : Record) (e : Expression) :
    (e.toExpr ops).eval r = e.eval ops r := by
  cases e <;> simp only [toExpr, Expr.eval, Expression.eval]

/-- `BoolEvaluator::eval`. -/
def BoolExpression.eval (r : Record) : BoolExpression → Except String SqlBool
  | .comparison op lhs rhs => Comparison.eval ⟨op, lhs.toExpr ops, rhs.toExpr ops⟩ r
  | .and left right => do return .and3 (← left.eval r) (← right.eval r)
  | .or left right => do return .or3 (← left.eval r) (← right.eval r)
  | .not inner => do return .not3 (← inner.eval r)
  | .inList expr values negated =>
    BoolExpr.eval r (.inList (expr.toExpr ops) (values.map (Expression.toExpr ops)) negated)
  | .inSubquery run => run r
  | .between expr low high negated =>
    BoolExpr.eval r (.between (expr.toExpr ops) (low.toExpr ops) (high.toExpr ops) negated)
  | .malformed error => .error error

end Predicates

end CoroDB
