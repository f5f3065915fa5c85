import CoroDB.Exec.Expression

/-!
# Constant folding

`ConstantFoldingRule` replaces a binary operation on two literals by its value, from the leaves up,
with an arithmetic of its own.
-/

namespace CoroDB

section Fold

def Expression.asLiteral : Expression → Option Value
  | .literal v => some v
  | _ => none

def foldBinary (op : BinaryOp) (l r : Value) : Option Value :=
  if l = .null ∨ r = .null then some .null
  else
    match op, l, r with
    | .concat, .text s, .text t => some (.text (s ++ t))
    | .add, .int a, .int b => some (.int (a + b))
    | .sub, .int a, .int b => some (.int (a - b))
    | .mul, .int a, .int b => some (.int (a * b))
    | .div, .int a, .int b => if b = 0 then none else some (.int (a / b))
    | .mod, .int a, .int b => if b = 0 then none else some (.int (a % b))
    | _, _, _ => none

def foldExpression : Expression → Expression
  | .binary op lhs rhs =>
    let l := foldExpression lhs
    let r := foldExpression rhs
    match l.asLiteral.bind fun x => r.asLiteral.bind (foldBinary op x) with
    | some v => .literal v
    | none => .binary op l r
  | e => e

def foldBool : BoolExpression → BoolExpression
  | .comparison op lhs rhs => .comparison op (foldExpression lhs) (foldExpression rhs)
  | .and left right => .and (foldBool left) (foldBool right)
  | .or left right => .or (foldBool left) (foldBool right)
  | .not inner => .not (foldBool inner)
  | b => b

end Fold

section Constants

/-- The value of an operation on two constants, where it is one: `NULL` for arithmetic with `NULL`,
two texts put together, and integers from integers. -/
def constantBinary (op : BinaryOp) (x y : Value) : Option Value :=
  match op, x, y with
  | .concat, .text s, .text t => some (.text (s ++ t))
  | .concat, _, _ => none
  | _, .null, _ | _, _, .null => some .null
  | .add, .int a, .int b => some (.int (a + b))
  | .sub, .int a, .int b => some (.int (a - b))
  | .mul, .int a, .int b => some (.int (a * b))
  | .mod, .int a, .int b => if b = 0 then none else some (.int (a % b))
  | _, _, _ => none

namespace Expression

def constantValue : Expression → Option Value
  | .literal v => some v
  | .binary op lhs rhs =>
    lhs.constantValue.bind fun x => rhs.constantValue.bind (constantBinary op x)
  | _ => none

end Expression

/-- A division of two integers that is defined, or `||` with `NULL`. -/
def Misfolds (op : BinaryOp) (x y : Value) : Prop :=
  (op = .div ∧ ∃ a b : Int64, x = .int a ∧ y = .int b ∧ b ≠ 0) ∨
    op = .concat ∧ (x = .null ∨ y = .null)

variable {op : BinaryOp} {x y v : Value}

theorem foldBinary_of_not_misfolds (h : ¬ Misfolds op x y) :
    foldBinary op x y = constantBinary op x y := by
  cases op <;> cases x <;> cases y <;>
    simp_all [foldBinary, constantBinary, Misfolds]

theorem evalBinary_of_constantBinary (ops : DoubleOps) (h : constantBinary op x y = some v) :
    evalBinary ops op x y = .ok v := by
  cases op <;> cases x <;> cases y <;>
    simp_all [evalBinary, integerBinary, constantBinary, concatText]

theorem foldBinary_of_misfolds (ops : DoubleOps) (h : Misfolds op x y) :
    ∃ v, foldBinary op x y = some v ∧ evalBinary ops op x y ≠ .ok v := by
  rcases h with ⟨rfl, a, b, rfl, rfl, hb⟩ | ⟨rfl, hnull⟩
  · exact ⟨.int (a / b), by simp [foldBinary, hb], by simp [evalBinary, integerBinary, hb]⟩
  · exact ⟨.null, if_pos hnull, by simp [evalBinary]⟩

end Constants

section Preservation

/-- Both give the same value, or neither gives one. -/
def SameOutcome {α : Type} (a b : Except String α) : Prop := ∀ v, a = .ok v ↔ b = .ok v

theorem SameOutcome.of_eq {α : Type} {a b : Except String α} (h : a = b) : SameOutcome a b := by
  intro v
  rw [h]

namespace Expression

/-- No operation on two constants is one that folds to another value. -/
def Clean : Expression → Prop
  | .binary op lhs rhs =>
    lhs.Clean ∧ rhs.Clean ∧
      ∀ x ∈ lhs.constantValue, ∀ y ∈ rhs.constantValue, ¬ Misfolds op x y
  | _ => True

def parts : Expression → List Expression
  | .binary op lhs rhs => .binary op lhs rhs :: (lhs.parts ++ rhs.parts)
  | e => [e]

variable (ops : DoubleOps)

def FoldPreserves (e : Expression) : Prop :=
  ∀ r, SameOutcome ((foldExpression e).eval ops r) (e.eval ops r)

variable {ops} {e lhs rhs : Expression} {op : BinaryOp} {r : Record} {v x y : Value}

theorem eval_binary_of_ok (hx : lhs.eval ops r = .ok x) (hy : rhs.eval ops r = .ok y) :
    (binary op lhs rhs).eval ops r = evalBinary ops op x y := by
  rw [eval, hx, hy]
  rfl

theorem eval_of_constantValue (h : e.constantValue = some v) : e.eval ops r = .ok v := by
  induction e using constantValue.induct generalizing v with
  | case1 w =>
    cases h
    rw [eval]
  | case2 op lhs rhs ihl ihr =>
    simp only [constantValue, Option.bind_eq_some_iff] at h
    obtain ⟨x, hx, y, hy, hv⟩ := h
    rw [eval_binary_of_ok (ihl hx) (ihr hy)]
    exact evalBinary_of_constantBinary ops hv
  | case3 e hliteral hbinary =>
    rw [constantValue] at h
    · exact absurd h (by simp)
    · exact hliteral
    · exact hbinary

theorem bind_foldBinary
    (h : ∀ x ∈ lhs.constantValue, ∀ y ∈ rhs.constantValue, ¬ Misfolds op x y) :
    (lhs.constantValue.bind fun x => rhs.constantValue.bind (foldBinary op x)) =
      (binary op lhs rhs).constantValue := by
  rw [constantValue]
  cases hx : lhs.constantValue with
  | none => rfl
  | some x =>
    cases hy : rhs.constantValue with
    | none => rfl
    | some y => exact foldBinary_of_not_misfolds (h x hx y hy)

theorem asLiteral_foldExpression (h : e.Clean) : (foldExpression e).asLiteral = e.constantValue := by
  induction e using parts.induct with
  | case1 op lhs rhs ihl ihr =>
    obtain ⟨hl, hr, hop⟩ := h
    rw [← bind_foldBinary hop]
    simp only [foldExpression, ihl hl, ihr hr]
    cases lhs.constantValue.bind fun x => rhs.constantValue.bind (foldBinary op x) <;> rfl
  | case2 e hbinary =>
    cases e with
    | binary op lhs rhs => exact absurd rfl (hbinary op lhs rhs)
    | _ => rfl

theorem eval_foldExpression (h : e.Clean) : (foldExpression e).eval ops r = e.eval ops r := by
  induction e using parts.induct with
  | case1 op lhs rhs ihl ihr =>
    have hop := h.2.2
    have hlit : (foldExpression lhs).asLiteral = lhs.constantValue := asLiteral_foldExpression h.1
    have hrit : (foldExpression rhs).asLiteral = rhs.constantValue := asLiteral_foldExpression h.2.1
    simp only [foldExpression, hlit, hrit, bind_foldBinary hop]
    cases hv : (binary op lhs rhs).constantValue with
    | some v => rw [eval_of_constantValue hv, eval]
    | none => simp only [eval, ihl h.1, ihr h.2.1]
  | case2 e hbinary =>
    cases e with
    | binary op lhs rhs => exact absurd rfl (hbinary op lhs rhs)
    | _ => rfl

theorem clean_of_mem_parts (h : e.Clean) : ∀ p ∈ e.parts, p.Clean := by
  induction e using parts.induct with
  | case1 op lhs rhs ihl ihr =>
    intro p hp
    simp only [parts, List.mem_cons, List.mem_append] at hp
    rcases hp with rfl | hp | hp
    · exact h
    · exact ihl h.1 p hp
    · exact ihr h.2.1 p hp
  | case2 e hbinary =>
    cases e with
    | binary op lhs rhs => exact absurd rfl (hbinary op lhs rhs)
    | _ => simp [parts, Clean]

theorem not_foldPreserves (hl : lhs.Clean) (hr : rhs.Clean) (hx : lhs.constantValue = some x)
    (hy : rhs.constantValue = some y) (h : Misfolds op x y) :
    ¬ FoldPreserves ops (binary op lhs rhs) := by
  intro hpreserves
  obtain ⟨v, hfold, heval⟩ := foldBinary_of_misfolds ops h
  have hliteral : foldExpression (binary op lhs rhs) = literal v := by
    simp only [foldExpression, asLiteral_foldExpression hl, asLiteral_foldExpression hr, hx, hy,
      Option.bind_some, hfold]
  have hsame := (hpreserves ⟨[], []⟩ v).mp (by rw [hliteral, eval])
  rw [eval_binary_of_ok (eval_of_constantValue hx) (eval_of_constantValue hy)] at hsame
  exact heval hsame

theorem clean_of_foldPreserves (h : ∀ p ∈ e.parts, FoldPreserves ops p) : e.Clean := by
  induction e using parts.induct with
  | case1 op lhs rhs ihl ihr =>
    simp only [parts, List.mem_cons, List.mem_append] at h
    have hl : lhs.Clean := ihl fun p hp => h p (.inr (.inl hp))
    have hr : rhs.Clean := ihr fun p hp => h p (.inr (.inr hp))
    refine ⟨hl, hr, ?_⟩
    intro x hx y hy hop
    exact not_foldPreserves hl hr hx hy hop (h _ (.inl rfl))
  | case2 e hbinary =>
    cases e with
    | binary op lhs rhs => exact absurd rfl (hbinary op lhs rhs)
    | _ => exact trivial

theorem foldPreserves_parts_iff : (∀ p ∈ e.parts, FoldPreserves ops p) ↔ e.Clean := by
  constructor
  · exact clean_of_foldPreserves
  · intro h p hp r
    exact .of_eq (eval_foldExpression (clean_of_mem_parts h p hp))

end Expression

namespace BoolExpression

def operands : BoolExpression → List Expression
  | .comparison _ lhs rhs => [lhs, rhs]
  | .and left right | .or left right => left.operands ++ right.operands
  | .not inner => inner.operands
  | _ => []

variable (ops : DoubleOps)

/-- The folded predicate evaluates like the predicate. -/
def FoldPreserves (b : BoolExpression) : Prop :=
  ∀ r, SameOutcome ((foldBool b).eval ops r) (b.eval ops r)

variable {ops} {b : BoolExpression} {r : Record}

theorem eval_foldBool (h : ∀ e ∈ b.operands, e.Clean) : (foldBool b).eval ops r = b.eval ops r := by
  induction b with
  | comparison op lhs rhs =>
    simp only [operands, List.mem_cons, List.not_mem_nil, or_false, forall_eq_or_imp, forall_eq] at h
    simp only [foldBool, eval, Comparison.eval, Expression.eval_toExpr,
      Expression.eval_foldExpression h.1, Expression.eval_foldExpression h.2]
  | and left right ihl ihr =>
    simp only [operands, List.mem_append] at h
    simp only [foldBool, eval, ihl fun e he => h e (.inl he), ihr fun e he => h e (.inr he)]
  | or left right ihl ihr =>
    simp only [operands, List.mem_append] at h
    simp only [foldBool, eval, ihl fun e he => h e (.inl he), ihr fun e he => h e (.inr he)]
  | not inner ih =>
    simp only [foldBool, eval, ih h]
  | _ => rfl

end BoolExpression

/-- Folding keeps the meaning of an expression with its operands, and of a predicate with its operands,
exactly when no constant division of integers and no `||` with a constant `NULL` is among them. -/
theorem constantFolding_preserves_iff (ops : DoubleOps) :
    (∀ e : Expression, (∀ p ∈ e.parts, p.FoldPreserves ops) ↔ e.Clean) ∧
    ∀ b : BoolExpression,
      (b.FoldPreserves ops ∧ ∀ e ∈ b.operands, ∀ p ∈ e.parts, p.FoldPreserves ops) ↔
        ∀ e ∈ b.operands, e.Clean := by
  refine ⟨fun _ => Expression.foldPreserves_parts_iff, ?_⟩
  intro b
  constructor
  · intro h e he
    exact Expression.clean_of_foldPreserves (h.2 e he)
  · intro h
    constructor
    · intro r
      exact .of_eq (BoolExpression.eval_foldBool h)
    · intro e he
      exact Expression.foldPreserves_parts_iff.mpr (h e he)

/-- Doubles at the operands `1` and `2`. -/
def oneAndTwo : DoubleOps where
  add _ _ := ⟨0x4008000000000000⟩
  sub _ _ := ⟨0xBFF0000000000000⟩
  mul _ _ := ⟨0x4000000000000000⟩
  div _ _ := ⟨0x3FE0000000000000⟩
  text _ := Ascii.ascii "1.000000"

/-- `1 / 2` is a half, and `0` once folded, so that `1 / 2 > 0` becomes false; `NULL || 'a'` is `'a'`, and
`NULL` once folded. -/
theorem foldExpression_changes :
    let half := Expression.binary .div (.literal (.int 1)) (.literal (.int 2))
    let joined := Expression.binary .concat (.literal .null) (.literal (.text [97]))
    let positive := BoolExpression.comparison .gt half (.literal (.int 0))
    let r : Record := ⟨[], []⟩
    half.eval oneAndTwo r = .ok (.double ⟨0x3FE0000000000000⟩) ∧
      (foldExpression half).eval oneAndTwo r = .ok (.int 0) ∧
      joined.eval oneAndTwo r = .ok (.text [97]) ∧
      (foldExpression joined).eval oneAndTwo r = .ok .null ∧
      positive.eval oneAndTwo r = .ok .isTrue ∧
      (foldBool positive).eval oneAndTwo r = .ok .isFalse := by
  refine ⟨rfl, rfl, rfl, rfl, ?_, ?_⟩ <;> decide +kernel

end Preservation

end CoroDB
