import CoroDB.Exec.ConstantFolding
import CoroDB.Framework.OpProgram

/-!
# Integer operations of expressions

The operations on `int64_t` that evaluation and constant folding execute; in the source a signed
operation is undefined when its result is no `int64_t`.
-/

namespace CoroDB

open Framework Ascii
open OpProgram (executes_bind run_bind executes_done)

section Machine

/-- The signed operations, of which `quot` and `rem` round towards zero. -/
inductive MachineOp where
  | add (l r : Int64)
  | sub (l r : Int64)
  | mul (l r : Int64)
  | quot (l r : Int64)
  | rem (l r : Int64)
  | neg (n : Int64)
  deriving DecidableEq

namespace MachineOp

/-- What the operation gives where it is executed in two's complement. -/
def wrapped : MachineOp → Int64
  | add l r => l + r
  | sub l r => l - r
  | mul l r => l * r
  | quot l r => l / r
  | rem l r => l % r
  | neg n => -n

def exact : MachineOp → Int
  | add l r => l.toInt + r.toInt
  | sub l r => l.toInt - r.toInt
  | mul l r => l.toInt * r.toInt
  | quot l r => l.toInt.tdiv r.toInt
  | rem l r => l.toInt.tmod r.toInt
  | neg n => -n.toInt

/-- A division by zero, or of the least integer by -1. -/
def traps : MachineOp → Bool
  | quot l r | rem l r => r == 0 || (l == Int64.minValue && r == -1)
  | _ => false

def Defined (o : MachineOp) : Prop := o.traps = false ∧ -2 ^ 63 ≤ o.exact ∧ o.exact < 2 ^ 63

theorem defined_add_iff {l r : Int64} : (add l r).Defined ↔ FitsInt64 (l.toInt + r.toInt) :=
  and_iff_right rfl

theorem defined_sub_iff {l r : Int64} : (sub l r).Defined ↔ FitsInt64 (l.toInt - r.toInt) :=
  and_iff_right rfl

theorem defined_mul_iff {l r : Int64} : (mul l r).Defined ↔ FitsInt64 (l.toInt * r.toInt) :=
  and_iff_right rfl

theorem defined_quot_iff {l r : Int64} (hr : r ≠ 0) :
    (quot l r).Defined ↔ ¬ (l = Int64.minValue ∧ r = -1) := by
  constructor
  · rintro ⟨htraps, -⟩ ⟨rfl, rfl⟩
    exact absurd htraps (by decide)
  · intro h
    have hexact : (l / r).toInt = l.toInt.tdiv r.toInt := by
      by_cases hl : l = Int64.minValue
      · exact Int64.toInt_div_of_ne_right l r fun hr' => h ⟨hl, hr'⟩
      · exact Int64.toInt_div_of_ne_left l r hl
    rw [Defined, exact, ← hexact]
    refine ⟨?_, (l / r).le_toInt, (l / r).toInt_lt⟩
    simp only [traps]
    grind

theorem defined_rem_iff {l r : Int64} (hr : r ≠ 0) :
    (rem l r).Defined ↔ ¬ (l = Int64.minValue ∧ r = -1) := by
  rw [Defined, exact, ← Int64.toInt_mod]
  constructor
  · rintro ⟨htraps, -⟩ ⟨rfl, rfl⟩
    exact absurd htraps (by decide)
  · intro h
    refine ⟨?_, (l % r).le_toInt, (l % r).toInt_lt⟩
    simp only [traps]
    grind

theorem defined_neg_iff {n : Int64} : (neg n).Defined ↔ n ≠ Int64.minValue := by
  have hle := n.le_toInt
  have hlt := n.toInt_lt
  rw [Defined, exact, ne_eq, ← Int64.toInt_inj, Int64.toInt_minValue]
  simp only [traps, true_and]
  omega

theorem defined_sub_one (i : Int64) : (sub (if i < 1 then 1 else i) 1).Defined := by
  have hone : (1 : Int64).toInt = 1 := rfl
  have hlt := i.toInt_lt
  rw [Defined, exact, hone]
  simp only [traps, true_and]
  split_ifs with hi
  · decide
  · rw [Int64.lt_iff_toInt_lt, hone] at hi
    omega

end MachineOp

abbrev IntProgram (α : Type) := OpProgram MachineOp Int64 String α

end Machine

open MachineOp (wrapped Defined)

section Evaluation

variable (ops : DoubleOps)

def MachineOp.program (o : MachineOp) : IntProgram Value := .exec o fun i => .done (.ok (.int i))

@[simp]
theorem MachineOp.program_executes (o : MachineOp) : o.program.Executes wrapped Defined ↔ o.Defined := by
  simp [program]

/-- The binary operation of `ExpressionEvaluator::eval`. -/
def binaryProgram (op : BinaryOp) (x y : Value) : IntProgram Value :=
  match op, x, y with
  | .add, .int l, .int r => (MachineOp.add l r).program
  | .sub, .int l, .int r => (MachineOp.sub l r).program
  | .mul, .int l, .int r => (MachineOp.mul l r).program
  | .mod, .int l, .int r =>
    if r = 0 then .done (.error "[Executor] Modulo by zero") else (MachineOp.rem l r).program
  | op, x, y => .done (evalBinary ops op x y)

def argumentProgram (args : List (IntProgram Value)) (i : Nat) : IntProgram Value :=
  (args[i]?).getD (.done (.error "[Executor] Missing argument"))

def coalesceProgram : List (IntProgram Value) → IntProgram Value
  | [] => .done (.ok .null)
  | arg :: args => arg.bind fun v => if v = .null then coalesceProgram args else .done (.ok v)

/-- `ABS` of an integer. -/
def absProgram : Value → IntProgram Value
  | .null => .done (.ok .null)
  | .int n => if n < 0 then (MachineOp.neg n).program else .done (.ok (.int n))
  | _ => .done (.error "[Executor] ABS requires integer argument")

def substrCut (s : Bytes) (pos : Nat) : Value → Except String Value
  | .int l => .ok (.text ((s.drop pos).take l.toInt.toNat))
  | _ => .error "[Executor] SUBSTR requires integer length"

/-- The part of `SUBSTR` behind its start, which is counted from one. -/
def substrFrom (args : List (IntProgram Value)) (s : Bytes) (pos : Nat) : IntProgram Value :=
  if s.length ≤ pos then .done (.ok (.text []))
  else if 2 < args.length then
    (argumentProgram args 2).bind fun v => .done (substrCut s pos v)
  else .done (.ok (.text (s.drop pos)))

def substrStart (args : List (IntProgram Value)) (s : Bytes) : Value → IntProgram Value
  | .int i =>
    .exec (.sub (if i < 1 then 1 else i) 1) fun pos => substrFrom args s pos.toInt.toNat
  | _ => .done (.error "[Executor] SUBSTR requires integer start position")

def substrProgram (args : List (IntProgram Value)) : Value → IntProgram Value
  | .null => .done (.ok .null)
  | .text s => (argumentProgram args 1).bind (substrStart args s)
  | _ => .done (.error "[Executor] SUBSTR requires string as first argument")

/-- `ExpressionEvaluator::eval_function`. -/
def functionProgram (func : ScalarFunc) (args : List (IntProgram Value)) : IntProgram Value :=
  match func with
  | .coalesce => coalesceProgram args
  | .nullif => (argumentProgram args 0).bind fun a => (argumentProgram args 1).bind fun b =>
      .done (.ok (if valueEq a b then .null else a))
  | .upper => (argumentProgram args 0).bind fun v =>
      .done (textFunction "UPPER" (fun s => .text (s.map toUpper)) v)
  | .lower => (argumentProgram args 0).bind fun v =>
      .done (textFunction "LOWER" (fun s => .text (s.map toLower)) v)
  | .length => (argumentProgram args 0).bind fun v =>
      .done (textFunction "LENGTH" (fun s => .int (.ofNat s.length)) v)
  | .trim => (argumentProgram args 0).bind fun v =>
      .done (textFunction "TRIM" (fun s => .text (trim s)) v)
  | .substr => (argumentProgram args 0).bind (substrProgram args)
  | .abs => (argumentProgram args 0).bind absProgram

variable (r : Record)

mutual

/-- `ExpressionEvaluator::eval` with the integer operations that it executes. -/
def Expression.program : Expression → IntProgram Value
  | .column ref => .done (r.lookup ref)
  | .literal v => .done (.ok v)
  | .binary op lhs rhs => lhs.program.bind fun x => rhs.program.bind (binaryProgram ops op x)
  | .aggregate a => .done (r.aggregate a)
  | .function func args => functionProgram func (programs args)
  | .nullBinary => .done (.error "[Executor] Invalid binary expression")
  | .nullFunction => .done (.error "[Executor] Invalid function expression")

def Expression.programs : List Expression → List (IntProgram Value)
  | [] => []
  | e :: es => e.program :: programs es

end

end Evaluation

section Runs

variable (ops : DoubleOps)

theorem run_binaryProgram (op : BinaryOp) (x y : Value) :
    (binaryProgram ops op x y).run wrapped = evalBinary ops op x y := by
  unfold binaryProgram
  split <;> try rfl
  split_ifs with hr
  · simp [OpProgram.run, evalBinary, integerBinary, hr]
  · simp [MachineOp.program, OpProgram.run, evalBinary, integerBinary, hr, wrapped]

theorem run_argumentProgram (args : List (IntProgram Value)) (i : Nat) :
    (argumentProgram args i).run wrapped =
      argument (args.map (·.run wrapped)) i := by
  rw [argumentProgram, argument, List.getElem?_map]
  cases args[i]? <;> rfl

theorem run_coalesceProgram (args : List (IntProgram Value)) :
    (coalesceProgram args).run wrapped =
      coalesce (args.map (·.run wrapped)) := by
  induction args with
  | nil => rfl
  | cons arg args ih =>
    rw [coalesceProgram, run_bind, List.map_cons, coalesce]
    cases arg.run wrapped with
    | error e => rfl
    | ok v =>
      by_cases hv : v = .null
      · simpa [hv, Except.bind, bind] using ih
      · simp only [Except.bind, bind, if_neg hv, OpProgram.run]
        rfl

theorem substr_pos (i : Int64) :
    (MachineOp.sub (if i < 1 then 1 else i) 1).wrapped.toInt.toNat =
      (if i < 1 then 0 else i.toInt - 1).toNat := by
  have hone : (1 : Int64).toInt = 1 := rfl
  split_ifs with hi
  · rfl
  · have hi : 1 ≤ i.toInt := by
      rw [Int64.lt_iff_toInt_lt, hone] at hi
      omega
    have hlt := i.toInt_lt
    rw [wrapped, Int64.toInt_sub, hone, Int.bmod_eq_of_le (by omega) (by omega)]

theorem run_substrFrom (args : List (IntProgram Value)) (s : Bytes) (pos : Nat) :
    (substrFrom args s pos).run wrapped =
      if s.length ≤ pos then .ok (.text [])
      else if 2 < (args.map (·.run wrapped)).length then
        (argument (args.map (·.run wrapped)) 2).bind (substrCut s pos)
      else .ok (.text (s.drop pos)) := by
  unfold substrFrom
  rw [List.length_map]
  split_ifs
  · rfl
  · rw [run_bind, run_argumentProgram]
    rfl
  · rfl

theorem run_substr (args : List (IntProgram Value)) (s : Bytes) :
    ((argumentProgram args 1).bind (substrStart args s)).run wrapped =
      substr (args.map (·.run wrapped)) s := by
  rw [run_bind, run_argumentProgram, substr]
  cases argument (args.map (·.run wrapped)) 1 with
  | error e => rfl
  | ok v =>
    cases v with
    | int i =>
      have hrun : (substrStart args s (.int i)).run wrapped =
          (substrFrom args s (if i < 1 then 0 else i.toInt - 1).toNat).run wrapped := by
        rw [substrStart, OpProgram.run, substr_pos]
      refine hrun.trans ((run_substrFrom args s _).trans ?_)
      simp only [bind, Except.bind, pure, Except.pure]
      cases argument (args.map (·.run wrapped)) 2 with
      | error e => rfl
      | ok v => cases v <;> rfl
    | null => rfl
    | double d => rfl
    | text t => rfl

theorem run_functionProgram (func : ScalarFunc) (args : List (IntProgram Value)) :
    (functionProgram func args).run wrapped =
      evalFunction func (args.map (·.run wrapped)) := by
  cases func with
  | coalesce => exact run_coalesceProgram args
  | nullif =>
    rw [functionProgram, run_bind, run_argumentProgram]
    simp only [run_bind, run_argumentProgram]
    rfl
  | upper =>
    rw [functionProgram, run_bind, run_argumentProgram]
    rfl
  | lower =>
    rw [functionProgram, run_bind, run_argumentProgram]
    rfl
  | length =>
    rw [functionProgram, run_bind, run_argumentProgram]
    rfl
  | trim =>
    rw [functionProgram, run_bind, run_argumentProgram]
    rfl
  | substr =>
    rw [functionProgram, run_bind, run_argumentProgram, evalFunction]
    cases argument (args.map (·.run wrapped)) 0 with
    | error e => rfl
    | ok v =>
      cases v with
      | text s => exact run_substr args s
      | null => rfl
      | int i => rfl
      | double d => rfl
  | abs =>
    rw [functionProgram, run_bind, run_argumentProgram, evalFunction]
    cases argument (args.map (·.run wrapped)) 0 with
    | error e => rfl
    | ok v =>
      cases v with
      | int n =>
        simp only [Except.bind, bind, absProgram]
        split_ifs <;> rfl
      | null => rfl
      | text s => rfl
      | double d => rfl

variable (r : Record)

mutual

theorem Expression.run_program : ∀ e : Expression,
    (e.program ops r).run wrapped = e.eval ops r
  | .column ref => by rw [program, eval]; rfl
  | .literal v => by rw [program, eval]; rfl
  | .aggregate a => by rw [program, eval]; rfl
  | .nullBinary => by rw [program, eval]; rfl
  | .nullFunction => by rw [program, eval]; rfl
  | .binary op lhs rhs => by
    rw [program, eval, run_bind, run_program lhs]
    simp only [run_bind, run_program rhs, run_binaryProgram]
    rfl
  | .function func args => by
    rw [program, eval, run_functionProgram, run_programs args]

theorem Expression.run_programs : ∀ es : List Expression,
    (programs ops r es).map (·.run wrapped) = evalArgs ops r es
  | [] => by rw [programs, evalArgs]; rfl
  | e :: es => by
    rw [programs, evalArgs, List.map_cons, run_program e,
      run_programs es]

end

end Runs

section Folding

/-- `fold_binary` with the integer operations that it executes. -/
def foldBinaryProgram (op : BinaryOp) (x y : Value) : IntProgram (Option Value) :=
  match op, x, y with
  | .add, .int a, .int b => (MachineOp.add a b).program.bind fun v => .done (.ok (some v))
  | .sub, .int a, .int b => (MachineOp.sub a b).program.bind fun v => .done (.ok (some v))
  | .mul, .int a, .int b => (MachineOp.mul a b).program.bind fun v => .done (.ok (some v))
  | .div, .int a, .int b =>
    if b = 0 then .done (.ok none) else (MachineOp.quot a b).program.bind fun v => .done (.ok (some v))
  | .mod, .int a, .int b =>
    if b = 0 then .done (.ok none) else (MachineOp.rem a b).program.bind fun v => .done (.ok (some v))
  | op, x, y => .done (.ok (foldBinary op x y))

def foldNodeProgram (op : BinaryOp) (l r : Expression) : IntProgram Expression :=
  match l.asLiteral, r.asLiteral with
  | some x, some y => (foldBinaryProgram op x y).bind fun v =>
      .done (.ok ((v.map Expression.literal).getD (.binary op l r)))
  | _, _ => .done (.ok (.binary op l r))

/-- `fold_expression` with the integer operations that it executes. -/
def foldProgram : Expression → IntProgram Expression
  | .binary op lhs rhs =>
    (foldProgram lhs).bind fun l => (foldProgram rhs).bind fun r => foldNodeProgram op l r
  | e => .done (.ok e)

theorem run_foldBinaryProgram (op : BinaryOp) (x y : Value) :
    (foldBinaryProgram op x y).run wrapped = .ok (foldBinary op x y) := by
  cases op <;> cases x <;> cases y <;> try rfl
  · rename_i a b
    by_cases hb : b = 0
    · simp [foldBinaryProgram, foldBinary, hb, OpProgram.run]
    · simp [foldBinaryProgram, foldBinary, hb, OpProgram.run, OpProgram.bind, MachineOp.program,
        wrapped]
  · rename_i a b
    by_cases hb : b = 0
    · simp [foldBinaryProgram, foldBinary, hb, OpProgram.run]
    · simp [foldBinaryProgram, foldBinary, hb, OpProgram.run, OpProgram.bind, MachineOp.program,
        wrapped]

theorem run_foldNodeProgram (op : BinaryOp) (l r : Expression) :
    (foldNodeProgram op l r).run wrapped =
      .ok (((l.asLiteral.bind fun x => r.asLiteral.bind (foldBinary op x)).map
        Expression.literal).getD (.binary op l r)) := by
  unfold foldNodeProgram
  cases l.asLiteral with
  | none => rfl
  | some x =>
    cases r.asLiteral with
    | none => rfl
    | some y =>
      simp only [run_bind, run_foldBinaryProgram]
      rfl

theorem run_foldProgram (e : Expression) :
    (foldProgram e).run wrapped = .ok (foldExpression e) := by
  induction e using foldProgram.induct with
  | case1 op lhs rhs hl hr =>
    rw [foldProgram, run_bind, hl]
    simp only [Except.bind, run_bind, hr, run_foldNodeProgram]
    rw [foldExpression]
    cases (foldExpression lhs).asLiteral.bind fun x =>
      (foldExpression rhs).asLiteral.bind (foldBinary op x) <;> rfl
  | case2 e he =>
    cases e with
    | binary op lhs rhs => exact (he op lhs rhs rfl).elim
    | _ => rfl

end Folding

section Defined

/-- The exact result of an operation on two integers is an `int64_t`. -/
def binaryFits : BinaryOp → Value → Value → Prop
  | .add, .int l, .int r => FitsInt64 (l.toInt + r.toInt)
  | .sub, .int l, .int r => FitsInt64 (l.toInt - r.toInt)
  | .mul, .int l, .int r => FitsInt64 (l.toInt * r.toInt)
  | .mod, .int l, .int r => ¬ (l = Int64.minValue ∧ r = -1)
  | _, _, _ => True

/-- The same for two literals, where a quotient is one of integers. -/
def foldBinaryFits (op : BinaryOp) (x y : Value) : Prop :=
  binaryFits op x y ∧ (op = .div → ¬ (x = .int Int64.minValue ∧ y = .int (-1)))

/-- What each argument evaluates to, and whether the integers on the way fit. -/
abbrev FittingArgs := List (Except String Value × Prop)

namespace FittingArgs

def value (args : FittingArgs) (i : Nat) : Except String Value := argument (args.map Prod.fst) i

def fits (args : FittingArgs) (i : Nat) : Prop := (args[i]?).elim True Prod.snd

/-- `COALESCE` evaluates its arguments up to the first that is not `NULL`. -/
def coalesceFits : FittingArgs → Prop
  | [] => True
  | (v, p) :: args => p ∧ (v = .ok .null → coalesceFits args)

/-- `SUBSTR` evaluates its third argument only if the start is within the text. -/
def substrFits (args : FittingArgs) : Prop :=
  args.fits 0 ∧ ∀ s, args.value 0 = .ok (.text s) → args.fits 1 ∧
    ∀ i, args.value 1 = .ok (.int i) → (if i < 1 then 0 else i.toInt - 1).toNat < s.length →
      args.fits 2

end FittingArgs

/-- The integers of the arguments that a function evaluates fit, and `ABS` is not applied to the least
integer. -/
def functionFits (args : FittingArgs) : ScalarFunc → Prop
  | .coalesce => args.coalesceFits
  | .nullif => args.fits 0 ∧ ∀ v, args.value 0 = .ok v → args.fits 1
  | .substr => args.substrFits
  | .abs => args.fits 0 ∧ args.value 0 ≠ .ok (.int Int64.minValue)
  | _ => args.fits 0

section Fits

variable (ops : DoubleOps) (r : Record)

mutual

/-- Every operation of the expression that evaluation reaches has an exact result that is an `int64_t`. -/
def Expression.Fits : Expression → Prop
  | .binary op lhs rhs => lhs.Fits ∧ ∀ x, lhs.eval ops r = .ok x → rhs.Fits ∧
      ∀ y, rhs.eval ops r = .ok y → binaryFits op x y
  | .function func args => functionFits (fitsArgs args) func
  | _ => True

def Expression.fitsArgs : List Expression → FittingArgs
  | [] => []
  | e :: es => (e.eval ops r, e.Fits) :: fitsArgs es

end

end Fits

/-- Every operation on literals that folding reaches has an exact result that is an `int64_t`. -/
def Expression.FoldFits : Expression → Prop
  | .binary op lhs rhs => lhs.FoldFits ∧ rhs.FoldFits ∧
      ∀ x y, foldExpression lhs = .literal x → foldExpression rhs = .literal y → foldBinaryFits op x y
  | _ => True

section Executes

variable {ops : DoubleOps} {r : Record}

theorem binaryProgram_executes (op : BinaryOp) (x y : Value) :
    (binaryProgram ops op x y).Executes wrapped Defined ↔ binaryFits op x y := by
  unfold binaryProgram
  split
  · rw [MachineOp.program_executes, MachineOp.defined_add_iff, binaryFits]
  · rw [MachineOp.program_executes, MachineOp.defined_sub_iff, binaryFits]
  · rw [MachineOp.program_executes, MachineOp.defined_mul_iff, binaryFits]
  · rename_i l r
    split_ifs with hr
    · subst hr
      simp [binaryFits]
    · rw [MachineOp.program_executes, MachineOp.defined_rem_iff hr, binaryFits]
  · rename_i hadd hsub hmul hmod
    simp only [executes_done, true_iff]
    unfold binaryFits
    split <;> grind

/-- What programs for the arguments of a function evaluate to, and whether they execute only defined
operations. -/
def outcomes (args : List (IntProgram Value)) : FittingArgs :=
  args.map fun p => (p.run wrapped, p.Executes wrapped Defined)

variable (args : List (IntProgram Value))

theorem run_argument (i : Nat) :
    (argumentProgram args i).run wrapped = (outcomes args).value i := by
  rw [run_argumentProgram, FittingArgs.value, outcomes, List.map_map]
  rfl

theorem argumentProgram_executes (i : Nat) :
    (argumentProgram args i).Executes wrapped Defined ↔
      (outcomes args).fits i := by
  rw [argumentProgram, FittingArgs.fits, outcomes, List.getElem?_map]
  cases args[i]? <;> simp

theorem coalesceProgram_executes :
    (coalesceProgram args).Executes wrapped Defined ↔
      (outcomes args).coalesceFits := by
  induction args with
  | nil => simp [coalesceProgram, outcomes, FittingArgs.coalesceFits]
  | cons arg args ih =>
    rw [coalesceProgram, executes_bind, outcomes, List.map_cons, FittingArgs.coalesceFits]
    refine and_congr_right fun _ => ⟨fun h hnull => ?_, fun h v hv => ?_⟩
    · have hnext := h .null hnull
      rw [if_pos rfl] at hnext
      exact ih.mp hnext
    · split_ifs with hnull
      · exact ih.mpr (h (hnull ▸ hv))
      · exact executes_done _

omit args in
theorem absProgram_executes (v : Value) :
    (absProgram v).Executes wrapped Defined ↔ v ≠ .int Int64.minValue := by
  cases v with
  | int n =>
    rw [absProgram]
    split_ifs with hn
    · simp [MachineOp.defined_neg_iff]
    · simp only [executes_done, true_iff, ne_eq, Value.int.injEq]
      rintro rfl
      exact hn (by decide)
  | _ => simp [absProgram]

theorem substrFrom_executes (s : Bytes) (pos : Nat) :
    (substrFrom args s pos).Executes wrapped Defined ↔
      (pos < s.length → (outcomes args).fits 2) := by
  rw [substrFrom]
  split_ifs with hpos hargs
  · simp only [executes_done, true_iff]
    omega
  · simp [executes_bind, argumentProgram_executes, not_le.mp hpos]
  · have hnone : (outcomes args)[2]? = none := by
      rw [List.getElem?_eq_none_iff, outcomes, List.length_map]
      omega
    simp [FittingArgs.fits, hnone]

theorem substrStart_executes (s : Bytes) (v : Value) :
    (substrStart args s v).Executes wrapped Defined ↔
      ∀ i, v = .int i → (if i < 1 then 0 else i.toInt - 1).toNat < s.length →
        (outcomes args).fits 2 := by
  cases v with
  | int i =>
    rw [substrStart, OpProgram.executes_exec, substr_pos, substrFrom_executes]
    simp [MachineOp.defined_sub_one]
  | _ => simp [substrStart]

theorem substrProgram_executes (v : Value) :
    (substrProgram args v).Executes wrapped Defined ↔
      ∀ s, v = .text s → (outcomes args).fits 1 ∧ ∀ i, (outcomes args).value 1 = .ok (.int i) →
        (if i < 1 then 0 else i.toInt - 1).toNat < s.length → (outcomes args).fits 2 := by
  cases v with
  | text s =>
    simp only [substrProgram, executes_bind, argumentProgram_executes, run_argument,
      substrStart_executes, Value.text.injEq, forall_eq']
    refine and_congr_right fun _ => ⟨fun h i hi => h _ hi i rfl, ?_⟩
    rintro h v hv i rfl
    exact h i hv
  | _ => simp [substrProgram]

theorem functionProgram_executes (func : ScalarFunc) :
    (functionProgram func args).Executes wrapped Defined ↔
      functionFits (outcomes args) func := by
  cases func with
  | coalesce => exact coalesceProgram_executes args
  | substr =>
    rw [functionProgram, executes_bind, argumentProgram_executes, run_argument]
    simp only [substrProgram_executes]
    refine and_congr_right fun _ => ⟨fun h s hs => h _ hs s rfl, ?_⟩
    rintro h v hv s rfl
    exact h s hv
  | nullif =>
    rw [functionProgram, executes_bind, argumentProgram_executes, run_argument]
    simp only [executes_bind, argumentProgram_executes, executes_done]
    simp [functionFits]
  | abs =>
    rw [functionProgram, executes_bind, argumentProgram_executes, run_argument]
    simp only [absProgram_executes]
    refine and_congr_right fun _ => ⟨fun h habs => h _ habs rfl, ?_⟩
    rintro h v hv rfl
    exact h hv
  | _ =>
    rw [functionProgram, executes_bind, argumentProgram_executes]
    simp [functionFits]

variable (ops r)

mutual

theorem Expression.program_executes : ∀ e : Expression,
    (e.program ops r).Executes wrapped Defined ↔ e.Fits ops r
  | .column ref => by simp [program, Fits]
  | .literal v => by simp [program, Fits]
  | .aggregate a => by simp [program, Fits]
  | .nullBinary => by simp [program, Fits]
  | .nullFunction => by simp [program, Fits]
  | .binary op lhs rhs => by
    rw [program, Fits, executes_bind, program_executes lhs]
    simp only [executes_bind, program_executes rhs, run_program,
      binaryProgram_executes]
  | .function func args => by
    rw [program, Fits, functionProgram_executes, outcomes_programs args]

theorem Expression.outcomes_programs : ∀ es : List Expression,
    outcomes (programs ops r es) = fitsArgs ops r es
  | [] => by rw [programs, fitsArgs]; rfl
  | e :: es => by
    rw [programs, fitsArgs, ← outcomes_programs es, outcomes,
      List.map_cons, run_program, propext (program_executes e)]
    rfl

end

omit ops r in
theorem foldBinaryProgram_executes (op : BinaryOp) (x y : Value) :
    (foldBinaryProgram op x y).Executes wrapped Defined ↔
      foldBinaryFits op x y := by
  unfold foldBinaryProgram
  split
  · simp [executes_bind, MachineOp.defined_add_iff, foldBinaryFits, binaryFits]
  · simp [executes_bind, MachineOp.defined_sub_iff, foldBinaryFits, binaryFits]
  · simp [executes_bind, MachineOp.defined_mul_iff, foldBinaryFits, binaryFits]
  · split_ifs with hb
    · subst hb
      simp [foldBinaryFits, binaryFits]
    · simp [executes_bind, MachineOp.defined_quot_iff hb, foldBinaryFits, binaryFits]
  · split_ifs with hb
    · subst hb
      simp [foldBinaryFits, binaryFits]
    · simp [executes_bind, MachineOp.defined_rem_iff hb, foldBinaryFits, binaryFits]
  · rename_i hadd hsub hmul hdiv hmod
    simp only [executes_done, true_iff, foldBinaryFits]
    unfold binaryFits
    refine ⟨?_, ?_⟩
    · split <;> grind
    · rintro rfl ⟨rfl, rfl⟩
      exact hdiv _ _ rfl rfl rfl

omit ops r in
theorem foldNodeProgram_executes (op : BinaryOp) (l r : Expression) :
    (foldNodeProgram op l r).Executes wrapped Defined ↔
      ∀ x y, l = .literal x → r = .literal y → foldBinaryFits op x y := by
  have hliteral : ∀ {e : Expression} {v : Value}, e.asLiteral = some v ↔ e = .literal v := by
    intro e v
    cases e <;> simp [Expression.asLiteral]
  rw [foldNodeProgram]
  split
  · rename_i x y hx hy
    rw [hliteral] at hx hy
    subst hx hy
    simp [executes_bind, foldBinaryProgram_executes]
  · rename_i hnone
    simp only [executes_done, true_iff]
    intro x y hx hy
    exact (hnone x y (hliteral.mpr hx) (hliteral.mpr hy)).elim

omit ops r in
theorem foldProgram_executes (e : Expression) :
    (foldProgram e).Executes wrapped Defined ↔ e.FoldFits := by
  induction e using foldProgram.induct with
  | case1 op lhs rhs hl hr =>
    rw [foldProgram, executes_bind, Expression.FoldFits, hl, run_foldProgram]
    simp [executes_bind, run_foldProgram, hr, foldNodeProgram_executes]
  | case2 e he =>
    cases e with
    | binary op lhs rhs => exact (he op lhs rhs rfl).elim
    | _ => simp [foldProgram, Expression.FoldFits]

end Executes

/-- Evaluation and folding execute only defined operations exactly when every operation that they
reach has an exact result within `int64_t`. -/
theorem operations_defined_iff (ops : DoubleOps) (r : Record) (e : Expression) :
    (∀ o ∈ (e.program ops r).executed wrapped, o.Defined) ∧
      (∀ o ∈ (foldProgram e).executed wrapped, o.Defined) ↔
    e.Fits ops r ∧ e.FoldFits :=
  and_congr (Expression.program_executes ops r e) (foldProgram_executes e)

def maxPlusOne : Expression := .binary .add (.literal (.int Int64.maxValue)) (.literal (.int 1))

/-- Both the evaluation and the folding of `9223372036854775807 + 1` execute an addition whose result is
no `int64_t`. -/
theorem maxPlusOne_undefined :
    (∃ o ∈ (maxPlusOne.program ⟨fun a _ => a, fun a _ => a, fun a _ => a, fun a _ => a, fun _ => []⟩
      ⟨[], []⟩).executed wrapped, ¬ o.Defined) ∧
    ∃ o ∈ (foldProgram maxPlusOne).executed wrapped, ¬ o.Defined := by
  have hundefined : ¬ (MachineOp.add Int64.maxValue 1).Defined := by
    intro h
    exact absurd h.2.2 (by decide)
  constructor
  · exact ⟨_, List.mem_singleton.mpr rfl, hundefined⟩
  · exact ⟨_, List.mem_singleton.mpr rfl, hundefined⟩

end Defined

end CoroDB
