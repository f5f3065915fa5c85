import CoroDB.Exec.OrderBy

/-!
# IN and BETWEEN

`IN` compares with the equality of the variants, where an integer never equals a double, and `=` with
`compare_order`.
-/

namespace CoroDB

open Framework

section Sources

def singleColumn : List (List Value) → Except String (List Value) :=
  List.mapM fun row =>
    match row with
    | [v] => .ok v
    | _ => .error "[Process] IN subquery must return exactly one column"

/-- `resolve_subqueries_in_bool`: the rows of a subquery take its place as literals. -/
def resolveIn (expr : Expr) (rows : List (List Value)) (negated : Bool) : Except String BoolExpr := do
  return .inList expr ((← singleColumn rows).map .literal) negated

/-- The loop over the values of a correlated subquery, with whether a `NULL` has been met. -/
def evalInValues (lhs : Value) (negated : Bool) : Bool → List Value → SqlBool
  | hasNull, [] => if hasNull then .unknown else .ofBool negated
  | hasNull, v :: vs =>
    if v = .null then evalInValues lhs negated true vs
    else if valueEq lhs v then .ofBool (!negated)
    else evalInValues lhs negated hasNull vs

/-- `IN` with a correlated subquery, which is run for the record. -/
def evalCorrelatedIn (expr : Expr) (rows : Record → Except String (List (List Value)))
    (negated : Bool) (r : Record) : Except String SqlBool := do
  let vals ← singleColumn (← rows r)
  let lhs ← expr.eval r
  if lhs = .null then return .unknown
  return evalInValues lhs negated false vals

end Sources

section Expansion

def BoolExpr.signed (negated : Bool) (e : BoolExpr) : BoolExpr := if negated then .not e else e

/-- `x = v₁ OR x = v₂ OR …`, and `1 = 0` for no value. -/
def expandIn (x : Expr) : List Expr → BoolExpr
  | [] => .comparison ⟨.eq, .literal (.int 1), .literal (.int 0)⟩
  | v :: vs => .or (.comparison ⟨.eq, x, v⟩) (expandIn x vs)

/-- `x >= low AND x <= high`. -/
def expandBetween (x low high : Expr) : BoolExpr :=
  .and (.comparison ⟨.ge, x, low⟩) (.comparison ⟨.le, x, high⟩)

/-- `IN` and `NOT IN` are what they stand for, wherever the values come from. -/
structure InExpands (r : Record) (x : Expr) (vs : List Expr) (vals : List Value) : Prop where
  list : ∀ negated, (BoolExpr.inList x vs negated).eval r = ((expandIn x vs).signed negated).eval r
  resolved : ∀ negated, (do (← resolveIn x (vals.map fun v => [v]) negated).eval r) =
    ((expandIn x vs).signed negated).eval r
  correlated : ∀ negated rows, rows r = .ok (vals.map fun v => [v]) →
    evalCorrelatedIn x rows negated r = ((expandIn x vs).signed negated).eval r

structure BetweenExpands (r : Record) (x low high : Expr) : Prop where
  range : ∀ negated, (BoolExpr.between x low high negated).eval r =
    ((expandBetween x low high).signed negated).eval r

end Expansion

section Loops

variable {r : Record} {x : Expr} {vs : List Expr} {xv : Value} {vals : List Value}

theorem singleColumn_eq (vals : List Value) : singleColumn (vals.map fun v => [v]) = .ok vals := by
  rw [singleColumn, List.mapM_map]
  have h := mapM_eq_ok (ε := String) (l := vals) (f := fun v => .ok v) (g := fun v => v) fun _ _ => rfl
  rw [List.map_id'] at h
  exact h

theorem evalIn_eq (negated : Bool) (hasNull : Bool)
    (h : List.Forall₂ (fun e v => e.eval r = .ok v) vs vals) :
    evalIn xv negated r hasNull vs = .ok (evalInValues xv negated hasNull vals) := by
  induction h generalizing hasNull with
  | nil => rfl
  | @cons e v vs vals hv _ ih =>
    simp only [evalIn, evalInValues, hv, bind, Except.bind, ih]
    split_ifs <;> rfl

theorem evalInValues_of_ne (hx : xv ≠ .null) (negated hasNull : Bool) (vals : List Value) :
    evalInValues xv negated hasNull vals =
      if vals.any (valueEq xv) then .ofBool (!negated)
      else if hasNull || vals.contains .null then .unknown
      else .ofBool negated := by
  have hnull : valueEq xv .null = false := by cases xv <;> simp_all [valueEq]
  induction vals generalizing hasNull with
  | nil => simp [evalInValues]
  | cons v vals ih =>
    rw [evalInValues]
    by_cases hv : v = .null
    · subst hv
      simp [ih, hnull]
    · cases hvx : valueEq xv v <;> simp [hv, Ne.symm hv, ih, hvx]

/-- The outcome of `x = v` for two values that can be compared. -/
def sqlEqual (xv v : Value) : SqlBool :=
  if xv = .null ∨ v = .null then .unknown else .ofBool (compareOrder xv v = .ok .eq)

def anyEqual (xv : Value) (vals : List Value) : SqlBool :=
  vals.foldr (fun v rest => .or3 (sqlEqual xv v) rest) .isFalse

theorem eval_equality {e : Expr} {v : Value} (hx : x.eval r = .ok xv) (hv : e.eval r = .ok v)
    (hcompare : ∃ o, compareOrder xv v = .ok o) :
    Comparison.eval ⟨.eq, x, e⟩ r = .ok (sqlEqual xv v) := by
  obtain ⟨o, ho⟩ := hcompare
  rw [Comparison.eval_of_ordered (by simp [CompareOp.ordered]) hx hv, sqlEqual, ho]
  split_ifs with hnull
  · rfl
  · cases o <;> rfl

theorem eval_expandIn (hx : x.eval r = .ok xv)
    (hvs : List.Forall₂ (fun e v => e.eval r = .ok v) vs vals)
    (hcompare : ∀ v ∈ vals, ∃ o, compareOrder xv v = .ok o) :
    (expandIn x vs).eval r = .ok (anyEqual xv vals) := by
  induction hvs with
  | nil =>
    have hfalse : sqlEqual (.int 1) (.int 0) = .isFalse := by decide +kernel
    have hnever := eval_equality (r := r) (x := .literal (.int 1)) (e := .literal (.int 0)) rfl rfl
      ⟨.gt, by decide +kernel⟩
    rw [hfalse] at hnever
    exact hnever
  | @cons e v vs vals hv _ ih =>
    obtain ⟨hcv, hcompare⟩ := List.forall_mem_cons.mp hcompare
    rw [expandIn, BoolExpr.eval, BoolExpr.eval, eval_equality hx hv hcv, ih hcompare]
    rfl

theorem anyEqual_of_null (vals : List Value) :
    anyEqual .null vals = if vals = [] then .isFalse else .unknown := by
  induction vals with
  | nil => rfl
  | cons v vals ih =>
    rw [anyEqual, List.foldr_cons, ← anyEqual, ih]
    simp only [sqlEqual, true_or, if_true, reduceCtorEq, if_false]
    split_ifs <;> rfl

theorem anyEqual_of_ne (hx : xv ≠ .null) (vals : List Value) :
    anyEqual xv vals =
      if vals.any fun v => v ≠ .null && compareOrder xv v = .ok .eq then .isTrue
      else if vals.contains .null then .unknown
      else .isFalse := by
  induction vals with
  | nil => rfl
  | cons v vals ih =>
    rw [anyEqual, List.foldr_cons, ← anyEqual, ih, sqlEqual]
    by_cases hv : v = .null
    · subst hv
      simp only [or_true, if_true, List.any_cons, ne_eq, not_true_eq_false, decide_false,
        Bool.false_and, Bool.false_or, List.contains_cons, BEq.rfl, Bool.true_or]
      split_ifs <;> rfl
    · have hne : (Value.null == v) = false := by simpa using Ne.symm hv
      simp only [hx, hv, or_self, if_false, List.any_cons, ne_eq, not_false_eq_true, decide_true,
        Bool.true_and, List.contains_cons, hne, Bool.false_or]
      cases decide (compareOrder xv v = .ok .eq) with
      | false =>
        simp only [Bool.false_or]
        split_ifs <;> rfl
      | true =>
        simp only [Bool.true_or, if_true]
        split_ifs <;> rfl

/-- The outcome of `IN` on values. -/
def inOutcome (xv : Value) (negated : Bool) (vals : List Value) : SqlBool :=
  if xv = .null then .unknown else evalInValues xv negated false vals

theorem eval_inList (hx : x.eval r = .ok xv)
    (hvs : List.Forall₂ (fun e v => e.eval r = .ok v) vs vals) (negated : Bool) :
    (BoolExpr.inList x vs negated).eval r = .ok (inOutcome xv negated vals) := by
  rw [BoolExpr.eval, hx, inOutcome]
  simp only [bind, Except.bind, evalIn_eq negated false hvs]
  split_ifs <;> rfl

theorem eval_resolveIn (hx : x.eval r = .ok xv) (negated : Bool) :
    (do (← resolveIn x (vals.map fun v => [v]) negated).eval r) =
      .ok (inOutcome xv negated vals) := by
  have hliterals : List.Forall₂ (fun (e : Expr) v => e.eval r = .ok v) (vals.map .literal) vals := by
    rw [List.forall₂_map_left_iff]
    exact List.forall₂_same.mpr fun v _ => rfl
  rw [resolveIn, singleColumn_eq]
  exact eval_inList hx hliterals negated

theorem eval_correlatedIn (hx : x.eval r = .ok xv) (negated : Bool)
    {rows : Record → Except String (List (List Value))}
    (hrows : rows r = .ok (vals.map fun v => [v])) :
    evalCorrelatedIn x rows negated r = .ok (inOutcome xv negated vals) := by
  rw [evalCorrelatedIn, hrows]
  simp only [bind, Except.bind, singleColumn_eq, hx, inOutcome]
  split_ifs <;> rfl

theorem eval_signed {e : BoolExpr} {b : SqlBool} (h : e.eval r = .ok b) (negated : Bool) :
    (e.signed negated).eval r = .ok (if negated then b.not3 else b) := by
  cases negated with
  | false => exact h
  | true =>
    rw [BoolExpr.signed, if_pos rfl, BoolExpr.eval, h]
    rfl

end Loops

section Agreement

variable {r : Record} {x low high : Expr} {vs : List Expr} {xv lv hv : Value} {vals : List Value}

/-- What makes `IN` its expansion: a `NULL` has values to be compared with, and if one of the values is
equal to `x` by its order then one is the same value as `x`. -/
def InAgrees (xv : Value) (vals : List Value) : Prop :=
  (xv = .null → vals ≠ []) ∧
    ∀ v ∈ vals, v ≠ .null → compareOrder xv v = .ok .eq → ∃ w ∈ vals, valueEq xv w = true

theorem inAgrees_of_null : InAgrees .null vals ↔ vals ≠ [] := by
  refine ⟨fun h => h.1 rfl, fun h => ⟨fun _ => h, ?_⟩⟩
  intro v _ hv heq
  cases v <;> simp_all [compareOrder]

theorem inAgrees_of_ne (hx : xv ≠ .null) : InAgrees xv vals ↔
    vals.any (fun v => v ≠ .null && compareOrder xv v = .ok .eq) = vals.any (valueEq xv) := by
  have hequal : vals.any (valueEq xv) = true →
      vals.any (fun v => v ≠ .null && compareOrder xv v = .ok .eq) = true := by
    intro h
    obtain ⟨v, hv, heq⟩ := List.any_eq_true.mp h
    refine List.any_eq_true.mpr ⟨v, hv, ?_⟩
    have hne : v ≠ .null := by
      rintro rfl
      cases xv <;> simp_all [valueEq]
    simp [hne, compareOrder_of_valueEq heq]
  rw [Bool.eq_iff_iff]
  constructor
  · intro h
    refine ⟨fun hany => ?_, hequal⟩
    obtain ⟨v, hv, heq⟩ := List.any_eq_true.mp hany
    simp only [ne_eq, Bool.and_eq_true, decide_eq_true_eq] at heq
    exact List.any_eq_true.mpr (h.2 v hv heq.1 heq.2)
  · intro h
    refine ⟨fun hnull => absurd hnull hx, fun v hv hne heq => ?_⟩
    exact List.any_eq_true.mp (h.mp (List.any_eq_true.mpr ⟨v, hv, by simp [hne, heq]⟩))

theorem inOutcome_eq_iff : (∀ negated, inOutcome xv negated vals =
    if negated then (anyEqual xv vals).not3 else anyEqual xv vals) ↔ InAgrees xv vals := by
  by_cases hx : xv = .null
  · subst hx
    rw [inAgrees_of_null]
    simp only [inOutcome, if_true, anyEqual_of_null]
    by_cases hvals : vals = [] <;> simp [hvals, SqlBool.not3]
  · rw [inAgrees_of_ne hx]
    simp only [inOutcome, hx, if_false, evalInValues_of_ne hx, anyEqual_of_ne hx, Bool.false_or]
    cases vals.any (valueEq xv) <;>
      cases vals.any (fun v => v ≠ .null && compareOrder xv v = .ok .eq) <;>
      cases vals.contains .null <;> simp [SqlBool.ofBool, SqlBool.not3]

theorem inExpands_iff (hx : x.eval r = .ok xv)
    (hvs : List.Forall₂ (fun e v => e.eval r = .ok v) vs vals)
    (hcompare : ∀ v ∈ vals, ∃ o, compareOrder xv v = .ok o) :
    InExpands r x vs vals ↔ InAgrees xv vals := by
  have hexpand := eval_signed (eval_expandIn hx hvs hcompare)
  rw [← inOutcome_eq_iff]
  constructor
  · intro h negated
    have hlist := h.list negated
    rw [eval_inList hx hvs, hexpand] at hlist
    exact Except.ok.inj hlist
  · intro h
    refine ⟨?_, ?_, ?_⟩
    · intro negated
      rw [eval_inList hx hvs, hexpand, h]
    · intro negated
      rw [eval_resolveIn hx, hexpand, h]
    · intro negated rows hrows
      rw [eval_correlatedIn hx negated hrows, hexpand, h]

/-- What makes `BETWEEN` its expansion: with one bound `NULL`, the other one does not exclude `x`. -/
def BetweenAgrees (xv lv hv : Value) : Prop :=
  xv = .null ∨ (lv = .null → hv ≠ .null → compareOrder xv hv ≠ .ok .gt) ∧
    (hv = .null → lv ≠ .null → compareOrder xv lv ≠ .ok .lt)

theorem eval_between (hx : x.eval r = .ok xv) (hl : low.eval r = .ok lv) (hh : high.eval r = .ok hv)
    {ol oh : Ordering} (hcl : compareOrder xv lv = .ok ol) (hch : compareOrder xv hv = .ok oh)
    (negated : Bool) : (BoolExpr.between x low high negated).eval r =
      .ok (if xv = .null ∨ lv = .null ∨ hv = .null then .unknown
        else .ofBool ((ol != .lt && oh != .gt) != negated)) := by
  have hrange : inRange xv lv hv = .ok (ol != .lt && oh != .gt) := by
    rw [inRange, hcl, hch]
    cases ol <;> cases oh <;> rfl
  rw [BoolExpr.eval, hx, hl, hh]
  simp only [bind, Except.bind, hrange]
  split_ifs <;> rfl

theorem eval_expandBetween (hx : x.eval r = .ok xv) (hl : low.eval r = .ok lv)
    (hh : high.eval r = .ok hv) {ol oh : Ordering} (hcl : compareOrder xv lv = .ok ol)
    (hch : compareOrder xv hv = .ok oh) : (expandBetween x low high).eval r =
      .ok (.and3 (if xv = .null ∨ lv = .null then .unknown else .ofBool (ol != .lt))
        (if xv = .null ∨ hv = .null then .unknown else .ofBool (oh != .gt))) := by
  rw [expandBetween, BoolExpr.eval, BoolExpr.eval, BoolExpr.eval,
    Comparison.eval_of_ordered (by simp [CompareOp.ordered]) hx hl,
    Comparison.eval_of_ordered (by simp [CompareOp.ordered]) hx hh, hcl, hch]
  split_ifs <;> rfl

theorem betweenExpands_iff (hx : x.eval r = .ok xv) (hl : low.eval r = .ok lv)
    (hh : high.eval r = .ok hv) (hcl : ∃ o, compareOrder xv lv = .ok o)
    (hch : ∃ o, compareOrder xv hv = .ok o) :
    BetweenExpands r x low high ↔ BetweenAgrees xv lv hv := by
  obtain ⟨ol, hcl⟩ := hcl
  obtain ⟨oh, hch⟩ := hch
  have hbetween := eval_between hx hl hh hcl hch
  have hexpand := eval_signed (eval_expandBetween hx hl hh hcl hch)
  have houtcome : BetweenExpands r x low high ↔ ∀ negated,
      (if xv = .null ∨ lv = .null ∨ hv = .null then SqlBool.unknown
        else .ofBool ((ol != .lt && oh != .gt) != negated)) = _ :=
    ⟨fun h negated => Except.ok.inj ((hbetween negated).symm.trans ((h.range negated).trans
      (hexpand negated))), fun h => ⟨fun negated => by rw [hbetween, hexpand, h]⟩⟩
  rw [houtcome, BetweenAgrees, hcl, hch]
  by_cases hxn : xv = .null
  · simp [hxn, SqlBool.and3, SqlBool.not3]
  · by_cases hln : lv = .null <;> by_cases hhn : hv = .null <;> cases ol <;> cases oh <;>
      simp [hxn, hln, hhn, SqlBool.and3, SqlBool.not3, SqlBool.ofBool]

theorem membership_expands_iff (r : Record) (x : Expr) (xv : Value) (hx : x.eval r = .ok xv) :
    (∀ vs vals, List.Forall₂ (fun e v => e.eval r = .ok v) vs vals →
      (∀ v ∈ vals, ∃ o, compareOrder xv v = .ok o) →
        (InExpands r x vs vals ↔ InAgrees xv vals)) ∧
    ∀ low high lv hv, low.eval r = .ok lv → high.eval r = .ok hv →
      (∃ o, compareOrder xv lv = .ok o) → (∃ o, compareOrder xv hv = .ok o) →
        (BetweenExpands r x low high ↔ BetweenAgrees xv lv hv) :=
  ⟨fun _ _ hvs hcompare => inExpands_iff hx hvs hcompare,
    fun _ _ _ _ hl hh hcl hch => betweenExpands_iff hx hl hh hcl hch⟩

theorem membership_expands_two :
    InExpands ⟨[], []⟩ (.literal (.int 2)) [.literal .null, .literal (.int 2)] [.null, .int 2] ∧
      BetweenExpands ⟨[], []⟩ (.literal (.int 2)) (.literal (.int 1)) (.literal .null) := by
  have h := membership_expands_iff ⟨[], []⟩ (.literal (.int 2)) (.int 2) rfl
  constructor
  · refine (h.1 _ _ (.cons rfl (.cons rfl .nil)) ?_).mpr ⟨by simp, ?_⟩
    · simp only [List.forall_mem_cons]
      exact ⟨⟨.lt, rfl⟩, ⟨.eq, by decide +kernel⟩, by simp⟩
    · exact fun _ _ _ _ => ⟨.int 2, by simp, by decide⟩
  · refine (h.2 _ _ (.int 1) .null rfl rfl ⟨.gt, by decide +kernel⟩ ⟨.lt, rfl⟩).mpr (.inr ⟨by simp, ?_⟩)
    exact fun _ _ => by decide +kernel

/-- `1 IN (1.0)` although `1 = 1.0`, `NULL IN ()`, and `3 NOT BETWEEN 5 AND NULL` although `3 < 5`. -/
theorem membership_differs :
    (BoolExpr.inList (.literal (.int 1)) [.literal (.double ⟨0x3FF0000000000000⟩)] false).eval ⟨[], []⟩ =
        .ok .isFalse ∧
      (expandIn (.literal (.int 1)) [.literal (.double ⟨0x3FF0000000000000⟩)]).eval ⟨[], []⟩ =
        .ok .isTrue ∧
      (BoolExpr.inList (.literal .null) [] true).eval ⟨[], []⟩ = .ok .unknown ∧
      ((expandIn (.literal .null) []).signed true).eval ⟨[], []⟩ = .ok .isTrue ∧
      (BoolExpr.between (.literal (.int 3)) (.literal (.int 5)) (.literal .null) true).eval ⟨[], []⟩ =
        .ok .unknown ∧
      ((expandBetween (.literal (.int 3)) (.literal (.int 5)) (.literal .null)).signed true).eval
        ⟨[], []⟩ = .ok .isTrue := by
  refine ⟨?_, ?_, ?_, ?_, ?_, ?_⟩ <;> decide +kernel

end Agreement

end CoroDB
