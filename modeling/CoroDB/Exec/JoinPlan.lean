import CoroDB.Exec.Join

/-!
# The choice of a join

`build_join` takes an `ON` condition that compares a column of the left side with one of the right
side apart into two keys, and joins by a hash table, or by merging when both sides are sorts whose
first keys have the names of these columns.
-/

namespace CoroDB

open Framework

structure LogicalSortKey where
  expr : Expr
  desc : Bool

/-- What `build_join` reads of a side: the tables of the subtree with their aliases, and its keys
when it is a sort. -/
structure LogicalSide where
  tables : List Bytes
  sortKeys : Option (List LogicalSortKey)

/-- The comparisons of the cost model: whether it is on, whether merging costs no more than hashing,
and whether the nested loop costs less than hashing. -/
structure JoinCosts where
  enabled : Bool
  mergeWins : Bool
  nestedLoopWins : Bool

inductive JoinPlan where
  | nestedLoop (on : BoolExpr)
  | hash (leftKey rightKey : ColumnRef) (residual : Option BoolExpr)
  | merge (leftKey rightKey : ColumnRef) (residual : Option BoolExpr) (leftSorted rightSorted : Bool)

/-- The two keys of an equality of qualified columns, by the sides that their tables belong to. -/
def tryExtractEquiKeys (on : BoolExpr) (leftTabs rightTabs : List Bytes) :
    Option (ColumnRef × ColumnRef) :=
  match on with
  | .comparison ⟨.eq, .column a, .column b⟩ =>
    if a.table = [] ∨ b.table = [] then none
    else if a.table ∈ leftTabs ∧ b.table ∈ rightTabs then some (a, b)
    else if a.table ∈ rightTabs ∧ b.table ∈ leftTabs then some (b, a)
    else none
  | _ => none

namespace LogicalSide

def firstCol (side : LogicalSide) : Option ColumnRef :=
  match side.sortKeys with
  | some (⟨.column ref, _⟩ :: _) => some ref
  | _ => none

/-- Both sides are sorts, and the names of their first keys are those of the join keys. -/
def mergeOk (left right : LogicalSide) (leftKey rightKey : ColumnRef) : Bool :=
  match left.firstCol, right.firstCol with
  | some l, some r => l.name = leftKey.name && r.name = rightKey.name
  | _, _ => false

end LogicalSide

def buildJoin (costs : JoinCosts) (on : BoolExpr) (left right : LogicalSide) : JoinPlan :=
  match tryExtractEquiKeys on left.tables right.tables with
  | none => .nestedLoop on
  | some (leftKey, rightKey) =>
    let mergeOk := left.mergeOk right leftKey rightKey
    if costs.enabled then
      if mergeOk && costs.mergeWins then .merge leftKey rightKey none true true
      else if costs.nestedLoopWins then .nestedLoop on
      else .hash leftKey rightKey none
    else if mergeOk then .merge leftKey rightKey none true true
    else .hash leftKey rightKey none

section Equality

def keysMeet (x y : Value) : Except String Bool :=
  if x = .null ∨ y = .null then .ok false
  else (compareOrder x y).map (· == .eq)

/-- The condition is the equality of the two columns, in either order. -/
def EquatesKeys (on : BoolExpr) (a b : ColumnRef) : Prop :=
  on = .comparison ⟨.eq, .column a, .column b⟩ ∨ on = .comparison ⟨.eq, .column b, .column a⟩

variable {on : BoolExpr} {a b : ColumnRef}

theorem equatesKeys_of_extract {leftTabs rightTabs : List Bytes}
    (h : tryExtractEquiKeys on leftTabs rightTabs = some (a, b)) : EquatesKeys on a b := by
  unfold tryExtractEquiKeys at h
  split at h
  · split_ifs at h
    · obtain ⟨rfl, rfl⟩ := Prod.mk.inj (Option.some.inj h)
      exact .inl rfl
    · obtain ⟨rfl, rfl⟩ := Prod.mk.inj (Option.some.inj h)
      exact .inr rfl
  · cases h

theorem buildJoin_cases (costs : JoinCosts) (on : BoolExpr) (left right : LogicalSide) :
    buildJoin costs on left right = .nestedLoop on ∨
      ∃ leftKey rightKey, EquatesKeys on leftKey rightKey ∧
        (buildJoin costs on left right = .hash leftKey rightKey none ∨
          left.mergeOk right leftKey rightKey = true ∧
            buildJoin costs on left right = .merge leftKey rightKey none true true) := by
  unfold buildJoin
  cases hkeys : tryExtractEquiKeys on left.tables right.tables with
  | none => exact .inl rfl
  | some keys =>
    obtain ⟨leftKey, rightKey⟩ := keys
    have hequates := equatesKeys_of_extract hkeys
    dsimp only
    split_ifs with henabled hmerge hloop hmerge
    · rw [Bool.and_eq_true] at hmerge
      exact .inr ⟨leftKey, rightKey, hequates, .inr ⟨hmerge.1, rfl⟩⟩
    · exact .inl rfl
    · exact .inr ⟨leftKey, rightKey, hequates, .inl rfl⟩
    · exact .inr ⟨leftKey, rightKey, hequates, .inr ⟨hmerge, rfl⟩⟩
    · exact .inr ⟨leftKey, rightKey, hequates, .inl rfl⟩

theorem buildJoin_hash {costs : JoinCosts} {left right : LogicalSide} {residual : Option BoolExpr}
    (h : buildJoin costs on left right = .hash a b residual) :
    EquatesKeys on a b ∧ residual = none := by
  rcases buildJoin_cases costs on left right with hplan | ⟨l, r, hequates, hplan | ⟨-, hplan⟩⟩
  · rw [h] at hplan
    cases hplan
  · rw [h] at hplan
    cases hplan
    exact ⟨hequates, rfl⟩
  · rw [h] at hplan
    cases hplan

theorem compareOrder_comm {x y : Value} (hx : x ≠ .null) (hy : y ≠ .null) :
    (compareOrder x y).map (· == .eq) = (compareOrder y x).map (· == .eq) := by
  cases x <;> cases y <;> simp_all [compareOrder, Value.toDouble, Except.map, and_comm]

theorem keysMeet_comm (x y : Value) : keysMeet x y = keysMeet y x := by
  rw [keysMeet, keysMeet]
  by_cases hx : x = .null
  · simp [hx]
  · by_cases hy : y = .null
    · simp [hy]
    · simpa [hx, hy] using compareOrder_comm hx hy

theorem accepts_equality (a b : ColumnRef) (r : Record) :
    (BoolExpr.comparison ⟨.eq, .column a, .column b⟩).accepts r = (do
      let x ← r.lookup a
      let y ← r.lookup b
      keysMeet x y) := by
  simp only [BoolExpr.accepts, BoolExpr.eval, Comparison.eval, Expr.eval, keysMeet]
  cases ha : r.lookup a with
  | error e => rfl
  | ok x =>
    cases hb : r.lookup b with
    | error e => rfl
    | ok y =>
      by_cases hnull : x = .null ∨ y = .null
      · simp [bind, Except.bind, pure, Except.pure, hnull]
      · cases ho : compareOrder x y with
        | error e => simp [bind, Except.bind, Except.map, hnull, ho]
        | ok o => cases o <;> simp [bind, Except.bind, pure, Except.pure, Except.map, hnull, ho,
            CompareOp.accepts, SqlBool.ofBool]

theorem EquatesKeys.accepts_eq_ok (h : EquatesKeys on a b) {r : Record} {outcome : Bool} :
    on.accepts r = .ok outcome ↔
      ∃ x y, r.lookup a = .ok x ∧ r.lookup b = .ok y ∧ keysMeet x y = .ok outcome := by
  rcases h with rfl | rfl
  · rw [accepts_equality]
    cases ha : r.lookup a with
    | error e => simp [bind, Except.bind]
    | ok x => cases hb : r.lookup b <;> simp [bind, Except.bind]
  · rw [accepts_equality]
    cases ha : r.lookup a with
    | error e => cases hb : r.lookup b <;> simp [bind, Except.bind]
    | ok x => cases hb : r.lookup b <;> simp [bind, Except.bind, keysMeet_comm x]

end Equality

section SameOutput

/-- Both give the same rows in some order, or both throw. -/
def SameOutput (a b : Except String (List Record)) : Prop :=
  (∃ x y, a = .ok x ∧ b = .ok y ∧ x.Perm y) ∨ ((∃ e, a = .error e) ∧ ∃ e, b = .error e)

variable {on : BoolExpr} {L R : Relation} {join : JoinType → Except String (List Record)}
  {hit : Record → Record → Bool}

theorem Relation.merge_inj : ∀ l ∈ L.rows, ∀ r ∈ R.rows, ∀ l' ∈ L.rows, ∀ r' ∈ R.rows,
    l.merge r = l'.merge r' → l = l' ∧ r = r' := by
  intro l hl r hr l' hl' r' hr' h
  rw [Record.merge, Record.merge, Record.mk.injEq] at h
  have hbindings := List.append_inj h.1 (by rw [L.bindings l hl, L.bindings l' hl'])
  have hvalues := List.append_inj h.2 (by rw [L.arity l hl, L.arity l' hl'])
  constructor
  · cases l
    cases l'
    simp_all
  · cases r
    cases r'
    simp_all

theorem joined_inner (hit : Record → Record → Bool) (left right : JoinInput) :
    joined hit Record.merge (right.padLeft .inner) (left.padRight .inner) left.rows right.rows =
      matched hit Record.merge left.rows right.rows := by
  rw [joined, leftOnly_padLeft, rightOnly_padRight]
  simp [JoinType.padsLeft, JoinType.padsRight]

theorem exists_mem_zipIdx {r : Record} {rows : List Record} (hr : r ∈ rows) :
    ∃ i, (r, i) ∈ rows.zipIdx := by
  obtain ⟨i, hi, rfl⟩ := List.getElem_of_mem hr
  exact ⟨i, List.mem_zipIdx_iff_getElem?.mpr (by simp [hi])⟩

theorem accepts_of_no_error
    (h : ¬ ∃ l ∈ L.rows, ∃ r ∈ R.rows, ∃ e, on.accepts (l.merge r) = .error e) :
    ∀ l ∈ L.rows, ∀ r ∈ R.rows, ∃ b, on.accepts (l.merge r) = .ok b := by
  intro l hl r hr
  cases hacc : on.accepts (l.merge r) with
  | ok b => exact ⟨b, rfl⟩
  | error e => exact absurd ⟨l, hl, r, hr, e, hacc⟩ h

theorem nestedLoopJoin_error_iff (type : JoinType) :
    (∃ e, nestedLoopJoin type on L.toJoinInput R.toJoinInput = .error e) ↔
      ∃ l ∈ L.rows, ∃ r ∈ R.rows, ∃ e, on.accepts (l.merge r) = .error e := by
  constructor
  · rintro ⟨e, he⟩
    by_contra hnone
    obtain ⟨out, hout, -⟩ := nestedLoopJoin_perm type L.toJoinInput R.toJoinInput
      (accepts_of_no_error hnone)
    rw [he] at hout
    cases hout
  · rintro ⟨l, hl, r, hr, e, he⟩
    obtain ⟨i, hi⟩ := exists_mem_zipIdx hr
    exact joinLoop_error _ _ _ hl (.inr ⟨_, rfl, (r, i), hi, e, he⟩)

theorem sameOutput_error_iff {a b : Except String (List Record)} (ha : ∃ e, a = .error e) :
    SameOutput a b ↔ ∃ e, b = .error e := by
  obtain ⟨e, rfl⟩ := ha
  simp [SameOutput]

theorem nestedLoopJoin_of_accepts
    (hon : ∀ l ∈ L.rows, ∀ r ∈ R.rows, on.accepts (l.merge r) = .ok (hit l r)) (type : JoinType) :
    ∃ out, nestedLoopJoin type on L.toJoinInput R.toJoinInput = .ok out ∧
      out.Perm (joined hit Record.merge (R.padLeft type) (L.padRight type) L.rows R.rows) := by
  have hcongr : ∀ l ∈ L.rows, ∀ r ∈ R.rows, on.holds (l.merge r) = hit l r :=
    fun l hl r hr => (BoolExpr.accepts_eq_ok (hon l hl r hr)).symm
  rw [← joined_congr hcongr]
  exact nestedLoopJoin_perm type L.toJoinInput R.toJoinInput fun l hl r hr => ⟨_, hon l hl r hr⟩

theorem sameOutput_iff_accepts
    (hjoin : ∀ type, ∃ out, join type = .ok out ∧
      out.Perm (joined hit Record.merge (R.padLeft type) (L.padRight type) L.rows R.rows)) :
    (∀ type, SameOutput (join type) (nestedLoopJoin type on L.toJoinInput R.toJoinInput)) ↔
      ∀ l ∈ L.rows, ∀ r ∈ R.rows, on.accepts (l.merge r) = .ok (hit l r) := by
  constructor
  · intro hsame
    obtain ⟨out, hout, hperm⟩ := hjoin .inner
    rcases hsame .inner with ⟨x, y, hx, hy, hxy⟩ | ⟨⟨e, he⟩, -⟩
    · have hon : ∀ l ∈ L.rows, ∀ r ∈ R.rows, ∃ b, on.accepts (l.merge r) = .ok b := by
        apply accepts_of_no_error
        rw [← nestedLoopJoin_error_iff .inner, hy]
        simp
      obtain ⟨out', hout', hperm'⟩ := nestedLoopJoin_perm .inner L.toJoinInput R.toJoinInput hon
      rw [hx, Except.ok.injEq] at hout
      rw [hy, Except.ok.injEq] at hout'
      rw [← hout, joined_inner] at hperm
      rw [← hout', joined_inner] at hperm'
      have hhit := (matched_perm_iff Relation.merge_inj).mp ((hperm.symm.trans hxy).trans hperm')
      intro l hl r hr
      obtain ⟨b, hb⟩ := hon l hl r hr
      rw [hb, BoolExpr.accepts_eq_ok hb, hhit l hl r hr]
    · rw [hout] at he
      cases he
  · intro hon type
    obtain ⟨out, hout, hperm⟩ := hjoin type
    obtain ⟨out', hout', hperm'⟩ := nestedLoopJoin_of_accepts hon type
    exact .inl ⟨out, out', hout, hout', hperm.trans hperm'.symm⟩

end SameOutput

section Keys

def keyOf (ref : ColumnRef) (r : Record) : Value := (r.lookup ref).toOption.getD .null

variable {ref : ColumnRef}

theorem lookup_of_found {r : Record} (h : ∃ v, r.lookup ref = .ok v) :
    r.lookup ref = .ok (keyOf ref r) := by
  obtain ⟨v, hv⟩ := h
  rw [keyOf, hv]
  rfl

theorem Record.lookup_merge {l : Record} (hl : l.bindings.length = l.values.length) (r : Record) :
    (l.merge r).lookup ref = (l.lookup ref).toOption.elim (r.lookup ref) .ok := by
  rw [lookup, lookup, merge, List.zip_append hl, List.find?_append]
  cases List.find? _ (l.bindings.zip l.values) <;> rfl

/-- The value that a condition reads for a column of the right row: a column of the left row that goes
by the same names hides it. -/
def readKey (ref : ColumnRef) (l r : Record) : Value :=
  (l.lookup ref).toOption.getD (keyOf ref r)

/-- The comparison of two values has the given outcome: a null equals nothing, a text is not compared
with a number, numbers are compared as doubles and texts as they are. -/
@[mk_iff]
structure ComparedAs (x w : Value) (same : Bool) : Prop where
  null : x = .null ∨ w = .null → same = false
  kind : x ≠ .null → w ≠ .null → (x.toDouble.isSome ↔ w.toDouble.isSome)
  number : ∀ a b, x.toDouble = some a → w.toDouble = some b →
    (same = true ↔ a.less b = false ∧ b.less a = false)
  text : ∀ s t, x = .text s → w = .text t → (same = true ↔ s = t)

theorem keysMeet_eq_ok_iff {x w : Value} {same : Bool} :
    keysMeet x w = .ok same ↔ ComparedAs x w same := by
  have hnumber : ∀ a b : Double,
      ((if a.less b then Ordering.lt else if b.less a then .gt else .eq) == .eq) =
        (!a.less b && !b.less a) := by
    intro a b
    cases a.less b <;> cases b.less a <;> rfl
  have htext : ∀ s t : Bytes,
      ((if s < t then Ordering.lt else if t < s then .gt else .eq) == .eq) = decide (s = t) := by
    intro s t
    rcases lt_trichotomy s t with h | rfl | h
    · simp [h, h.ne]
    · simp
    · simp [h, h.not_gt, h.ne']
  rw [comparedAs_iff]
  cases x <;> cases w <;>
    simp [keysMeet, compareOrder, Value.toDouble, Except.map, hnumber, htext] <;> grind

variable {on : BoolExpr} {a b : ColumnRef}

theorem EquatesKeys.accepts_merge (h : EquatesKeys on a b) {l r : Record} {same : Bool}
    (hl : l.bindings.length = l.values.length) (ha : ∃ v, l.lookup a = .ok v)
    (hb : ∃ v, r.lookup b = .ok v) :
    on.accepts (l.merge r) = .ok same ↔ ComparedAs (keyOf a l) (readKey b l r) same := by
  have hleft : (l.merge r).lookup a = .ok (keyOf a l) := by
    rw [Record.lookup_merge hl, lookup_of_found ha]
    rfl
  have hright : (l.merge r).lookup b = .ok (readKey b l r) := by
    rw [Record.lookup_merge hl, readKey, lookup_of_found hb]
    cases l.lookup b <;> rfl
  rw [h.accepts_eq_ok, ← keysMeet_eq_ok_iff, hleft, hright]
  simp

end Keys

end CoroDB
