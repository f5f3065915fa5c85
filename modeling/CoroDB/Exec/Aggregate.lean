import CoroDB.Exec.OrderBy

/-!
# Grouped aggregation

`AggregatePlan` with group columns: the hash strategy keeps a table of groups, the sort strategy
streams and gives a group out when the next key differs.
-/

namespace CoroDB

open Framework

inductive AggFunc where
  | count
  | sum
  | avg
  | min
  | max
  deriving DecidableEq, Repr

structure AggregateExpr where
  func : AggFunc
  arg : Option ColumnRef
  deriving DecidableEq, Repr

structure SelectItem where
  value : AggregateExpr ⊕ Expr
  aliasName : Option Bytes

inductive AggregateStrategy where
  | hash
  | sort
  deriving DecidableEq, Repr

structure AggregatePlan where
  groupBy : List ColumnRef
  aggregates : List AggregateExpr
  projections : List SelectItem
  having : Option BoolExpr
  strategy : AggregateStrategy

section Planner

structure LogicalAggregateItem where
  func : AggFunc
  arg : Option Expr

/-- What `build_aggregate` reads: the child by its keys, when it is a sort. -/
structure LogicalAggregate where
  groupBy : List Expr
  aggregates : List LogicalAggregateItem
  having : Option BoolExpr
  sortKeys : Option (List LogicalSortKey)

/-- The cost model: whether it is on, and whether hashing costs less. -/
structure AggregateCosts where
  enabled : Bool
  hashWins : Bool

def Expr.column? : Expr → Option ColumnRef
  | .column ref => some ref
  | _ => none

def colEq (x y : ColumnRef) : Bool :=
  x.name = y.name && (x.table = [] || y.table = [] || x.table = y.table)

/-- The columns of the sort and of the grouping are the same up to missing table names. -/
def absorbsSort (groupBy : List Expr) (keys : List LogicalSortKey) : Bool :=
  match groupBy.mapM Expr.column?, (keys.map LogicalSortKey.expr).mapM Expr.column? with
  | some group, some sort =>
    !groupBy.isEmpty && keys.length == group.length &&
      group.all (fun g => sort.any (colEq · g)) && sort.all fun s => group.any (colEq · s)
  | _, _ => false

def buildAggregate (costs : AggregateCosts) (a : LogicalAggregate) :
    Except String (AggregatePlan × Bool) :=
  let absorbed := (a.sortKeys.map (absorbsSort a.groupBy)).getD false
  match a.groupBy.mapM Expr.column? with
  | none => .error "[PhysicalPlanner] GROUP BY expression must be a column"
  | some group =>
    let useSort := absorbed && !(costs.enabled && costs.hashWins)
    let aggs := a.aggregates.map fun it => ⟨it.func, it.arg.bind Expr.column?⟩
    .ok (⟨group, aggs, [], a.having, if useSort then .sort else .hash⟩, absorbed)

end Planner

section States

structure AggState where
  count : Int64
  sum : Int64
  min : Option Value
  max : Option Value
  deriving DecidableEq, Repr

namespace AggState

def fresh : AggState := ⟨0, 0, none, none⟩

def update (a : AggregateExpr) (r : Record) (st : AggState) : Except String AggState :=
  match a.func, a.arg with
  | .count, none => .ok { st with count := st.count + 1 }
  | .count, some arg => do
    if (← r.lookup arg) ≠ .null then return { st with count := st.count + 1 } else return st
  | .sum, none | .avg, none => .error "[Executor] SUM/AVG requires a column argument"
  | .sum, some arg | .avg, some arg => do
    match ← r.lookup arg with
    | .null => return st
    | .int i => return { st with sum := st.sum + i, count := st.count + 1 }
    | _ => .error "[Executor] SUM/AVG only supports int64 values"
  | .min, none => .error "[Executor] MIN requires a column argument"
  | .min, some arg => do
    let v ← r.lookup arg
    if v = .null then return st
    match st.min with
    | none => return { st with min := some v }
    | some least => if (← compareOrder v least) == .lt then return { st with min := some v } else return st
  | .max, none => .error "[Executor] MAX requires a column argument"
  | .max, some arg => do
    let v ← r.lookup arg
    if v = .null then return st
    match st.max with
    | none => return { st with max := some v }
    | some most => if (← compareOrder v most) == .gt then return { st with max := some v } else return st

def finalize (divide : Int64 → Int64 → Double) (st : AggState) : AggFunc → Value
  | .count => .int st.count
  | .sum => if st.count = 0 then .null else .int st.sum
  | .avg => if st.count = 0 then .null else .double (divide st.sum st.count)
  | .min => st.min.getD .null
  | .max => st.max.getD .null

end AggState

end States

def groupKeysEqual (a b : List Value) : Bool :=
  a.length = b.length && (a.zip b).all fun p => valueEq p.1 p.2

theorem groupKeysEqual_iff {a b : List Value} :
    groupKeysEqual a b = true ↔ List.Forall₂ (fun x y => valueEq x y = true) a b := by
  rw [List.forall₂_iff_zip]
  simp [groupKeysEqual]

theorem groupKeysEqual_symm {a b : List Value} (h : groupKeysEqual a b = true) :
    groupKeysEqual b a = true := by
  rw [groupKeysEqual_iff] at h ⊢
  exact (h.imp fun _ _ => valueKeyEq.symm).flip

theorem groupKeysEqual_trans {a b c : List Value} (h : groupKeysEqual a b = true)
    (h' : groupKeysEqual b c = true) : groupKeysEqual a c = true := by
  rw [groupKeysEqual_iff] at h h' ⊢
  induction h generalizing c with
  | nil => exact h'
  | cons hxy _ ih =>
    cases h' with
    | cons hyz h' => exact .cons (valueKeyEq.trans hxy hyz) (ih h')

def groupKeyEq : KeyEq (List Value) := ⟨groupKeysEqual, groupKeysEqual_symm, groupKeysEqual_trans⟩

namespace AggregatePlan

variable (divide : Int64 → Int64 → Double) (p : AggregatePlan)

def groupKey (r : Record) : Except String (List Value) := p.groupBy.mapM r.lookup

def freshStates : List AggState := p.aggregates.map fun _ => .fresh

def updateStates (states : List AggState) (r : Record) : Except String (List AggState) :=
  (p.aggregates.zip states).mapM fun a => a.2.update a.1 r

section Output

variable (key : List Value) (states : List AggState)

/-- `agg_index`, with the state at that place. -/
def stateOf (needle : AggregateExpr) : Except String AggState :=
  match (p.aggregates.zip states).find? fun a => a.1 = needle with
  | some a => .ok a.2
  | none => .error "[Executor] Aggregate function not found in plan"

/-- `find_group_index`, with the value at that place. -/
def groupValue (col : ColumnRef) : Except String Value :=
  match (p.groupBy.zip key).find? fun g =>
    (g.1.table = [] ∨ g.1.table = col.table) ∧ g.1.name = col.name with
  | some g => .ok g.2
  | none => .error ("[Executor] Column not part of GROUP BY: " ++ textOf col.name)

/-- The column of an aggregate: its argument's, or `count`. -/
def aggregateColumn (a : AggregateExpr) (aliasName : Option Bytes) : ColumnRef :=
  ⟨(a.arg.map ColumnRef.table).getD [],
    aliasName.getD ((a.arg.map ColumnRef.name).getD (Ascii.ascii "count"))⟩

def projectItem (item : SelectItem) : Except String (ColumnRef × Value) :=
  match item.value with
  | .inl a => do
    return (aggregateColumn a item.aliasName, (← p.stateOf states a).finalize divide a.func)
  | .inr (.column col) => do
    return (⟨col.table, item.aliasName.getD col.name⟩, ← p.groupValue key col)
  | .inr _ => .error "[Executor] Only GROUP BY columns allowed as non-aggregate projections"

def outputColumns : Except String (List (ColumnRef × Value)) :=
  p.projections.mapM (p.projectItem divide key states)

/-- A record passes when there is no `HAVING` condition, or it is true. -/
def passesHaving (columns : List (ColumnRef × Value)) : Except String (List Record) :=
  let out : Record := ⟨columns.map Prod.fst, columns.map Prod.snd⟩
  match p.having with
  | none => .ok [out]
  | some having => do
    if ← having.accepts out then return [out] else return []

/-- `emit_group` of the sort strategy. -/
def emitGroup : Except String (List Record) := do
  p.passesHaving (← p.outputColumns divide key states)

def inProjections (a : AggregateExpr) : Bool :=
  p.projections.any fun item => match item.value with
    | .inl pa => pa.func = a.func && match pa.arg, a.arg with
      | some x, some y => x.name = y.name
      | none, none => true
      | _, _ => false
    | .inr _ => false

/-- The aggregates that the hash strategy appends to a record for the sake of `HAVING`. -/
def appendedColumns : List (ColumnRef × Value) :=
  if p.having.isSome then
    ((p.aggregates.zip states).filter fun a => !p.inProjections a.1).map fun a =>
      (aggregateColumn a.1 none, a.2.finalize divide a.1.func)
  else []

def emitAppended : Except String (List Record) := do
  p.passesHaving ((← p.outputColumns divide key states) ++ p.appendedColumns divide states)

end Output

def execute (rows : List Record) : Except String (List Record) :=
  match p.strategy with
  | .hash => do
    let groups ← hashGroups groupKeyEq p.groupKey p.freshStates p.updateStates rows .empty
    emitGroups (p.emitAppended divide) groups.entries
  | .sort => streamGroups groupKeyEq p.groupKey p.freshStates p.updateStates (p.emitGroup divide) rows none

end AggregatePlan

section Equivalence

namespace AggregatePlan

variable (p : AggregatePlan)

def groupKeyOf (r : Record) : List Value := p.groupBy.map fun ref => keyOf ref r

def AllProjected : Prop := ∀ a ∈ p.aggregates, p.inProjections a = true

/-- Rows with equal group keys have the same one: no group mixes the two zeros of the doubles. -/
def KeysExact (rows : List Record) : Prop :=
  ∀ x ∈ rows, ∀ y ∈ rows, groupKeyEq.eq (p.groupKeyOf x) (p.groupKeyOf y) = true →
    p.groupKeyOf x = p.groupKeyOf y

variable {p} {divide : Int64 → Int64 → Double}

theorem groupKey_eq_ok {r : Record} (h : ∃ k, p.groupKey r = .ok k) :
    p.groupKey r = .ok (p.groupKeyOf r) := by
  obtain ⟨k, h⟩ := h
  rw [groupKey] at h ⊢
  rw [groupKeyOf]
  generalize p.groupBy = refs at h ⊢
  induction refs generalizing k with
  | nil => rfl
  | cons ref refs ih =>
    rw [List.mapM_cons] at h ⊢
    obtain ⟨v, hv, h⟩ := bind_eq_ok h
    obtain ⟨vs, hvs, -⟩ := bind_eq_ok h
    rw [ih vs hvs, lookup_of_found ⟨v, hv⟩]
    rfl

theorem appendedColumns_eq (h : p.having.isSome → p.AllProjected) (states : List AggState) :
    p.appendedColumns divide states = [] := by
  rw [appendedColumns]
  split_ifs with hhaving
  · have hall : ((p.aggregates.zip states).filter fun a => !p.inProjections a.1) = [] := by
      rw [List.filter_eq_nil_iff]
      intro a ha
      simp [h hhaving a.1 (List.of_mem_zip ha).1]
    rw [hall, List.map_nil]
  · rfl

theorem emitAppended_eq (h : p.having.isSome → p.AllProjected) :
    p.emitAppended divide = p.emitGroup divide := by
  funext key states
  simp only [emitAppended, emitGroup, appendedColumns_eq h, List.append_nil]

theorem length_emitGroup (divide : Int64 → Int64 → Double) (h : p.having = none) (key : List Value) (states : List AggState)
    (out : List Record) (hout : p.emitGroup divide key states = .ok out) : out.length = 1 := by
  obtain ⟨columns, -, hout⟩ := bind_eq_ok hout
  rw [passesHaving, h] at hout
  obtain rfl := Except.ok.inj hout
  rfl

end AggregatePlan

theorem lessBy_groupKey {p : AggregatePlan} {keys : List LogicalSortKey}
    (hkeys : ∀ key ∈ keys, ∃ ref ∈ p.groupBy, key.expr = .column ref) (a b : Record)
    (h : lessBy keys a b = .ok true) : groupKeyEq.eq (p.groupKeyOf a) (p.groupKeyOf b) = false := by
  rw [← Bool.not_eq_true]
  intro heq
  have hvalues : ∀ ref ∈ p.groupBy, valueEq (keyOf ref a) (keyOf ref b) = true := by
    have hall := groupKeysEqual_iff.mp heq
    simpa [AggregatePlan.groupKeyOf, List.forall₂_map_left_iff, List.forall₂_map_right_iff,
      List.forall₂_same] using hall
  induction keys with
  | nil => cases h
  | cons key keys ih =>
    obtain ⟨⟨ref, href, hexpr⟩, hkeys⟩ := List.forall_mem_cons.mp hkeys
    rw [lessBy, hexpr] at h
    obtain ⟨x, hx, h⟩ := bind_eq_ok h
    obtain ⟨y, hy, h⟩ := bind_eq_ok h
    have hxy := compareOrder_of_valueEq (hvalues ref href)
    rw [Expr.eval, lookup_of_found ⟨x, hx⟩] at hx
    rw [Expr.eval, lookup_of_found ⟨y, hy⟩] at hy
    rw [Except.ok.inj hx, Except.ok.inj hy] at hxy
    rw [hxy] at h
    exact ih hkeys h

theorem buildAggregate_sort {costs : AggregateCosts} {a : LogicalAggregate} {plan : AggregatePlan}
    {absorbed : Bool} (h : buildAggregate costs a = .ok (plan, absorbed))
    (hsort : plan.strategy = .sort) : absorbed = true := by
  unfold buildAggregate at h
  dsimp only at h
  split at h
  · cases h
  · obtain ⟨rfl, rfl⟩ := Prod.mk.inj (Except.ok.inj h)
    by_contra hne
    simp [hne] at hsort

section Strategies

variable {p : AggregatePlan} {divide : Int64 → Int64 → Double} {rows original h : List Record}

theorem hash_shuffled (horiginal : Shuffled groupKeyEq p.groupKeyOf rows original)
    (hhash : { p with strategy := .hash }.execute divide original = .ok h) :
    (∀ r ∈ rows, p.groupKey r = .ok (p.groupKeyOf r)) ∧
      ∃ m out, hashGroups groupKeyEq p.groupKey p.freshStates p.updateStates rows .empty = .ok m ∧
        emitGroups (p.emitAppended divide) m.entries = .ok out ∧ h.Perm out := by
  obtain ⟨m', hm', hout⟩ := bind_eq_ok hhash
  have hkey : ∀ r ∈ original, p.groupKey r = .ok (p.groupKeyOf r) :=
    fun r hr => AggregatePlan.groupKey_eq_ok (exists_key_of_hashGroups hm' r hr)
  obtain ⟨m, hm, hentries⟩ := horiginal.symm.hashGroups_perm hkey (List.Perm.refl _) hm'
  obtain ⟨out, hout, hperm⟩ := emitGroups_perm hentries hout
  exact ⟨fun r hr => hkey r (horiginal.perm.mem_iff.mp hr), m, out, hm, hout, hperm⟩

end Strategies

theorem sortAggregate_same (divide : Int64 → Int64 → Double) (costs : AggregateCosts)
    (a : LogicalAggregate) (plan : AggregatePlan) (absorbed : Bool)
    (hplan : buildAggregate costs a = .ok (plan, absorbed)) (hsort : plan.strategy = .sort)
    (projections : List SelectItem) (rows original h : List Record)
    (horiginal : Shuffled groupKeyEq plan.groupKeyOf rows original)
    (hhash : { plan with projections := projections, strategy := .hash }.execute divide original =
      .ok h) :
    let p := { plan with projections := projections }
    let Same := ∃ s, p.execute divide (if absorbed then rows else original) = .ok s ∧ s.Perm h
    (Contiguous groupKeyEq p.groupKeyOf rows → p.KeysExact rows →
      (p.having.isSome → rows = [] ∨ p.AllProjected) → Same) ∧
    (p.having = none → Same → Contiguous groupKeyEq p.groupKeyOf rows) := by
  intro p Same
  obtain rfl : absorbed = true := buildAggregate_sort hplan hsort
  obtain ⟨hkey, m, out, hm, hout, hperm⟩ := hash_shuffled (p := p) horiginal hhash
  have hexecute : p.execute divide rows = streamGroups groupKeyEq p.groupKey p.freshStates
      p.updateStates (p.emitGroup divide) rows none := by
    have hstrategy : p.strategy = .sort := hsort
    rw [AggregatePlan.execute, hstrategy]
  constructor
  · intro hcontiguous hexact hhaving
    rcases eq_or_ne rows [] with rfl | hrows
    · obtain rfl := Except.ok.inj hm
      obtain rfl := Except.ok.inj hout
      exact ⟨[], hexecute, hperm.symm⟩
    have hprojected : p.having.isSome → p.AllProjected :=
      fun hsome => (hhaving hsome).resolve_left hrows
    obtain ⟨groups, hentries, hstream⟩ := streamGroups_of_contiguous (p.emitGroup divide) hkey
      (fun x hx y hy hxy => congrArg _ (hexact x hx y hy hxy)) hcontiguous (by simp) hm
    rw [KeyMap.entries_empty, List.nil_append] at hentries
    refine ⟨out, ?_, hperm.symm⟩
    rw [if_pos rfl, hexecute, hstream, ← hentries, ← AggregatePlan.emitAppended_eq hprojected]
    exact hout
  · rintro hnone ⟨s, hs, hsame⟩
    rw [if_pos rfl, hexecute] at hs
    have hone := AggregatePlan.length_emitGroup divide hnone
    rw [AggregatePlan.emitAppended_eq (by simp [hnone])] at hout
    have hlen := length_emitGroups hone hout
    have hcount : s.length = out.length := (hsame.trans hperm).length_eq
    refine ((length_le_streamGroups hone hkey hm hs).2 ?_).1
    rw [KeyMap.entries_empty, List.length_nil, Nat.zero_add, ← hlen, hcount]

def countByColumn : LogicalAggregate where
  groupBy := [.column ⟨[97], [97]⟩]
  aggregates := [⟨.count, none⟩]
  having := none
  sortKeys := some [⟨.column ⟨[97], [97]⟩, false⟩]

def countPlan (strategy : AggregateStrategy) : AggregatePlan :=
  ⟨[⟨[97], [97]⟩], [⟨.count, none⟩],
    [⟨.inr (.column ⟨[97], [97]⟩), none⟩, ⟨.inl ⟨.count, none⟩, none⟩], none, strategy⟩

def oneColumn (i : Int64) : Record := ⟨[⟨[97], [97]⟩], [.int i]⟩

def counted (i n : Int64) : Record :=
  ⟨[⟨[97], [97]⟩, ⟨[], Ascii.ascii "count"⟩], [.int i, .int n]⟩

theorem sortAggregate_same_runs :
    ∃ s, (countPlan .sort).execute (fun _ _ => ⟨0⟩) [oneColumn 2, oneColumn 2, oneColumn 1] = .ok s ∧
      s.Perm [counted 1 1, counted 2 2] := by
  have hsorted : Shuffled groupKeyEq (countPlan .sort).groupKeyOf
      [oneColumn 2, oneColumn 2, oneColumn 1] [oneColumn 1, oneColumn 2, oneColumn 2] := by
    apply orderBy_shuffled [⟨.column ⟨[97], [97]⟩, false⟩]
    · apply lessBy_groupKey
      simp [countPlan]
    · rfl
  have hcontiguous : Contiguous groupKeyEq (countPlan .sort).groupKeyOf
      ([oneColumn 2, oneColumn 2] ++ ([oneColumn 1] ++ [])) := by
    refine .append (.append (by simp [Contiguous]) ?_ ?_) ?_ ?_ <;> decide +kernel
  apply (sortAggregate_same (fun _ _ => ⟨0⟩) ⟨false, false⟩ countByColumn
    { countPlan .sort with projections := [] } true rfl rfl (countPlan .sort).projections _ _ _
    hsorted rfl).1 hcontiguous
  · unfold AggregatePlan.KeysExact
    decide +kernel
  · exact fun h => by cases h

/-- The rows of the first group come again after the second one, and are given out as a group of
their own. -/
theorem sortAggregate_splits_group :
    buildAggregate ⟨false, false⟩ countByColumn =
        .ok ({ countPlan .sort with projections := [] }, true) ∧
      orderBy [⟨.column ⟨[97], [97]⟩, false⟩] [oneColumn 1, oneColumn 2, oneColumn 1] =
        .ok [oneColumn 1, oneColumn 1, oneColumn 2] ∧
      (countPlan .hash).execute (fun _ _ => ⟨0⟩) [oneColumn 1, oneColumn 1, oneColumn 2] =
        .ok [counted 1 2, counted 2 1] ∧
      (countPlan .sort).execute (fun _ _ => ⟨0⟩) [oneColumn 1, oneColumn 2, oneColumn 1] =
        .ok [counted 1 1, counted 2 1, counted 1 1] :=
  ⟨rfl, rfl, rfl, rfl⟩

end Equivalence

end CoroDB
