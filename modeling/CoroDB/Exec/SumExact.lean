import CoroDB.Exec.GlobalAggregate
import CoroDB.Framework.GroupFold

/-!
# Exactness of SUM

`SUM` adds the integers of its column in an `int64_t`, so that its value is the sum modulo `2 ^ 64`
whatever the order of the rows, and never an error.
-/

namespace CoroDB

open Framework

section Column

variable (c : ColumnRef)

def columnInt (r : Record) : Option Int64 :=
  match r.lookup c with
  | .ok (.int i) => some i
  | _ => none

def columnInts (rows : List Record) : List Int :=
  rows.filterMap fun r => (columnInt c r).map Int64.toInt

/-- The column holds only `NULL` and integers. -/
def HoldsIntegers (rows : List Record) : Prop :=
  ∀ r ∈ rows, r.lookup c = .ok .null ∨ ∃ i, r.lookup c = .ok (.int i)

/-- The state of `SUM` after one more row. -/
def addInt (st : AggState) (r : Record) : AggState :=
  match columnInt c r with
  | some i => { st with sum := st.sum + i, count := st.count + 1 }
  | none => st

end Column

variable {c : ColumnRef} {rows : List Record}

theorem update_sum (h : HoldsIntegers c rows) (r : Record) (hr : r ∈ rows) (st : AggState) :
    st.update ⟨.sum, some c⟩ r = .ok (addInt c st r) := by
  rcases h r hr with hv | ⟨i, hv⟩
  · simp only [AggState.update, addInt, columnInt, hv]
    rfl
  · simp only [AggState.update, addInt, columnInt, hv]
    rfl

theorem foldl_addInt (rows : List Record) (st : AggState) :
    rows.foldl (addInt c) st =
      { st with
        sum := st.sum + Int64.ofInt (columnInts c rows).sum
        count := st.count + Int64.ofNat (columnInts c rows).length } := by
  induction rows generalizing st with
  | nil => simp [columnInts]
  | cons r rows ih =>
    rw [List.foldl_cons, ih]
    cases hr : columnInt c r with
    | none => simp [addInt, columnInts, hr]
    | some i =>
      simp only [addInt, hr, columnInts, List.filterMap_cons, Option.map_some, List.sum_cons,
        List.length_cons, Int64.ofInt_add, Int64.ofInt_toInt, Int64.ofNat_add, Int64.add_assoc]
      rw [Int64.add_comm 1]
      rfl

section Plan

/-- `SELECT SUM(c)`, grouped by the columns. -/
def sumPlan (groupBy : List ColumnRef) (strategy : AggregateStrategy) (c : ColumnRef) : AggregatePlan :=
  ⟨groupBy, [⟨.sum, some c⟩], [⟨.inl ⟨.sum, some c⟩, none⟩], none, strategy⟩

def sumRecord (c : ColumnRef) (v : Value) : Record := ⟨[⟨c.table, c.name⟩], [v]⟩

/-- The value that `SUM` has of integers. -/
def summed (ints : List Int) : Value :=
  if Int64.ofNat ints.length = 0 then .null else .int (Int64.ofInt ints.sum)

variable (divide : Int64 → Int64 → Double) (truncate : Double → Int64) {groupBy : List ColumnRef}
  {strategy : AggregateStrategy}

theorem finalize_sum (g : List Record) :
    (g.foldl (addInt c) .fresh).finalize divide .sum = summed (columnInts c g) := by
  simp [foldl_addInt, AggState.finalize, AggState.fresh, summed]

theorem emitGroup_sumPlan (key : List Value) (g : List Record) :
    (sumPlan groupBy strategy c).emitGroup divide key [g.foldl (addInt c) .fresh] =
      .ok [sumRecord c (summed (columnInts c g))] := by
  have hstate : (sumPlan groupBy strategy c).stateOf [g.foldl (addInt c) .fresh] ⟨.sum, some c⟩ =
      .ok (g.foldl (addInt c) .fresh) := by
    simp [AggregatePlan.stateOf, sumPlan]
  have hitem : (sumPlan groupBy strategy c).projectItem divide key [g.foldl (addInt c) .fresh]
      ⟨.inl ⟨.sum, some c⟩, none⟩ = .ok (⟨c.table, c.name⟩, summed (columnInts c g)) := by
    simp only [AggregatePlan.projectItem, hstate, ← finalize_sum divide]
    rfl
  have hcolumns : (sumPlan groupBy strategy c).outputColumns divide key [g.foldl (addInt c) .fresh] =
      .ok [(⟨c.table, c.name⟩, summed (columnInts c g))] := by
    rw [AggregatePlan.outputColumns, sumPlan, List.mapM_cons, ← sumPlan, hitem]
    rfl
  rw [AggregatePlan.emitGroup, hcolumns]
  rfl

theorem updateStates_sumPlan (h : HoldsIntegers c rows) (r : Record) (hr : r ∈ rows)
    (states : List AggState) : (sumPlan groupBy strategy c).updateStates states r =
      .ok ((states.take 1).map fun st => addInt c st r) := by
  cases states with
  | nil => rfl
  | cons st states =>
    rw [AggregatePlan.updateStates, sumPlan, List.zip_cons_cons, List.zip_nil_left, List.mapM_cons,
      update_sum h r hr]
    rfl

theorem foldl_states (g : List Record) (st : AggState) :
    g.foldl (fun states r => (states.take 1).map fun st => addInt c st r) [st] =
      [g.foldl (addInt c) st] := by
  induction g generalizing st with
  | nil => rfl
  | cons r g ih => exact ih (addInt c st r)

def sumGroups (groupBy : List ColumnRef) (rows : List Record) : List (List Record) :=
  if groupBy = [] then [rows]
  else rowGroups groupKeyEq (fun r => groupBy.map fun ref => keyOf ref r) rows

/-- What the paths of an aggregation are for: the columns of the group key are found, and the rows of
a group come together for the sort strategy. -/
structure Groupable (groupBy : List ColumnRef) (strategy : AggregateStrategy) (rows : List Record) :
    Prop where
  found : ∀ r ∈ rows, ∃ k, groupBy.mapM r.lookup = .ok k
  contiguous : strategy = .sort →
    Contiguous groupKeyEq (fun r => groupBy.map fun ref => keyOf ref r) rows

theorem Groupable.key (h : Groupable groupBy strategy rows) (r : Record) (hr : r ∈ rows) :
    (sumPlan groupBy strategy c).groupKey r = .ok ((sumPlan groupBy strategy c).groupKeyOf r) :=
  AggregatePlan.groupKey_eq_ok (h.found r hr)

theorem emitGlobal_sumPlan (g : List Record) :
    (sumPlan groupBy strategy c).emitGlobal divide [g.foldl (addInt c) .fresh] =
      .ok [sumRecord c (summed (columnInts c g))] := by
  rw [AggregatePlan.emitGlobal_eq_emitGroup (by simp [AggregatePlan.OnlyAggregates, sumPlan]) rfl []]
  exact emitGroup_sumPlan divide [] g

theorem executeGlobal_sumPlan {ν : Type} [DecidableEq ν] {child : AggregateChild ν}
    (hrows : child.records = some rows) (h : HoldsIntegers c rows) :
    (sumPlan groupBy strategy c).executeGlobal divide truncate child =
      some (.ok [sumRecord c (summed (columnInts c rows))]) := by
  have hcount : (sumPlan groupBy strategy c).rowCount child = none := by
    cases child <;> simp [AggregatePlan.rowCount, AggregatePlan.allCountStar, sumPlan]
  have hintegral : (sumPlan groupBy strategy c).IntegralArguments rows := by
    intro r hr a ha arg harg v hv
    obtain rfl := List.mem_singleton.mp ha
    obtain rfl := Option.some.inj harg
    rcases h r hr with hnull | ⟨i, hi⟩
    · exact .inl (Except.ok.inj (hv.symm.trans hnull))
    · exact .inr ⟨i, Except.ok.inj (hv.symm.trans hi)⟩
  rw [AggregatePlan.executeGlobal_of_records hcount hrows,
    foldlM_congr (AggregatePlan.accumulateStates_eq_updateStates hintegral),
    foldlM_eq_ok (fun _ => True) (by simp) (fun r hr states _ => updateStates_sumPlan h r hr states)
      trivial]
  have hfold : rows.foldl (fun states r => (states.take 1).map fun st => addInt c st r)
      (sumPlan groupBy strategy c).freshStates = [rows.foldl (addInt c) .fresh] :=
    foldl_states rows .fresh
  rw [hfold]
  exact congrArg some (emitGlobal_sumPlan divide rows)

theorem hashGroups_sumPlan (h : HoldsIntegers c rows) (hgroup : Groupable groupBy strategy rows) :
    ∃ m, hashGroups groupKeyEq (sumPlan groupBy strategy c).groupKey
        (sumPlan groupBy strategy c).freshStates (sumPlan groupBy strategy c).updateStates rows .empty =
          .ok m ∧
      m.entries.map Prod.snd = (rowGroups groupKeyEq (fun r => groupBy.map fun ref => keyOf ref r)
        rows).map fun g => [g.foldl (addInt c) .fresh] := by
  refine ⟨_, hashGroups_eq_groupFold hgroup.key (updateStates_sumPlan h) .empty, ?_⟩
  rw [groupFold_states]
  apply List.map_congr_left
  exact fun g _ => foldl_states g .fresh

theorem emitGroups_sumPlan {groups : List (List Value × List AggState)} {parts : List (List Record)}
    (h : groups.map Prod.snd = parts.map fun g => [g.foldl (addInt c) .fresh]) :
    emitGroups ((sumPlan groupBy strategy c).emitGroup divide) groups =
      .ok (parts.map fun g => sumRecord c (summed (columnInts c g))) := by
  have hemit : ∀ e ∈ groups, (sumPlan groupBy strategy c).emitGroup divide e.1 e.2 =
      .ok [sumRecord c ((e.2.headD .fresh).finalize divide .sum)] := by
    intro e he
    have hmem : e.2 ∈ groups.map Prod.snd := List.mem_map_of_mem he
    rw [h] at hmem
    obtain ⟨g, -, hg⟩ := List.mem_map.mp hmem
    rw [← hg, emitGroup_sumPlan, List.headD_cons, finalize_sum]
  have hout := emitGroups_eq_ok (F := fun states : List AggState =>
    sumRecord c ((states.headD .fresh).finalize divide .sum)) hemit
  rw [hout, h, List.map_map]
  congr 1
  apply List.map_congr_left
  intro g _
  rw [Function.comp_apply, List.headD_cons, finalize_sum]

theorem execute_sumPlan (h : HoldsIntegers c rows) (hgroup : Groupable groupBy strategy rows) :
    (sumPlan groupBy strategy c).execute divide rows =
      .ok ((rowGroups groupKeyEq (fun r => groupBy.map fun ref => keyOf ref r) rows).map fun g =>
        sumRecord c (summed (columnInts c g))) := by
  obtain ⟨m, htable, hstates⟩ := hashGroups_sumPlan h hgroup
  have hout : emitGroups ((sumPlan groupBy strategy c).emitGroup divide) m.entries = _ :=
    emitGroups_sumPlan divide hstates
  rw [AggregatePlan.execute, ← hout]
  cases strategy with
  | hash =>
    change (do emitGroups ((sumPlan groupBy .hash c).emitAppended divide) (← hashGroups groupKeyEq _ _ _
      rows .empty).entries) = _
    rw [htable, AggregatePlan.emitAppended_eq (by simp [sumPlan])]
    rfl
  | sort =>
    obtain ⟨groups, hentries, hstream⟩ := streamGroups_of_contiguous
      ((sumPlan groupBy .sort c).emitGroup divide) hgroup.key (fun x _ y _ _ => rfl)
      (hgroup.contiguous rfl) (by simp) htable
    rw [KeyMap.entries_empty, List.nil_append] at hentries
    rw [hentries]
    exact hstream

theorem executeChild_sumPlan {ν : Type} [DecidableEq ν] {child : AggregateChild ν}
    (hrows : child.records = some rows) (h : HoldsIntegers c rows)
    (hgroup : Groupable groupBy strategy rows) :
    (sumPlan groupBy strategy c).executeChild divide truncate child =
      some (.ok ((sumGroups groupBy rows).map fun g => sumRecord c (summed (columnInts c g)))) := by
  have hplan : (sumPlan groupBy strategy c).groupBy = groupBy := rfl
  rw [AggregatePlan.executeChild, sumGroups, hplan]
  by_cases hglobal : groupBy = []
  · rw [if_pos hglobal, if_pos hglobal, executeGlobal_sumPlan divide truncate hrows h]
    rfl
  · rw [if_neg hglobal, if_neg hglobal, hrows, Option.map_some, execute_sumPlan divide h hgroup]

end Plan

section Exact

/-- The sum of integers, `NULL` for none. -/
def sumOf (ints : List Int) : Value := if ints = [] then .null else .int (Int64.ofInt ints.sum)

/-- The sum fits, and so does the number of the integers. -/
def SumFits (ints : List Int) : Prop :=
  FitsInt64 ints.sum ∧ (2 ^ 64 ∣ ints.length → ints = [])

/-- In every order of the rows, `SUM` has the sum of each group, or the query fails if one of the sums
does not fit. -/
structure SumsExactly (ν : Type) [DecidableEq ν] (divide : Int64 → Int64 → Double)
    (truncate : Double → Int64) (groupBy : List ColumnRef) (strategy : AggregateStrategy)
    (c : ColumnRef) (rows : List Record) : Prop where
  returns : (∀ g ∈ sumGroups groupBy rows, FitsInt64 (columnInts c g).sum) →
    ∀ rows', rows'.Perm rows → Groupable groupBy strategy rows' →
      ∀ child : AggregateChild ν, child.records = some rows' →
        ∃ out, (sumPlan groupBy strategy c).executeChild divide truncate child = some (.ok out) ∧
          out.Perm ((sumGroups groupBy rows).map fun g => sumRecord c (sumOf (columnInts c g)))
  raises : (∃ g ∈ sumGroups groupBy rows, ¬FitsInt64 (columnInts c g).sum) →
    ∀ rows', rows'.Perm rows → Groupable groupBy strategy rows' →
      ∀ child : AggregateChild ν, child.records = some rows' →
        ∃ e, (sumPlan groupBy strategy c).executeChild divide truncate child = some (.error e)

theorem ofNat_eq_zero_iff {n : Nat} : Int64.ofNat n = 0 ↔ 2 ^ 64 ∣ n := by
  rw [← Int64.toBitVec_inj, ← BitVec.toNat_inj, Nat.dvd_iff_mod_eq_zero]
  simp

theorem sumOf_eq_null_iff {ints : List Int} : sumOf ints = .null ↔ ints = [] := by
  simp [sumOf]

theorem summed_eq_null_iff {ints : List Int} : summed ints = .null ↔ Int64.ofNat ints.length = 0 := by
  simp [summed]

theorem summed_eq_sumOf {ints : List Int} (h : 2 ^ 64 ∣ ints.length → ints = []) :
    summed ints = sumOf ints := by
  rw [summed, sumOf]
  by_cases hnil : ints = []
  · subst hnil
    rfl
  · rw [if_neg fun hzero => hnil (h (ofNat_eq_zero_iff.mp hzero)), if_neg hnil]

theorem summed_columnInts_perm {g g' : List Record} (h : g.Perm g') :
    summed (columnInts c g) = summed (columnInts c g') := by
  have hints : (columnInts c g).Perm (columnInts c g') := h.filterMap _
  rw [summed, summed, hints.length_eq, hints.sum_eq]

theorem sumGroups_perm {γ : Type} {F : List Record → γ} (hF : ∀ g g', g.Perm g' → F g = F g')
    (groupBy : List ColumnRef) {rows' : List Record} (h : rows'.Perm rows) :
    ((sumGroups groupBy rows').map F).Perm ((sumGroups groupBy rows).map F) := by
  rw [sumGroups, sumGroups]
  split_ifs
  · rw [List.map_singleton, List.map_singleton, hF rows' rows h]
  · exact rowGroups_perm hF h

theorem eq_nil_of_perm {parts : List (List Record)}
    (h : (parts.map fun g => sumRecord c (summed (columnInts c g))).Perm
      (parts.map fun g => sumRecord c (sumOf (columnInts c g)))) :
    ∀ g ∈ parts, 2 ^ 64 ∣ (columnInts c g).length → columnInts c g = [] := by
  have hcount : parts.countP (fun g => columnInts c g = []) =
      parts.countP fun g => Int64.ofNat (columnInts c g).length = 0 := by
    have hnull := h.countP_eq fun r : Record => r.values = [.null]
    simp only [List.countP_map, Function.comp_def, sumRecord, List.cons.injEq, and_true,
      summed_eq_null_iff, sumOf_eq_null_iff] at hnull
    exact hnull.symm
  have hsub : (parts.filter fun g => columnInts c g = []).Sublist
      (parts.filter fun g => Int64.ofNat (columnInts c g).length = 0) := by
    apply List.monotone_filter_right
    intro g hg
    simp [of_decide_eq_true hg]
  have hfilter := hsub.eq_of_length (by rwa [← List.countP_eq_length_filter,
    ← List.countP_eq_length_filter])
  intro g hg hdvd
  have hmem : g ∈ parts.filter fun g => Int64.ofNat (columnInts c g).length = 0 := by
    simp [hg, ofNat_eq_zero_iff.mpr hdvd]
  rw [← hfilter] at hmem
  simpa using (List.mem_filter.mp hmem).2

theorem sumsExactly_iff {ν : Type} [DecidableEq ν] (divide : Int64 → Int64 → Double)
    (truncate : Double → Int64) (groupBy : List ColumnRef) (strategy : AggregateStrategy)
    (c : ColumnRef) (rows : List Record) (h : HoldsIntegers c rows)
    (hgroup : Groupable groupBy strategy rows) :
    SumsExactly ν divide truncate groupBy strategy c rows ↔
      ∀ g ∈ sumGroups groupBy rows, SumFits (columnInts c g) := by
  constructor
  · intro hexact
    have hrows : (AggregateChild.other rows : AggregateChild ν).records = some rows := rfl
    have hrun := executeChild_sumPlan divide truncate hrows h hgroup
    have hfits : ∀ g ∈ sumGroups groupBy rows, FitsInt64 (columnInts c g).sum := by
      by_contra hnot
      push Not at hnot
      obtain ⟨e, he⟩ := hexact.raises hnot rows (.refl rows) hgroup _ hrows
      rw [hrun] at he
      cases he
    obtain ⟨out, hout, hperm⟩ := hexact.returns hfits rows (.refl rows) hgroup _ hrows
    rw [hrun] at hout
    obtain rfl := Except.ok.inj (Option.some.inj hout)
    exact fun g hg => ⟨hfits g hg, eq_nil_of_perm hperm g hg⟩
  · intro hfits
    constructor
    · intro _ rows' hperm hgroup' child hrows
      have hints : HoldsIntegers c rows' := fun r hr => h r (hperm.mem_iff.mp hr)
      refine ⟨_, executeChild_sumPlan divide truncate hrows hints hgroup', ?_⟩
      have hsums : ((sumGroups groupBy rows).map fun g => sumRecord c (summed (columnInts c g))) =
          (sumGroups groupBy rows).map fun g => sumRecord c (sumOf (columnInts c g)) := by
        apply List.map_congr_left
        intro g hg
        rw [summed_eq_sumOf (hfits g hg).2]
      rw [← hsums]
      apply sumGroups_perm _ groupBy hperm
      intro g g' hg
      rw [summed_columnInts_perm hg]
    · rintro ⟨g, hg, hnot⟩
      exact absurd (hfits g hg).1 hnot

theorem sumsExactly_of_three :
    SumsExactly Unit (fun _ _ => ⟨0⟩) (fun _ => 0) [] .hash ⟨[97], [97]⟩
      [oneColumn 2, oneColumn 1] := by
  apply (sumsExactly_iff _ _ _ _ _ _ ?_ ⟨?_, ?_⟩).mpr
  · intro g hg
    obtain rfl := List.mem_singleton.mp hg
    exact ⟨⟨by decide, by decide⟩, by decide⟩
  · intro r hr
    simp only [List.mem_cons, List.not_mem_nil, or_false] at hr
    rcases hr with rfl | rfl
    · exact .inr ⟨2, rfl⟩
    · exact .inr ⟨1, rfl⟩
  · exact fun r _ => ⟨[], rfl⟩
  · exact fun h => by cases h

/-- The sum of the greatest integer and 1 wraps, without and with a group column. -/
theorem sumPlan_wraps :
    (sumPlan [] .hash ⟨[97], [97]⟩).executeChild (fun _ _ => ⟨0⟩) (fun _ => 0)
        (.other [oneColumn Int64.maxValue, oneColumn 1] : AggregateChild Unit) =
      some (.ok [sumRecord ⟨[97], [97]⟩ (.int Int64.minValue)]) ∧
    (sumPlan [⟨[], [98]⟩] .hash ⟨[97], [97]⟩).executeChild (fun _ _ => ⟨0⟩) (fun _ => 0)
        (.other [⟨[⟨[97], [97]⟩, ⟨[97], [98]⟩], [.int Int64.maxValue, .int 0]⟩,
          ⟨[⟨[97], [97]⟩, ⟨[97], [98]⟩], [.int 1, .int 0]⟩] : AggregateChild Unit) =
      some (.ok [sumRecord ⟨[97], [97]⟩ (.int Int64.minValue)]) :=
  ⟨rfl, rfl⟩

end Exact

end CoroDB
