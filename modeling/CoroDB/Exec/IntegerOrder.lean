import CoroDB.Exec.HashJoin
import CoroDB.Exec.Aggregate
import CoroDB.Exec.Project
import CoroDB.Framework.Rounding

/-!
# The order of integers

`compare_order` compares two integers as doubles, so it tells them apart only when they differ after
rounding to 53 significant bits.
-/

namespace CoroDB

open Framework

/-- Whether a row of a merge join goes on the run of another. -/
def sameOrder (first next : Record × Value) : Except String Bool := do
  return (← compareOrder next.2 first.2) == .eq

namespace Double

section Patterns

theorem magnitudeOf_le {n : Nat} (hn : n < 2 ^ 64) : magnitudeOf n ≤ 1087 * 2 ^ 52 := by
  rw [magnitudeOf]
  dsimp only
  split_ifs with h0 he
  · omega
  · have hlt : n < 2 ^ n.log2 * 2 := by
      rw [← Nat.pow_succ]
      exact Nat.lt_log2_self
    have hfrac : (n - 2 ^ n.log2) * 2 ^ (52 - n.log2) ≤ 2 ^ n.log2 * 2 ^ (52 - n.log2) :=
      Nat.mul_le_mul_right _ (by omega)
    rw [← Nat.pow_add, Nat.add_sub_cancel' he] at hfrac
    omega
  all_goals
    have hlog : n.log2 < 64 := (Nat.log2_lt h0).mpr hn
    have hlt : n < 2 ^ n.log2 * 2 := by
      rw [← Nat.pow_succ]
      exact Nat.lt_log2_self
    have hq : n / 2 ^ (n.log2 - 52) < 2 ^ 53 := by
      rw [Nat.div_lt_iff_lt_mul (Nat.two_pow_pos _), ← Nat.pow_add]
      calc n < 2 ^ (n.log2 + 1) := Nat.lt_log2_self
        _ = 2 ^ (53 + (n.log2 - 52)) := by congr 1; omega
    omega

theorem natAbs_toInt_lt (i : Int64) : i.toInt.natAbs < 2 ^ 64 := by
  have := i.toInt_lt
  have := i.le_toInt
  omega

theorem toNat_ofInt64 (i : Int64) : (ofInt64 i).bits.toNat =
    (if i.toInt < 0 then 2 ^ 63 else 0) + magnitudeOf i.toInt.natAbs := by
  have hle := magnitudeOf_le (natAbs_toInt_lt i)
  rw [ofInt64, UInt64.toNat_ofNat_of_lt']
  simp only [UInt64.size]
  split_ifs <;> omega

theorem magnitude_ofInt64 (i : Int64) : (ofInt64 i).magnitude = magnitudeOf i.toInt.natAbs := by
  have hle := magnitudeOf_le (natAbs_toInt_lt i)
  rw [magnitude, toNat_ofInt64]
  split_ifs <;> omega

theorem isNaN_ofInt64 (i : Int64) : (ofInt64 i).isNaN = false := by
  have hle := magnitudeOf_le (natAbs_toInt_lt i)
  rw [isNaN, magnitude_ofInt64]
  simp only [decide_eq_false_iff_not]
  omega

end Patterns

section Magnitude

/-- The number with a given pattern, times `2 ^ 52`. -/
def scaled (x : Nat) : Nat := (2 ^ 52 + x % 2 ^ 52) * 2 ^ (x / 2 ^ 52 - 1023)

theorem scaled_lt {x y : Nat} (hx : 1023 * 2 ^ 52 ≤ x) (h : x < y) : scaled x < scaled y := by
  have hE : 1023 ≤ x / 2 ^ 52 := by omega
  rcases Nat.lt_or_ge (x / 2 ^ 52) (y / 2 ^ 52) with hlt | hge
  · have hF : 2 ^ 52 + x % 2 ^ 52 < 2 ^ 53 := by omega
    calc scaled x < 2 ^ 53 * 2 ^ (x / 2 ^ 52 - 1023) :=
          Nat.mul_lt_mul_of_pos_right hF (Nat.two_pow_pos _)
      _ = 2 ^ 52 * 2 ^ (x / 2 ^ 52 - 1023 + 1) := by
          rw [Nat.pow_succ 2 52, Nat.pow_succ 2 (x / 2 ^ 52 - 1023), Nat.mul_assoc, Nat.mul_comm 2]
      _ ≤ 2 ^ 52 * 2 ^ (y / 2 ^ 52 - 1023) :=
          Nat.mul_le_mul_left _ (Nat.pow_le_pow_right (by decide) (by omega))
      _ ≤ scaled y := Nat.mul_le_mul_right _ (Nat.le_add_right _ _)
  · have hexp : y / 2 ^ 52 = x / 2 ^ 52 := by omega
    rw [scaled, scaled, hexp]
    exact Nat.mul_lt_mul_of_pos_right (by omega) (Nat.two_pow_pos _)

theorem scaled_of_fraction {e f : Nat} (hf : f < 2 ^ 52) :
    scaled ((e + 1023) * 2 ^ 52 + f) = (2 ^ 52 + f) * 2 ^ e := by
  have hdiv : ((e + 1023) * 2 ^ 52 + f) / 2 ^ 52 = e + 1023 := by omega
  have hmod : ((e + 1023) * 2 ^ 52 + f) % 2 ^ 52 = f := by omega
  rw [scaled, hdiv, hmod, Nat.add_sub_cancel]

theorem scaled_of_quotient {e q : Nat} (hlow : 2 ^ 52 ≤ q) (hhigh : q ≤ 2 ^ 53) :
    scaled ((e + 1023) * 2 ^ 52 + (q - 2 ^ 52)) = q * 2 ^ e := by
  rcases Nat.lt_or_ge q (2 ^ 53) with hlt | hge
  · rw [scaled_of_fraction (by omega), Nat.add_sub_cancel' hlow]
  · obtain rfl : q = 2 ^ 53 := le_antisymm hhigh hge
    have hcarry : (e + 1023) * 2 ^ 52 + (2 ^ 53 - 2 ^ 52) = (e + 1 + 1023) * 2 ^ 52 + 0 := by omega
    rw [hcarry, scaled_of_fraction (by decide), Nat.add_zero, Nat.pow_succ 2 e, Nat.mul_comm (2 ^ e),
      ← Nat.mul_assoc, ← Nat.pow_succ]

theorem magnitudeOf_of_log2_le {n : Nat} (hn : n ≠ 0) (h : n.log2 ≤ 52) :
    magnitudeOf n = (n.log2 + 1023) * 2 ^ 52 + (n - 2 ^ n.log2) * 2 ^ (52 - n.log2) := by
  rw [magnitudeOf]
  dsimp only
  rw [if_neg hn, if_pos h]

theorem magnitudeOf_of_lt_log2 {n : Nat} (hn : n ≠ 0) (h : 52 < n.log2) :
    magnitudeOf n =
      (n.log2 + 1023) * 2 ^ 52 + (roundQuotient n (n.log2 - 52) - 2 ^ 52) := by
  rw [magnitudeOf]
  dsimp only
  rw [if_neg hn, if_neg (by omega), roundQuotient]
  have hhalf : n.log2 - 52 - 1 = n.log2 - 53 := by omega
  rw [hhalf]

theorem scaled_magnitudeOf {n : Nat} (hn : n ≠ 0) :
    scaled (magnitudeOf n) = roundBits 52 n * 2 ^ 52 := by
  rcases Nat.lt_or_ge 52 n.log2 with hlog | hlog
  · have hq := quotient_bounds hn hlog.le
    have hround := roundQuotient_bounds n (n.log2 - 52)
    have hpow : 2 ^ n.log2 = 2 ^ (n.log2 - 52) * 2 ^ 52 := by
      rw [← Nat.pow_add, Nat.sub_add_cancel hlog.le]
    rw [magnitudeOf_of_lt_log2 hn hlog, scaled_of_quotient (hq.1.trans hround.1) (by omega), roundBits,
      if_neg (by omega), hpow, Nat.mul_assoc]
  · have hlow := Nat.log2_self_le hn
    have hlt : n < 2 ^ n.log2 * 2 := by
      rw [← Nat.pow_succ]
      exact Nat.lt_log2_self
    have hpow : 2 ^ (52 - n.log2) * 2 ^ n.log2 = 2 ^ 52 := by
      rw [← Nat.pow_add, Nat.sub_add_cancel hlog]
    have hfrac : (n - 2 ^ n.log2) * 2 ^ (52 - n.log2) < 2 ^ 52 := by
      rw [← hpow, Nat.mul_comm (2 ^ (52 - n.log2))]
      exact Nat.mul_lt_mul_of_pos_right (by omega) (Nat.two_pow_pos _)
    rw [magnitudeOf_of_log2_le hn hlog, scaled_of_fraction hfrac, roundBits, if_pos hlog, Nat.add_mul,
      Nat.mul_assoc, hpow, Nat.mul_comm (2 ^ 52) (2 ^ n.log2), ← Nat.add_mul,
      Nat.add_sub_cancel' hlow]

theorem le_magnitudeOf {n : Nat} (hn : n ≠ 0) : 1023 * 2 ^ 52 ≤ magnitudeOf n := by
  rcases Nat.lt_or_ge 52 n.log2 with hlog | hlog
  · rw [magnitudeOf_of_lt_log2 hn hlog]
    omega
  · rw [magnitudeOf_of_log2_le hn hlog]
    omega

theorem magnitudeOf_zero : magnitudeOf 0 = 0 := rfl

theorem magnitudeOf_lt_iff {m n : Nat} :
    magnitudeOf m < magnitudeOf n ↔ roundBits 52 m < roundBits 52 n := by
  have hzero : roundBits 52 0 = 0 := rfl
  by_cases hm : m = 0
  · by_cases hn : n = 0
    · simp [hm, hn]
    · have hpos := le_magnitudeOf hn
      have hround := (roundBits_bounds (k := 52) hn).1
      have hpow := Nat.two_pow_pos n.log2
      rw [hm, magnitudeOf_zero, hzero]
      omega
  · by_cases hn : n = 0
    · rw [hn, magnitudeOf_zero, hzero]
      omega
    · have hmono : StrictMonoOn scaled {x | 1023 * 2 ^ 52 ≤ x} :=
        fun x hx y _ hxy => scaled_lt hx hxy
      rw [← hmono.lt_iff_lt (le_magnitudeOf hm) (le_magnitudeOf hn), scaled_magnitudeOf hm,
        scaled_magnitudeOf hn]
      exact Nat.mul_lt_mul_right (Nat.two_pow_pos 52)

end Magnitude

section Signed

def rounded (i : Int64) : Int :=
  if i.toInt < 0 then -(roundBits 52 i.toInt.natAbs : Int) else roundBits 52 i.toInt.natAbs

theorem negative_ofInt64 (i : Int64) : (ofInt64 i).negative = decide (i.toInt < 0) := by
  have hle := magnitudeOf_le (natAbs_toInt_lt i)
  rw [negative, toNat_ofInt64, decide_eq_decide]
  by_cases hneg : i.toInt < 0
  · rw [if_pos hneg]
    omega
  · rw [if_neg hneg]
    omega

theorem ordinal_ofInt64 (i : Int64) : (ofInt64 i).ordinal =
    if i.toInt < 0 then -(magnitudeOf i.toInt.natAbs : Int) else magnitudeOf i.toInt.natAbs := by
  rw [ordinal, negative_ofInt64, magnitude_ofInt64]
  simp

theorem roundBits_pos {n : Nat} (hn : n ≠ 0) : 0 < roundBits 52 n :=
  (Nat.two_pow_pos _).trans_le (roundBits_bounds hn).1

theorem ordinal_lt_iff (i j : Int64) :
    (ofInt64 i).ordinal < (ofInt64 j).ordinal ↔ rounded i < rounded j := by
  have hij := magnitudeOf_lt_iff (m := i.toInt.natAbs) (n := j.toInt.natAbs)
  have hji := magnitudeOf_lt_iff (m := j.toInt.natAbs) (n := i.toInt.natAbs)
  rw [ordinal_ofInt64, ordinal_ofInt64, rounded, rounded]
  split_ifs with hi hj hj
  · omega
  · have hpos := le_magnitudeOf (n := i.toInt.natAbs) (by omega)
    have hround := roundBits_pos (n := i.toInt.natAbs) (by omega)
    omega
  · omega
  · omega

theorem rounded_mono {i j : Int64} (h : i.toInt ≤ j.toInt) : rounded i ≤ rounded j := by
  rw [rounded, rounded]
  split_ifs with hi hj hj
  · have hle := roundBits_mono (k := 52) (show j.toInt.natAbs ≤ i.toInt.natAbs by omega)
    omega
  · omega
  · omega
  · have hle := roundBits_mono (k := 52) (show i.toInt.natAbs ≤ j.toInt.natAbs by omega)
    omega

end Signed

end Double

theorem compareOrder_int (i j : Int64) :
    compareOrder (.int i) (.int j) = .ok (cmp (Double.rounded i) (Double.rounded j)) := by
  simp [compareOrder, Value.toDouble, Double.less, Double.isNaN_ofInt64, cmp, cmpUsing,
    Double.ordinal_lt_iff]

section Exact

def nullable : Option Int64 → Value
  | none => .null
  | some i => .int i

/-- The integers in their order, below `NULL`. -/
def rank : Option Int64 → WithTop Int
  | none => ⊤
  | some i => i.toInt

noncomputable def exactOrder (a b : Option Int64) : Ordering := cmp (rank a) (rank b)

/-- The order of two values, and what all that uses it makes of them. -/
structure ComparesExactly (a b : Option Int64) : Prop where
  order : compareOrder (nullable a) (nullable b) = .ok (exactOrder a b)
  comparison : ∀ op ∈ CompareOp.ordered, ∀ (lhs rhs : Expr) (r : Record),
    lhs.eval r = .ok (nullable a) → rhs.eval r = .ok (nullable b) →
      Comparison.eval ⟨op, lhs, rhs⟩ r =
        .ok (if a = none ∨ b = none then .unknown else .ofBool (op.accepts (exactOrder a b)))
  orderBy : ∀ (key : LogicalSortKey) (r s : Record), key.expr.eval r = .ok (nullable a) → key.expr.eval s = .ok (nullable b) →
    lessBy [key] r s = .ok (exactOrder a b == if key.desc then .gt else .lt)
  min : ∀ (c : ColumnRef) (r : Record) (st : AggState), r.lookup c = .ok (nullable a) → a ≠ none →
    b ≠ none → st.min = some (nullable b) → st.update ⟨.min, some c⟩ r =
      .ok { st with min := some (nullable (if exactOrder a b = .lt then a else b)) }
  max : ∀ (c : ColumnRef) (r : Record) (st : AggState), r.lookup c = .ok (nullable a) → a ≠ none →
    b ≠ none → st.max = some (nullable b) → st.update ⟨.max, some c⟩ r =
      .ok { st with max := some (nullable (if exactOrder a b = .gt then a else b)) }
  distinct : valueVectorLess [nullable a] [nullable b] = .ok (exactOrder a b == .lt)
  mergeJoin : ∀ r s, sameOrder (s, nullable b) (r, nullable a) = .ok (exactOrder a b == .eq)

variable {a b : Option Int64}

theorem nullable_eq_null_iff : nullable a = .null ↔ a = none := by
  cases a <;> simp [nullable]

theorem ComparesExactly.of_order
    (h : compareOrder (nullable a) (nullable b) = .ok (exactOrder a b)) : ComparesExactly a b where
  order := h
  comparison op hop lhs rhs r hl hr := by
    rw [Comparison.eval_of_ordered hop hl hr, h]
    simp only [nullable_eq_null_iff]
    split_ifs <;> rfl
  orderBy key r s hr hs := by
    simp only [lessBy, hr, hs, h, bind, Except.bind]
    cases exactOrder a b <;> cases key.desc <;> rfl
  min c r st hr ha hb hst := by
    simp only [AggState.update, hr, bind, Except.bind, nullable_eq_null_iff, ha, if_false, hst, h]
    cases exactOrder a b <;> simp [← hst, pure, Except.pure]
  max c r st hr ha hb hst := by
    simp only [AggState.update, hr, bind, Except.bind, nullable_eq_null_iff, ha, if_false, hst, h]
    cases exactOrder a b <;> simp [← hst, pure, Except.pure]
  distinct := by
    simp only [valueVectorLess, lessValues, h, bind, Except.bind]
    cases exactOrder a b <;> rfl
  mergeJoin r s := by
    simp only [sameOrder, h, bind, Except.bind]
    rfl

theorem exactOrder_some (i j : Int64) : exactOrder (some i) (some j) = cmp i.toInt j.toInt := by
  simp [exactOrder, rank, cmp, cmpUsing]

theorem cmp_rounded_iff (i j : Int64) :
    cmp (Double.rounded i) (Double.rounded j) = cmp i.toInt j.toInt ↔
      (Double.rounded i = Double.rounded j → i = j) := by
  constructor
  · intro h heq
    rw [heq, cmp_self_eq_eq] at h
    exact Int64.toInt_inj.mp (cmp_eq_eq_iff _ _ |>.mp h.symm)
  · intro h
    rcases lt_trichotomy i.toInt j.toInt with hlt | heq | hgt
    · have hne : Double.rounded i ≠ Double.rounded j := fun heq => hlt.ne (congrArg _ (h heq))
      rw [hlt.cmp_eq_lt, (lt_of_le_of_ne (Double.rounded_mono hlt.le) hne).cmp_eq_lt]
    · rw [Int64.toInt_inj.mp heq, cmp_self_eq_eq, cmp_self_eq_eq]
    · have hne : Double.rounded j ≠ Double.rounded i := fun heq => hgt.ne (congrArg _ (h heq.symm).symm)
      rw [hgt.cmp_eq_gt, (lt_of_le_of_ne (Double.rounded_mono hgt.le) hne).cmp_eq_gt]

theorem comparesExactly_iff (a b : Option Int64) :
    ComparesExactly a b ↔ ∀ i ∈ a, ∀ j ∈ b, Double.rounded i = Double.rounded j → i = j := by
  cases a with
  | none =>
    refine iff_of_true (.of_order ?_) (by simp)
    cases b <;> simp [compareOrder, nullable, exactOrder, rank, cmp, cmpUsing]
  | some i =>
    cases b with
    | none =>
      refine iff_of_true (.of_order ?_) (by simp)
      simp [compareOrder, nullable, exactOrder, rank, cmp, cmpUsing]
    | some j =>
      have horder : compareOrder (nullable (some i)) (nullable (some j)) =
          .ok (exactOrder (some i) (some j)) ↔ (Double.rounded i = Double.rounded j → i = j) := by
        rw [nullable, nullable, compareOrder_int, exactOrder_some, Except.ok.injEq, cmp_rounded_iff]
      constructor
      · intro h
        simpa using horder.mp h.order
      · intro h
        exact .of_order (horder.mpr (by simpa using h))

/-- Two integers above `2 ^ 53` that the order does not tell apart. -/
theorem compareOrder_confuses_integers :
    compareOrder (.int 9007199254740992) (.int 9007199254740993) = .ok .eq ∧
      Comparison.eval ⟨.eq, .literal (.int 9007199254740992), .literal (.int 9007199254740993)⟩ ⟨[], []⟩ =
        .ok .isTrue ∧
      valueVectorLess [.int 9007199254740992] [.int 9007199254740993] = .ok false ∧
      valueVectorLess [.int 9007199254740993] [.int 9007199254740992] = .ok false := by
  refine ⟨?_, ?_, ?_, ?_⟩ <;> decide +kernel

end Exact

end CoroDB
