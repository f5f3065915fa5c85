import CoroDB.Framework.Frequency
import CoroDB.Txn.Session

/-!
# Column statistics

`StatisticsCollector` sums a column up from a sample: the most common values, and the bounds of an
equal-height histogram of the others.
-/

namespace CoroDB

open Framework

section Collector

structure CollectorConfig where
  maxMcv : Nat
  histogramBuckets : Nat
  mcvThreshold : Double

/-- What the collector computes with doubles (the quotient of two sizes, a factor over a size, and the
estimate from a part of the rows), and the order in which a hash map is walked. -/
structure CollectorEnv where
  ratio : Nat → Nat → Double
  shareOf : Double → Nat → Double
  likelyNdiv : Nat → Nat → Nat → Nat
  walk : List (Value × Nat) → List (Value × Nat)
  walk_perm : ∀ entries, (walk entries).Perm entries

structure ColumnStats where
  columnName : Bytes
  type : TypeKind
  totalRows : Nat
  nullCount : Nat
  nullFrac : Double
  ndistinct : Nat := 0
  mcvValues : List Value := []
  mcvFreqs : List Double := []
  histogramBounds : List Value := []
  correlation : Double := ⟨0⟩
  statsTs : UInt64

def isSortable : TypeKind → Bool
  | .int64 | .text | .float64 | .date | .decimal => true
  | .null | .boolean => false

variable (env : CollectorEnv) (cfg : CollectorConfig)

def estimateNdiv (sampleDistinct sampleSize totalRows : Nat) : Nat :=
  if sampleSize = 0 then 0
  else if sampleDistinct = 0 then 0
  else if totalRows ≤ sampleSize then sampleDistinct
  else env.likelyNdiv sampleDistinct sampleSize totalRows

def totalNonNull (samples : List Value) (totalRows : Nat) : Nat :=
  if 0 < totalRows then totalRows else samples.length

def mcvCandidates (samples : List Value) (ndistinct totalRows : Nat) : List (Value × Nat) :=
  ((env.walk (tally valueKeyEq samples).entries).filter fun p =>
    (env.shareOf cfg.mcvThreshold ndistinct).less
      (env.ratio p.2 (totalNonNull samples totalRows))).mergeSort fun p q => decide (q.2 ≤ p.2)

def keptMcv (samples : List Value) (ndistinct totalRows : Nat) : List (Value × Nat) :=
  if samples = [] ∨ ndistinct = 0 then []
  else (mcvCandidates env cfg samples ndistinct totalRows).take cfg.maxMcv

def computeMcv (samples : List Value) (ndistinct totalRows : Nat) :
    List Value × List Double × List Value :=
  ((keptMcv env cfg samples ndistinct totalRows).map Prod.fst,
    (keptMcv env cfg samples ndistinct totalRows).map fun p =>
      env.ratio p.2 (totalNonNull samples totalRows),
    samples.filter fun v =>
      !(keptMcv env cfg samples ndistinct totalRows).any fun p => valueEq p.1 v)

def sortValues (vs : List Value) : List Value := vs.mergeSort fun a b => !valueLess b a

/-- The position of bound `b` of `buckets` in `n` values; the product is one of `std::size_t`. -/
def boundIndex (buckets n b : Nat) : Nat :=
  if n ≤ b * n % 2 ^ 64 / buckets then n - 1 else b * n % 2 ^ 64 / buckets

/-- The positions of the bounds in `n` sorted values. -/
def boundPositions (histogramBuckets n : Nat) : List Nat :=
  let maxBuckets := min histogramBuckets (n / 2)
  if maxBuckets < 2 then [0, n - 1]
  else 0 :: (List.range' 1 (maxBuckets - 1)).map (boundIndex maxBuckets n) ++ [n - 1]

def computeHistogram (remaining : List Value) : List Value :=
  if remaining = [] then []
  else (boundPositions cfg.histogramBuckets remaining.length).map
    fun i => (sortValues remaining).getD i .null

def buildColumnStats (columnName : Bytes) (type : TypeKind) (samples : List Value)
    (nullCount totalRows : Nat) (statsTs : UInt64) : ColumnStats :=
  let stats : ColumnStats :=
    { columnName, type, totalRows, nullCount, statsTs
      nullFrac := if 0 < totalRows then env.ratio nullCount totalRows else ⟨0⟩ }
  if samples = [] then stats
  else
    let ndistinct :=
      estimateNdiv env (tally valueKeyEq samples).entries.length samples.length totalRows
    let mcv := computeMcv env cfg samples ndistinct totalRows
    { stats with
      ndistinct, mcvValues := mcv.1, mcvFreqs := mcv.2.1
      histogramBounds := if isSortable type then computeHistogram cfg mcv.2.2 else [] }

end Collector

section WellFormed

/-- The values of the columns of integers and of texts that are not null. -/
inductive Sampled : TypeKind → Value → Prop
  | int64 (i : Int64) : Sampled .int64 (.int i)
  | text (s : Bytes) : Sampled .text (.text s)

def remainder (samples mcv : List Value) : List Value := samples.filter (· ∉ mcv)

structure ColumnStats.WellFormed (stats : ColumnStats) (samples : List Value) (buckets : Nat) :
    Prop where
  mcv_nodup : stats.mcvValues.Nodup
  mcv_mem : ∀ v ∈ stats.mcvValues, v ∈ samples
  mcv_order : stats.mcvValues.Pairwise fun a b => samples.count b ≤ samples.count a
  bounds_sorted : stats.histogramBounds.Pairwise fun a b => valueLess b a = false
  bounds_mem : ∀ v ∈ stats.histogramBounds, v ∈ samples ∧ v ∉ stats.mcvValues
  bounds_first : ∀ v ∈ remainder samples stats.mcvValues,
    ∃ lo, stats.histogramBounds.head? = some lo ∧ valueLess v lo = false
  bounds_last : ∀ v ∈ remainder samples stats.mcvValues,
    ∃ hi, stats.histogramBounds.getLast? = some hi ∧ valueLess hi v = false
  bounds_even : remainder samples stats.mcvValues ≠ [] →
    EvenlySpaced (boundPositions buckets (remainder samples stats.mcvValues).length) ∧
      ∃ sorted : List Value, sorted.Perm (remainder samples stats.mcvValues) ∧
        sorted.Pairwise (fun a b => valueLess b a = false) ∧
        stats.histogramBounds =
          (boundPositions buckets (remainder samples stats.mcvValues).length).map
            fun i => sorted.getD i .null

variable {type : TypeKind} {a b v : Value} {samples vs : List Value}

theorem Sampled.isNaN (h : Sampled type v) : v.isNaN = false := by
  cases h <;> rfl

theorem Sampled.isSortable (h : Sampled type v) : isSortable type = true := by
  cases h <;> rfl

theorem Sampled.valueEq_iff (ha : Sampled type a) (hb : Sampled type b) :
    valueEq a b = true ↔ a = b := by
  cases ha <;> cases hb <;> simp [valueEq]

theorem sortValues_perm : (sortValues vs).Perm vs := List.mergeSort_perm vs _

theorem sortValues_pairwise (h : ∀ v ∈ vs, v.isNaN = false) :
    (sortValues vs).Pairwise fun a b => valueLess b a = false := by
  have hkey : sortValues vs = vs.mergeSort fun a b => decide (valueKey a ≤ valueKey b) := by
    have hmap := List.map_mergeSort (f := id) (r := fun a b => !valueLess b a)
      (s := fun a b => decide (valueKey a ≤ valueKey b)) (l := vs) (by
        intro a ha b hb
        rw [Bool.eq_iff_iff]
        simp [← Bool.not_eq_true, valueLess_iff (h b hb) (h a ha)])
    simpa [sortValues] using hmap
  have hsorted : (sortValues vs).Pairwise fun a b => decide (valueKey a ≤ valueKey b) = true := by
    rw [hkey]
    apply List.pairwise_mergeSort
    · intro a b c hab hbc
      simpa using le_trans (of_decide_eq_true hab) (of_decide_eq_true hbc)
    · intro a b
      simpa using le_total (valueKey a) (valueKey b)
  apply hsorted.imp_of_mem
  intro a b ha hb hab
  have ha := h a (sortValues_perm.mem_iff.mp ha)
  have hb := h b (sortValues_perm.mem_iff.mp hb)
  rw [← Bool.not_eq_true, valueLess_iff hb ha]
  simpa using hab

variable {env : CollectorEnv} {cfg : CollectorConfig} {ndistinct totalRows : Nat} {p : Value × Nat}

theorem mem_mcvCandidates (hp : p ∈ mcvCandidates env cfg samples ndistinct totalRows) :
    p ∈ (tally valueKeyEq samples).entries := by
  have hp := List.mem_filter.mp ((List.mergeSort_perm _ _).mem_iff.mp hp)
  exact (env.walk_perm _).mem_iff.mp hp.1

theorem mcvCandidates_count (h : ∀ v ∈ samples, Sampled type v)
    (hp : p ∈ mcvCandidates env cfg samples ndistinct totalRows) :
    p.1 ∈ samples ∧ p.2 = samples.count p.1 := by
  have hp := mem_mcvCandidates hp
  have hmem := mem_of_mem_tally hp
  have hself := ((h _ hmem).valueEq_iff (h _ hmem)).mpr rfl
  refine ⟨hmem, (count_of_mem_tally hp hself).trans ?_⟩
  apply List.countP_congr
  intro v hv
  simp [valueKeyEq, (h v hv).valueEq_iff (h _ hmem)]

theorem mcvCandidates_nodup (h : ∀ v ∈ samples, Sampled type v) :
    ((mcvCandidates env cfg samples ndistinct totalRows).map Prod.fst).Nodup := by
  have hdistinct : ((tally valueKeyEq samples).entries.map Prod.fst).Nodup := by
    rw [List.Nodup, List.pairwise_map]
    apply (tally valueKeyEq samples).distinct.imp_of_mem
    intro p q hp hq hne heq
    have hself := ((h _ (mem_of_mem_tally hp)).valueEq_iff (h _ (mem_of_mem_tally hq))).mpr heq
    exact Bool.false_ne_true (hne.symm.trans hself)
  have hwalk := ((env.walk_perm _).map Prod.fst).nodup_iff.mpr hdistinct
  rw [mcvCandidates, ((List.mergeSort_perm _ _).map Prod.fst).nodup_iff]
  exact hwalk.sublist (List.filter_sublist.map Prod.fst)

theorem mcvCandidates_pairwise :
    (mcvCandidates env cfg samples ndistinct totalRows).Pairwise fun p q => q.2 ≤ p.2 := by
  have hsorted : (mcvCandidates env cfg samples ndistinct totalRows).Pairwise
      fun p q => decide (q.2 ≤ p.2) = true := by
    apply List.pairwise_mergeSort
    · intro p q r hpq hqr
      simp only [decide_eq_true_eq] at *
      omega
    · intro p q
      simpa using le_total q.2 p.2
  exact hsorted.imp of_decide_eq_true

theorem keptMcv_sublist :
    (keptMcv env cfg samples ndistinct totalRows).Sublist
      (mcvCandidates env cfg samples ndistinct totalRows) := by
  rw [keptMcv]
  split_ifs
  · exact List.nil_sublist _
  · exact List.take_sublist _ _

theorem computeMcv_spec (h : ∀ v ∈ samples, Sampled type v) :
    (computeMcv env cfg samples ndistinct totalRows).1.Nodup ∧
    (∀ v ∈ (computeMcv env cfg samples ndistinct totalRows).1, v ∈ samples) ∧
    (computeMcv env cfg samples ndistinct totalRows).1.Pairwise
      (fun a b => samples.count b ≤ samples.count a) ∧
    (computeMcv env cfg samples ndistinct totalRows).2.2 =
      remainder samples (computeMcv env cfg samples ndistinct totalRows).1 := by
  have hkept : ∀ p ∈ keptMcv env cfg samples ndistinct totalRows,
      p.1 ∈ samples ∧ p.2 = samples.count p.1 :=
    fun p hp => mcvCandidates_count h (keptMcv_sublist.subset hp)
  refine ⟨(mcvCandidates_nodup h).sublist (keptMcv_sublist.map Prod.fst), ?_, ?_, ?_⟩
  · intro v hv
    obtain ⟨p, hp, rfl⟩ := List.mem_map.mp hv
    exact (hkept p hp).1
  · rw [computeMcv, List.pairwise_map]
    apply (mcvCandidates_pairwise.sublist keptMcv_sublist).imp_of_mem
    intro p q hp hq hpq
    rwa [← (hkept p hp).2, ← (hkept q hq).2]
  · apply List.filter_congr
    intro v hv
    rw [Bool.eq_iff_iff]
    simp only [Bool.not_eq_true', decide_eq_true_eq, ← Bool.not_eq_true, List.any_eq_true,
      computeMcv, List.mem_map, not_iff_not]
    apply exists_congr
    intro p
    apply and_congr_right
    intro hp
    exact (h _ (hkept p hp).1).valueEq_iff (h v hv)

section Bounds

variable {buckets n : Nat}

theorem boundPositions_eq (hn : 0 < n) (h : 2 ≤ min buckets (n / 2)) :
    boundPositions buckets n = cuts (2 ^ 64) (min buckets (n / 2)) n := by
  rw [boundPositions]
  generalize min buckets (n / 2) = m at h
  obtain ⟨k, rfl⟩ : ∃ k, m = k + 1 := ⟨m - 1, by omega⟩
  have hindex : ∀ b ∈ List.range (k + 1), cut (2 ^ 64) (k + 1) n b = boundIndex (k + 1) n b := by
    intro b hb
    have hlt := cut_lt (W := 2 ^ 64) (List.mem_range.mp hb) hn
    exact (if_neg (not_le.mpr hlt)).symm
  have hzero : boundIndex (k + 1) n 0 = 0 := by simp [boundIndex, hn.ne']
  rw [if_neg (by omega), cuts, List.map_congr_left hindex, List.range_eq_range', List.range'_succ,
    List.map_cons, hzero, Nat.add_sub_cancel]

theorem boundPositions_small (h : min buckets (n / 2) < 2) : boundPositions buckets n = [0, n - 1] :=
  if_pos h

theorem evenlySpaced_boundPositions_iff (hn : 0 < n) (hword : n < 2 ^ 64) :
    EvenlySpaced (boundPositions buckets n) ↔ (min buckets (n / 2) - 1) * n < 2 ^ 64 := by
  by_cases h : 2 ≤ min buckets (n / 2)
  · rw [boundPositions_eq hn h]
    exact evenlySpaced_cuts_iff (by omega) (by omega) hword
  · have hsmall : min buckets (n / 2) - 1 = 0 := by omega
    rw [boundPositions_small (not_le.mp h), hsmall]
    refine iff_of_true (fun i j hi => ?_) (by omega)
    exact absurd hi (by simp)

theorem lt_of_mem_boundPositions (hn : 0 < n) {i : Nat} (hi : i ∈ boundPositions buckets n) :
    i < n := by
  by_cases h : 2 ≤ min buckets (n / 2)
  · rw [boundPositions_eq hn h] at hi
    exact lt_of_mem_cuts hn hi
  · rw [boundPositions_small (not_le.mp h)] at hi
    simp only [List.mem_cons, List.not_mem_nil, or_false] at hi
    omega

theorem boundPositions_pairwise (hn : 0 < n) (hfits : (min buckets (n / 2) - 1) * n < 2 ^ 64) :
    (boundPositions buckets n).Pairwise (· ≤ ·) := by
  by_cases h : 2 ≤ min buckets (n / 2)
  · rw [boundPositions_eq hn h]
    exact pairwise_cuts hn hfits
  · rw [boundPositions_small (not_le.mp h)]
    simp

theorem boundPositions_ends : (boundPositions buckets n).head? = some 0 ∧
    (boundPositions buckets n).getLast? = some (n - 1) := by
  simp only [boundPositions]
  split_ifs
  · simp
  · exact ⟨rfl, List.getLast?_concat⟩

theorem sortValues_getD_mem {i : Nat} (hi : i < vs.length) : (sortValues vs).getD i .null ∈ vs := by
  have hlength : i < (sortValues vs).length := by rwa [sortValues_perm.length_eq]
  rw [List.getD_eq_getElem _ _ hlength]
  exact sortValues_perm.mem_iff.mp (List.getElem_mem _)

theorem sortValues_getD_le (h : ∀ v ∈ vs, v.isNaN = false) {i j : Nat} (hij : i ≤ j)
    (hj : j < vs.length) :
    valueLess ((sortValues vs).getD j .null) ((sortValues vs).getD i .null) = false := by
  rcases hij.eq_or_lt with rfl | hij
  · have hnan := h _ (sortValues_getD_mem hj)
    rw [← Bool.not_eq_true, valueLess_iff hnan hnan]
    exact lt_irrefl _
  · rw [← sortValues_perm.length_eq] at hj
    rw [List.getD_eq_getElem _ _ hj, List.getD_eq_getElem _ _ (hij.trans hj)]
    exact List.pairwise_iff_getElem.mp (sortValues_pairwise h) i j _ _ hij

theorem exists_sortValues_getD (hv : v ∈ vs) :
    ∃ i < vs.length, (sortValues vs).getD i .null = v := by
  obtain ⟨i, hi, rfl⟩ := List.getElem_of_mem (sortValues_perm.mem_iff.mpr hv)
  exact ⟨i, by rwa [sortValues_perm.length_eq] at hi, List.getD_eq_getElem _ _ hi⟩

theorem computeHistogram_spec (h : ∀ v ∈ vs, v.isNaN = false)
    (hfits : (min cfg.histogramBuckets (vs.length / 2) - 1) * vs.length < 2 ^ 64) :
    (computeHistogram cfg vs).Pairwise (fun a b => valueLess b a = false) ∧
    (∀ v ∈ computeHistogram cfg vs, v ∈ vs) ∧
    (∀ v ∈ vs, ∃ lo, (computeHistogram cfg vs).head? = some lo ∧ valueLess v lo = false) ∧
    ∀ v ∈ vs, ∃ hi, (computeHistogram cfg vs).getLast? = some hi ∧ valueLess hi v = false := by
  rw [computeHistogram]
  split_ifs with hnil
  · simp [hnil]
  · have hn : 0 < vs.length := List.length_pos_of_ne_nil hnil
    refine ⟨?_, ?_, ?_, ?_⟩
    · rw [List.pairwise_map]
      apply (boundPositions_pairwise hn hfits).imp_of_mem
      intro i j _ hj hij
      exact sortValues_getD_le h hij (lt_of_mem_boundPositions hn hj)
    · intro v hv
      obtain ⟨i, hi, rfl⟩ := List.mem_map.mp hv
      exact sortValues_getD_mem (lt_of_mem_boundPositions hn hi)
    · intro v hv
      obtain ⟨i, hi, rfl⟩ := exists_sortValues_getD hv
      rw [List.head?_map, boundPositions_ends.1]
      exact ⟨_, rfl, sortValues_getD_le h (Nat.zero_le i) hi⟩
    · intro v hv
      obtain ⟨i, hi, rfl⟩ := exists_sortValues_getD hv
      rw [List.getLast?_map, boundPositions_ends.2]
      exact ⟨_, rfl, sortValues_getD_le h (by omega) (by omega)⟩

end Bounds

section Stats

variable {columnName : Bytes} {nullCount : Nat} {statsTs : UInt64}

theorem buildColumnStats_nil :
    (buildColumnStats env cfg columnName type [] nullCount totalRows statsTs).WellFormed []
      cfg.histogramBuckets := by
  constructor <;> simp [buildColumnStats, remainder]

theorem buildColumnStats_eq (env : CollectorEnv) (cfg : CollectorConfig)
    (h : ∀ v ∈ samples, Sampled type v) (hnil : samples ≠ []) :
    ∃ stats ndistinct, buildColumnStats env cfg columnName type samples nullCount totalRows statsTs =
        stats ∧
      stats.mcvValues = (computeMcv env cfg samples ndistinct totalRows).1 ∧
      stats.histogramBounds = computeHistogram cfg (remainder samples stats.mcvValues) := by
  obtain ⟨v, hv⟩ := List.exists_mem_of_ne_nil samples hnil
  refine ⟨_, estimateNdiv env (tally valueKeyEq samples).entries.length samples.length totalRows, rfl,
    ?_⟩
  rw [buildColumnStats, if_neg hnil, ← (computeMcv_spec h).2.2.2]
  exact ⟨rfl, if_pos (h v hv).isSortable⟩

theorem remainder_fits {mcv : List Value} {buckets : Nat}
    (hfits : (min buckets (samples.length / 2) - 1) * samples.length < 2 ^ 64) :
    (min buckets ((remainder samples mcv).length / 2) - 1) * (remainder samples mcv).length <
      2 ^ 64 := by
  have hle : (remainder samples mcv).length ≤ samples.length := List.length_filter_le _ _
  exact (Nat.mul_le_mul (by omega) hle).trans_lt hfits

theorem buildColumnStats_wellFormed (h : ∀ v ∈ samples, Sampled type v)
    (hword : samples.length < 2 ^ 64)
    (hfits : (min cfg.histogramBuckets (samples.length / 2) - 1) * samples.length < 2 ^ 64) :
    (buildColumnStats env cfg columnName type samples nullCount totalRows statsTs).WellFormed samples
      cfg.histogramBuckets := by
  by_cases hnil : samples = []
  · subst hnil
    exact buildColumnStats_nil
  obtain ⟨stats, ndistinct, hstats, hmcv, hbounds⟩ := buildColumnStats_eq env cfg h hnil
  rw [hstats]
  obtain ⟨hnodup, hmem, horder, -⟩ := computeMcv_spec h
  rw [← hmcv] at hnodup hmem horder
  have hnan : ∀ v ∈ remainder samples stats.mcvValues, v.isNaN = false :=
    fun v hv => (h v (List.mem_of_mem_filter hv)).isNaN
  obtain ⟨hsorted, hin, hfirst, hlast⟩ := computeHistogram_spec hnan (remainder_fits hfits)
  rw [← hbounds] at hsorted hin hfirst hlast
  refine ⟨hnodup, hmem, horder, hsorted, ?_, hfirst, hlast, ?_⟩
  · intro v hv
    simpa [remainder] using hin v hv
  · intro hrest
    have hn := List.length_pos_of_ne_nil hrest
    have hle : (remainder samples stats.mcvValues).length ≤ samples.length := List.length_filter_le _ _
    refine ⟨(evenlySpaced_boundPositions_iff hn (hle.trans_lt hword)).mpr (remainder_fits hfits),
      _, sortValues_perm, sortValues_pairwise hnan, ?_⟩
    rw [hbounds, computeHistogram, if_neg hrest]

/-- The statistics that a sample gives with a number of buckets are well formed, however many most
common values are kept and from which threshold on, exactly if the products of the positions of the
bounds fit in a word. -/
theorem buildColumnStats_wellFormed_iff (env : CollectorEnv) (columnName : Bytes) (type : TypeKind)
    (samples : List Value) (nullCount totalRows : Nat) (statsTs : UInt64) (buckets : Nat)
    (hsamples : ∀ v ∈ samples, Sampled type v) (hrows : samples.length + nullCount ≤ totalRows)
    (hword : totalRows < 2 ^ 64) (hbuckets : 2 ≤ buckets) :
    (∀ cfg : CollectorConfig, cfg.histogramBuckets = buckets →
      (buildColumnStats env cfg columnName type samples nullCount totalRows statsTs).WellFormed
        samples buckets) ↔
      (min buckets (samples.length / 2) - 1) * samples.length < 2 ^ 64 := by
  constructor
  · intro hall
    by_cases hnil : samples = []
    · simp [hnil]
    have hwell := (hall ⟨0, buckets, ⟨0⟩⟩ rfl).bounds_even
    obtain ⟨stats, ndistinct, hstats, hmcv, -⟩ :=
      buildColumnStats_eq env ⟨0, buckets, ⟨0⟩⟩ hsamples hnil
    have hnone : remainder samples stats.mcvValues = samples := by
      simp [hmcv, computeMcv, keptMcv, remainder]
    rw [hstats, hnone] at hwell
    exact (evenlySpaced_boundPositions_iff (List.length_pos_of_ne_nil hnil) (by omega)).mp
      (hwell hnil).1
  · rintro hfits cfg rfl
    exact buildColumnStats_wellFormed hsamples (by omega) hfits

/-- An environment in which no value is frequent enough to be a most common one. -/
def flatEnv : CollectorEnv := ⟨fun _ _ => ⟨0⟩, fun _ _ => ⟨0⟩, fun d _ _ => d, id, fun _ => .refl _⟩

/-- The integers up to `n` as a sample. -/
def risingSample (n : Nat) : List Value := (List.range n).map fun i => .int (Int64.ofNat i)

theorem risingSample_sampled (n : Nat) : ∀ v ∈ risingSample n, Sampled .int64 v := by
  intro v hv
  obtain ⟨i, -, rfl⟩ := List.mem_map.mp hv
  exact .int64 _

theorem length_risingSample (n : Nat) : (risingSample n).length = n := by
  rw [risingSample, List.length_map, List.length_range]

/-- Eight values in four buckets. -/
theorem buildColumnStats_eightInts :
    (buildColumnStats flatEnv ⟨20, 4, ⟨0⟩⟩ [] .int64 (risingSample 8) 1 9 0).WellFormed
      (risingSample 8) 4 :=
  (buildColumnStats_wellFormed_iff flatEnv [] .int64 (risingSample 8) 1 9 0 4 (risingSample_sampled 8)
    (by decide) (by decide) (by decide)).mpr (by decide) ⟨20, 4, ⟨0⟩⟩ rfl

theorem valueLess_int_ofNat {i j : Nat} (hij : i < j) (hj : j < 2 ^ 63) :
    valueLess (.int (Int64.ofNat i)) (.int (Int64.ofNat j)) = true := by
  have hlt : Int64.ofNat i < Int64.ofNat j := by
    rw [Int64.lt_iff_toInt_lt, Int64.toInt_ofNat_of_lt (hij.trans hj), Int64.toInt_ofNat_of_lt hj]
    exact_mod_cast hij
  simpa [valueLess, Value.index] using hlt

theorem sortValues_risingSample {n : Nat} (hn : n < 2 ^ 63) :
    sortValues (risingSample n) = risingSample n := by
  apply List.mergeSort_of_pairwise
  rw [risingSample, List.pairwise_map]
  apply List.pairwise_lt_range.imp_of_mem
  intro i j hi hj hij
  have hless := valueLess_int_ofNat hij ((List.mem_range.mp hj).trans hn)
  rw [valueLess_iff rfl rfl] at hless
  rw [Bool.not_eq_true', ← Bool.not_eq_true, valueLess_iff rfl rfl]
  exact not_lt_of_gt hless

theorem risingSample_getD {n i : Nat} (hi : i < n) :
    (risingSample n).getD i .null = .int (Int64.ofNat i) := by
  simp [risingSample, List.getD_eq_getElem?_getD, hi]

/-- With `2 ^ 33` values in `2 ^ 32` buckets the product of a position passes the word, and bound
`2 ^ 31` is the smallest value again. -/
theorem buildColumnStats_unsorted :
    ¬ (buildColumnStats flatEnv ⟨0, 2 ^ 32, ⟨0⟩⟩ [] .int64 (risingSample (2 ^ 33)) 0 (2 ^ 33)
      0).histogramBounds.Pairwise fun a b => valueLess b a = false := by
  have hnil : risingSample (2 ^ 33) ≠ [] := by
    rw [← List.length_pos_iff, length_risingSample]
    decide
  obtain ⟨stats, ndistinct, hstats, hmcv, hbounds⟩ :=
    buildColumnStats_eq flatEnv ⟨0, 2 ^ 32, ⟨0⟩⟩ (risingSample_sampled (2 ^ 33)) hnil
  have hnone : remainder (risingSample (2 ^ 33)) stats.mcvValues = risingSample (2 ^ 33) := by
    simp only [hmcv, computeMcv, keptMcv, remainder, List.take_zero, ite_self, List.map_nil,
      List.not_mem_nil, not_false_eq_true, decide_true, List.filter_true]
  rw [hstats, hbounds, hnone, computeHistogram, if_neg hnil, length_risingSample,
    sortValues_risingSample (by decide), boundPositions_eq (by decide) (by decide), cuts,
    List.map_append, List.pairwise_append, List.pairwise_map, List.pairwise_map]
  intro hsorted
  have hpair := List.pairwise_iff_getElem.mp hsorted.1 (2 ^ 31 - 1) (2 ^ 31)
    (by rw [List.length_range]; decide) (by rw [List.length_range]; decide) (by decide)
  have hlow : cut (2 ^ 64) (min (2 ^ 32) (2 ^ 33 / 2)) (2 ^ 33) (2 ^ 31) = 0 := by decide
  have hhigh : cut (2 ^ 64) (min (2 ^ 32) (2 ^ 33 / 2)) (2 ^ 33) (2 ^ 31 - 1) = 2 ^ 32 - 2 := by decide
  rw [List.getElem_range, List.getElem_range, hlow, hhigh, risingSample_getD (by decide),
    risingSample_getD (by decide), valueLess_int_ofNat (by decide) (by decide)] at hpair
  exact Bool.noConfusion hpair

end Stats

end WellFormed

end CoroDB
