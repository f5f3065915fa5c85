import CoroDB.Exec.JoinPlan
import CoroDB.Txn.Session

/-!
# The hash join

The right rows are put in buckets by their key, and a left row is paired with the rows of its bucket.
-/

namespace CoroDB

open Framework

/-- The hash table: a bucket lists its rows with their places. -/
abbrev Buckets := KeyMap valueKeyEq (List (Record × Nat))

def buildBuckets (rightKey : ColumnRef) : List (Record × Nat) → Buckets → Except String Buckets
  | [], buckets => return buckets
  | (r, i) :: rs, buckets => do
    let key ← r.lookup rightKey
    buildBuckets rightKey rs (buckets.assign key ((buckets.get? key).getD [] ++ [(r, i)]))

/-- The test of a pair that the keys have brought together. -/
def acceptsResidual (residual : Option BoolExpr) (merged : Record) : Except String Bool :=
  match residual with
  | some on => on.accepts merged
  | none => .ok true

def hashJoin (type : JoinType) (leftKey rightKey : ColumnRef) (residual : Option BoolExpr)
    (left right : JoinInput) : Except String (List Record) := do
  let buckets ← buildBuckets rightKey right.rows.zipIdx .empty
  joinLoop (fun l => do return (buckets.get? (← l.lookup leftKey)).getD [])
    (fun l r => acceptsResidual residual (l.merge r)) Record.merge (right.padLeft type)
    (left.padRight type) left.rows right.rows

section Buckets

variable {rightKey : ColumnRef}

theorem get?_buildBuckets {rows : List (Record × Nat)} (seen : List (Record × Nat)) (buckets : Buckets)
    (hrows : ∀ r ∈ rows, ∃ v, r.1.lookup rightKey = .ok v)
    (hseen : ∀ k, (buckets.get? k).getD [] = seen.filter fun r => valueEq (keyOf rightKey r.1) k) :
    ∃ buckets', buildBuckets rightKey rows buckets = .ok buckets' ∧
      ∀ k, (buckets'.get? k).getD [] =
        (seen ++ rows).filter fun r => valueEq (keyOf rightKey r.1) k := by
  induction rows generalizing seen buckets with
  | nil => exact ⟨buckets, rfl, by simpa using hseen⟩
  | cons r rows ih =>
    have hkey := lookup_of_found (hrows r List.mem_cons_self)
    have hnext : ∀ k, ((buckets.assign (keyOf rightKey r.1)
        ((buckets.get? (keyOf rightKey r.1)).getD [] ++ [r])).get? k).getD [] =
          (seen ++ [r]).filter fun r => valueEq (keyOf rightKey r.1) k := by
      intro k
      rw [KeyMap.get?_assign, List.filter_append, ← hseen k]
      change (if valueEq (keyOf rightKey r.1) k = true then _ else _ : Option _).getD [] = _
      cases hk : valueEq (keyOf rightKey r.1) k with
      | false => simp [hk]
      | true => simp [hk, KeyMap.get?_congr (E := valueKeyEq) hk]
    obtain ⟨buckets', hbuild, hget⟩ := ih _ _ (fun r hr => hrows r (List.mem_cons_of_mem _ hr)) hnext
    refine ⟨buckets', ?_, by simpa using hget⟩
    simpa only [buildBuckets, hkey, bind, Except.bind] using hbuild

theorem buildBuckets_error {rows : List (Record × Nat)} {r : Record × Nat} (hr : r ∈ rows)
    {e : String} (he : r.1.lookup rightKey = .error e) (buckets : Buckets) :
    ∃ e, buildBuckets rightKey rows buckets = .error e := by
  induction rows generalizing buckets with
  | nil => cases hr
  | cons r' rows ih =>
    rw [buildBuckets]
    cases hkey : r'.1.lookup rightKey with
    | error e => exact ⟨e, rfl⟩
    | ok v =>
      rcases List.mem_cons.mp hr with rfl | hr
      · rw [hkey] at he
        cases he
      · exact ih hr _

end Buckets

section Equivalence

structure KeysFound (leftKey rightKey : ColumnRef) (L R : Relation) : Prop where
  left : ∀ l ∈ L.rows, ∃ v, l.lookup leftKey = .ok v
  right : ∀ r ∈ R.rows, ∃ v, r.lookup rightKey = .ok v

variable {on : BoolExpr} {leftKey rightKey : ColumnRef} {L R : Relation}

theorem hashJoin_perm (h : KeysFound leftKey rightKey L R) (type : JoinType) :
    ∃ out, hashJoin type leftKey rightKey none L.toJoinInput R.toJoinInput = .ok out ∧
      out.Perm (joined (fun l r => valueEq (keyOf leftKey l) (keyOf rightKey r)) Record.merge
        (R.padLeft type) (L.padRight type) L.rows R.rows) := by
  have hrows : ∀ r ∈ R.rows.zipIdx, ∃ v, r.1.lookup rightKey = .ok v :=
    fun r hr => h.right r.1 (List.fst_mem_of_mem_zipIdx hr)
  obtain ⟨buckets, hbuild, hget⟩ := get?_buildBuckets [] .empty hrows (by simp)
  rw [hashJoin, hbuild]
  apply joinLoop_perm
  constructor
  intro l hl
  refine ⟨fun r => valueEq (keyOf leftKey l) (keyOf rightKey r), ?_, ?_⟩
  · simp [lookup_of_found (h.left l hl), bind, Except.bind, pure, Except.pure, hget, valueEq_comm]
  · intro r _
    constructor
    · intro heq
      exact congrArg Except.ok heq.symm
    · exact id

theorem hashJoin_error (h : ¬ KeysFound leftKey rightKey L R) (type : JoinType) :
    ∃ e, hashJoin type leftKey rightKey none L.toJoinInput R.toJoinInput = .error e := by
  rw [hashJoin]
  cases hbuild : buildBuckets rightKey R.rows.zipIdx .empty with
  | error e => exact ⟨e, rfl⟩
  | ok buckets =>
    have hright : ∀ r ∈ R.rows, ∃ v, r.lookup rightKey = .ok v := by
      intro r hr
      cases hkey : r.lookup rightKey with
      | ok v => exact ⟨v, rfl⟩
      | error e =>
        obtain ⟨i, hi⟩ := exists_mem_zipIdx hr
        obtain ⟨e, he⟩ := buildBuckets_error hi hkey .empty
        rw [hbuild] at he
        cases he
    obtain ⟨l, hl, hkey⟩ : ∃ l ∈ L.rows, ¬ ∃ v, l.lookup leftKey = .ok v := by
      by_contra! hleft
      exact h ⟨hleft, hright⟩
    apply joinLoop_error _ _ _ hl
    cases hlookup : l.lookup leftKey with
    | ok v => exact absurd ⟨v, hlookup⟩ hkey
    | error e => exact .inl ⟨e, rfl⟩

/-- Where the key columns are found, the condition compares the keys of every pair of rows with the
outcome that the buckets have; otherwise it throws on a pair, as the hash join does. -/
def HashAgrees (on : BoolExpr) (leftKey rightKey : ColumnRef) (L R : Relation) : Prop :=
  (KeysFound leftKey rightKey L R ∧ ∀ l ∈ L.rows, ∀ r ∈ R.rows,
    ComparedAs (keyOf leftKey l) (readKey rightKey l r)
      (valueEq (keyOf leftKey l) (keyOf rightKey r))) ∨
  (¬ KeysFound leftKey rightKey L R ∧ ∃ l ∈ L.rows, ∃ r ∈ R.rows, ∃ e,
    on.accepts (l.merge r) = .error e)

theorem hashJoin_sameOutput_iff (costs : JoinCosts) (on : BoolExpr) (left right : LogicalSide)
    (leftKey rightKey : ColumnRef) (residual : Option BoolExpr)
    (hplan : buildJoin costs on left right = .hash leftKey rightKey residual) (L R : Relation) :
    (∀ type, SameOutput (hashJoin type leftKey rightKey residual L.toJoinInput R.toJoinInput)
      (nestedLoopJoin type on L.toJoinInput R.toJoinInput)) ↔ HashAgrees on leftKey rightKey L R := by
  obtain ⟨hkeys, rfl⟩ := buildJoin_hash hplan
  by_cases hfound : KeysFound leftKey rightKey L R
  · rw [sameOutput_iff_accepts (hashJoin_perm hfound), HashAgrees]
    simp only [hfound, true_and, not_true, false_and, or_false]
    apply forall₂_congr
    intro l hl
    apply forall₂_congr
    intro r hr
    exact hkeys.accepts_merge (by rw [L.bindings l hl, L.arity l hl]) (hfound.left l hl)
      (hfound.right r hr)
  · rw [HashAgrees]
    simp only [hfound, false_and, false_or, not_false_iff, true_and]
    simp only [sameOutput_error_iff (hashJoin_error hfound _), nestedLoopJoin_error_iff]
    exact ⟨fun h => h .inner, fun h _ => h⟩

def LogicalSide.scan (table : Bytes) : LogicalSide := ⟨[table], none⟩

theorem hashJoin_sameOutput_twoRows :
    SameOutput
      (hashJoin .full ⟨[97], [97]⟩ ⟨[98], [97]⟩ none (twoRows [97] (.int 1) .null).toJoinInput
        (twoRows [98] (.int 1) (.int 2)).toJoinInput)
      (nestedLoopJoin .full (onColumns [97] [98]) (twoRows [97] (.int 1) .null).toJoinInput
        (twoRows [98] (.int 1) (.int 2)).toJoinInput) := by
  apply (hashJoin_sameOutput_iff ⟨false, false, false⟩ _ (.scan [97]) (.scan [98]) _ _ none rfl _ _).mpr
  left
  constructor
  · constructor
    · simp only [twoRows, List.forall_mem_cons]
      exact ⟨⟨_, rfl⟩, ⟨_, rfl⟩, by simp⟩
    · simp only [twoRows, List.forall_mem_cons]
      exact ⟨⟨_, rfl⟩, ⟨_, rfl⟩, by simp⟩
  · simp only [← keysMeet_eq_ok_iff]
    decide +kernel

/-- A row with a null key on either side: the buckets bring them together, the condition does not. -/
theorem hashJoin_pairs_nulls :
    buildJoin ⟨false, false, false⟩ (onColumns [97] [98]) (.scan [97]) (.scan [98]) =
        .hash ⟨[97], [97]⟩ ⟨[98], [97]⟩ none ∧
      hashJoin .inner ⟨[97], [97]⟩ ⟨[98], [97]⟩ none (twoRows [97] (.int 1) .null).toJoinInput
        (twoRows [98] (.int 2) .null).toJoinInput =
          .ok [⟨[⟨[97], [97]⟩, ⟨[98], [97]⟩], [.null, .null]⟩] ∧
      nestedLoopJoin .inner (onColumns [97] [98]) (twoRows [97] (.int 1) .null).toJoinInput
        (twoRows [98] (.int 2) .null).toJoinInput = .ok [] := by
  refine ⟨rfl, ?_, ?_⟩
  · rfl
  · rfl

end Equivalence

end CoroDB
