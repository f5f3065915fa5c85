import CoroDB.Framework.Run
import CoroDB.Txn.Dml

/-!
# The row lock manager

`RowLockManager` keeps the holder of every locked row, table by table, and beside it the rows that
each transaction has locked.
-/

namespace CoroDB

open Framework

variable {ν : Type} [DecidableEq ν]

variable (ν) in
/-- `by_row_`: the holders of the rows of each table. -/
abbrev HoldersByRow := KeyMap (KeyEq.ofDecidableEq ν) (KeyMap valueKeyEq UInt64)

variable (ν) in
structure RowLockManager where
  byRow : HoldersByRow ν
  byTxn : KeyMap (KeyEq.ofDecidableEq UInt64) (List (ν × Value))

variable (ν) in
inductive LockCall where
  | tryAcquire (table : ν) (pk : Value) (txnId : UInt64)
  | releaseAll (txnId : UInt64)

/-- The holders of a table after a transaction has given up the row with a key. -/
def withoutHolder (txnId : UInt64) (key : Value) (rows : KeyMap valueKeyEq UInt64) :
    KeyMap valueKeyEq UInt64 :=
  if rows.get? key = some txnId then rows.erase key else rows

/-- One round of the loop of `release_all`. -/
def HoldersByRow.release (txnId : UInt64) (byRow : HoldersByRow ν) (row : ν × Value) :
    HoldersByRow ν :=
  match byRow.get? row.1 with
  | none => byRow
  | some rows =>
    let rest := withoutHolder txnId row.2 rows
    if rest.entries.isEmpty then byRow.erase row.1 else byRow.assign row.1 rest

def HoldersByRow.Holds (byRow : HoldersByRow ν) (table : ν) (pk : Value) (txnId : UInt64) : Prop :=
  ∃ rows, byRow.get? table = some rows ∧ (pk, txnId) ∈ rows.entries

def HoldersByRow.NoEmptyMap (byRow : HoldersByRow ν) : Prop :=
  ∀ table rows, byRow.get? table = some rows → rows.entries ≠ []

namespace RowLockManager

def new : RowLockManager ν := ⟨.empty, .empty⟩

def rowsOf (m : RowLockManager ν) (txnId : UInt64) : List (ν × Value) :=
  (m.byTxn.get? txnId).getD []

def tryAcquire (m : RowLockManager ν) (table : ν) (pk : Value) (txnId : UInt64) :
    Option UInt64 × RowLockManager ν :=
  let rows := (m.byRow.get? table).getD .empty
  match rows.get? pk with
  | none => (none, ⟨m.byRow.assign table (rows.assign pk txnId),
      m.byTxn.assign txnId (m.rowsOf txnId ++ [(table, pk)])⟩)
  | some holder => (if holder = txnId then none else some holder, m)

def releaseAll (m : RowLockManager ν) (txnId : UInt64) : RowLockManager ν :=
  match m.byTxn.get? txnId with
  | none => m
  | some rows => ⟨rows.foldl (HoldersByRow.release txnId) m.byRow, m.byTxn.erase txnId⟩

def step (m : RowLockManager ν) : LockCall ν → Option (RowLockManager ν)
  | .tryAcquire table pk txnId => some (m.tryAcquire table pk txnId).2
  | .releaseAll txnId => some (m.releaseAll txnId)

def Holds (m : RowLockManager ν) (table : ν) (pk : Value) (txnId : UInt64) : Prop :=
  m.byRow.Holds table pk txnId

def HoldsKey (m : RowLockManager ν) (table : ν) (pk : Value) (txnId : UInt64) : Prop :=
  ∃ key, (key = pk ∨ valueEq key pk = true) ∧ m.Holds table key txnId

/-- What the manager is to keep at every moment, and what its calls are to do next, for rows whose keys
are in a set. -/
structure Correct (keys : Set Value) (m : RowLockManager ν) : Prop where
  exclusive : ∀ table pk x y, m.HoldsKey table pk x → m.HoldsKey table pk y → x = y
  listed : ∀ txnId row, row ∈ m.rowsOf txnId ↔ m.Holds row.1 row.2 txnId
  once : ∀ txnId, (m.rowsOf txnId).Nodup
  noEmptyMap : m.byRow.NoEmptyMap
  granted : ∀ table, ∀ pk ∈ keys, ∀ txnId, (m.tryAcquire table pk txnId).1 = none ↔
    (∀ x, ¬ m.HoldsKey table pk x) ∨ m.HoldsKey table pk txnId
  refused : ∀ table, ∀ pk ∈ keys, ∀ txnId x, (m.tryAcquire table pk txnId).1 = some x →
    m.HoldsKey table pk x
  freed : ∀ txnId table pk x, (m.releaseAll txnId).Holds table pk x ↔ m.Holds table pk x ∧ x ≠ txnId

/-- What every call keeps when no key is `NaN`. -/
structure Sound (m : RowLockManager ν) : Prop where
  ordered : ∀ table pk x, m.Holds table pk x → pk.isNaN = false
  listed : ∀ txnId row, row ∈ m.rowsOf txnId ↔ m.Holds row.1 row.2 txnId
  once : ∀ txnId, (m.rowsOf txnId).Nodup
  noEmptyMap : m.byRow.NoEmptyMap

end RowLockManager

namespace HoldersByRow

variable {byRow : HoldersByRow ν} {table : ν} {pk : Value} {txnId x : UInt64} {row : ν × Value}

theorem get?_release : (byRow.release txnId row).get? table =
    if row.1 = table then
      (byRow.get? table).bind fun rows =>
        if (withoutHolder txnId row.2 rows).entries.isEmpty then none
        else some (withoutHolder txnId row.2 rows)
    else byRow.get? table := by
  rw [release]
  cases hget : byRow.get? row.1 with
  | none => grind
  | some rows =>
    dsimp only
    split_ifs with hempty ht ht
    · subst ht
      simpa [KeyMap.get?_erase, hget] using hempty
    · simp [KeyMap.get?_erase, ht]
    · subst ht
      simpa [KeyMap.get?_assign, hget] using hempty
    · simp [KeyMap.get?_assign, ht]

theorem mem_withoutHolder {rows : KeyMap valueKeyEq UInt64} {key : Value} :
    (pk, x) ∈ (withoutHolder txnId key rows).entries ↔
      (pk, x) ∈ rows.entries ∧ ¬ (valueEq pk key = true ∧ x = txnId) := by
  have hkey : rows.get? key = some txnId ↔ ∃ e ∈ rows.entries, valueEq e.1 key = true ∧ e.2 = txnId :=
    KeyMap.get?_eq_some_iff
  rw [withoutHolder]
  split_ifs with h
  · obtain ⟨e, he, hek, rfl⟩ := hkey.mp h
    rw [KeyMap.mem_erase, ← Bool.not_eq_true]
    refine and_congr_right fun hmem => not_congr ⟨fun hpk => ⟨hpk, ?_⟩, And.left⟩
    exact congrArg Prod.snd (KeyMap.eq_of_mem hmem he (valueKeyEq.trans hpk (valueKeyEq.symm hek)))
  · rw [hkey] at h
    exact ⟨fun hmem => ⟨hmem, fun hx => h ⟨(pk, x), hmem, hx⟩⟩, And.left⟩

theorem holds_release : (byRow.release txnId row).Holds table pk x ↔
    byRow.Holds table pk x ∧ ¬ (table = row.1 ∧ valueEq pk row.2 = true ∧ x = txnId) := by
  simp only [Holds, get?_release]
  by_cases ht : row.1 = table
  · subst ht
    cases hget : byRow.get? row.1 with
    | none => simp
    | some rows =>
      have hrest : (pk, x) ∈ (withoutHolder txnId row.2 rows).entries ↔
          (pk, x) ∈ rows.entries ∧ ¬ (valueEq pk row.2 = true ∧ x = txnId) := mem_withoutHolder
      simp only [if_true, Option.bind_some, Option.some.injEq, exists_eq_left', true_and, ← hrest]
      split_ifs with hempty
      · rw [List.isEmpty_iff] at hempty
        simp [hempty]
      · simp
  · simp [ht, Ne.symm ht]

theorem noEmptyMap_release (h : byRow.NoEmptyMap) : (byRow.release txnId row).NoEmptyMap := by
  intro table rows hrows
  rw [get?_release] at hrows
  split_ifs at hrows
  · obtain ⟨old, -, hrest⟩ := Option.bind_eq_some_iff.mp hrows
    split_ifs at hrest with hempty
    cases hrest
    simpa using hempty
  · exact h table rows hrows

theorem holds_foldl_release (rows : List (ν × Value)) :
    (rows.foldl (release txnId) byRow).Holds table pk x ↔ byRow.Holds table pk x ∧
      ∀ row ∈ rows, ¬ (table = row.1 ∧ valueEq pk row.2 = true ∧ x = txnId) := by
  induction rows generalizing byRow with
  | nil => simp
  | cons row rows ih => rw [List.foldl_cons, ih, holds_release, List.forall_mem_cons, and_assoc]

theorem noEmptyMap_foldl_release (rows : List (ν × Value)) (h : byRow.NoEmptyMap) :
    (rows.foldl (release txnId) byRow).NoEmptyMap := by
  induction rows generalizing byRow with
  | nil => exact h
  | cons row rows ih => exact ih (noEmptyMap_release h)

end HoldersByRow

namespace RowLockManager

variable {m : RowLockManager ν} {table t : ν} {pk k : Value} {txnId x : UInt64} {keys : Set Value}

/-- The holder that `try_acquire` finds. -/
def holder (m : RowLockManager ν) (table : ν) (pk : Value) : Option UInt64 :=
  (m.byRow.get? table).bind fun rows => rows.get? pk

theorem holder_eq_some_iff :
    m.holder table pk = some x ↔ ∃ key, valueEq key pk = true ∧ m.Holds table key x := by
  simp only [holder, Option.bind_eq_some_iff, KeyMap.get?_eq_some_iff, Holds, HoldersByRow.Holds]
  constructor
  · rintro ⟨rows, hrows, e, he, hkey, rfl⟩
    exact ⟨e.1, hkey, rows, hrows, he⟩
  · rintro ⟨key, hkey, rows, hrows, he⟩
    exact ⟨rows, hrows, (key, x), he, hkey, rfl⟩

theorem get?_rows : ((m.byRow.get? table).getD .empty).get? pk = m.holder table pk := by
  rw [holder]
  cases m.byRow.get? table <;> rfl

theorem tryAcquire_of_none (h : m.holder table pk = none) : m.tryAcquire table pk txnId = (none,
    ⟨m.byRow.assign table (((m.byRow.get? table).getD .empty).assign pk txnId),
      m.byTxn.assign txnId (m.rowsOf txnId ++ [(table, pk)])⟩) := by
  simp only [tryAcquire, get?_rows, h]

theorem tryAcquire_of_some (h : m.holder table pk = some x) :
    m.tryAcquire table pk txnId = (if x = txnId then none else some x, m) := by
  simp only [tryAcquire, get?_rows, h]

theorem holds_tryAcquire (h : m.holder table pk = none) :
    (m.tryAcquire table pk txnId).2.Holds t k x ↔
      m.Holds t k x ∨ t = table ∧ k = pk ∧ x = txnId := by
  have hnone : ((m.byRow.get? table).getD .empty).contains pk = false := by
    rw [← KeyMap.get?_eq_none_iff, get?_rows, h]
  rw [tryAcquire_of_none h]
  simp only [Holds, HoldersByRow.Holds, KeyMap.get?_assign]
  by_cases ht : table = t
  · subst ht
    simp only [KeyEq.ofDecidableEq_eq, if_true, Option.some.injEq, exists_eq_left',
      KeyMap.mem_assign_of_free hnone]
    cases m.byRow.get? table <;> simp
  · simp [ht, Ne.symm ht]

theorem rowsOf_tryAcquire (h : m.holder table pk = none) :
    (m.tryAcquire table pk txnId).2.rowsOf x =
      if x = txnId then m.rowsOf x ++ [(table, pk)] else m.rowsOf x := by
  rw [tryAcquire_of_none h, rowsOf, KeyMap.get?_assign]
  by_cases hx : txnId = x
  · subst hx
    simp
  · simp [hx, Ne.symm hx, rowsOf]

theorem rowsOf_releaseAll : (m.releaseAll txnId).rowsOf x = if x = txnId then [] else m.rowsOf x := by
  rw [releaseAll]
  cases hget : m.byTxn.get? txnId with
  | none =>
    by_cases hx : x = txnId
    · simp [hx, rowsOf, hget]
    · simp [hx]
  | some rows =>
    by_cases hx : txnId = x
    · simp [hx, rowsOf, KeyMap.get?_erase]
    · simp [hx, Ne.symm hx, rowsOf, KeyMap.get?_erase]

namespace Sound

variable (h : m.Sound)

include h

theorem holdsKey_iff : m.HoldsKey table pk x ↔ m.holder table pk = some x := by
  rw [holder_eq_some_iff]
  refine exists_congr fun key => and_congr_left fun hkey => or_iff_right_of_imp ?_
  rintro rfl
  have hord := h.ordered _ _ _ hkey
  exact (valueEq_iff hord hord).mpr rfl

theorem holds_releaseAll : (m.releaseAll txnId).Holds t k x ↔ m.Holds t k x ∧ x ≠ txnId := by
  have hlist : ∀ rows, m.rowsOf txnId = rows → (m.Holds t k x → ((∀ row ∈ rows,
      ¬ (t = row.1 ∧ valueEq k row.2 = true ∧ x = txnId)) ↔ x ≠ txnId)) := by
    rintro rows rfl hheld
    have hord := h.ordered _ _ _ hheld
    constructor
    · rintro hfree rfl
      exact hfree (t, k) ((h.listed _ _).mpr hheld) ⟨rfl, (valueEq_iff hord hord).mpr rfl, rfl⟩
    · exact fun hne row _ hrow => hne hrow.2.2
  rw [releaseAll]
  cases hget : m.byTxn.get? txnId with
  | none =>
    have hrows : m.rowsOf txnId = [] := by simp [rowsOf, hget]
    exact (and_iff_left_of_imp fun hheld => (hlist [] hrows hheld).mp (by simp)).symm
  | some rows =>
    have hrows : m.rowsOf txnId = rows := by simp [rowsOf, hget]
    exact (HoldersByRow.holds_foldl_release rows).trans (and_congr_right (hlist rows hrows))

theorem correct : m.Correct keys where
  exclusive table pk x y hx hy := by
    rw [h.holdsKey_iff] at hx hy
    exact Option.some.inj (hx.symm.trans hy)
  listed := h.listed
  once := h.once
  noEmptyMap := h.noEmptyMap
  granted table pk _ txnId := by
    simp only [h.holdsKey_iff]
    cases hold : m.holder table pk with
    | none => simp [tryAcquire_of_none hold]
    | some holder => simp [tryAcquire_of_some hold]
  refused table pk _ txnId x hx := by
    rw [h.holdsKey_iff]
    cases hold : m.holder table pk with
    | none => simp [tryAcquire_of_none hold] at hx
    | some holder =>
      rw [tryAcquire_of_some hold] at hx
      split_ifs at hx
      exact hx
  freed txnId table pk x := h.holds_releaseAll

theorem tryAcquire (hpk : pk.isNaN = false) : (m.tryAcquire table pk txnId).2.Sound := by
  cases hold : m.holder table pk with
  | some holder =>
    rw [tryAcquire_of_some hold]
    exact h
  | none =>
    have hnew : (table, pk) ∉ m.rowsOf txnId := by
      rw [h.listed]
      intro hheld
      have hkey := h.holdsKey_iff.mp ⟨pk, .inl rfl, hheld⟩
      rw [hold] at hkey
      cases hkey
    constructor
    case ordered =>
      intro t k x hheld
      rcases (holds_tryAcquire hold).mp hheld with hheld | ⟨-, rfl, -⟩
      · exact h.ordered t k x hheld
      · exact hpk
    case listed =>
      intro x row
      rw [rowsOf_tryAcquire hold, holds_tryAcquire hold, ← h.listed]
      split_ifs with hx <;> simp [hx, Prod.ext_iff]
    case once =>
      intro x
      rw [rowsOf_tryAcquire hold]
      split_ifs with hx
      · subst hx
        exact (h.once x).append (List.nodup_singleton _) (by simpa using hnew)
      · exact h.once x
    case noEmptyMap =>
      intro t rows hrows
      rw [tryAcquire_of_none hold, KeyMap.get?_assign] at hrows
      split_ifs at hrows
      · cases hrows
        rw [KeyMap.assign]
        split_ifs with hc
        · simp
        · intro hempty
          simp [KeyMap.contains, List.map_eq_nil_iff.mp hempty] at hc
      · exact h.noEmptyMap t rows hrows

theorem releaseAll : (m.releaseAll txnId).Sound where
  ordered t k x hheld := h.ordered t k x (h.holds_releaseAll.mp hheld).1
  listed x row := by
    rw [rowsOf_releaseAll, h.holds_releaseAll, ← h.listed]
    split_ifs with hx <;> simp [hx]
  once x := by
    rw [rowsOf_releaseAll]
    split_ifs
    · exact List.nodup_nil
    · exact h.once x
  noEmptyMap := by
    rw [RowLockManager.releaseAll]
    split
    · exact h.noEmptyMap
    · exact HoldersByRow.noEmptyMap_foldl_release _ h.noEmptyMap

end Sound

theorem sound_new : (new : RowLockManager ν).Sound where
  ordered := by simp [Holds, HoldersByRow.Holds, new]
  listed := by simp [Holds, HoldersByRow.Holds, rowsOf, new]
  once := by simp [rowsOf, new]
  noEmptyMap := by simp [HoldersByRow.NoEmptyMap, new]

end RowLockManager

/-- The call names a row with a key of a set, or none. -/
def LockCall.KeyIn (keys : Set Value) : LockCall ν → Prop
  | .tryAcquire _ pk _ => pk ∈ keys
  | .releaseAll _ => True

namespace RowLockManager

theorem throughout_sound {keys : Set Value} (hkeys : ∀ pk ∈ keys, pk.isNaN = false)
    {calls : List (LockCall ν)} (hcalls : ∀ c ∈ calls, c.KeyIn keys) :
    Throughout step Sound new calls := by
  have hguard : Guarded step (fun _ c => c.KeyIn keys) (new : RowLockManager ν) calls :=
    Guarded.of_invariant (I := fun _ => True) (fun _ _ _ _ _ _ => trivial)
      (fun _ c hc _ => hcalls c hc) trivial
  refine hguard.throughout ?_ sound_new
  intro m c m' h hc hstep
  cases c with
  | tryAcquire table pk txnId =>
    cases hstep
    exact h.tryAcquire (hkeys pk hc)
  | releaseAll txnId =>
    cases hstep
    exact h.releaseAll

/-- Row locks are exclusive, listed and fully released in every sequence of calls over some keys exactly
when none of the keys is `NaN`. -/
theorem correct_iff [Inhabited ν] (keys : Set Value) :
    (∀ calls : List (LockCall ν), (∀ c ∈ calls, c.KeyIn keys) →
      Throughout step (Correct keys) new calls) ↔ ∀ pk ∈ keys, pk.isNaN = false := by
  constructor
  · intro h pk hpk
    rw [← Bool.not_eq_true]
    intro hnan
    have hnone : ∀ m : RowLockManager ν, m.holder default pk = none := by
      intro m
      by_contra hsome
      obtain ⟨x, hx⟩ := Option.ne_none_iff_exists'.mp hsome
      obtain ⟨key, hkey, -⟩ := holder_eq_some_iff.mp hx
      exact Bool.false_ne_true ((valueEq_of_isNaN hnan key).2.symm.trans hkey)
    have hcorrect := ((h [.tryAcquire default pk 1] (by simpa [LockCall.KeyIn] using hpk)).2 _ rfl).head
    have hheld : ∀ k x, (new.tryAcquire default pk 1).2.Holds (default : ν) k x ↔ k = pk ∧ x = 1 := by
      intro k x
      rw [holds_tryAcquire (hnone new)]
      simp [Holds, HoldersByRow.Holds, new]
    have hanswer := (hcorrect.granted default pk hpk 2).mp (by rw [tryAcquire_of_none (hnone _)])
    rcases hanswer with hfree | ⟨key, -, htwo⟩
    · exact hfree 1 ⟨pk, .inl rfl, (hheld pk 1).mpr ⟨rfl, rfl⟩⟩
    · exact absurd ((hheld key 2).mp htwo).2 (by decide)
  · intro hkeys calls hcalls
    exact (throughout_sound hkeys hcalls).mono fun m h => h.correct

/-- Two transactions hold the row whose key is `NaN`, and `release_all` frees it of neither. -/
theorem nan_row_held_twice :
    ∃ m m', run step (new : RowLockManager Unit) [.tryAcquire () (.double ⟨0x7FF8000000000000⟩) 1,
        .tryAcquire () (.double ⟨0x7FF8000000000000⟩) 2] = some m ∧
      run step m [.releaseAll 1, .releaseAll 2] = some m' ∧
      m.Holds () (.double ⟨0x7FF8000000000000⟩) 1 ∧ m.Holds () (.double ⟨0x7FF8000000000000⟩) 2 ∧
      m'.Holds () (.double ⟨0x7FF8000000000000⟩) 1 :=
  ⟨_, _, rfl, rfl, ⟨_, rfl, by decide⟩, ⟨_, rfl, by decide⟩, ⟨_, rfl, by decide⟩⟩

end RowLockManager

end CoroDB
