import CoroDB.Storage.Mvcc

/-!
# Level files

The SSTable files of a table by level number, what the readers probe of them, and what a snapshot
sees of the memtable and the files together.
-/

namespace CoroDB

open Framework

/-- The level files of a table: the entries of every existing file, none from `bound` on. -/
structure LevelFiles where
  file : Nat → Option (List MemEntry)
  bound : Nat
  absent : ∀ level, bound ≤ level → file level = none

namespace LevelFiles

def ofLevels (levels : List (Option (List MemEntry))) : LevelFiles where
  file level := levels[level]?.join
  bound := levels.length
  absent level h := by simp [List.getElem?_eq_none h]

def fresh : LevelFiles := ofLevels [some []]

def write (f : LevelFiles) (level : Nat) (entries : List MemEntry) : LevelFiles where
  file := Function.update f.file level (some entries)
  bound := max f.bound (level + 1)
  absent n h := by
    rw [Function.update_of_ne (by omega), f.absent n (by omega)]

def remove (f : LevelFiles) (level : Nat) : LevelFiles where
  file := Function.update f.file level none
  bound := f.bound
  absent n h := by
    by_cases hn : n = level
    · rw [hn, Function.update_self]
    · rw [Function.update_of_ne hn, f.absent n h]

variable (f : LevelFiles)

@[simp] theorem write_file_self (level : Nat) (entries : List MemEntry) :
    (f.write level entries).file level = some entries := Function.update_self ..

theorem write_file_of_ne {level n : Nat} (h : n ≠ level) (entries : List MemEntry) :
    (f.write level entries).file n = f.file n := Function.update_of_ne h ..

@[simp] theorem remove_file_self (level : Nat) : (f.remove level).file level = none :=
  Function.update_self ..

theorem remove_file_of_ne {level n : Nat} (h : n ≠ level) : (f.remove level).file n = f.file n :=
  Function.update_of_ne h ..

def entriesAt (level : Nat) : List MemEntry := (f.file level).getD []

/-- The entries of `n` levels from `lo` on. -/
def span (lo n : Nat) : List MemEntry := (List.range' lo n).flatMap f.entriesAt

def entries : List MemEntry := f.span 0 f.bound

variable {f}

theorem entriesAt_of_file {level : Nat} {es : List MemEntry} (h : f.file level = some es) :
    f.entriesAt level = es := by
  simp [entriesAt, h]

theorem entriesAt_congr {g : LevelFiles} {level : Nat} (h : f.file level = g.file level) :
    f.entriesAt level = g.entriesAt level := by
  rw [entriesAt, h, entriesAt]

@[simp] theorem entriesAt_write_self (level : Nat) (es : List MemEntry) :
    (f.write level es).entriesAt level = es :=
  entriesAt_of_file (f.write_file_self level es)

theorem entriesAt_write_of_ne {level n : Nat} (h : n ≠ level) (es : List MemEntry) :
    (f.write level es).entriesAt n = f.entriesAt n :=
  entriesAt_congr (f.write_file_of_ne h es)

theorem entriesAt_of_bound_le {level : Nat} (h : f.bound ≤ level) : f.entriesAt level = [] := by
  simp [entriesAt, f.absent level h]

theorem forall_entriesAt {P : List MemEntry → Prop} (hnil : P [])
    (h : ∀ level < f.bound, P (f.entriesAt level)) (level : Nat) : P (f.entriesAt level) := by
  by_cases hl : level < f.bound
  · exact h level hl
  · rwa [entriesAt_of_bound_le (not_lt.mp hl)]

theorem mem_span {lo n : Nat} {e : MemEntry} :
    e ∈ f.span lo n ↔ ∃ level, lo ≤ level ∧ level < lo + n ∧ e ∈ f.entriesAt level := by
  simp only [span, List.mem_flatMap, List.mem_range'_1]
  exact exists_congr fun _ => and_assoc

theorem mem_entries {e : MemEntry} : e ∈ f.entries ↔ ∃ level, e ∈ f.entriesAt level := by
  rw [entries, mem_span]
  constructor
  · rintro ⟨level, -, -, he⟩
    exact ⟨level, he⟩
  · rintro ⟨level, he⟩
    refine ⟨level, Nat.zero_le _, ?_, he⟩
    by_contra hle
    rw [entriesAt_of_bound_le (by omega)] at he
    simp at he

theorem span_add (lo m n : Nat) : f.span lo (m + n) = f.span lo m ++ f.span (lo + m) n := by
  rw [span, ← List.range'_append_1, List.flatMap_append]
  rfl

theorem span_one (lo : Nat) : f.span lo 1 = f.entriesAt lo := by simp [span]

theorem span_congr {g : LevelFiles} {lo n : Nat}
    (h : ∀ level, lo ≤ level → level < lo + n → f.entriesAt level = g.entriesAt level) :
    f.span lo n = g.span lo n := by
  have : ∀ level ∈ List.range' lo n, f.entriesAt level = g.entriesAt level := by
    intro level hl
    rw [List.mem_range'_1] at hl
    exact h level hl.1 hl.2
  exact List.flatMap_congr this

theorem span_eq_nil {lo n : Nat} (h : ∀ level, lo ≤ level → level < lo + n →
    f.entriesAt level = []) : f.span lo n = [] := by
  rw [List.eq_nil_iff_forall_not_mem]
  intro e he
  obtain ⟨level, hlo, hhi, he⟩ := mem_span.mp he
  simp [h level hlo hhi] at he

/-- The entries of the levels from `lo` on. -/
def entriesFrom (f : LevelFiles) (lo : Nat) : List MemEntry := f.span lo (f.bound - lo)

theorem span_eq_entriesFrom {lo n : Nat} (h : f.bound ≤ lo + n) : f.span lo n = f.entriesFrom lo := by
  obtain ⟨m, rfl⟩ := Nat.exists_eq_add_of_le (show f.bound - lo ≤ n by omega)
  have hbeyond : f.span (lo + (f.bound - lo)) m = [] :=
    span_eq_nil fun level hl _ => entriesAt_of_bound_le (by omega)
  rw [span_add, hbeyond, List.append_nil, entriesFrom]

theorem span_zero_of_bound_le {n : Nat} (h : f.bound ≤ n) : f.span 0 n = f.entries :=
  span_eq_entriesFrom (by omega)

theorem entries_congr {g : LevelFiles} (h : ∀ level, f.entriesAt level = g.entriesAt level) :
    f.entries = g.entries := by
  rw [← span_zero_of_bound_le (le_max_left f.bound g.bound),
    ← span_zero_of_bound_le (le_max_right f.bound g.bound)]
  exact span_congr fun level _ _ => h level

theorem entriesFrom_congr {g : LevelFiles} {lo : Nat}
    (h : ∀ level, lo ≤ level → f.entriesAt level = g.entriesAt level) :
    f.entriesFrom lo = g.entriesFrom lo := by
  rw [← span_eq_entriesFrom (show f.bound ≤ lo + max f.bound g.bound by omega),
    ← span_eq_entriesFrom (show g.bound ≤ lo + max f.bound g.bound by omega)]
  exact span_congr fun level hl _ => h level hl

variable (f) in
theorem entries_eq_append (lo : Nat) : f.entries = f.span 0 lo ++ f.entriesFrom lo := by
  rw [← span_zero_of_bound_le (n := lo + (f.bound - lo)) (by omega), span_add, Nat.zero_add,
    entriesFrom]

variable (f) in
theorem entries_eq_pair (level : Nat) :
    f.entries = f.span 0 level ++
      ((f.entriesAt level ++ f.entriesAt (level + 1)) ++ f.entriesFrom (level + 2)) := by
  rw [entries_eq_append f (level + 2), show level + 2 = level + (1 + 1) from rfl, span_add,
    Nat.zero_add, span_add, span_one, span_one, List.append_assoc]

theorem ofList_write_zero {memtable : List MemEntry} (ho : Ordered memtable)
    (hs : SortedVersions memtable) (ho0 : Ordered (f.entriesAt 0))
    (hs0 : SortedVersions (f.entriesAt 0)) :
    History.ofList (f.write 0 (mergeEntries memtable (f.entriesAt 0))).entries =
      History.ofList (memtable ++ f.entries) := by
  have hrest : (f.write 0 (mergeEntries memtable (f.entriesAt 0))).entriesFrom 1 =
      f.entriesFrom 1 :=
    entriesFrom_congr fun level hl => entriesAt_write_of_ne (by omega) _
  rw [entries_eq_append _ 1, span_one, entriesAt_write_self, hrest, entries_eq_append f 1, span_one,
    History.ofList_append, ofList_mergeEntries ho ho0 (.inl ⟨hs, hs0⟩), History.ofList_append,
    History.ofList_append, History.overlay_assoc]

theorem entries_write_succ (level : Nat) (es : List MemEntry) :
    (f.write (level + 1) es).entries =
      f.span 0 level ++ ((f.entriesAt level ++ es) ++ f.entriesFrom (level + 2)) := by
  rw [entries_eq_pair _ level, entriesAt_write_self, entriesAt_write_of_ne (Nat.succ_ne_self level).symm,
    span_congr fun n _ hn => entriesAt_write_of_ne (by omega) es,
    entriesFrom_congr fun n hn => entriesAt_write_of_ne (by omega) es]

/-- The probe of the readers: go on to the next level while its file exists. -/
def maxLevelFrom (f : LevelFiles) : Nat → Nat → Nat
  | 0, level => level
  | fuel + 1, level =>
    if (f.file (level + 1)).isSome then f.maxLevelFrom fuel (level + 1) else level

def maxLevel (f : LevelFiles) : Nat := f.maxLevelFrom f.bound 0

theorem le_maxLevelFrom {fuel level n : Nat} (hfuel : f.bound ≤ level + fuel) :
    n ≤ f.maxLevelFrom fuel level ↔ ∀ i, level < i → i ≤ n → (f.file i).isSome = true := by
  induction fuel generalizing level with
  | zero =>
    refine ⟨fun h i hi hn => absurd (hn.trans h) (not_le.mpr hi), fun h => ?_⟩
    by_contra hlt
    have := h n (not_le.mp hlt) le_rfl
    simp [f.absent n (by simp only [maxLevelFrom] at hlt; omega)] at this
  | succ fuel ih =>
    rw [maxLevelFrom]
    split
    · rename_i hnext
      rw [ih (by omega)]
      refine forall_congr' fun i => ⟨fun h hi hn => ?_, fun h hi hn => h (by omega) hn⟩
      rcases (Nat.succ_le_of_lt hi).eq_or_lt with rfl | hlt
      · exact hnext
      · exact h hlt hn
    · rename_i hnext
      refine ⟨fun h i hi hn => absurd (hn.trans h) (not_le.mpr hi), fun h => ?_⟩
      by_contra hlt
      exact hnext (h (level + 1) (by omega) (by omega))

theorem le_maxLevel {n : Nat} :
    n ≤ f.maxLevel ↔ ∀ i, 0 < i → i ≤ n → (f.file i).isSome = true :=
  le_maxLevelFrom (by omega)

def probedLevels (f : LevelFiles) : List Nat := List.range (f.maxLevel + 1)

def levelNumbers (f : LevelFiles) : List Nat :=
  (List.range f.bound).filter fun level => (f.file level).isSome

theorem mem_levelNumbers {level : Nat} :
    level ∈ f.levelNumbers ↔ (f.file level).isSome = true := by
  refine ⟨fun h => (List.mem_filter.mp h).2, fun h => List.mem_filter.mpr ⟨?_, h⟩⟩
  rw [List.mem_range]
  by_contra hle
  simp [f.absent level (not_lt.mp hle)] at h

/-- No level is missing below an existing one. -/
def Gapless (f : LevelFiles) : Prop :=
  ∀ level, (f.file (level + 1)).isSome = true → (f.file level).isSome = true

theorem Gapless.isSome_of_le (h : f.Gapless) {i j : Nat} (hij : i ≤ j)
    (hj : (f.file j).isSome = true) : (f.file i).isSome = true := by
  induction j with
  | zero => rwa [Nat.le_zero.mp hij]
  | succ j ih =>
    rcases hij.eq_or_lt with rfl | hlt
    · exact hj
    · exact ih (Nat.lt_succ_iff.mp hlt) (h j hj)

end LevelFiles

/-- The row a snapshot sees of a key over the memtable and all level files: that of the newest
version up to the snapshot, none when that is a tombstone or there is no version. -/
def visibleOutcome (memtable : List MemEntry) (files : LevelFiles) (pk : Value) (s : UInt64) :
    Option Row :=
  (newestIn (fun e => valueEq e.pk pk) s (memtable ++ files.entries)).bind MemEntry.content

def tableHistory (memtable : List MemEntry) (files : LevelFiles) : TableHistory :=
  History.ofList (memtable ++ files.entries)

section Visible

variable {memtable : List MemEntry} {files : LevelFiles} {pk : Value}

theorem visibleOutcome_eq_view (ho : Ordered (memtable ++ files.entries)) (hpk : pk.isNaN = false)
    (s : UInt64) :
    visibleOutcome memtable files pk s =
      History.view (tableHistory memtable files) (valueKey pk) s :=
  newestIn_view s fun e he => valueEq_iff (ho e he) hpk

theorem visibleOutcome_of_isNaN (hpk : pk.isNaN = true) (s : UInt64) :
    visibleOutcome memtable files pk s = none := by
  simp [visibleOutcome, newestIn, valueEq_of_isNaN hpk]

end Visible

end CoroDB
