import CoroDB.Storage.LevelCoverage

/-!
# Dropping a table

`drop_table` removes the log, the index files and the level files of a table, the latter from level 0
on up to the first missing one and never more than ten.
-/

namespace CoroDB

open Framework

/-- The files of a table: the level files with their records in the manifest, the entries of the log
when it exists, and the columns with an index file. -/
structure TableFiles where
  disk : DiskState
  wal : Option (List MemEntry)
  indexes : List Bytes

namespace LevelFiles

/-- Remove at most `rounds` files from a level on, up to the first missing one. -/
def dropFrom (f : LevelFiles) : Nat → Nat → LevelFiles
  | 0, _ => f
  | rounds + 1, level =>
    if (f.file level).isSome then (f.remove level).dropFrom rounds (level + 1) else f

def dropLevels (f : LevelFiles) : LevelFiles := f.dropFrom 10 0

theorem dropFrom_file_of_lt {f : LevelFiles} {rounds level n : Nat} (h : n < level) :
    (f.dropFrom rounds level).file n = f.file n := by
  induction rounds generalizing f level with
  | zero => rfl
  | succ rounds ih =>
    rw [dropFrom]
    split_ifs
    · rw [ih (by omega), remove_file_of_ne _ h.ne]
    · rfl

theorem dropFrom_isSome {f : LevelFiles} {rounds level n : Nat} (h : level ≤ n) :
    ((f.dropFrom rounds level).file n).isSome = true ↔ (f.file n).isSome = true ∧
      (level + rounds ≤ n ∨ ∃ j, level ≤ j ∧ j < n ∧ f.file j = none) := by
  induction rounds generalizing f level with
  | zero => simp [dropFrom, h]
  | succ rounds ih =>
    rw [dropFrom]
    split_ifs with hlevel
    · rcases h.eq_or_lt with rfl | hlt
      · rw [dropFrom_file_of_lt (Nat.lt_succ_self _), remove_file_self]
        simp
        omega
      · rw [ih hlt, remove_file_of_ne _ hlt.ne']
        apply and_congr_right
        intro _
        apply or_congr (by omega)
        constructor
        · rintro ⟨j, hle, hjn, hj⟩
          exact ⟨j, by omega, hjn, by rwa [remove_file_of_ne _ (by omega)] at hj⟩
        · rintro ⟨j, hle, hjn, hj⟩
          have hne : j ≠ level := by
            rintro rfl
            simp [hj] at hlevel
          exact ⟨j, by omega, hjn, by rwa [remove_file_of_ne _ hne]⟩
    · rw [Bool.not_eq_true, Option.isSome_eq_false_iff, Option.isNone_iff_eq_none] at hlevel
      constructor
      · intro hn
        have hne : level ≠ n := by
          rintro rfl
          simp [hlevel] at hn
        exact ⟨hn, .inr ⟨level, le_rfl, by omega, hlevel⟩⟩
      · exact fun hn => hn.1

theorem dropLevels_eq_none_iff {f : LevelFiles} :
    (∀ level, f.dropLevels.file level = none) ↔
      f.Gapless ∧ ∀ level, 10 ≤ level → f.file level = none := by
  have hleft : ∀ level, f.dropLevels.file level = none ↔ ((f.file level).isSome = true →
      level < 10 ∧ ∀ j < level, (f.file j).isSome = true) := by
    intro level
    rw [← Option.not_isSome_iff_eq_none, dropLevels, dropFrom_isSome (Nat.zero_le level)]
    simp [← Option.isSome_iff_ne_none]
  simp only [hleft]
  constructor
  · intro h
    refine ⟨fun level hlevel => (h _ hlevel).2 level (Nat.lt_succ_self level), fun level hle => ?_⟩
    by_contra hsome
    have := (h level (Option.isSome_iff_ne_none.mpr hsome)).1
    omega
  · rintro ⟨hgap, hten⟩ level hsome
    refine ⟨?_, fun j hj => hgap.isSome_of_le hj.le hsome⟩
    by_contra hle
    simp [hten level (not_lt.mp hle)] at hsome

end LevelFiles

namespace TableFiles

/-- The files `create_table` leaves, whatever was there before. -/
def created (columns : List Column) : TableFiles :=
  ⟨⟨.fresh, manifestOf columns .fresh⟩, some [], []⟩

def tableExists (t : TableFiles) : Bool :=
  t.wal.isSome || !t.disk.files.levelNumbers.isEmpty || !t.indexes.isEmpty

def readable (t : TableFiles) : List MemEntry :=
  t.wal.getD [] ++ t.disk.files.probedLevels.flatMap t.disk.files.entriesAt

def dropTable (columns : List Column) (t : TableFiles) : Bool × TableFiles :=
  if t.tableExists then
    (true, ⟨⟨t.disk.files.dropLevels, manifestOf columns t.disk.files.dropLevels⟩, none, []⟩)
  else (false, t)

/-- The construction of the table object: a table with a level 0 is loaded, any other created. -/
def openTable (columns : List Column) (t : TableFiles) : TableFiles :=
  if t.tableExists && (t.disk.files.file 0).isSome then t else created columns

def start (columns : List Column) (t : TableFiles) : Option TableFiles :=
  (reconcileWithManifest columns t.disk).map fun disk =>
    let t' : TableFiles := { t with disk := disk }
    if disk.files.levelNumbers.isEmpty then t' else t'.openTable []

/-- After DROP TABLE and any number of starts the table does not exist, has no entry to read, and is
empty when it is created again. -/
def DropFinal (columns : List Column) (t : TableFiles) : Prop :=
  ∀ n t', run (fun t (_ : Unit) => t.start columns) (t.dropTable columns).2
      (List.replicate n ()) = some t' →
    t'.tableExists = false ∧ t'.readable = [] ∧
      ∀ newColumns, (t'.openTable newColumns).readable = []

section Final

variable {columns : List Column} {t : TableFiles}

theorem tableExists_eq_false : t.tableExists = false ↔
    t.wal = none ∧ (∀ level, t.disk.files.file level = none) ∧ t.indexes = [] := by
  have hlevels : t.disk.files.levelNumbers = [] ↔ ∀ level, t.disk.files.file level = none := by
    rw [List.eq_nil_iff_forall_not_mem]
    apply forall_congr'
    intro level
    rw [LevelFiles.mem_levelNumbers, Bool.not_eq_true, Option.isSome_eq_false_iff,
      Option.isNone_iff_eq_none]
  simp [tableExists, hlevels, and_assoc]

theorem readable_of_not_exists (h : t.tableExists = false) : t.readable = [] := by
  obtain ⟨hwal, hfiles, -⟩ := tableExists_eq_false.mp h
  simp [readable, hwal, LevelFiles.entriesAt, hfiles]

theorem readable_created (columns : List Column) : (created columns).readable = [] := by
  have hentries : ∀ level, LevelFiles.fresh.entriesAt level = [] := by
    intro level
    cases level with
    | zero => rfl
    | succ level => exact LevelFiles.entriesAt_of_bound_le (Nat.succ_le_succ (Nat.zero_le level))
  simp [created, readable, hentries]

theorem start_of_not_exists (h : t.tableExists = false) {t' : TableFiles}
    (hstart : t.start columns = some t') : t'.tableExists = false := by
  obtain ⟨hwal, hfiles, hidx⟩ := tableExists_eq_false.mp h
  have hgap : t.disk.files.Gapless := fun level hlevel => by simp [hfiles] at hlevel
  have hnumbers : t.disk.files.levelNumbers = [] := by
    rw [List.eq_nil_iff_forall_not_mem]
    intro level hlevel
    rw [LevelFiles.mem_levelNumbers, hfiles] at hlevel
    simp at hlevel
  rw [start, reconcileWithManifest, repairGap_of_gapless hgap] at hstart
  simp only [adjacentLevels, hnumbers, List.zip_nil_left, finishStep, Option.map_some,
    List.isEmpty_nil, if_true, Option.some.injEq] at hstart
  rw [← hstart, tableExists_eq_false]
  exact ⟨hwal, hfiles, hidx⟩

/-- DROP TABLE is final exactly for tables whose level files have no gap and are all below level
10. -/
theorem dropFinal_iff (columns : List Column) (t : TableFiles) :
    t.DropFinal columns ↔ t.disk.files.Gapless ∧
      ∀ level, 10 ≤ level → t.disk.files.file level = none := by
  rw [← LevelFiles.dropLevels_eq_none_iff]
  constructor
  · intro h level
    obtain ⟨hdropped, -⟩ := h 0 _ rfl
    rw [dropTable] at hdropped
    split_ifs at hdropped with hexists
    · exact (tableExists_eq_false.mp hdropped).2.1 level
    · have hfiles := (tableExists_eq_false.mp (Bool.not_eq_true _ ▸ hexists)).2.1
      apply LevelFiles.dropLevels_eq_none_iff.mpr
      exact ⟨fun level hlevel => by simp [hfiles] at hlevel, fun level _ => hfiles level⟩
  · intro h n t' hrun
    have hdropped : (t.dropTable columns).2.tableExists = false := by
      rw [dropTable]
      split_ifs with hexists
      · exact tableExists_eq_false.mpr ⟨rfl, h, rfl⟩
      · simpa using hexists
    have hexists : t'.tableExists = false :=
      run_invariant (I := fun t => t.tableExists = false)
        (fun s a s' hs hstart => start_of_not_exists hs hstart) hdropped hrun
    refine ⟨hexists, readable_of_not_exists hexists, fun newColumns => ?_⟩
    rw [openTable, hexists]
    exact readable_created newColumns

/-- A row in level 2 below a gap outlives DROP TABLE: the next start moves it to level 0. -/
theorem dropped_row_returns :
    ∃ s t', run (tableStep smallConfig) (createTable smallConfig)
        [.flush [sampleRow], .compact 0] = some s ∧
      (dropTable smallConfig.columns ⟨s, some [], []⟩).1 = true ∧
      start smallConfig.columns (dropTable smallConfig.columns ⟨s, some [], []⟩).2 = some t' ∧
      t'.tableExists = true ∧ t'.readable = [sampleRow] :=
  ⟨_, _, run_cascade, rfl, rfl, rfl, rfl⟩

end Final

end TableFiles

end CoroDB
