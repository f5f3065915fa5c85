import CoroDB.Storage.Compaction

/-!
# The manifest and startup reconciliation

`write_manifest` records size and footer checksum of every level file.
-/

namespace CoroDB

open Framework

structure ManifestLevel where
  level : Nat
  sizeBytes : Nat
  footerCrc : Nat
  deriving DecidableEq, Repr

/-- The record of a level file; the level number is stored in one byte. -/
def manifestLevel (columns : List Column) (level : Nat) (entries : List MemEntry) : ManifestLevel :=
  ⟨level % 256, fileSize columns entries, sstFooterTrailerCrc (sstImage columns entries)⟩

/-- The level files of a table and its records in the manifest. -/
structure DiskState where
  files : LevelFiles
  manifest : List ManifestLevel

def manifestOf (columns : List Column) (f : LevelFiles) : List ManifestLevel :=
  (List.range f.bound).filterMap fun level => (f.file level).map (manifestLevel columns level)

/-- The files and manifest that `create_table` leaves. -/
def createTable (cfg : LsmConfig) : DiskState := ⟨.fresh, manifestOf cfg.columns .fresh⟩

def findRecord (manifest : List ManifestLevel) (level : Nat) : Option ManifestLevel :=
  manifest.reverse.find? fun m => m.level == level

/-- The file agrees with its record; a recorded checksum of zero agrees with every checksum. -/
def agrees (columns : List Column) (m : ManifestLevel) (file : Option (List MemEntry)) : Bool :=
  file.any fun entries => fileSize columns entries == m.sizeBytes &&
    (m.footerCrc == 0 || sstFooterTrailerCrc (sstImage columns entries) == m.footerCrc)

def recorded (columns : List Column) (manifest : List ManifestLevel) (level : Nat)
    (file : Option (List MemEntry)) : Bool :=
  (findRecord manifest level).any fun m => agrees columns m file

def headerSchemaReadable (columns : List Column) : Bool :=
  decide (0 < (serializeSchema columns).length % 2 ^ 32) &&
    decide ((serializeSchema columns).length % 2 ^ 32 ≤ 2 ^ 20) &&
    decide (columns.length % 2 ^ 32 ≠ 0)

def LevelFiles.firstMissing (f : LevelFiles) : Nat :=
  ((List.range f.bound).find? fun level => (f.file level).isNone).getD f.bound

/-- Move the file of level `j` down by `shift`. The path remembered for the new level stays that
of the old one, and a level without a file is undefined behaviour. -/
def shiftLevel (shift : Nat) (st : LevelFiles × (Nat → Nat)) (j : Nat) :
    Option (LevelFiles × (Nat → Nat)) :=
  (st.1.file j).map fun entries =>
    ((st.1.write (j - shift) entries).remove j, Function.update st.2 (j - shift) (st.2 j))

/-- Close the first gap of the levels. The result has the path remembered for every level. -/
def repairGap (f : LevelFiles) : Option (LevelFiles × (Nat → Nat)) :=
  match f.levelNumbers.find? (f.firstMissing < ·) with
  | none => some (f, id)
  | some m =>
    (List.range' m (f.levelNumbers.getLastD 0 + 1 - m)).foldlM (shiftLevel (m - f.firstMissing))
      (f, id)

/-- Clear the source of an interrupted merge step: level 0 is rewritten empty when its schema can
be read back. -/
def clearSource (columns : List Column) (f : LevelFiles) (kPrev pathPrev : Nat) : LevelFiles :=
  if kPrev = 0 ∧ headerSchemaReadable columns = true then f.write 0 [] else f.remove pathPrev

/-- Look for the target of an interrupted merge step in the adjacent pairs of levels, and clear
its source. -/
def finishStep (columns : List Column) (manifest : List ManifestLevel) (path : Nat → Nat)
    (f : LevelFiles) : List (Nat × Nat) → LevelFiles
  | [] => f
  | (kPrev, k) :: pairs =>
    if kPrev + 1 ≠ k then finishStep columns manifest path f pairs
    else if recorded columns manifest k (f.file (path k)) then
      finishStep columns manifest path f pairs
    else if recorded columns manifest kPrev (f.file (path kPrev)) then
      clearSource columns f kPrev (path kPrev)
    else finishStep columns manifest path f pairs

def adjacentLevels (f : LevelFiles) : List (Nat × Nat) := f.levelNumbers.zip f.levelNumbers.tail

/-- Startup reconciliation; no result when it runs into undefined behaviour. -/
def reconcileWithManifest (columns : List Column) (s : DiskState) : Option DiskState :=
  (repairGap s.files).map fun st =>
    let files := finishStep columns s.manifest st.2 st.1 (adjacentLevels st.1)
    ⟨files, manifestOf columns files⟩

section Manifest

variable {columns : List Column} {f : LevelFiles}

theorem mem_manifestOf {m : ManifestLevel} :
    m ∈ manifestOf columns f ↔
      ∃ level es, f.file level = some es ∧ m = manifestLevel columns level es := by
  simp only [manifestOf, List.mem_filterMap, List.mem_range, Option.map_eq_some_iff]
  constructor
  · rintro ⟨level, -, es, hes, rfl⟩
    exact ⟨level, es, hes, rfl⟩
  · rintro ⟨level, es, hes, rfl⟩
    refine ⟨level, ?_, es, hes, rfl⟩
    by_contra hle
    simp [f.absent level (not_lt.mp hle)] at hes

/-- Level numbers that fit the byte of a record. -/
def LevelFiles.Narrow (f : LevelFiles) : Prop := ∀ level, 256 ≤ level → f.file level = none

theorem LevelFiles.Narrow.lt (hf : f.Narrow) {level : Nat} {es : List MemEntry}
    (h : f.file level = some es) : level < 256 := by
  by_contra hle
  simp [hf level (not_lt.mp hle)] at h

theorem findRecord_manifestOf (hf : f.Narrow) (level : Nat) :
    findRecord (manifestOf columns f) level = (f.file level).map (manifestLevel columns level) := by
  cases hfile : f.file level with
  | none =>
    simp only [findRecord, Option.map_none, List.find?_eq_none, List.mem_reverse]
    intro m hm
    obtain ⟨l, es, hl, rfl⟩ := mem_manifestOf.mp hm
    have hlt := hf.lt hl
    simp only [manifestLevel, Nat.mod_eq_of_lt hlt, beq_iff_eq]
    rintro rfl
    simp [hl] at hfile
  | some es =>
    have hlt := hf.lt hfile
    have hmem : manifestLevel columns level es ∈ (manifestOf columns f).reverse :=
      List.mem_reverse.mpr (mem_manifestOf.mpr ⟨level, es, hfile, rfl⟩)
    cases hfind : findRecord (manifestOf columns f) level with
    | none =>
      have := List.find?_eq_none.mp hfind _ hmem
      simp [manifestLevel, Nat.mod_eq_of_lt hlt] at this
    | some m =>
      obtain ⟨l, es', hl, rfl⟩ := mem_manifestOf.mp
        (List.mem_reverse.mp (List.mem_of_find?_eq_some hfind))
      have hlevel : l = level := by
        have := List.find?_some hfind
        simpa [manifestLevel, Nat.mod_eq_of_lt (hf.lt hl)] using this
      subst hlevel
      rw [hfile, Option.some.injEq] at hl
      rw [hl]
      rfl

theorem recorded_manifestOf (hf : f.Narrow) {level : Nat} (h : (f.file level).isSome = true) :
    recorded columns (manifestOf columns f) level (f.file level) = true := by
  obtain ⟨es, hes⟩ := Option.isSome_iff_exists.mp h
  rw [recorded, findRecord_manifestOf hf, hes]
  simp [agrees, manifestLevel]

theorem firstMissing_file : f.file f.firstMissing = none := by
  unfold LevelFiles.firstMissing
  cases h : (List.range f.bound).find? fun level => (f.file level).isNone with
  | none => exact f.absent _ le_rfl
  | some level => simpa using List.find?_some h

theorem repairGap_of_gapless (h : f.Gapless) : repairGap f = some (f, id) := by
  have hnone : f.levelNumbers.find? (f.firstMissing < ·) = none := by
    rw [List.find?_eq_none]
    intro level hlevel hlt
    have := h.isSome_of_le (by simpa using (of_decide_eq_true hlt).le)
      (LevelFiles.mem_levelNumbers.mp hlevel)
    simp [firstMissing_file] at this
  rw [repairGap, hnone]

theorem shiftLevel_absent {shift j n : Nat} {st st' : LevelFiles × (Nat → Nat)}
    (h : shiftLevel shift st j = some st') (hn : ∀ level, n ≤ level → st.1.file level = none) :
    ∀ level, n ≤ level → st'.1.file level = none := by
  obtain ⟨es, hes, rfl⟩ := Option.map_eq_some_iff.mp h
  have hj : j < n := by
    by_contra hle
    simp [hn j (not_lt.mp hle)] at hes
  intro level hl
  rw [LevelFiles.remove_file_of_ne _ (by omega), LevelFiles.write_file_of_ne _ (by omega),
    hn level hl]

theorem foldlM_shiftLevel_absent {shift n : Nat} {js : List Nat} {st st' : LevelFiles × (Nat → Nat)}
    (h : js.foldlM (shiftLevel shift) st = some st')
    (hn : ∀ level, n ≤ level → st.1.file level = none) :
    ∀ level, n ≤ level → st'.1.file level = none := by
  induction js generalizing st with
  | nil =>
    simp only [List.foldlM_nil, Option.pure_def, Option.some.injEq] at h
    exact h ▸ hn
  | cons j js ih =>
    simp only [List.foldlM_cons, Option.bind_eq_bind, Option.bind_eq_some_iff] at h
    obtain ⟨st₁, h₁, h⟩ := h
    exact ih h (shiftLevel_absent h₁ hn)

theorem finishStep_cases (manifest : List ManifestLevel) (path : Nat → Nat)
    (pairs : List (Nat × Nat)) :
    (finishStep columns manifest path f pairs = f ∧
      ∀ p ∈ pairs, p.1 + 1 = p.2 → recorded columns manifest p.1 (f.file (path p.1)) = true →
        recorded columns manifest p.2 (f.file (path p.2)) = true) ∨
      ∃ p ∈ pairs, p.1 + 1 = p.2 ∧ recorded columns manifest p.2 (f.file (path p.2)) = false ∧
        recorded columns manifest p.1 (f.file (path p.1)) = true ∧
        finishStep columns manifest path f pairs = clearSource columns f p.1 (path p.1) := by
  induction pairs with
  | nil => exact .inl ⟨rfl, by simp⟩
  | cons p pairs ih =>
    obtain ⟨kPrev, k⟩ := p
    have hskip : (kPrev + 1 = k → recorded columns manifest kPrev (f.file (path kPrev)) = true →
        recorded columns manifest k (f.file (path k)) = true) →
        finishStep columns manifest path f ((kPrev, k) :: pairs) =
          finishStep columns manifest path f pairs := by
      intro h
      rw [finishStep]
      split_ifs with h₁ h₂ h₃
      · rfl
      · rfl
      · exact absurd (h (not_not.mp h₁) h₃) h₂
      · rfl
    by_cases hpair : kPrev + 1 = k → recorded columns manifest kPrev (f.file (path kPrev)) = true →
        recorded columns manifest k (f.file (path k)) = true
    · rw [hskip hpair]
      refine ih.imp (fun h => ⟨h.1, fun p hp => ?_⟩)
        fun h => h.imp fun p => And.imp_left (List.mem_cons_of_mem (kPrev, k))
      rcases List.mem_cons.mp hp with rfl | hp
      · exact hpair
      · exact h.2 p hp
    · push Not at hpair
      obtain ⟨hadj, hprev, hk⟩ := hpair
      refine .inr ⟨(kPrev, k), List.mem_cons_self, hadj, Bool.eq_false_iff.mpr hk, hprev, ?_⟩
      rw [finishStep, if_neg (not_not.mpr hadj), if_neg hk, if_pos hprev]

private theorem pair_mem_zip_tail {α : Type*} (as bs : List α) (a b : α) :
    (a, b) ∈ (as ++ a :: b :: bs).zip (as ++ a :: b :: bs).tail := by
  induction as with
  | nil => simp
  | cons x as ih =>
    cases as with
    | nil => simp
    | cons y as =>
      simp only [List.cons_append, List.tail_cons, List.zip_cons_cons, List.mem_cons] at ih ⊢
      exact .inr ih

theorem pair_mem_adjacentLevels {k : Nat} (hk : (f.file k).isSome = true)
    (hk' : (f.file (k + 1)).isSome = true) : (k, k + 1) ∈ adjacentLevels f := by
  have hlt : k + 1 < f.bound := by
    by_contra hle
    simp [f.absent (k + 1) (not_lt.mp hle)] at hk'
  obtain ⟨m, hm⟩ := Nat.exists_eq_add_of_le (show k + 2 ≤ f.bound by omega)
  have hrange : List.range f.bound =
      List.range k ++ k :: (k + 1) :: List.range' (k + 2) m := by
    rw [hm, List.range_eq_range', Nat.add_assoc, ← List.range'_append_1, ← List.range_eq_range',
      Nat.zero_add, Nat.add_comm 2 m, List.range'_succ, List.range'_succ]
  simp only [adjacentLevels, LevelFiles.levelNumbers, hrange, List.filter_append, List.filter_cons,
    hk, hk', if_true]
  exact pair_mem_zip_tail _ _ _ _

theorem mem_adjacentLevels {p : Nat × Nat} (hp : p ∈ adjacentLevels f) :
    (f.file p.1).isSome = true ∧ (f.file p.2).isSome = true := by
  have := List.of_mem_zip hp
  exact ⟨LevelFiles.mem_levelNumbers.mp this.1,
    LevelFiles.mem_levelNumbers.mp (List.mem_of_mem_tail this.2)⟩

theorem reconcile_of_gapless (columns : List Column) {s : DiskState} (hg : s.files.Gapless) :
    ∃ s', reconcileWithManifest columns s = some s' ∧
      ((s'.files = s.files ∧ ∀ k, (s.files.file (k + 1)).isSome = true →
          recorded columns s.manifest k (s.files.file k) = true →
          recorded columns s.manifest (k + 1) (s.files.file (k + 1)) = true) ∨
        ∃ k, (s.files.file (k + 1)).isSome = true ∧
          recorded columns s.manifest (k + 1) (s.files.file (k + 1)) = false ∧
          recorded columns s.manifest k (s.files.file k) = true ∧
          s'.files = clearSource columns s.files k k) := by
  refine ⟨⟨finishStep columns s.manifest id s.files (adjacentLevels s.files), _⟩,
    by rw [reconcileWithManifest, repairGap_of_gapless hg]; rfl, ?_⟩
  rcases finishStep_cases s.manifest id (adjacentLevels s.files) with
    ⟨heq, hall⟩ | ⟨⟨k, k'⟩, hp, hadj, hk, hprev, heq⟩
  · exact .inl ⟨heq, fun k hk hprev =>
      hall (k, k + 1) (pair_mem_adjacentLevels (hg k hk) hk) rfl hprev⟩
  · obtain rfl : k + 1 = k' := hadj
    exact .inr ⟨k, (mem_adjacentLevels hp).2, hk, hprev, heq⟩

end Manifest

end CoroDB
