import CoroDB.Framework.Run
import CoroDB.Storage.Manifest

/-!
# Levels the readers reach

Flushes, compactions and restarts of one table, from its creation on.
-/

namespace CoroDB

open Framework

inductive TableAction where
  | flush (memtable : List MemEntry)
  | compact (gcHorizon : UInt64)
  | restart

/-- A flush rewrites level 0, a compaction the levels it merges; both record the files in the
manifest. No step when the version pass does not end or reconciliation is undefined. -/
def tableStep (cfg : LsmConfig) (s : DiskState) : TableAction → Option DiskState
  | .flush memtable =>
    let files := s.files.write 0 (mergeEntries memtable (s.files.entriesAt 0))
    some ⟨files, manifestOf cfg.columns files⟩
  | .compact gcHorizon =>
    (compactLevels cfg gcHorizon s.files).map fun files =>
      if l0Full cfg s.files then ⟨files, manifestOf cfg.columns files⟩ else s
  | .restart => reconcileWithManifest cfg.columns s

/-- Every existing level file is among the levels the readers probe. -/
def ReadersSeeAll (f : LevelFiles) : Prop :=
  ∀ level, (f.file level).isSome = true → level ∈ f.probedLevels

/-- The action is no compaction that goes on past level 1: level 0 is below its threshold, or
level 1 is after the merge, or level 1 is the last level. -/
def NoCascade (cfg : LsmConfig) (s : DiskState) : TableAction → Prop
  | .compact gcHorizon => reaches cfg gcHorizon s.files 1 = false
  | _ => True

def TwoLevels (f : LevelFiles) : Prop := ∀ level, 2 ≤ level → f.file level = none

section Steps

variable {cfg : LsmConfig} {f g : LevelFiles} {s s' : DiskState}

theorem TwoLevels.readersSeeAll (h : TwoLevels f) : ReadersSeeAll f := by
  intro level hlevel
  rw [LevelFiles.probedLevels, List.mem_range, Nat.lt_succ_iff, LevelFiles.le_maxLevel]
  intro i hi hile
  have hlt : level < 2 := by
    by_contra hle
    simp [h level (not_lt.mp hle)] at hlevel
  obtain rfl : i = level := by omega
  exact hlevel

theorem TwoLevels.write (h : TwoLevels f) {level : Nat} (hl : level < 2) (es : List MemEntry) :
    TwoLevels (f.write level es) := by
  intro n hn
  rw [LevelFiles.write_file_of_ne _ (by omega), h n hn]

theorem TwoLevels.remove (h : TwoLevels f) (level : Nat) : TwoLevels (f.remove level) := by
  intro n hn
  by_cases hne : n = level
  · rw [hne, LevelFiles.remove_file_self]
  · rw [LevelFiles.remove_file_of_ne _ hne, h n hn]

theorem TwoLevels.reconcile (h : TwoLevels s.files)
    (hs : reconcileWithManifest cfg.columns s = some s') : TwoLevels s'.files := by
  obtain ⟨⟨f, path⟩, hrepair, rfl⟩ := Option.map_eq_some_iff.mp hs
  have hf : TwoLevels f := by
    unfold repairGap at hrepair
    split at hrepair
    · obtain ⟨rfl, -⟩ := Prod.mk.inj (Option.some.inj hrepair)
      exact h
    · exact foldlM_shiftLevel_absent hrepair h
  change TwoLevels (finishStep cfg.columns s.manifest path f (adjacentLevels f))
  rcases finishStep_cases s.manifest path (adjacentLevels f) with ⟨heq, -⟩ | ⟨p, -, -, -, -, heq⟩
  · rwa [heq]
  · rw [heq, clearSource]
    split
    · exact hf.write (by omega) []
    · exact hf.remove _

theorem compactLoop_leaves_gap {gcHorizon : UInt64} {rounds level : Nat} (hlevel : 0 < level)
    (hfile : (f.file level).isSome = true)
    (h : compactLoop cfg gcHorizon (rounds + 1) level f = some g) :
    ∃ last, level ≤ last ∧ (g.file (last + 1)).isSome = true ∧ g.file last = none := by
  induction rounds generalizing level f with
  | zero =>
    obtain ⟨m, -, ⟨-, h⟩ | ⟨-, h⟩⟩ := compactLoop_round hfile h
    · obtain rfl : f.install level m = g := Option.some.inj h
      exact ⟨level, le_rfl, by simp [LevelFiles.install_file_next],
        LevelFiles.install_file_self hlevel m⟩
    · exact ⟨level, le_rfl, by simp [h, LevelFiles.install_file_next],
        h ▸ LevelFiles.install_file_self hlevel m⟩
  | succ rounds ih =>
    obtain ⟨m, -, ⟨-, h⟩ | ⟨-, h⟩⟩ := compactLoop_round hfile h
    · obtain ⟨last, hlast, hgap⟩ := ih (Nat.succ_pos level)
        (by simp [LevelFiles.install_file_next]) h
      exact ⟨last, by omega, hgap⟩
    · exact ⟨level, le_rfl, by simp [h, LevelFiles.install_file_next],
        h ▸ LevelFiles.install_file_self hlevel m⟩

theorem reaches_one {gcHorizon : UInt64} :
    reaches cfg gcHorizon f 1 = true ↔ l0Full cfg f = true ∧
      ∃ m, mergeLevel gcHorizon f 0 = some m ∧ cascades cfg 0 m = true := by
  rw [reaches, reaches, mergedInto, Bool.and_eq_true]
  cases mergeLevel gcHorizon f 0 <;> simp

theorem l0Full_isSome (h : l0Full cfg f = true) : (f.file 0).isSome = true := by
  cases hf : f.file 0 with
  | none => simp [l0Full, hf] at h
  | some l0 => rfl

theorem TwoLevels.compact {gcHorizon : UInt64} (h : TwoLevels f)
    (hno : reaches cfg gcHorizon f 1 = false)
    (hg : compactLevels cfg gcHorizon f = some g) : TwoLevels g := by
  rw [compactLevels] at hg
  split at hg
  · rename_i hfull
    obtain ⟨m, hm, ⟨hc, -⟩ | ⟨-, rfl⟩⟩ := compactLoop_round (l0Full_isSome hfull) hg
    · simp [reaches_one.mpr ⟨hfull, m, hm, hc⟩] at hno
    · intro n hn
      rw [LevelFiles.install_file_of_ne m (by omega) (by omega), h n hn]
  · exact Option.some.inj hg ▸ h

theorem not_readersSeeAll_of_cascade {gcHorizon : UInt64}
    (hcascade : reaches cfg gcHorizon f 1 = true)
    (hg : compactLevels cfg gcHorizon f = some g) : ¬ ReadersSeeAll g := by
  obtain ⟨hfull, m, hm, hc⟩ := reaches_one.mp hcascade
  rw [compactLevels, if_pos hfull] at hg
  have hmax : 0 < cfg.lsmMaxLevel := by
    simp only [cascades, Bool.and_eq_true, decide_eq_true_eq] at hc
    omega
  obtain ⟨rounds, hrounds⟩ := Nat.exists_eq_add_of_le' hmax
  rw [hrounds] at hg
  obtain ⟨m', hm', ⟨-, hg⟩ | ⟨hc', -⟩⟩ := compactLoop_round (l0Full_isSome hfull) hg
  · obtain ⟨last, hlt, hsome, hnone⟩ := compactLoop_leaves_gap (Nat.succ_pos 0)
      (by simp [LevelFiles.install_file_next]) hg
    intro hall
    have := hall (last + 1) hsome
    rw [LevelFiles.probedLevels, List.mem_range, Nat.lt_succ_iff, LevelFiles.le_maxLevel] at this
    simpa [hnone] using this last (by omega) (by omega)
  · rw [hm, Option.some.injEq] at hm'
    simp [hm' ▸ hc] at hc'

theorem TwoLevels.step {a : TableAction} (h : TwoLevels s.files) (hno : NoCascade cfg s a)
    (hs : tableStep cfg s a = some s') : TwoLevels s'.files := by
  cases a with
  | flush memtable =>
    obtain rfl := Option.some.inj hs
    exact h.write (by omega) _
  | compact gcHorizon =>
    obtain ⟨g, hg, rfl⟩ := Option.map_eq_some_iff.mp hs
    split
    · exact h.compact hno hg
    · exact h
  | restart => exact h.reconcile hs

end Steps

/-- In a run of flushes, compactions and restarts from the creation of a table, the readers see
every level file at every moment exactly when no compaction of the run goes on past level 1. -/
theorem readersSeeAll_throughout_iff (cfg : LsmConfig) (actions : List TableAction)
    (s : DiskState) (hrun : run (tableStep cfg) (createTable cfg) actions = some s) :
    Throughout (tableStep cfg) (fun s => ReadersSeeAll s.files) (createTable cfg) actions ↔
      Guarded (tableStep cfg) (NoCascade cfg) (createTable cfg) actions := by
  refine throughout_iff_guarded (I := fun s => TwoLevels s.files) (fun s a s' h hG hs => h.step hG hs)
    (fun s h => h.readersSeeAll) ?_ ?_ hrun
  · intro s a s' _ hcascade hs
    cases a with
    | flush memtable => exact absurd trivial hcascade
    | restart => exact absurd trivial hcascade
    | compact gcHorizon =>
      obtain ⟨g, hg, rfl⟩ := Option.map_eq_some_iff.mp hs
      have hreach : reaches cfg gcHorizon s.files 1 = true := by simpa [NoCascade] using hcascade
      rw [if_pos (reaches_one.mp hreach).1]
      exact not_readersSeeAll_of_cascade hreach hg
  · exact fun level hl => LevelFiles.fresh.absent level (Nat.le_of_succ_le hl)

/-- One key column. Every file reaches this threshold and twice of it, and two levels may be
merged. -/
def smallConfig : LsmConfig := ⟨[⟨[105, 100], .int64, false, true⟩], 4096, 2⟩

def sampleRow : MemEntry := ⟨.int 1, ⟨[.int 1]⟩, false, 1⟩

/-- The same with level 1 as the last level. -/
def flatConfig : LsmConfig := { smallConfig with lsmMaxLevel := 1 }

theorem reaches_flat (gcHorizon : UInt64) (f : LevelFiles) :
    reaches flatConfig gcHorizon f 1 = false := by
  rw [← Bool.not_eq_true, reaches_one]
  rintro ⟨-, m, -, hcascades⟩
  exact absurd hcascades Bool.false_ne_true

def firstFlush : LevelFiles := LevelFiles.fresh.write 0 [sampleRow]

theorem run_flush_compact {cfg : LsmConfig} {g : LevelFiles} (hfull : l0Full cfg firstFlush = true)
    (hcompact : compactLoop cfg 0 (cfg.lsmMaxLevel + 1) 0 firstFlush = some g)
    (actions : List TableAction) :
    run (tableStep cfg) (createTable cfg) (.flush [sampleRow] :: .compact 0 :: actions) =
      run (tableStep cfg) ⟨g, manifestOf cfg.columns g⟩ actions := by
  have hflush : tableStep cfg (createTable cfg) (.flush [sampleRow]) =
      some ⟨firstFlush, manifestOf cfg.columns firstFlush⟩ := rfl
  rw [run, hflush, Option.bind_some, run, tableStep, compactLevels, if_pos hfull, hcompact,
    Option.map_some, if_pos hfull, Option.bind_some]

theorem run_flat : ∃ s, run (tableStep flatConfig) (createTable flatConfig)
    [.flush [sampleRow], .compact 0, .restart] = some s := by
  have hgapless : (firstFlush.install 0 [sampleRow]).Gapless := by
    intro level hlevel
    cases level with
    | zero => rfl
    | succ level => cases hlevel
  obtain ⟨s, hs, -⟩ := reconcile_of_gapless flatConfig.columns
    (s := ⟨firstFlush.install 0 [sampleRow], manifestOf flatConfig.columns _⟩) hgapless
  refine ⟨s, ?_⟩
  rw [run_flush_compact (l0Full_of_threshold_le rfl (by decide))
    (compactLoop_stop (m := [sampleRow]) rfl rfl rfl), run, tableStep, hs]
  rfl

/-- A flush, a compaction of level 0 and a restart. -/
theorem readersSeeAll_throughout_restart :
    ∃ s, run (tableStep flatConfig) (createTable flatConfig)
        [.flush [sampleRow], .compact 0, .restart] = some s ∧
      Throughout (tableStep flatConfig) (fun s => ReadersSeeAll s.files) (createTable flatConfig)
        [.flush [sampleRow], .compact 0, .restart] := by
  obtain ⟨s, hs⟩ := run_flat
  refine ⟨s, hs, (readersSeeAll_throughout_iff _ _ _ hs).mpr ⟨trivial, fun s _ => ?_⟩⟩
  exact ⟨reaches_flat 0 s.files, fun _ _ => ⟨trivial, fun _ _ => trivial⟩⟩

def cascadeFiles : LevelFiles :=
  ((LevelFiles.fresh.write 0 [sampleRow]).install 0 [sampleRow]).install 1 [sampleRow]

theorem run_cascade :
    run (tableStep smallConfig) (createTable smallConfig) [.flush [sampleRow], .compact 0] =
      some ⟨cascadeFiles, manifestOf smallConfig.columns cascadeFiles⟩ := by
  refine run_flush_compact (l0Full_of_threshold_le rfl (by decide)) ?_ []
  exact (compactLoop_continue (m := [sampleRow]) rfl rfl
    (cascades_of_threshold_le _ (by decide) (by decide))).trans
    (compactLoop_stop (m := [sampleRow]) rfl rfl rfl)

/-- A flush and a compaction that goes on into level 2: the row is in a file no reader opens. -/
theorem compaction_hides_level :
    ∃ s, run (tableStep smallConfig) (createTable smallConfig)
        [.flush [sampleRow], .compact 0] = some s ∧
      s.files.file 2 = some [sampleRow] ∧ 2 ∉ s.files.probedLevels :=
  ⟨_, run_cascade, rfl, by decide⟩

end CoroDB
