import CoroDB.Storage.LevelCoverage

/-!
# Restart after a crash

A flush and a merge step change the disk in single file steps, and a crash keeps a prefix of them.
-/

namespace CoroDB

open Framework

inductive FileOp where
  | writeSstable (level : Nat) (entries : List MemEntry)
  | clearLevel (level : Nat)
  | writeManifest

def DiskState.apply (columns : List Column) (s : DiskState) : FileOp → DiskState
  | .writeSstable level entries => { s with files := s.files.write level entries }
  | .clearLevel level => { s with files := s.files.clear level }
  | .writeManifest => { s with manifest := manifestOf columns s.files }

inductive DiskOp where
  | flush (memtable : List MemEntry)
  | compactStep (level : Nat) (gcHorizon : UInt64)

def fileOps (f : LevelFiles) : DiskOp → Option (List FileOp)
  | .flush memtable =>
    some [.writeSstable 0 (mergeEntries memtable (f.entriesAt 0)), .writeManifest]
  | .compactStep level gcHorizon =>
    if (f.file level).isNone then none
    else (mergeLevel gcHorizon f level).map fun merged =>
      [.writeSstable (level + 1) merged, .clearLevel level, .writeManifest]

/-- The disk after a crash behind the first `n` of the file steps. -/
def crashAfter (columns : List Column) (s : DiskState) (ops : List FileOp) (n : Nat) : DiskState :=
  (ops.take n).foldl (DiskState.apply columns) s

/-- Flushed memtables are sorted, and a merge step writes no level past the configured one. -/
def DiskOp.Legal (cfg : LsmConfig) : DiskOp → Prop
  | .flush memtable => Ordered memtable ∧ Sorted memtable
  | .compactStep level _ => level < max 1 cfg.lsmMaxLevel

instance (cfg : LsmConfig) (op : DiskOp) : Decidable (op.Legal cfg) :=
  match op with
  | .flush memtable => inferInstanceAs (Decidable (Ordered memtable ∧ Sorted memtable))
  | .compactStep level _ => inferInstanceAs (Decidable (level < max 1 cfg.lsmMaxLevel))

/-- The states that flushes and merge steps, one after the other, reach from the creation. -/
inductive Reachable (cfg : LsmConfig) : DiskState → Prop
  | create : Reachable cfg (createTable cfg)
  | step {s : DiskState} {ops : List FileOp} (op : DiskOp) : Reachable cfg s → op.Legal cfg →
      fileOps s.files op = some ops →
      Reachable cfg (ops.foldl (DiskState.apply cfg.columns) s)

/-- The manifest records the files, whose levels are sorted and fit a record. -/
structure Settled (columns : List Column) (s : DiskState) : Prop where
  manifest : s.manifest = manifestOf columns s.files
  narrow : s.files.Narrow
  ordered : ∀ level, Ordered (s.files.entriesAt level)
  sorted : ∀ level, SortedVersions (s.files.entriesAt level)

/-- The newest version of a key up to a snapshot: its timestamp and its row or deletion. -/
def newestVersion (es : List MemEntry) (pk : Value) (s : UInt64) : Option (UInt64 × Option Row) :=
  (newestIn (fun e => valueEq e.pk pk) s es).map fun e => (e.commitTs, e.content)

section Files

variable {f : LevelFiles} {level : Nat} {es : List MemEntry}

theorem clearSource_entriesAt {columns : List Column} {k n : Nat} :
    (clearSource columns f k k).entriesAt n = if n = k then [] else f.entriesAt n := by
  unfold clearSource
  split
  · rename_i h
    obtain rfl := h.1
    split
    · rename_i hn
      rw [hn, LevelFiles.entriesAt_write_self]
    · rename_i hn
      exact LevelFiles.entriesAt_write_of_ne hn _
  · split
    · rename_i hn
      simp [hn, LevelFiles.entriesAt]
    · rename_i hn
      exact LevelFiles.entriesAt_congr (f.remove_file_of_ne hn)

end Files

section Versions

theorem newestVersion_congr {es fs : List MemEntry} (hes : Ordered es) (hfs : Ordered fs)
    (h : History.ofList es = History.ofList fs) (pk : Value) (s : UInt64) :
    newestVersion es pk s = newestVersion fs pk s := by
  cases hpk : pk.isNaN with
  | true => simp [newestVersion, newestIn, valueEq_of_isNaN hpk]
  | false =>
    have h₁ := newestIn_spec s fun e he => valueEq_iff (hes e he) hpk
    have h₂ := newestIn_spec s fun e he => valueEq_iff (hfs e he) hpk
    unfold newestVersion
    cases ha : newestIn (fun e => valueEq e.pk pk) s es with
    | none =>
      cases hb : newestIn (fun e => valueEq e.pk pk) s fs with
      | none => rfl
      | some b =>
        rw [ha] at h₁
        rw [hb] at h₂
        have := h₁ _ h₂.2.2.2.1
        simp [h, h₂.2.2.1] at this
    | some a =>
      cases hb : newestIn (fun e => valueEq e.pk pk) s fs with
      | none =>
        rw [ha] at h₁
        rw [hb] at h₂
        have := h₂ _ h₁.2.2.2.1
        simp [← h, h₁.2.2.1] at this
      | some b =>
        rw [ha] at h₁
        rw [hb] at h₂
        obtain ⟨ht, hc⟩ := (h ▸ h₁.2.2).unique h₂.2.2
        exact congrArg some (Prod.ext ht hc)

end Versions

namespace Settled

variable {columns : List Column} {s : DiskState}

theorem orderedEntries (h : Settled columns s) : Ordered s.files.entries := fun e he => by
  obtain ⟨level, he⟩ := LevelFiles.mem_entries.mp he
  exact h.ordered level e he

theorem recorded (h : Settled columns s) {level : Nat} (hl : (s.files.file level).isSome = true) :
    recorded columns s.manifest level (s.files.file level) = true := by
  rw [h.manifest]
  exact recorded_manifestOf h.narrow hl

theorem create (columns : List Column) : Settled columns ⟨.fresh, manifestOf columns .fresh⟩ where
  manifest := rfl
  narrow level hl := LevelFiles.fresh.absent level (le_trans (by decide) hl)
  ordered := LevelFiles.forall_entriesAt (fun e he => absurd he List.not_mem_nil) fun level hl => by
    obtain rfl : level = 0 := Nat.lt_one_iff.mp hl
    exact fun e he => absurd he List.not_mem_nil
  sorted := LevelFiles.forall_entriesAt List.Pairwise.nil fun level hl => by
    obtain rfl : level = 0 := Nat.lt_one_iff.mp hl
    exact List.Pairwise.nil

section Flush

variable {memtable : List MemEntry}

theorem ofList_write_zero (h : Settled columns s) (ho : Ordered memtable) (hs : Sorted memtable) :
    History.ofList (s.files.write 0 (mergeEntries memtable (s.files.entriesAt 0))).entries =
      History.ofList (memtable ++ s.files.entries) :=
  LevelFiles.ofList_write_zero ho ((sorted_iff ho).mp hs) (h.ordered 0) (h.sorted 0)

theorem flush (h : Settled columns s) (ho : Ordered memtable) (hs : Sorted memtable)
    {files : LevelFiles}
    (hf : files = s.files.write 0 (mergeEntries memtable (s.files.entriesAt 0))) :
    Settled columns ⟨files, manifestOf columns files⟩ where
  manifest := rfl
  narrow level hl := by
    rw [hf]
    exact (s.files.write_file_of_ne (by omega) _).trans (h.narrow level hl)
  ordered level := by
    by_cases hl : level = 0
    · simpa [hf, hl] using mergeEntries_ordered ho (h.ordered 0)
    · simpa [hf, LevelFiles.entriesAt_write_of_ne hl] using h.ordered level
  sorted level := by
    by_cases hl : level = 0
    · simpa [hf, hl] using
        mergeEntries_sorted ho (h.ordered 0) ((sorted_iff ho).mp hs) (h.sorted 0)
    · simpa [hf, LevelFiles.entriesAt_write_of_ne hl] using h.sorted level

end Flush

section Compact

variable {level : Nat} {gcHorizon : UInt64} {merged : List MemEntry}

theorem mergeLevel_refines (h : Settled columns s)
    (hm : mergeLevel gcHorizon s.files level = some merged) :
    Ordered merged ∧ SortedVersions merged ∧ History.ofList merged =
      if 0 < gcHorizon then
        History.gc gcHorizon (History.ofList (s.files.entriesAt level ++ s.files.entriesAt (level + 1)))
      else History.ofList (s.files.entriesAt level ++ s.files.entriesAt (level + 1)) := by
  obtain ⟨out, hout, ho, hs, hhist⟩ := gcPass_mergeEntries gcHorizon (h.ordered level)
    (h.ordered (level + 1)) (h.sorted level) (h.sorted (level + 1))
  obtain rfl : merged = out := Option.some.inj (hm.symm.trans hout)
  rw [History.ofList_append]
  exact ⟨ho, hs, hhist⟩

theorem install (h : Settled columns s) (hm : mergeLevel gcHorizon s.files level = some merged)
    (hlevel : level < 255) :
    Settled columns ⟨s.files.install level merged,
      manifestOf columns (s.files.install level merged)⟩ where
  manifest := rfl
  narrow n hn := by
    exact (LevelFiles.install_file_of_ne merged (by omega) (by omega)).trans (h.narrow n hn)
  ordered n := by
    simp only [LevelFiles.install_entriesAt]
    split_ifs
    · exact fun e he => absurd he List.not_mem_nil
    · exact (h.mergeLevel_refines hm).1
    · exact h.ordered n
  sorted n := by
    simp only [LevelFiles.install_entriesAt]
    split_ifs
    · exact List.Pairwise.nil
    · exact (h.mergeLevel_refines hm).2.1
    · exact h.sorted n

theorem visibleOutcome_install (h : Settled columns s)
    (hm : mergeLevel gcHorizon s.files level = some merged)
    (hno : 0 < gcHorizon → ¬ TombstoneHides
      (s.files.entriesAt level ++ s.files.entriesAt (level + 1))
      (s.files.span 0 level ++ s.files.entriesFrom (level + 2)) gcHorizon)
    (pk : Value) {ts : UInt64} (hts : gcHorizon ≤ ts) :
    visibleOutcome [] (s.files.install level merged) pk ts = visibleOutcome [] s.files pk ts := by
  cases hpk : pk.isNaN with
  | true => rw [visibleOutcome_of_isNaN hpk, visibleOutcome_of_isNaN hpk]
  | false =>
    obtain ⟨ho, hs, hhist⟩ := h.mergeLevel_refines hm
    have hentries := LevelFiles.entries_install (f := s.files) level merged
    have hbefore := h.orderedEntries
    rw [LevelFiles.entries_eq_pair s.files level] at hbefore
    have hothers : Ordered (s.files.span 0 level ++ s.files.entriesFrom (level + 2)) := by
      refine hbefore.subset fun e he => ?_
      simp only [List.mem_append] at he ⊢
      tauto
    have hafter : Ordered ([] ++ (s.files.install level merged).entries) := by
      rw [List.nil_append, hentries]
      refine Ordered.append (fun e he => hothers e (List.mem_append_left _ he)) (ho.append ?_)
      exact fun e he => hothers e (List.mem_append_right _ he)
    rw [visibleOutcome_eq_view hafter hpk, visibleOutcome_eq_view h.orderedEntries hpk, tableHistory,
      tableHistory, List.nil_append, List.nil_append, hentries,
      LevelFiles.entries_eq_pair s.files level]
    by_cases hpos : 0 < gcHorizon
    · rw [if_pos hpos] at hhist
      rw [History.ofList_append, History.ofList_append, hhist,
        History.ofList_append (s.files.span 0 level),
        History.ofList_append (s.files.entriesAt level ++ s.files.entriesAt (level + 1))]
      refine (History.view_gc_iff ?_ ?_).mpr ?_ ts hts
      · exact (History.ofList_founded _).overlay
          ((History.ofList_founded _).overlay (History.ofList_founded _))
      · exact (History.ofList_founded _).overlay (History.ofList_founded _)
      · intro hd hv hnone
        rw [← History.ofList_append] at hv hnone
        rw [← History.ofList_append] at hnone
        refine hno hpos ((tombstoneHides_iff ?_ hothers).mpr
          ⟨pk, hpk, hidesValue_of_drops hd hv hnone⟩)
        exact fun e he => hbefore e (List.mem_append_right _ (List.mem_append_left _ he))
    · rw [if_neg hpos] at hhist
      rw [History.ofList_append, History.ofList_append, hhist, ← History.ofList_append,
        ← History.ofList_append]

end Compact

end Settled

section Reach

variable {cfg : LsmConfig} {s : DiskState}

theorem fileOps_compactStep {f : LevelFiles} {level : Nat} {gcHorizon : UInt64} {ops : List FileOp}
    (h : fileOps f (.compactStep level gcHorizon) = some ops) :
    ∃ merged, (f.file level).isSome = true ∧ mergeLevel gcHorizon f level = some merged ∧
      ops = [.writeSstable (level + 1) merged, .clearLevel level, .writeManifest] := by
  rw [fileOps] at h
  split at h
  · simp at h
  · rename_i hfile
    obtain ⟨merged, hm, rfl⟩ := Option.map_eq_some_iff.mp h
    exact ⟨merged, by simpa [Option.isSome_iff_ne_none] using hfile, hm, rfl⟩

theorem Reachable.settled (hmax : cfg.lsmMaxLevel < 256) (h : Reachable cfg s) :
    Settled cfg.columns s := by
  induction h with
  | create => exact Settled.create cfg.columns
  | step op _ hop hops ih =>
    cases op with
    | flush memtable =>
      obtain rfl := Option.some.inj hops
      exact ih.flush hop.1 hop.2 rfl
    | compactStep level gcHorizon =>
      obtain ⟨merged, -, hm, rfl⟩ := fileOps_compactStep hops
      have hlevel : level < max 1 cfg.lsmMaxLevel := hop
      exact ih.install hm (by omega)

end Reach

section Crash

variable {columns : List Column} {s : DiskState} {level : Nat} {gcHorizon : UInt64}
  {merged : List MemEntry}

theorem reconcile_of_recorded (columns : List Column) (hg : s.files.Gapless)
    (hrec : ∀ k, (s.files.file (k + 1)).isSome = true →
      recorded columns s.manifest (k + 1) (s.files.file (k + 1)) = true) :
    ∃ s', reconcileWithManifest columns s = some s' ∧ s'.files = s.files := by
  obtain ⟨s', hs', ⟨heq, -⟩ | ⟨k, hk, hfalse, -⟩⟩ := reconcile_of_gapless columns hg
  · exact ⟨s', hs', heq⟩
  · simp [hrec k hk] at hfalse

theorem reconcile_of_written (h : Settled columns s) (hlevel : (s.files.file level).isSome = true)
    (hg : (s.files.write (level + 1) merged).Gapless) :
    ∃ s', reconcileWithManifest columns ⟨s.files.write (level + 1) merged, s.manifest⟩ = some s' ∧
      ((∃ next, s.files.file (level + 1) = some next ∧
          agrees columns (manifestLevel columns (level + 1) next) (some merged) = true ∧
          s'.files = s.files.write (level + 1) merged) ∨
        ∀ n, s'.files.entriesAt n = (s.files.install level merged).entriesAt n) := by
  have hother : ∀ n, n ≠ level + 1 → (s.files.file n).isSome = true →
      recorded columns s.manifest n ((s.files.write (level + 1) merged).file n) = true := by
    intro n hn hsome
    rw [LevelFiles.write_file_of_ne _ hn]
    exact h.recorded hsome
  obtain ⟨s', hs', ⟨heq, hall⟩ | ⟨k, hk, hfalse, -, heq⟩⟩ :=
    reconcile_of_gapless columns (s := ⟨s.files.write (level + 1) merged, s.manifest⟩) hg
  · refine ⟨s', hs', .inl ?_⟩
    have hrec := hall level (by simp) (hother level (by omega) hlevel)
    rw [LevelFiles.write_file_self, recorded, h.manifest, findRecord_manifestOf h.narrow] at hrec
    cases hnext : s.files.file (level + 1) with
    | none => simp [hnext] at hrec
    | some next => exact ⟨next, rfl, by simpa [hnext] using hrec, heq⟩
  · refine ⟨s', hs', .inr fun n => ?_⟩
    obtain rfl : k = level := by
      by_contra hne
      have hk' : (s.files.file (k + 1)).isSome = true := by
        rwa [LevelFiles.write_file_of_ne _ (by omega)] at hk
      exact absurd (hother (k + 1) (by omega) hk') (by simp [hfalse])
    rw [heq, clearSource_entriesAt, LevelFiles.install_entriesAt]
    split_ifs with h₁ h₂
    · rfl
    · rw [h₂, LevelFiles.entriesAt_write_self]
    · exact LevelFiles.entriesAt_write_of_ne h₂ merged

theorem reconcile_of_installed (h : Settled columns s)
    (hg : (s.files.install level merged).Gapless) :
    ∃ s', reconcileWithManifest columns ⟨s.files.install level merged, s.manifest⟩ = some s' ∧
      ∀ n, s'.files.entriesAt n = (s.files.install level merged).entriesAt n := by
  obtain rfl : level = 0 := by
    by_contra hne
    have := hg level (by simp [LevelFiles.install_file_next])
    simp [LevelFiles.install_file_self (Nat.pos_of_ne_zero hne)] at this
  obtain ⟨s', hs', ⟨heq, -⟩ | ⟨k, hk, hfalse, -, heq⟩⟩ :=
    reconcile_of_gapless columns (s := ⟨s.files.install 0 merged, s.manifest⟩) hg
  · exact ⟨s', hs', fun n => by rw [heq]⟩
  · obtain rfl : k = 0 := by
      by_contra hne
      have hfile : (s.files.install 0 merged).file (k + 1) = s.files.file (k + 1) :=
        LevelFiles.install_file_of_ne merged (by omega) (by omega)
      simp only [hfile] at hk hfalse
      simp [h.recorded hk] at hfalse
    refine ⟨s', hs', fun n => ?_⟩
    rw [heq, clearSource_entriesAt]
    split_ifs with hn
    · rw [hn, LevelFiles.install_entriesAt_self]
    · rfl

theorem crashAfter_of_length_le {ops : List FileOp} {n : Nat} (h : ops.length ≤ n) :
    crashAfter columns s ops n = ops.foldl (DiskState.apply columns) s := by
  rw [crashAfter, List.take_of_length_le h]

theorem reconcile_after_flush_crash {memtable : List MemEntry} (h : Settled columns s)
    (ho : Ordered memtable) (hs : Sorted memtable) (n : Nat)
    (hgap : (crashAfter columns s [.writeSstable 0 (mergeEntries memtable (s.files.entriesAt 0)),
      .writeManifest] n).files.Gapless) :
    ∃ s', reconcileWithManifest columns (crashAfter columns s
        [.writeSstable 0 (mergeEntries memtable (s.files.entriesAt 0)), .writeManifest] n) =
          some s' ∧
      ∀ pk ts, newestVersion s'.files.entries pk ts =
        newestVersion (if n = 0 then s.files.entries else memtable ++ s.files.entries) pk ts := by
  have hwritten := h.flush ho hs rfl
  have hview : ∀ pk ts, newestVersion
      (s.files.write 0 (mergeEntries memtable (s.files.entriesAt 0))).entries pk ts =
        newestVersion (memtable ++ s.files.entries) pk ts := fun pk ts =>
    newestVersion_congr hwritten.orderedEntries (ho.append h.orderedEntries)
      (h.ofList_write_zero ho hs) pk ts
  rcases n with _ | _ | n
  · obtain ⟨s', hs', heq⟩ := reconcile_of_recorded columns hgap fun k hk => h.recorded hk
    exact ⟨s', hs', fun pk ts => by rw [heq]; rfl⟩
  · obtain ⟨s', hs', heq⟩ := reconcile_of_recorded columns
      (s := ⟨s.files.write 0 (mergeEntries memtable (s.files.entriesAt 0)), s.manifest⟩) hgap
      fun k hk => by
        simp only [LevelFiles.write_file_of_ne s.files (Nat.succ_ne_zero k)] at hk ⊢
        exact h.recorded hk
    exact ⟨s', hs', fun pk ts => by rw [heq]; exact hview pk ts⟩
  · rw [crashAfter_of_length_le (by simp)] at hgap ⊢
    obtain ⟨s', hs', heq⟩ := reconcile_of_recorded columns hgap fun k hk => hwritten.recorded hk
    exact ⟨s', hs', fun pk ts => by rw [heq]; exact hview pk ts⟩

theorem reconcile_after_merge_crash (h : Settled columns s)
    (hlevel : (s.files.file level).isSome = true) (hnarrow : level < 255)
    (hm : mergeLevel gcHorizon s.files level = some merged)
    (hnext : ∀ next, s.files.file (level + 1) = some next →
      agrees columns (manifestLevel columns (level + 1) next) (some merged) = true → merged = next)
    (hno : 0 < gcHorizon → ¬ TombstoneHides
      (s.files.entriesAt level ++ s.files.entriesAt (level + 1))
      (s.files.span 0 level ++ s.files.entriesFrom (level + 2)) gcHorizon) (n : Nat)
    (hgap : (crashAfter columns s [.writeSstable (level + 1) merged, .clearLevel level,
      .writeManifest] n).files.Gapless) :
    ∃ s', reconcileWithManifest columns (crashAfter columns s
        [.writeSstable (level + 1) merged, .clearLevel level, .writeManifest] n) = some s' ∧
      ∀ pk ts, gcHorizon ≤ ts →
        visibleOutcome [] s'.files pk ts = visibleOutcome [] s.files pk ts := by
  have hsame : ∀ {f g : LevelFiles}, (∀ n, f.entriesAt n = g.entriesAt n) → ∀ pk ts,
      visibleOutcome [] f pk ts = visibleOutcome [] g pk ts := by
    intro f g hfg pk ts
    rw [visibleOutcome, visibleOutcome, LevelFiles.entries_congr hfg]
  have hinstall : ∀ pk ts, gcHorizon ≤ ts →
      visibleOutcome [] (s.files.install level merged) pk ts = visibleOutcome [] s.files pk ts :=
    fun pk ts hts => h.visibleOutcome_install hm hno pk hts
  rcases n with _ | _ | _ | n
  · obtain ⟨s', hs', heq⟩ := reconcile_of_recorded columns hgap fun k hk => h.recorded hk
    exact ⟨s', hs', fun pk ts _ => by rw [heq]; rfl⟩
  · obtain ⟨s', hs', ⟨next, hfile, hagrees, heq⟩ | heq⟩ := reconcile_of_written h hlevel hgap
    · refine ⟨s', hs', fun pk ts _ => hsame (fun k => ?_) pk ts⟩
      obtain rfl := hnext next hfile hagrees
      rw [heq]
      by_cases hk : k = level + 1
      · rw [hk, LevelFiles.entriesAt_write_self, LevelFiles.entriesAt_of_file hfile]
      · exact LevelFiles.entriesAt_write_of_ne hk merged
    · exact ⟨s', hs', fun pk ts hts => (hsame heq pk ts).trans (hinstall pk ts hts)⟩
  · obtain ⟨s', hs', heq⟩ := reconcile_of_installed h hgap
    exact ⟨s', hs', fun pk ts hts => (hsame heq pk ts).trans (hinstall pk ts hts)⟩
  · rw [crashAfter_of_length_le (by simp)] at hgap ⊢
    obtain ⟨s', hs', heq⟩ := reconcile_of_recorded columns hgap fun k hk =>
      (h.install hm hnarrow).recorded hk
    exact ⟨s', hs', fun pk ts hts => by rw [heq]; exact hinstall pk ts hts⟩

end Crash

/-- The record of the next level fits no other merged entries, and the step drops no tombstone
that hides a row of another level. -/
def DiskOp.Safe (columns : List Column) (f : LevelFiles) : DiskOp → Prop
  | .flush _ => True
  | .compactStep level gcHorizon =>
    (∀ merged next, mergeLevel gcHorizon f level = some merged →
      f.file (level + 1) = some next →
      agrees columns (manifestLevel columns (level + 1) next) (some merged) = true →
      merged = next) ∧
    (0 < gcHorizon → ¬ TombstoneHides (f.entriesAt level ++ f.entriesAt (level + 1))
      (f.span 0 level ++ f.entriesFrom (level + 2)) gcHorizon)

theorem fresh_write_gapless (es : List MemEntry) : (LevelFiles.fresh.write 0 es).Gapless := by
  intro level h
  rw [LevelFiles.write_file_of_ne _ (Nat.succ_ne_zero level),
    LevelFiles.fresh.absent _ (Nat.succ_pos level)] at h
  simp at h

/-- A row in level 2 below a gap, left by two merge steps, and a later row in level 0. -/
def gapFiles : LevelFiles :=
  (((LevelFiles.fresh.write 0 [sampleRow]).install 0 [sampleRow]).install 1 [sampleRow]).write 0
    [⟨.int 2, ⟨[.int 2]⟩, false, 2⟩]

theorem gapFiles_reachable :
    Reachable smallConfig ⟨gapFiles, manifestOf smallConfig.columns gapFiles⟩ := by
  have h₀ : Reachable smallConfig (createTable smallConfig) := .create
  have h₁ := Reachable.step (.flush [sampleRow]) h₀ (by decide) rfl
  have h₂ := Reachable.step (.compactStep 0 0) h₁ (by decide) rfl
  have h₃ := Reachable.step (.compactStep 1 0) h₂ (by decide) rfl
  exact Reachable.step (.flush [⟨.int 2, ⟨[.int 2]⟩, false, 2⟩]) h₃ (by decide) rfl

theorem reconcile_clears_above_gap (es : List MemEntry) :
    ∃ s', reconcileWithManifest smallConfig.columns
        ⟨gapFiles.write 0 es, manifestOf smallConfig.columns (gapFiles.write 0 es)⟩ = some s' ∧
      s'.files.entries = [sampleRow] := by
  let f := gapFiles.write 0 es
  let g : LevelFiles := (f.write 1 [sampleRow]).remove 2
  let path : Nat → Nat := Function.update id 1 2
  have hrepair : repairGap f = some (g, path) := rfl
  have hnext : recorded smallConfig.columns (manifestOf smallConfig.columns f) 1
      (g.file (path 1)) = false := by
    have hfile : g.file (path 1) = none := rfl
    simp [recorded, hfile, agrees]
  have hprev : recorded smallConfig.columns (manifestOf smallConfig.columns f) 0
      (g.file (path 0)) = true := by
    have hbound : f.bound ≤ 256 := show max gapFiles.bound 1 ≤ 256 by decide
    exact recorded_manifestOf (f := f) (fun level hl => f.absent level (hbound.trans hl)) rfl
  have hfinish : finishStep smallConfig.columns (manifestOf smallConfig.columns f) path g
      (adjacentLevels g) = g.write 0 [] := by
    have hadj : adjacentLevels g = [(0, 1)] := rfl
    rw [hadj, finishStep, if_neg (by decide), if_neg (by simp [hnext]), if_pos hprev, clearSource,
      if_pos (by decide)]
  refine ⟨⟨g.write 0 [], manifestOf smallConfig.columns (g.write 0 [])⟩, ?_, rfl⟩
  rw [reconcileWithManifest, hrepair]
  exact congrArg (fun files => some (DiskState.mk files (manifestOf smallConfig.columns files)))
    hfinish

end CoroDB
