import CoroDB.Storage.Levels

/-!
# Compaction

`compact_levels` merges level 0 into level 1 and goes on into deeper levels while the level just
written is over its threshold.
-/

namespace CoroDB

open Framework
open History (ofList overlay overlays ofList_append ofList_founded overlays_append)

/-- The schema of a table and the compaction limits of the configuration. -/
structure LsmConfig where
  columns : List Column
  l0CompactionThresholdBytes : Nat
  lsmMaxLevel : Nat
  deriving DecidableEq, Repr

namespace LevelFiles

/-- The source level after a merge: level 0 is kept as an empty file, the others are removed. -/
def clear (f : LevelFiles) (level : Nat) : LevelFiles :=
  if level = 0 then f.write 0 [] else f.remove level

def install (f : LevelFiles) (level : Nat) (merged : List MemEntry) : LevelFiles :=
  (f.write (level + 1) merged).clear level

variable {f : LevelFiles}

theorem clear_file_of_ne {level n : Nat} (h : n ≠ level) : (f.clear level).file n = f.file n := by
  unfold clear
  split
  · exact f.write_file_of_ne (by omega) _
  · exact f.remove_file_of_ne h

theorem clear_entriesAt_self (level : Nat) : (f.clear level).entriesAt level = [] := by
  unfold clear
  split
  · rename_i h
    subst h
    exact entriesAt_of_file (f.write_file_self 0 [])
  · simp [entriesAt]

theorem install_entriesAt_self (level : Nat) (merged : List MemEntry) :
    (f.install level merged).entriesAt level = [] := clear_entriesAt_self level

theorem install_file_self {level : Nat} (h : 0 < level) (merged : List MemEntry) :
    (f.install level merged).file level = none := by
  rw [install, clear, if_neg h.ne', remove_file_self]

theorem install_file_next (level : Nat) (merged : List MemEntry) :
    (f.install level merged).file (level + 1) = some merged := by
  rw [install, clear_file_of_ne (by omega), write_file_self]

theorem install_file_of_ne {level n : Nat} (merged : List MemEntry) (h : n ≠ level)
    (h' : n ≠ level + 1) : (f.install level merged).file n = f.file n := by
  rw [install, clear_file_of_ne h, write_file_of_ne _ h']

theorem install_entriesAt {level n : Nat} {merged : List MemEntry} :
    (f.install level merged).entriesAt n =
      if n = level then [] else if n = level + 1 then merged else f.entriesAt n := by
  split
  · rename_i hn
    rw [hn, install_entriesAt_self]
  · rename_i hn
    split
    · rename_i hn'
      rw [hn', entriesAt_of_file (install_file_next level merged)]
    · rename_i hn'
      exact entriesAt_congr (install_file_of_ne merged hn hn')

theorem entries_install (level : Nat) (merged : List MemEntry) :
    (f.install level merged).entries =
      f.span 0 level ++ (merged ++ f.entriesFrom (level + 2)) := by
  rw [entries_eq_pair _ level]
  congr 1
  · exact span_congr fun n _ hn => by
      rw [install_entriesAt, if_neg (by omega), if_neg (by omega)]
  · congr 1
    · simp [install_entriesAt]
    · exact entriesFrom_congr fun n hn => by
        rw [install_entriesAt, if_neg (by omega), if_neg (by omega)]

end LevelFiles

/-- The entries one step writes into the next level; no result when the version pass does not
end. -/
def mergeLevel (gcHorizon : UInt64) (f : LevelFiles) (level : Nat) : Option (List MemEntry) :=
  gcPass gcHorizon (mergeEntries (f.entriesAt level) (f.entriesAt (level + 1)))

def cascades (cfg : LsmConfig) (level : Nat) (merged : List MemEntry) : Bool :=
  decide (level + 1 < cfg.lsmMaxLevel) &&
    decide (cfg.l0CompactionThresholdBytes <<< (level + 1) % 2 ^ 64 ≤ fileSize cfg.columns merged)

/-- The loop of `compact_levels`, with the rounds that `level <= max_level` leaves. -/
def compactLoop (cfg : LsmConfig) (gcHorizon : UInt64) : Nat → Nat → LevelFiles → Option LevelFiles
  | 0, _, f => some f
  | rounds + 1, level, f =>
    if (f.file level).isNone then some f
    else match mergeLevel gcHorizon f level with
      | none => none
      | some merged =>
        if cascades cfg level merged then
          compactLoop cfg gcHorizon rounds (level + 1) (f.install level merged)
        else some (f.install level merged)

section Round

variable {cfg : LsmConfig} {gcHorizon : UInt64} {rounds level : Nat} {f g : LevelFiles}
  {m : List MemEntry}

theorem compactLoop_continue (hfile : (f.file level).isSome = true)
    (hm : mergeLevel gcHorizon f level = some m) (hc : cascades cfg level m = true) :
    compactLoop cfg gcHorizon (rounds + 1) level f =
      compactLoop cfg gcHorizon rounds (level + 1) (f.install level m) := by
  rw [compactLoop, if_neg (by simpa [← Option.isSome_iff_ne_none] using hfile), hm]
  exact if_pos hc

theorem compactLoop_stop (hfile : (f.file level).isSome = true)
    (hm : mergeLevel gcHorizon f level = some m) (hc : cascades cfg level m = false) :
    compactLoop cfg gcHorizon (rounds + 1) level f = some (f.install level m) := by
  rw [compactLoop, if_neg (by simpa [← Option.isSome_iff_ne_none] using hfile), hm]
  exact if_neg (by simp [hc])

theorem compactLoop_round (hfile : (f.file level).isSome = true)
    (h : compactLoop cfg gcHorizon (rounds + 1) level f = some g) :
    ∃ m, mergeLevel gcHorizon f level = some m ∧
      (cascades cfg level m = true ∧
        compactLoop cfg gcHorizon rounds (level + 1) (f.install level m) = some g ∨
      cascades cfg level m = false ∧ g = f.install level m) := by
  cases hm : mergeLevel gcHorizon f level with
  | none =>
    rw [compactLoop, if_neg (by simpa [← Option.isSome_iff_ne_none] using hfile), hm] at h
    simp at h
  | some m =>
    refine ⟨m, rfl, ?_⟩
    cases hc : cascades cfg level m with
    | true => exact .inl ⟨rfl, compactLoop_continue hfile hm hc ▸ h⟩
    | false => exact .inr ⟨rfl, Option.some.inj (h.symm.trans (compactLoop_stop hfile hm hc))⟩

end Round

def l0Full (cfg : LsmConfig) (f : LevelFiles) : Bool :=
  match f.file 0 with
  | none => false
  | some l0 => decide (cfg.l0CompactionThresholdBytes ≤ fileSize cfg.columns l0)

theorem cascades_of_threshold_le {cfg : LsmConfig} {level : Nat} (merged : List MemEntry)
    (hlevel : level + 1 < cfg.lsmMaxLevel)
    (hpage : cfg.l0CompactionThresholdBytes <<< (level + 1) % 2 ^ 64 ≤ pageSize) :
    cascades cfg level merged = true := by
  simp only [cascades, Bool.and_eq_true, decide_eq_true_eq]
  exact ⟨hlevel, hpage.trans (pageSize_le_fileSize _ _)⟩

theorem l0Full_of_threshold_le {cfg : LsmConfig} {f : LevelFiles} {l0 : List MemEntry}
    (h : f.file 0 = some l0) (hpage : cfg.l0CompactionThresholdBytes ≤ pageSize) :
    l0Full cfg f = true := by
  simp only [l0Full, h, decide_eq_true_eq]
  exact hpage.trans (pageSize_le_fileSize _ _)

def compactLevels (cfg : LsmConfig) (gcHorizon : UInt64) (f : LevelFiles) : Option LevelFiles :=
  if l0Full cfg f then compactLoop cfg gcHorizon (cfg.lsmMaxLevel + 1) 0 f else some f

/-- What a cascade that starts from the files `f` writes into level `level + 1`. -/
def mergedInto (gcHorizon : UInt64) (f : LevelFiles) : Nat → Option (List MemEntry)
  | 0 => mergeLevel gcHorizon f 0
  | level + 1 => (mergedInto gcHorizon f level).bind fun merged =>
      gcPass gcHorizon (mergeEntries merged (f.entriesAt (level + 2)))

/-- A call on the files `f` merges level `level` into the next. -/
def reaches (cfg : LsmConfig) (gcHorizon : UInt64) (f : LevelFiles) : Nat → Bool
  | 0 => l0Full cfg f
  | level + 1 => reaches cfg gcHorizon f level &&
      (mergedInto gcHorizon f level).elim false (cascades cfg level)

/-- In the cascade from the files `f` the files are now `g`, and `level` holds `curr`. -/
structure CascadeAt (f g : LevelFiles) (level : Nat) (curr : List MemEntry) : Prop where
  current : g.file level = some curr
  below : ∀ i, i < level → g.entriesAt i = []
  above : ∀ i, level < i → g.file i = f.file i

section Loop

variable {cfg : LsmConfig} {gcHorizon : UInt64} {f g : LevelFiles} {level : Nat}
  {curr merged : List MemEntry}

theorem CascadeAt.start {l0 : List MemEntry} (h : f.file 0 = some l0) : CascadeAt f f 0 l0 :=
  ⟨h, fun i hi => absurd hi (Nat.not_lt_zero i), fun _ _ => rfl⟩

theorem CascadeAt.install (h : CascadeAt f g level curr) (merged : List MemEntry) :
    CascadeAt f (g.install level merged) (level + 1) merged where
  current := LevelFiles.install_file_next level merged
  below i hi := by
    rcases Nat.lt_succ_iff_lt_or_eq.mp hi with hi | rfl
    · rw [← h.below i hi, LevelFiles.entriesAt, LevelFiles.install_file_of_ne merged (by omega)
        (by omega)]
      rfl
    · exact LevelFiles.install_entriesAt_self i merged
  above i hi := by
    rw [LevelFiles.install_file_of_ne merged (by omega) (by omega), h.above i (by omega)]

theorem CascadeAt.mergeLevel (h : CascadeAt f g level curr) :
    mergeLevel gcHorizon g level =
      gcPass gcHorizon (mergeEntries curr (f.entriesAt (level + 1))) := by
  rw [CoroDB.mergeLevel, LevelFiles.entriesAt_of_file h.current, LevelFiles.entriesAt,
    h.above _ (Nat.lt_succ_self level)]
  rfl

theorem reaches_of_le {i j : Nat} (h : i ≤ j) (hj : reaches cfg gcHorizon f j = true) :
    reaches cfg gcHorizon f i = true := by
  induction j with
  | zero => rwa [Nat.le_zero.mp h]
  | succ j ih =>
    rcases h.eq_or_lt with rfl | hlt
    · exact hj
    · simp only [reaches, Bool.and_eq_true] at hj
      exact ih (Nat.lt_succ_iff.mp hlt) hj.1

theorem compactLoop_spec (cfg : LsmConfig) (hdef : ∀ i, ∃ m, mergedInto gcHorizon f i = some m) {rounds : Nat}
    (hat : CascadeAt f g level curr)
    (hm : mergedInto gcHorizon f level = CoroDB.mergeLevel gcHorizon g level)
    (hreach : reaches cfg gcHorizon f level = true) (hlevel : level < cfg.lsmMaxLevel ∨ level = 0)
    (hrounds : level + rounds = cfg.lsmMaxLevel + 1) :
    ∃ last g' m, compactLoop cfg gcHorizon rounds level g = some g' ∧
      CascadeAt f g' (last + 1) m ∧ mergedInto gcHorizon f last = some m ∧
      ∀ i, reaches cfg gcHorizon f i = true ↔ i ≤ last := by
  induction rounds generalizing level g curr with
  | zero => omega
  | succ rounds ih =>
    obtain ⟨m, hmerged⟩ := hdef level
    have hstep := hm.symm.trans hmerged
    have hmore : reaches cfg gcHorizon f (level + 1) = cascades cfg level m := by
      rw [reaches, hreach, hmerged]
      rfl
    have hfile : (g.file level).isSome = true := by simp [hat.current]
    by_cases hc : cascades cfg level m = true
    · rw [compactLoop_continue hfile hstep hc]
      have hlt : level + 1 < cfg.lsmMaxLevel := by
        simp only [cascades, Bool.and_eq_true, decide_eq_true_eq] at hc
        exact hc.1
      refine ih (hat.install m) ?_ (hmore.trans hc) (.inl hlt) (by omega)
      rw [(hat.install m).mergeLevel, mergedInto, hmerged]
      rfl
    · rw [compactLoop_stop hfile hstep (Bool.eq_false_iff.mpr hc)]
      refine ⟨level, g.install level m, m, rfl, hat.install m, hmerged, fun i => ⟨fun hi => ?_, ?_⟩⟩
      · by_contra hlt
        exact hc (hmore ▸ reaches_of_le (Nat.succ_le_of_lt (not_le.mp hlt)) hi)
      · exact fun hi => reaches_of_le hi hreach

end Loop

/-- The memtable and level files of a table, every source sorted and all of them in agreement on
the versions they share. -/
structure Table where
  memtable : List MemEntry
  files : LevelFiles
  sortedMemtable : Sorted memtable
  sortedLevel : ∀ level, Sorted (files.entriesAt level)
  ordered : Ordered (memtable ++ files.entries)
  coherent : Coherent (memtable ++ files.entries)

namespace Table

variable (t : Table)

theorem orderedLevel (level : Nat) : Ordered (t.files.entriesAt level) := fun e he =>
  t.ordered e (List.mem_append_right _ (LevelFiles.mem_entries.mpr ⟨level, he⟩))

theorem sortedVersionsLevel (level : Nat) : SortedVersions (t.files.entriesAt level) :=
  (sorted_iff (t.orderedLevel level)).mp (t.sortedLevel level)

end Table

/-- The histories of `n` levels from `lo` on. -/
def layers (f : LevelFiles) (lo n : Nat) : List TableHistory :=
  (List.range' lo n).map fun level => ofList (f.entriesAt level)

theorem ofList_span (f : LevelFiles) (lo n : Nat) :
    ofList (f.span lo n) = overlays (layers f lo n) :=
  History.ofList_flatMap f.entriesAt (List.range' lo n)

theorem layers_add (f : LevelFiles) (lo m n : Nat) :
    layers f lo (m + n) = layers f lo m ++ layers f (lo + m) n := by
  rw [layers, ← List.range'_append_1, List.map_append]
  rfl

theorem founded_layers (f : LevelFiles) (lo n : Nat) :
    ∀ H ∈ layers f lo n, History.Founded H := by
  intro H hH
  obtain ⟨level, -, rfl⟩ := List.mem_map.mp hH
  exact ofList_founded _

section Merge

variable (gcHorizon : UInt64)

theorem gcPass_mergeEntries {xs ys : List MemEntry} (hx : Ordered xs) (hy : Ordered ys)
    (hsx : SortedVersions xs) (hsy : SortedVersions ys) :
    ∃ out, gcPass gcHorizon (mergeEntries xs ys) = some out ∧ Ordered out ∧ SortedVersions out ∧
      ofList out =
        if 0 < gcHorizon then
          History.gc gcHorizon (overlay (ofList xs) (ofList ys))
        else overlay (ofList xs) (ofList ys) := by
  have ho := mergeEntries_ordered hx hy
  have hs := mergeEntries_sorted hx hy hsx hsy
  obtain ⟨out, hout, hsub, hhist⟩ := gcPass_refines gcHorizon ho hs
  rw [ofList_mergeEntries hx hy (.inl ⟨hsx, hsy⟩)] at hhist
  exact ⟨out, hout, ho.subset hsub.subset, hs.sublist hsub, hhist⟩

theorem mergedInto_refines (t : Table) (level : Nat) :
    ∃ m, mergedInto gcHorizon t.files level = some m ∧ Ordered m ∧ SortedVersions m ∧
      ofList m =
        if 0 < gcHorizon then
          History.cascadeGc gcHorizon (ofList (t.files.entriesAt 0))
            (layers t.files 1 (level + 1))
        else ofList (t.files.span 0 (level + 2)) := by
  induction level with
  | zero =>
    obtain ⟨m, hm, ho, hs, hhist⟩ := gcPass_mergeEntries gcHorizon
      (t.orderedLevel 0) (t.orderedLevel 1) (t.sortedVersionsLevel 0) (t.sortedVersionsLevel 1)
    refine ⟨m, hm, ho, hs, hhist.trans ?_⟩
    have hspan : t.files.span 0 (0 + 2) = t.files.entriesAt 0 ++ t.files.entriesAt 1 := by
      rw [show 0 + 2 = 1 + 1 from rfl, LevelFiles.span_add, LevelFiles.span_one,
        LevelFiles.span_one]
    rw [hspan, ofList_append]
    rfl
  | succ level ih =>
    obtain ⟨m, hm, ho, hs, hhist⟩ := ih
    obtain ⟨m', hm', ho', hs', hhist'⟩ := gcPass_mergeEntries gcHorizon ho
      (t.orderedLevel (level + 2)) hs (t.sortedVersionsLevel (level + 2))
    refine ⟨m', by rw [mergedInto, hm]; exact hm', ho', hs', hhist'.trans ?_⟩
    rw [hhist]
    split
    · rw [layers_add t.files 1 (level + 1) 1, show layers t.files (1 + (level + 1)) 1 =
        [ofList (t.files.entriesAt (level + 2))] by
          simp [layers, Nat.add_comm 1], History.cascadeGc_concat]
    · rw [LevelFiles.span_add 0 (level + 2) 1, ofList_append, Nat.zero_add,
        LevelFiles.span_one]

end Merge

/-- The newest of the entries `merged` of some key is a tombstone at or below the horizon, and it
hides the row that the entries `others` hold newest for the key. -/
def TombstoneHides (merged others : List MemEntry) (gcHorizon : UInt64) : Prop :=
  ∃ a ∈ merged, a.tombstone = true ∧ a.commitTs ≤ gcHorizon ∧
    (∀ e ∈ merged, samePk a e = true → e.commitTs ≤ a.commitTs) ∧
    ∃ r ∈ others, samePk a r = true ∧ r.tombstone = false ∧ r.commitTs ≤ a.commitTs ∧
      ∀ e ∈ others, samePk a e = true → e.commitTs ≤ gcHorizon → e.commitTs ≤ r.commitTs

theorem tombstoneHides_iff {merged others : List MemEntry} {gcHorizon : UInt64}
    (hm : Ordered merged) (ho : Ordered others) :
    TombstoneHides merged others gcHorizon ↔
      ∃ pk : Value, pk.isNaN = false ∧ HidesValue merged others gcHorizon (valueKey pk) := by
  constructor
  · rintro ⟨a, ha, hta, hah, hamax, r, hr, hsame, htr, hra, hrmax⟩
    refine ⟨a.pk, hm a ha, a, ha, rfl, content_eq_none.mpr hta, hah,
      fun e he hk => hamax e he ((samePk_iff (hm a ha) (hm e he)).mpr hk), r, hr,
      (samePk_iff (hm a ha) (ho r hr)).mp hsame, ?_, hra,
      fun e he hk => hrmax e he ((samePk_iff (hm a ha) (ho e he)).mpr hk)⟩
    exact fun hn => by simp [content_eq_none.mp hn] at htr
  · rintro ⟨pk, -, a, ha, hk, hca, hah, hamax, r, hr, hkr, hcr, hra, hrmax⟩
    refine ⟨a, ha, content_eq_none.mp hca, hah,
      fun e he hs => hamax e he (((samePk_iff (hm a ha) (hm e he)).mp hs).trans hk), r, hr,
      (samePk_iff (hm a ha) (ho r hr)).mpr (hkr.trans hk.symm), ?_, hra,
      fun e he hs => hrmax e he (((samePk_iff (hm a ha) (ho e he)).mp hs).trans hk)⟩
    exact Bool.eq_false_iff.mpr fun htr => hcr (content_eq_none.mpr htr)

/-- The levels down to `level + 1` hide a row of the memtable and the deeper levels. -/
def TombstoneHidesRow (memtable : List MemEntry) (f : LevelFiles) (gcHorizon : UInt64)
    (level : Nat) : Prop :=
  TombstoneHides (f.span 0 (level + 2)) (memtable ++ f.entriesFrom (level + 2)) gcHorizon

section Safe

variable {gcHorizon : UInt64}

theorem cascadeSafe_layers {K J : TableHistory} {f : LevelFiles} {last : Nat} {k : ValueKey} :
    History.CascadeSafe K J gcHorizon (ofList (f.entriesAt 0)) (layers f 1 (last + 1)) k ↔
      ∀ level ≤ last, History.Drops (ofList (f.span 0 (level + 2))) gcHorizon k →
        History.view (overlay K (overlay
          (overlays (layers f (level + 2) (last - level))) J)) k gcHorizon ≠ none →
        History.view (overlay K (overlay (ofList (f.entriesAt 0))
          (overlay (overlays (layers f 1 (last + 1))) J))) k gcHorizon ≠ none := by
  have hsplit : ∀ level ≤ last, layers f 1 (last + 1) =
      layers f 1 (level + 1) ++ layers f (level + 2) (last - level) := by
    intro level hl
    rw [show level + 2 = 1 + (level + 1) by omega, ← layers_add,
      show level + 1 + (last - level) = last + 1 by omega]
  have hupper : ∀ level, overlay (ofList (f.entriesAt 0))
      (overlays (layers f 1 (level + 1))) = ofList (f.span 0 (level + 2)) := by
    intro level
    rw [ofList_span, show level + 2 = 1 + (level + 1) by omega, layers_add f 0 1 (level + 1)]
    rfl
  constructor
  · intro hsafe level hl hd hv
    refine hsafe _ _ (hsplit level hl) ?_ (by rwa [hupper]) hv
    simp [layers]
  · intro hsafe pre post heq hpre hd hv
    have hlen : pre.length + post.length = last + 1 := by
      rw [← List.length_append, ← heq]
      simp [layers]
    have hpos := List.length_pos_iff.mpr hpre
    obtain ⟨level, hlevel⟩ : ∃ level, pre.length = level + 1 :=
      Nat.exists_eq_add_of_le' hpos
    have hl : level ≤ last := by omega
    obtain ⟨rfl, rfl⟩ := List.append_inj (heq.symm.trans (hsplit level hl))
      (by simpa [layers] using hlevel)
    rw [hupper] at hd
    exact hsafe level hl hd hv

theorem tombstoneHidesRow_iff (t : Table) (level : Nat) :
    TombstoneHidesRow t.memtable t.files gcHorizon level ↔
      ∃ pk : Value, pk.isNaN = false ∧
        History.Drops (ofList (t.files.span 0 (level + 2))) gcHorizon (valueKey pk) ∧
        History.view (ofList (t.memtable ++ t.files.entriesFrom (level + 2)))
          (valueKey pk) gcHorizon ≠ none ∧
        History.view (tableHistory t.memtable t.files) (valueKey pk) gcHorizon = none := by
  have hentries := t.files.entries_eq_append (level + 2)
  have ho := t.ordered
  have hc := (coherent_iff ho).mp t.coherent
  rw [hentries] at ho hc
  have hsub : t.memtable ++ t.files.entriesFrom (level + 2) ⊆
      t.memtable ++ (t.files.span 0 (level + 2) ++ t.files.entriesFrom (level + 2)) := by
    intro e he
    simp only [List.mem_append] at he ⊢
    tauto
  rw [TombstoneHidesRow, tombstoneHides_iff
    (fun e he => ho e (List.mem_append_right _ (List.mem_append_left _ he))) (ho.subset hsub),
    tableHistory, hentries]
  refine exists_congr fun pk => and_congr_right fun _ => ⟨fun h => h.drops hc, ?_⟩
  exact fun h => hidesValue_of_drops h.1 h.2.1 h.2.2

end Safe

section Preserve

variable {f g : LevelFiles} {last n : Nat} {m : List MemEntry}

theorem tableHistory_layers (memtable : List MemEntry) (h : f.bound ≤ last + 2 + n) :
    tableHistory memtable f = overlay (ofList memtable)
      (overlay (ofList (f.entriesAt 0))
        (overlay (overlays (layers f 1 (last + 1)))
          (overlays (layers f (last + 2) n)))) := by
  rw [tableHistory, ← LevelFiles.span_zero_of_bound_le h, ofList_append, ofList_span,
    show last + 2 + n = 1 + (last + 1 + n) by omega, layers_add f 0 1, layers_add f (0 + 1) (last + 1),
    overlays_append, overlays_append, show 0 + 1 + (last + 1) = last + 2 by omega]
  simp [layers]

theorem CascadeAt.tableHistory (h : CascadeAt f g (last + 1) m) (memtable : List MemEntry)
    (hg : g.bound ≤ last + 2 + n) :
    tableHistory memtable g = overlay (ofList memtable)
      (overlay (ofList m) (overlays (layers f (last + 2) n))) := by
  have hbelow : g.span 0 (last + 1) = [] :=
    LevelFiles.span_eq_nil fun level _ hl => h.below level (by omega)
  have habove : g.span (last + 2) n = f.span (last + 2) n :=
    LevelFiles.span_congr fun level hl _ => by
      rw [LevelFiles.entriesAt, h.above level (by omega)]
      rfl
  rw [CoroDB.tableHistory, ← LevelFiles.span_zero_of_bound_le hg,
    show last + 2 + n = last + 1 + (1 + n) by omega, LevelFiles.span_add, hbelow,
    LevelFiles.span_add, Nat.zero_add, LevelFiles.span_one, LevelFiles.entriesAt_of_file h.current,
    show last + 1 + 1 = last + 2 from rfl, habove, List.nil_append, ofList_append,
    ofList_append, ofList_span]

theorem CascadeAt.ordered (h : CascadeAt f g (last + 1) m) {memtable : List MemEntry}
    (ho : Ordered (memtable ++ f.entries)) (hm : Ordered m) : Ordered (memtable ++ g.entries) := by
  refine Ordered.append (fun e he => ho e (List.mem_append_left _ he)) fun e he => ?_
  obtain ⟨level, he⟩ := LevelFiles.mem_entries.mp he
  rcases lt_trichotomy level (last + 1) with hl | rfl | hl
  · simp [h.below level hl] at he
  · rw [LevelFiles.entriesAt_of_file h.current] at he
    exact hm e he
  · refine ho e (List.mem_append_right _ (LevelFiles.mem_entries.mpr ⟨level, ?_⟩))
    rwa [LevelFiles.entriesAt, h.above level hl] at he

/-- A finished cascade keeps the views at or above the horizon exactly when no merge of it drops
a tombstone that hides a row. -/
theorem CascadeAt.preserves_iff {t : Table} {gcHorizon : UInt64}
    (h : CascadeAt t.files g (last + 1) m) (hm : Ordered m)
    (hhist : ofList m = History.cascadeGc gcHorizon
      (ofList (t.files.entriesAt 0)) (layers t.files 1 (last + 1))) :
    (∀ s, gcHorizon ≤ s → ∀ pk,
      visibleOutcome t.memtable g pk s = visibleOutcome t.memtable t.files pk s) ↔
    ∀ level ≤ last, ¬ TombstoneHidesRow t.memtable t.files gcHorizon level := by
  obtain ⟨n, hf, hg⟩ : ∃ n, t.files.bound ≤ last + 2 + n ∧ g.bound ≤ last + 2 + n :=
    ⟨max t.files.bound g.bound, by omega, by omega⟩
  have hbefore := tableHistory_layers t.memtable hf
  have hafter := h.tableHistory t.memtable hg
  rw [hhist] at hafter
  have hothers : ∀ level ≤ last, overlay (ofList t.memtable) (overlay
      (overlays (layers t.files (level + 2) (last - level)))
      (overlays (layers t.files (last + 2) n))) =
        ofList (t.memtable ++ t.files.entriesFrom (level + 2)) := by
    intro level hl
    rw [ofList_append, ← LevelFiles.span_eq_entriesFrom (n := last - level + n) (by omega),
      ofList_span, layers_add, overlays_append,
      show level + 2 + (last - level) = last + 2 by omega]
  have hsafe : ∀ k, (∀ s, gcHorizon ≤ s → History.view (CoroDB.tableHistory t.memtable g) k s =
      History.view (CoroDB.tableHistory t.memtable t.files) k s) ↔
      ∀ level ≤ last, History.Drops (ofList (t.files.span 0 (level + 2))) gcHorizon k →
        History.view (ofList (t.memtable ++ t.files.entriesFrom (level + 2))) k
          gcHorizon ≠ none →
        History.view (CoroDB.tableHistory t.memtable t.files) k gcHorizon ≠ none := by
    intro k
    rw [hafter, hbefore, History.view_cascadeGc_iff (ofList_founded _)
      (History.Founded.overlays (founded_layers _ _ _)) (ofList_founded _)
      (founded_layers _ _ _), cascadeSafe_layers]
    exact forall₂_congr fun level hl => by rw [hothers level hl]
  have hview : ∀ pk : Value, pk.isNaN = false → ∀ s,
      (visibleOutcome t.memtable g pk s = visibleOutcome t.memtable t.files pk s ↔
        History.view (CoroDB.tableHistory t.memtable g) (valueKey pk) s =
          History.view (CoroDB.tableHistory t.memtable t.files) (valueKey pk) s) := by
    intro pk hnan s
    rw [visibleOutcome_eq_view (h.ordered t.ordered hm) hnan, visibleOutcome_eq_view t.ordered hnan]
  constructor
  · intro hall level hl hhide
    obtain ⟨pk, hnan, hd, hv, hnone⟩ := (tombstoneHidesRow_iff t level).mp hhide
    exact (hsafe (valueKey pk)).mp (fun s hs => (hview pk hnan s).mp (hall s hs pk)) level hl hd hv
      hnone
  · intro hno s hs pk
    cases hnan : pk.isNaN with
    | true => rw [visibleOutcome_of_isNaN hnan, visibleOutcome_of_isNaN hnan]
    | false =>
      refine (hview pk hnan s).mpr ((hsafe (valueKey pk)).mpr ?_ s hs)
      exact fun level hl hd hv hnone =>
        hno level hl ((tombstoneHidesRow_iff t level).mpr ⟨pk, hnan, hd, hv, hnone⟩)

theorem CascadeAt.preserves_of_history {t : Table} (h : CascadeAt t.files g (last + 1) m)
    (hm : Ordered m) (hhist : ofList m = ofList (t.files.span 0 (last + 2)))
    (s : UInt64) (pk : Value) :
    visibleOutcome t.memtable g pk s = visibleOutcome t.memtable t.files pk s := by
  obtain ⟨n, hf, hg⟩ : ∃ n, t.files.bound ≤ last + 2 + n ∧ g.bound ≤ last + 2 + n :=
    ⟨max t.files.bound g.bound, by omega, by omega⟩
  have hsame : CoroDB.tableHistory t.memtable g = CoroDB.tableHistory t.memtable t.files := by
    rw [h.tableHistory t.memtable hg, hhist, ← ofList_span, ← ofList_append,
      ← ofList_append, CoroDB.tableHistory, ← LevelFiles.span_zero_of_bound_le hf,
      LevelFiles.span_add 0 (last + 2) n, Nat.zero_add]
  cases hnan : pk.isNaN with
  | true => rw [visibleOutcome_of_isNaN hnan, visibleOutcome_of_isNaN hnan]
  | false =>
    rw [visibleOutcome_eq_view (h.ordered t.ordered hm) hnan, visibleOutcome_eq_view t.ordered hnan,
      hsame]

/-- Compaction ends, and every snapshot at or above the horizon keeps its view of every key,
exactly when no level the call merges drops a tombstone that hides a row. -/
theorem compactLevels_preserves_iff (cfg : LsmConfig) (gcHorizon : UInt64) (t : Table) :
    (∃ files', compactLevels cfg gcHorizon t.files = some files' ∧
      ∀ s, gcHorizon ≤ s → ∀ pk,
        visibleOutcome t.memtable files' pk s = visibleOutcome t.memtable t.files pk s) ↔
    (0 < gcHorizon → ∀ level, reaches cfg gcHorizon t.files level = true →
      ¬ TombstoneHidesRow t.memtable t.files gcHorizon level) := by
  by_cases hfull : l0Full cfg t.files = true
  · obtain ⟨l0, hl0⟩ : ∃ l0, t.files.file 0 = some l0 := by
      cases h : t.files.file 0 with
      | none => simp [l0Full, h] at hfull
      | some l0 => exact ⟨l0, rfl⟩
    obtain ⟨last, g, m, hrun, hat, hlast, hreach⟩ := compactLoop_spec cfg
      (fun i => (mergedInto_refines gcHorizon t i).imp fun _ h => h.1) (CascadeAt.start hl0) rfl
      hfull (.inr rfl) (Nat.zero_add _)
    obtain ⟨m', hm', ho, -, hhist⟩ := mergedInto_refines gcHorizon t last
    obtain rfl : m = m' := Option.some.inj (hlast.symm.trans hm')
    have hresult : compactLevels cfg gcHorizon t.files = some g := by
      rw [compactLevels, if_pos hfull, hrun]
    simp only [hresult, Option.some.injEq, exists_eq_left', hreach]
    by_cases hpos : 0 < gcHorizon
    · rw [if_pos hpos] at hhist
      rw [hat.preserves_iff ho hhist]
      exact ⟨fun h _ => h, fun h => h hpos⟩
    · rw [if_neg hpos] at hhist
      exact iff_of_true (fun s _ pk => hat.preserves_of_history ho hhist s pk)
        fun h => absurd h hpos
  · refine iff_of_true ⟨t.files, by rw [compactLevels, if_neg hfull], fun _ _ _ => rfl⟩ ?_
    exact fun _ level hlevel => absurd (reaches_of_le (Nat.zero_le level) hlevel) hfull

end Preserve

/-- A key deleted at timestamp 5 in level 0, with the row of timestamp 3 still in level 2. -/
def deletedAboveRow : Table where
  memtable := []
  files := .ofLevels [some [⟨.int 1, ⟨[]⟩, true, 5⟩], none, some [⟨.int 1, ⟨[.int 1]⟩, false, 3⟩]]
  sortedMemtable := by decide
  sortedLevel := LevelFiles.forall_entriesAt (by decide) (by decide)
  ordered := by decide
  coherent := by decide

/-- The merge of level 0 into level 1 drops the tombstone and the deleted row comes back. -/
theorem compactLevels_exposes_deletedRow :
    visibleOutcome [] deletedAboveRow.files (.int 1) 10 = none ∧
      ∃ files', compactLevels ⟨[], 4096, 1⟩ 10 deletedAboveRow.files = some files' ∧
        visibleOutcome [] files' (.int 1) 10 = some ⟨[.int 1]⟩ := by
  refine ⟨by decide, deletedAboveRow.files.install 0 [], ?_, by decide⟩
  rw [compactLevels, if_pos (l0Full_of_threshold_le rfl (by decide))]
  rfl

end CoroDB
