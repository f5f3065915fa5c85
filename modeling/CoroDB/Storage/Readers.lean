import CoroDB.Framework.VersionSearch
import CoroDB.Storage.Levels

/-!
# Lookup and scan

`lookup_visible` probes every source for one key and keeps the newest candidate, `scan_visible` folds
all entries into a map of best versions.
-/

namespace CoroDB

open Framework

def LevelFiles.probedFiles (f : LevelFiles) : List (Nat × List MemEntry) :=
  f.probedLevels.filterMap fun level => (f.file level).map fun es => (level, es)

def sources (memtable : List MemEntry) (f : LevelFiles) : List (List MemEntry) :=
  memtable :: f.probedFiles.map Prod.snd

theorem LevelFiles.file_of_mem_probedFiles {f : LevelFiles} {p : Nat × List MemEntry}
    (h : p ∈ f.probedFiles) : f.file p.1 = some p.2 := by
  obtain ⟨level, -, hp⟩ := List.mem_filterMap.mp h
  obtain ⟨es, hes, rfl⟩ := Option.map_eq_some_iff.mp hp
  exact hes

theorem mem_sources_of_probed {f : LevelFiles} {p : Nat × List MemEntry} (h : p ∈ f.probedFiles)
    (memtable : List MemEntry) : p.2 ∈ sources memtable f :=
  List.mem_cons_of_mem _ (List.mem_map_of_mem h)

def LevelFiles.probedEntries (f : LevelFiles) : List MemEntry := f.probedFiles.flatMap Prod.snd

namespace LevelFiles

variable {f : LevelFiles}

theorem probedEntries_eq_span : f.probedEntries = f.span 0 (f.maxLevel + 1) := by
  have hlevels : ∀ levels : List Nat,
      (levels.filterMap fun level => (f.file level).map fun es => (level, es)).flatMap Prod.snd =
        levels.flatMap f.entriesAt := by
    intro levels
    induction levels with
    | nil => rfl
    | cons level levels ih =>
      rw [List.flatMap_cons, ← ih, List.filterMap_cons, entriesAt]
      cases f.file level <;> simp
  rw [probedEntries, probedFiles, hlevels, probedLevels, List.range_eq_range']
  rfl

theorem probedEntries_eq_append : f.probedEntries = f.entriesAt 0 ++ f.span 1 f.maxLevel := by
  rw [probedEntries_eq_span, Nat.add_comm, span_add, span_one]

theorem maxLevel_write_zero (es : List MemEntry) : (f.write 0 es).maxLevel = f.maxLevel := by
  refine eq_of_forall_le_iff fun n => ?_
  rw [le_maxLevel, le_maxLevel]
  refine forall₂_congr fun i hi => ?_
  rw [write_file_of_ne f (by omega)]

theorem probedEntries_write_zero (es : List MemEntry) :
    (f.write 0 es).probedEntries = es ++ f.span 1 f.maxLevel := by
  rw [probedEntries_eq_append, maxLevel_write_zero, entriesAt_of_file (write_file_self f 0 es)]
  congr 1
  exact span_congr fun level hl _ => entriesAt_congr (write_file_of_ne f (by omega) es)

end LevelFiles

def considered (memtable : List MemEntry) (f : LevelFiles) : List MemEntry :=
  f.probedEntries ++ memtable

theorem mem_sources_flatten {memtable : List MemEntry} {f : LevelFiles} (e : MemEntry) :
    e ∈ (sources memtable f).flatten ↔ e ∈ considered memtable f := by
  rw [considered, LevelFiles.probedEntries, sources, List.flatten_cons, ← List.flatMap_def, List.mem_append, List.mem_append, or_comm]

def readHistory (memtable : List MemEntry) (f : LevelFiles) : TableHistory :=
  History.ofList (sources memtable f).flatten

section Lookup

/-- The first version up to the snapshot among the entries of the key at the front. -/
def firstVisible (pk : Value) (s : UInt64) (es : List MemEntry) : Option MemEntry :=
  (es.takeWhile fun e => valueEq e.pk pk).find? fun e => decide (e.commitTs ≤ s)

/-- The key `MVCCKey{pk, UINT64_MAX}` of the memtable's lower bound. -/
def newestKey (pk : Value) : MemEntry := ⟨pk, ⟨[]⟩, false, 0xFFFFFFFFFFFFFFFF⟩

def memtableCandidate (memtable : List MemEntry) (pk : Value) (s : UInt64) : Option MemEntry :=
  firstVisible pk s (memtable.dropWhile fun e => mvccLess e (newestKey pk))

def sstCandidate (entries : List MemEntry) (pk : Value) (s : UInt64) : Option MemEntry :=
  firstVisible pk s (lowerBound (fun e => valueLess e.pk pk) entries)

def candidates (mayContain : Nat → Value → Bool) (memtable : List MemEntry) (f : LevelFiles)
    (pk : Value) (s : UInt64) : List MemEntry :=
  (memtableCandidate memtable pk s).toList ++ f.probedFiles.flatMap fun p =>
    if mayContain p.1 pk then (sstCandidate p.2 pk s).toList else []

def lookupVisible (mayContain : Nat → Value → Bool) (memtable : List MemEntry) (f : LevelFiles)
    (pk : Value) (s : UInt64) : Option Row :=
  ((candidates mayContain memtable f pk s).argmax MemEntry.commitTs).bind MemEntry.content

/-- A filter of a level says of every key in its file that the file may contain it. -/
def NoFalseNegatives (mayContain : Nat → Value → Bool) (f : LevelFiles) : Prop :=
  ∀ level pk, (∃ e ∈ f.entriesAt level, valueEq e.pk pk = true) → mayContain level pk = true

variable {es memtable : List MemEntry} {f : LevelFiles} {pk : Value}

private theorem le_maxTs (t : UInt64) : t ≤ 0xFFFFFFFFFFFFFFFF := by
  rw [UInt64.le_iff_toNat_le]
  have hmax : (0xFFFFFFFFFFFFFFFF : UInt64).toNat = 18446744073709551615 := rfl
  have hlt := t.toNat_lt
  omega

theorem mvccLess_newestKey {e : MemEntry} (he : e.pk.isNaN = false) (hpk : pk.isNaN = false) :
    mvccLess e (newestKey pk) = true ↔ valueKey e.pk < valueKey pk := by
  rw [mvccLess_decides e (newestKey pk) he hpk]
  exact or_iff_left fun h => absurd h.2 (not_lt.mpr (le_maxTs e.commitTs))

theorem memtableCandidate_eq_newestIn (ho : Ordered es) (hs : SortedVersions es)
    (hpk : pk.isNaN = false) (s : UInt64) :
    memtableCandidate es pk s = newestIn (fun e => valueEq e.pk pk) s es := by
  have hp : ∀ e ∈ es, (valueEq e.pk pk = true ↔ Versioned.key e = valueKey pk) :=
    fun e he => valueEq_iff (ho e he) hpk
  rw [memtableCandidate, firstVisible,
    takeWhile_dropWhile_eq_filter (fun e he => mvccLess_newestKey (ho e he) hpk) hp hs]
  exact find?_filter_eq_newestIn hp hs s

theorem sstCandidate_eq_newestIn (ho : Ordered es) (hs : SortedVersions es)
    (hpk : pk.isNaN = false) (s : UInt64) :
    sstCandidate es pk s = newestIn (fun e => valueEq e.pk pk) s es := by
  have hp : ∀ e ∈ es, (valueEq e.pk pk = true ↔ Versioned.key e = valueKey pk) :=
    fun e he => valueEq_iff (ho e he) hpk
  have hb : ∀ e ∈ es, (valueLess e.pk pk = true ↔ Versioned.key e < valueKey pk) :=
    fun e he => valueLess_iff (ho e he) hpk
  rw [sstCandidate, firstVisible, lowerBound_eq_dropWhile hb hs,
    takeWhile_dropWhile_eq_filter hb hp hs]
  exact find?_filter_eq_newestIn hp hs s

theorem candidates_eq_flatMap {mayContain : Nat → Value → Bool}
    (ho : Ordered (sources memtable f).flatten)
    (hs : ∀ src ∈ sources memtable f, SortedVersions src) (hb : NoFalseNegatives mayContain f)
    (hpk : pk.isNaN = false) (s : UInt64) :
    candidates mayContain memtable f pk s =
      (sources memtable f).flatMap fun src => (newestIn (fun e => valueEq e.pk pk) s src).toList := by
  have hord : ∀ src ∈ sources memtable f, Ordered src :=
    fun src h e he => ho e (List.mem_flatten_of_mem h he)
  rw [candidates, sources, List.flatMap_cons, List.flatMap_map,
    memtableCandidate_eq_newestIn (hord memtable List.mem_cons_self) (hs memtable List.mem_cons_self)
      hpk]
  congr 1
  refine List.flatMap_congr fun p hp => ?_
  have hmem := mem_sources_of_probed hp memtable
  split_ifs with hc
  · rw [sstCandidate_eq_newestIn (hord p.2 hmem) (hs p.2 hmem) hpk]
  · rw [newestIn_eq_none]
    · rfl
    · intro e he
      rw [← Bool.not_eq_true]
      intro heq
      refine hc (hb p.1 pk ⟨e, ?_, heq⟩)
      rwa [LevelFiles.entriesAt_of_file (LevelFiles.file_of_mem_probedFiles hp)]

theorem lookupVisible_eq_view {mayContain : Nat → Value → Bool}
    (ho : Ordered (sources memtable f).flatten)
    (hs : ∀ src ∈ sources memtable f, SortedVersions src) (hb : NoFalseNegatives mayContain f)
    (hpk : pk.isNaN = false) (s : UInt64) :
    lookupVisible mayContain memtable f pk s =
      History.view (readHistory memtable f) (valueKey pk) s := by
  rw [lookupVisible, candidates_eq_flatMap ho hs hb hpk]
  exact (congrArg (Option.bind · MemEntry.content) (newestIn_flatten _ s _)).trans
    (newestIn_view s fun e he => valueEq_iff (ho e he) hpk)

theorem lookupVisible_of_isNaN (mayContain : Nat → Value → Bool) (memtable : List MemEntry)
    (f : LevelFiles) (hpk : pk.isNaN = true) (s : UInt64) :
    lookupVisible mayContain memtable f pk s = none := by
  have hnone : ∀ es, firstVisible pk s es = none := by
    intro es
    cases es with
    | nil => rfl
    | cons e es => simp [firstVisible, valueEq_of_isNaN hpk]
  have hc : candidates mayContain memtable f pk s = [] := by
    simp [candidates, memtableCandidate, sstCandidate, hnone]
  rw [lookupVisible, hc]
  rfl

end Lookup

section Scan

/-- What the map holds for the key of an entry once the entry is considered: a version seen before
stays unless the entry is newer. -/
def better (e : MemEntry) : Option MemEntry → MemEntry
  | none => e
  | some b => if b.commitTs < e.commitTs then { e with pk := b.pk } else b

def upsert (e : MemEntry) : List MemEntry → List MemEntry
  | [] => [better e none]
  | b :: best =>
    if valueLess b.pk e.pk then b :: upsert e best
    else if valueLess e.pk b.pk then better e none :: b :: best
    else better e (some b) :: best

def consider (s : UInt64) (best : List MemEntry) (e : MemEntry) : List MemEntry :=
  if s < e.commitTs then best else upsert e best

def visibleRow (e : MemEntry) : Option Row :=
  if e.tombstone || e.row.values.isEmpty then none else some e.row

def scanBest (memtable : List MemEntry) (f : LevelFiles) (s : UInt64) : List MemEntry :=
  (considered memtable f).foldl (consider s) []

/-- The rows of `scan_visible` without its cache. -/
def scanVisible (memtable : List MemEntry) (f : LevelFiles) (s : UInt64) : List Row :=
  (scanBest memtable f s).filterMap visibleRow

theorem visibleRow_eq_some {e : MemEntry} {r : Row} :
    visibleRow e = some r ↔ e.content = some r ∧ r.values ≠ [] := by
  cases ht : e.tombstone
  · by_cases hv : e.row.values = []
    · simp only [visibleRow, MemEntry.content, ht, hv]
      simp only [List.isEmpty_nil, Bool.or_true, if_true, reduceCtorEq, false_iff, not_and, not_not]
      rintro ⟨⟩
      exact hv
    · simp only [visibleRow, MemEntry.content, ht, List.isEmpty_eq_false_iff.mpr hv]
      simp only [Bool.or_self, Bool.false_eq_true, if_false, iff_self_and]
      rintro ⟨⟩
      exact hv
  · simp [visibleRow, MemEntry.content, ht]

/-- The best versions after some entries: the newest visible one of every key, in key order. -/
structure BestOf (s : UInt64) (es best : List MemEntry) : Prop where
  ordered : Ordered best
  ascending : best.Pairwise fun a b => valueKey a.pk < valueKey b.pk
  newest : ∀ b ∈ best, History.IsNewest (History.ofList es) (valueKey b.pk) s b.commitTs b.content
  covers : ∀ e ∈ es, e.commitTs ≤ s → ∃ b ∈ best, valueKey b.pk = valueKey e.pk

theorem upsert_split {e : MemEntry} {best : List MemEntry} (he : e.pk.isNaN = false)
    (ho : Ordered best) (ha : best.Pairwise fun a b => valueKey a.pk < valueKey b.pk) :
    ∃ smaller old greater, (∀ b ∈ smaller, valueKey b.pk < valueKey e.pk) ∧
      (∀ b ∈ greater, valueKey e.pk < valueKey b.pk) ∧
      (∀ b ∈ old, valueKey b.pk = valueKey e.pk) ∧
      best = smaller ++ (old.toList ++ greater) ∧
      upsert e best = smaller ++ better e old :: greater := by
  induction best with
  | nil => exact ⟨[], none, [], by simp, by simp, by simp, rfl, rfl⟩
  | cons b best ih =>
    have hb := ho b List.mem_cons_self
    obtain ⟨hlast, hrest⟩ := List.pairwise_cons.mp ha
    rcases lt_trichotomy (valueKey b.pk) (valueKey e.pk) with hlt | heq | hgt
    · obtain ⟨smaller, old, greater, hs, hg, hk, hbest, hup⟩ :=
        ih (fun x hx => ho x (List.mem_cons_of_mem b hx)) hrest
      refine ⟨b :: smaller, old, greater, ?_, hg, hk, by rw [hbest]; rfl, ?_⟩
      · simpa [hlt] using hs
      · rw [upsert, if_pos ((valueLess_iff hb he).mpr hlt), hup]
        rfl
    · have hnl : ¬ valueLess b.pk e.pk = true := by simp [valueLess_iff hb he, heq]
      have hng : ¬ valueLess e.pk b.pk = true := by simp [valueLess_iff he hb, heq]
      refine ⟨[], some b, best, by simp, fun x hx => heq ▸ hlast x hx, by simp [heq], rfl, ?_⟩
      rw [upsert, if_neg hnl, if_neg hng]
      rfl
    · have hnl : ¬ valueLess b.pk e.pk = true := by simp [valueLess_iff hb he, hgt.le]
      refine ⟨[], none, b :: best, by simp, ?_, by simp, rfl, ?_⟩
      · intro x hx
        rcases List.mem_cons.mp hx with rfl | hx
        · exact hgt
        · exact hgt.trans (hlast x hx)
      · rw [upsert, if_neg hnl, if_pos ((valueLess_iff he hb).mpr hgt)]
        rfl

variable {s : UInt64} {es best memtable : List MemEntry} {f : LevelFiles}

theorem better_pk {e : MemEntry} {old : Option MemEntry}
    (hk : ∀ b ∈ old, valueKey b.pk = valueKey e.pk) :
    valueKey (better e old).pk = valueKey e.pk := by
  cases old with
  | none => rfl
  | some b =>
    rw [better]
    split_ifs <;> exact hk b rfl

theorem better_ordered {e : MemEntry} {old : Option MemEntry} (he : e.pk.isNaN = false)
    (ho : ∀ b ∈ old, b.pk.isNaN = false) : (better e old).pk.isNaN = false := by
  cases old with
  | none => exact he
  | some b =>
    rw [better]
    split_ifs <;> exact ho b rfl

theorem better_newest {e : MemEntry} {old : Option MemEntry} (hs : e.commitTs ≤ s)
    (hold : ∀ b ∈ old,
      History.IsNewest (History.ofList es) (valueKey e.pk) s b.commitTs b.content)
    (hnone : old = none → ∀ x ∈ es, valueKey x.pk = valueKey e.pk → ¬ x.commitTs ≤ s) :
    History.IsNewest (History.ofList (es ++ [e])) (valueKey e.pk) s (better e old).commitTs
      (better e old).content := by
  cases old with
  | none => exact isNewest_concat_self hs fun x hx hk hxs => absurd hxs (hnone rfl x hx hk)
  | some b =>
    have hb := hold b rfl
    rw [better]
    split_ifs with hlt
    · refine isNewest_concat_self hs fun x hx hk hxs => ?_
      have hv : History.ofList es (valueKey e.pk) x.commitTs ≠ none := by
        have := History.ofList_ne_none hx
        rwa [hk] at this
      exact (hb.2.2 x.commitTs hxs hv).trans_lt hlt
    · exact isNewest_concat hb fun _ _ => not_lt.mp hlt

private theorem BestOf.upsert {e : MemEntry} (h : BestOf s es best) (he : e.pk.isNaN = false)
    (hs : e.commitTs ≤ s) : BestOf s (es ++ [e]) (upsert e best) := by
  obtain ⟨smaller, old, greater, hsm, hgr, hk, hbest, hup⟩ := upsert_split he h.ordered h.ascending
  have hkey := better_pk hk
  have hasc := h.ascending
  rw [hbest, List.pairwise_append, List.pairwise_append] at hasc
  have hold : ∀ b ∈ old, b ∈ best := by
    intro b hb
    simp [hbest, Option.mem_toList.mpr hb]
  have hmem : ∀ b, b ∈ CoroDB.upsert e best ↔ (b ∈ smaller ∨ b ∈ greater) ∨ b = better e old := by
    intro b
    rw [hup]
    simp only [List.mem_append, List.mem_cons]
    tauto
  have hrest : ∀ b, b ∈ smaller ∨ b ∈ greater → b ∈ best ∧ valueKey b.pk ≠ valueKey e.pk := by
    rintro b (hb | hb)
    · exact ⟨by simp [hbest, hb], (hsm b hb).ne⟩
    · exact ⟨by simp [hbest, hb], (hgr b hb).ne'⟩
  have hkept : ∀ b ∈ best, ∃ b' ∈ CoroDB.upsert e best, valueKey b'.pk = valueKey b.pk := by
    intro b hb
    rw [hbest, List.mem_append, List.mem_append] at hb
    rcases hb with hb | hb | hb
    · exact ⟨b, (hmem b).mpr (.inl (.inl hb)), rfl⟩
    · exact ⟨better e old, (hmem _).mpr (.inr rfl),
        hkey.trans (hk b (Option.mem_toList.mp hb)).symm⟩
    · exact ⟨b, (hmem b).mpr (.inl (.inr hb)), rfl⟩
  refine ⟨fun b hb => ?_, ?_, fun b hb => ?_, fun x hx hxs => ?_⟩
  · rcases (hmem b).mp hb with hb | rfl
    · exact h.ordered b (hrest b hb).1
    · exact better_ordered he fun o ho => h.ordered o (hold o ho)
  · rw [hup, List.pairwise_append, List.pairwise_cons]
    refine ⟨hasc.1, ⟨fun b hb => hkey ▸ hgr b hb, hasc.2.1.2.1⟩, fun a ha b hb => ?_⟩
    rcases List.mem_cons.mp hb with rfl | hb
    · exact hkey ▸ hsm a ha
    · exact hasc.2.2 a ha b (List.mem_append_right _ hb)
  · rcases (hmem b).mp hb with hb | rfl
    · exact isNewest_concat (h.newest b (hrest b hb).1) fun hk' => absurd hk'.symm (hrest b hb).2
    · rw [hkey]
      refine better_newest hs (fun o ho => hk o ho ▸ h.newest o (hold o ho)) ?_
      rintro rfl x hx hkx hxs
      obtain ⟨b, hb, hkb⟩ := h.covers x hx hxs
      exact (hrest b (by simpa [hbest] using hb)).2 (hkb.trans hkx)
  · rcases List.mem_append.mp hx with hx | hx
    · obtain ⟨b, hb, hkb⟩ := h.covers x hx hxs
      obtain ⟨b', hb', hkb'⟩ := hkept b hb
      exact ⟨b', hb', hkb'.trans hkb⟩
    · rw [List.mem_singleton.mp hx]
      exact ⟨better e old, (hmem _).mpr (.inr rfl), hkey⟩

theorem BestOf.consider {e : MemEntry} (h : BestOf s es best) (he : e.pk.isNaN = false) :
    BestOf s (es ++ [e]) (consider s best e) := by
  rw [CoroDB.consider]
  split_ifs with hlt
  · refine ⟨h.ordered, h.ascending, fun b hb => ?_, fun x hx hxs => ?_⟩
    · exact isNewest_concat (h.newest b hb) fun _ hes => absurd hlt (not_lt.mpr hes)
    · rcases List.mem_append.mp hx with hx | hx
      · exact h.covers x hx hxs
      · rw [List.mem_singleton.mp hx] at hxs
        exact absurd hlt (not_lt.mpr hxs)
  · exact h.upsert he (not_lt.mp hlt)

theorem bestOf_foldl {es' : List MemEntry} (h : BestOf s es best) (ho : Ordered es') :
    BestOf s (es ++ es') (es'.foldl (consider s) best) := by
  induction es' generalizing es best with
  | nil => simpa using h
  | cons e es' ih =>
    have := ih (h.consider (ho e List.mem_cons_self)) fun x hx => ho x (List.mem_cons_of_mem e hx)
    simpa using this

def keyedRows (best : List MemEntry) : List (Value × Row) :=
  best.filterMap fun b => (visibleRow b).map fun r => (b.pk, r)

theorem keyedRows_map_snd (best : List MemEntry) :
    (keyedRows best).map Prod.snd = best.filterMap visibleRow := by
  rw [keyedRows, List.map_filterMap]
  refine List.filterMap_congr fun b _ => ?_
  cases visibleRow b <;> rfl

theorem BestOf.listing (h : BestOf s es best) :
    History.Listing (History.ofList es) s (fun r : Row => r.values ≠ [])
      ((keyedRows best).map fun p => (valueKey p.1, p.2)) := by
  have hmem : ∀ k r, (k, r) ∈ (keyedRows best).map (fun p => (valueKey p.1, p.2)) ↔
      ∃ b ∈ best, visibleRow b = some r ∧ valueKey b.pk = k := by
    intro k r
    simp only [keyedRows, List.mem_map, List.mem_filterMap, Option.map_eq_some_iff]
    constructor
    · rintro ⟨_, ⟨b, hb, r', hr, rfl⟩, heq⟩
      obtain ⟨rfl, rfl⟩ := Prod.mk.inj heq
      exact ⟨b, hb, hr, rfl⟩
    · rintro ⟨b, hb, hr, rfl⟩
      exact ⟨(b.pk, r), ⟨b, hb, r, hr, rfl⟩, rfl⟩
  constructor
  · rw [List.pairwise_map, keyedRows, List.pairwise_filterMap]
    refine h.ascending.imp fun {a b} hab x hx y hy => ?_
    obtain ⟨r, -, rfl⟩ := Option.map_eq_some_iff.mp hx
    obtain ⟨r', -, rfl⟩ := Option.map_eq_some_iff.mp hy
    exact hab
  · intro k r
    rw [hmem]
    constructor
    · rintro ⟨b, hb, hr, rfl⟩
      rw [History.view_eq (h.newest b hb)]
      exact visibleRow_eq_some.mp hr
    · rintro ⟨hv, hr⟩
      rcases History.ofList_founded es k s with hnone | ⟨t, c, hn⟩
      · simp [History.view_eq_none hnone] at hv
      · obtain ⟨e, he, rfl, -, -, hes, -⟩ := exists_of_isNewest hn
        obtain ⟨b, hb, hkb⟩ := h.covers e he hes
        have hview := History.view_eq (h.newest b hb)
        rw [hkb] at hview
        exact ⟨b, hb, visibleRow_eq_some.mpr ⟨hview.symm.trans hv, hr⟩, hkb⟩

theorem scanBest_bestOf (ho : Ordered (considered memtable f)) (s : UInt64) :
    BestOf s (considered memtable f) (scanBest memtable f s) := by
  have hempty : BestOf s [] [] := ⟨by simp [Ordered], List.Pairwise.nil, by simp, by simp⟩
  exact bestOf_foldl hempty ho

theorem scanVisible_listing (ho : Ordered (considered memtable f)) (s : UInt64) :
    History.Listing (History.ofList (considered memtable f)) s (fun r : Row => r.values ≠ [])
      ((keyedRows (scanBest memtable f s)).map fun p => (valueKey p.1, p.2)) :=
  (scanBest_bestOf ho s).listing

theorem scanVisible_congr {mem' : List MemEntry} {f' : LevelFiles} {s' : UInt64}
    (ho : Ordered (considered memtable f)) (ho' : Ordered (considered mem' f'))
    (h : ∀ k, History.view (History.ofList (considered memtable f)) k s =
      History.view (History.ofList (considered mem' f')) k s') :
    scanVisible memtable f s = scanVisible mem' f' s' := by
  have hl := scanVisible_listing ho s
  have hl' := scanVisible_listing ho' s'
  have heq := History.Listing.unique hl ⟨hl'.ascending, fun k r => by rw [hl'.mem_iff, h]⟩
  rw [scanVisible, scanVisible, ← keyedRows_map_snd, ← keyedRows_map_snd]
  have hrows := congrArg (List.map Prod.snd) heq
  rw [List.map_map, List.map_map] at hrows
  exact hrows

theorem scanVisible_of_bound {s' m : UInt64} (ho : Ordered (considered memtable f))
    (hbound : ∀ e ∈ considered memtable f, e.commitTs ≤ m) (hm : m ≤ s) (hs : s ≤ s') :
    scanVisible memtable f s = scanVisible memtable f s' := by
  refine scanVisible_congr ho ho fun k => History.view_of_le (fun t hv => ?_) hs
  obtain ⟨c, hc⟩ := Option.ne_none_iff_exists'.mp hv
  obtain ⟨e, he, -, rfl, -⟩ := History.exists_of_ofList hc
  exact (hbound e he).trans hm

end Scan

section Flush

variable {memtable : List MemEntry} {f : LevelFiles}

theorem mem_considered_flush {e : MemEntry}
    (he : e ∈ considered [] (f.write 0 (mergeEntries memtable (f.entriesAt 0)))) :
    e ∈ considered memtable f := by
  rw [considered, LevelFiles.probedEntries_write_zero, List.append_nil] at he
  rw [considered, LevelFiles.probedEntries_eq_append, List.mem_append, List.mem_append]
  rcases List.mem_append.mp he with he | he
  · rcases mem_of_mem_priorityMerge he with he | he
    · exact .inr he
    · exact .inl (.inl he)
  · exact .inl (.inr he)

theorem ofList_considered_flush (ho : Ordered (considered memtable f))
    (hc : SameCells memtable f.probedEntries) :
    History.ofList (considered [] (f.write 0 (mergeEntries memtable (f.entriesAt 0)))) =
      History.ofList (considered memtable f) := by
  have hmem : Ordered memtable := ho.subset (List.subset_append_right _ _)
  have hlevels : Ordered f.probedEntries := ho.subset (List.subset_append_left _ _)
  have hagree : History.Agree (History.ofList memtable) (History.ofList f.probedEntries) := by
    intro k t c d hc' hd
    obtain ⟨x, hx, hkx, htx, rfl⟩ := History.exists_of_ofList hc'
    obtain ⟨y, hy, hky, hty, rfl⟩ := History.exists_of_ofList hd
    exact hc x hx y hy (hkx.trans hky.symm) (htx.trans hty.symm)
  have hl0 : f.entriesAt 0 ⊆ f.probedEntries := by
    rw [LevelFiles.probedEntries_eq_append]
    exact List.subset_append_left _ _
  have hmerge := ofList_mergeEntries hmem (hlevels.subset hl0)
    (.inr fun x hx y hy => hc x hx y (hl0 hy))
  rw [considered, LevelFiles.probedEntries_write_zero, List.append_nil, History.ofList_append, hmerge,
    considered, History.ofList_append, ← hagree.overlay_comm, LevelFiles.probedEntries_eq_append,
    History.ofList_append, History.overlay_assoc]

end Flush

end CoroDB
