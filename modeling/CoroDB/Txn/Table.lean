import CoroDB.Storage.ReadAgreement

/-!
# Storage-backed tables

`SqlTable` as the transaction layer uses it: it reads the versions that the storage engine holds and
adds versions to the memtable.
-/

namespace CoroDB

open Framework

/-- The snapshot `UINT64_MAX`, which sees the latest version of every key. -/
def maxTs : UInt64 := 0xFFFFFFFFFFFFFFFF

theorem ts_le_maxTs (s : UInt64) : s ≤ maxTs := by
  rw [UInt64.le_iff_toNat_le]
  have hlt := s.toNat_lt
  have hmax : maxTs.toNat = 18446744073709551615 := rfl
  omega

structure SqlTable where
  columns : List Column
  columns_ne : columns ≠ []
  memtable : List MemEntry
  files : LevelFiles
  writeCounter : UInt64

namespace SqlTable

def fresh (columns : List Column) (h : columns ≠ []) : SqlTable := ⟨columns, h, [], .fresh, 0⟩

def rowKey (t : SqlTable) (row : Row) : Value := extractKey row t.columns

def versions (t : SqlTable) : List MemEntry := considered t.memtable t.files

def scanVisible (t : SqlTable) (s : UInt64) : List Row := CoroDB.scanVisible t.memtable t.files s

def scanVisibleStream (t : SqlTable) (s : UInt64) : Option (List Row) :=
  CoroDB.scanVisibleStream t.memtable t.files s (sources t.memtable t.files).flatten.length

def lookupVisible (t : SqlTable) (pk : Value) (s : UInt64) : Option Row :=
  CoroDB.lookupVisible (fun _ _ => true) t.memtable t.files pk s

def put (t : SqlTable) (e : MemEntry) : SqlTable := { t with memtable := mergeEntries [e] t.memtable }

def puts (t : SqlTable) (es : List MemEntry) : SqlTable := es.foldl put t

def bumpWriteCounter (t : SqlTable) : SqlTable := { t with writeCounter := t.writeCounter + 1 }

def persistRowUpsert (t : SqlTable) (row : Row) (commitTs : UInt64) : SqlTable :=
  (t.put ⟨t.rowKey row, row, false, commitTs⟩).bumpWriteCounter

def persistRowDelete (t : SqlTable) (key : Value) (commitTs : UInt64) : SqlTable :=
  (t.put ⟨key, ⟨[]⟩, true, commitTs⟩).bumpWriteCounter

def insertBatch (t : SqlTable) (rows : List Row) (commitTs : UInt64) : SqlTable :=
  if rows.isEmpty then t
  else (t.puts (rows.map fun row => ⟨t.rowKey row, row, false, commitTs⟩)).bumpWriteCounter

/-- What the storage engine keeps of the versions of a table: ordered keys, every source sorted, one
content for each version, and every row full and stored under its own key. -/
structure Sound (t : SqlTable) : Prop where
  ordered : Ordered t.versions
  sorted : ∀ src ∈ sources t.memtable t.files, SortedVersions src
  coherent : SameCells t.versions t.versions
  keyed : ∀ e ∈ t.versions, e.tombstone = false → e.pk = t.rowKey e.row
  full : ∀ e ∈ t.versions, e.tombstone = false → e.row.values.length = t.columns.length

/-- The same with the comparators of the source, which also say it of keys that are a `NaN`. -/
structure Stored (t : SqlTable) : Prop where
  sorted : ∀ src ∈ sources t.memtable t.files, Sorted src
  coherent : Coherent t.versions
  keyed : ∀ e ∈ t.versions, e.tombstone = false → e.pk = t.rowKey e.row
  full : ∀ e ∈ t.versions, e.tombstone = false → e.row.values.length = t.columns.length

instance Stored.decidable (t : SqlTable) : Decidable t.Stored :=
  decidable_of_iff ((∀ src ∈ sources t.memtable t.files, Sorted src) ∧ Coherent t.versions ∧
      (∀ e ∈ t.versions, e.tombstone = false → e.pk = t.rowKey e.row) ∧
      ∀ e ∈ t.versions, e.tombstone = false → e.row.values.length = t.columns.length)
    ⟨fun h => ⟨h.1, h.2.1, h.2.2.1, h.2.2.2⟩, fun h => ⟨h.sorted, h.coherent, h.keyed, h.full⟩⟩

theorem Stored.sound {t : SqlTable} (h : t.Stored) (ho : Ordered t.versions) : t.Sound where
  ordered := ho
  sorted src hsrc := by
    have hsub : Ordered src :=
      fun e he => ho e ((mem_sources_flatten e).mp (List.mem_flatten_of_mem hsrc he))
    exact (sorted_iff hsub).mp (h.sorted src hsrc)
  coherent := (coherent_iff ho).mp h.coherent
  keyed := h.keyed
  full := h.full

noncomputable def view (t : SqlTable) (s : UInt64) (k : ValueKey) : Option Row :=
  History.view (History.ofList t.versions) k s

variable {t : SqlTable} {s : UInt64} {k : ValueKey} {e : MemEntry}

section Reads

theorem Sound.ordered_sources (h : t.Sound) : Ordered (sources t.memtable t.files).flatten :=
  fun e he => h.ordered e ((mem_sources_flatten e).mp he)

theorem Sound.coherent_sources (h : t.Sound) :
    SameCells (sources t.memtable t.files).flatten (sources t.memtable t.files).flatten :=
  h.coherent.subset fun e he => (mem_sources_flatten e).mp he

theorem Sound.scanVisibleStream_eq (h : t.Sound) (s : UInt64) :
    t.scanVisibleStream s = some (t.scanVisible s) :=
  scanVisibleStream_eq_scanVisible h.ordered_sources h.sorted h.coherent_sources

theorem scanVisibleStream_of_isNaN (h : ∃ e ∈ t.versions, e.pk.isNaN = true) (s : UInt64) :
    t.scanVisibleStream s = none := by
  obtain ⟨e, he, hnan⟩ := h
  exact streamLoop_of_isNaN ⟨e, (mem_sources_flatten e).mpr he, hnan⟩ _

theorem Sound.lookupVisible_eq {pk : Value} (h : t.Sound) (hpk : pk.isNaN = false) (s : UInt64) :
    t.lookupVisible pk s = t.view s (valueKey pk) := by
  rw [view, versions, ofList_considered h.coherent_sources]
  exact lookupVisible_eq_view h.ordered_sources h.sorted (fun _ _ _ => rfl) hpk s

theorem Sound.scanVisible_congr {t' : SqlTable} {s' : UInt64} (h : t.Sound) (h' : t'.Sound)
    (hview : t.view s = t'.view s') : t.scanVisible s = t'.scanVisible s' :=
  CoroDB.scanVisible_congr h.ordered h'.ordered fun k => congrFun hview k

theorem view_eq_maxTs (hs : ∀ x ∈ t.versions, x.commitTs ≤ s) : t.view s = t.view maxTs := by
  funext k
  refine History.view_of_le (fun τ hv => ?_) (ts_le_maxTs s)
  obtain ⟨c, hc⟩ := Option.ne_none_iff_exists'.mp hv
  obtain ⟨e, he, -, rfl, -⟩ := History.exists_of_ofList hc
  exact hs e he

theorem exists_of_view {row : Row} (h : t.view s k = some row) :
    ∃ e ∈ t.versions, valueKey e.pk = k ∧ e.tombstone = false ∧ e.row = row ∧ e.commitTs ≤ s := by
  rcases History.ofList_founded t.versions k s with hnone | ⟨τ, c, hn⟩
  · rw [view, History.view_eq_none hnone] at h
    exact absurd h.symm (Option.some_ne_none row)
  · rw [view, History.view_eq hn] at h
    subst h
    obtain ⟨e, he, hk, -, hcell, hs, -⟩ := exists_of_isNewest hn
    refine ⟨e, he, hk, ?_, ?_, hs⟩
    · by_contra htomb
      simp [Versioned.cell, MemEntry.content, htomb] at hcell
    · simp only [Versioned.cell, MemEntry.content] at hcell
      split at hcell
      · exact absurd hcell.symm (Option.some_ne_none row)
      · exact Option.some.inj hcell

theorem Sound.of_view {row : Row} (h : t.Sound) (hv : t.view s k = some row) :
    valueKey (t.rowKey row) = k ∧ (t.rowKey row).isNaN = false ∧
      row.values.length = t.columns.length := by
  obtain ⟨e, he, hk, htomb, rfl, -⟩ := exists_of_view hv
  have hkey := h.keyed e he htomb
  exact ⟨hkey ▸ hk, hkey ▸ h.ordered e he, h.full e he htomb⟩

theorem ne_nil_of_full {row : Row} (h : row.values.length = t.columns.length) : row.values ≠ [] := by
  intro hnil
  rw [hnil, List.length_nil] at h
  exact t.columns_ne (List.length_eq_zero_iff.mp h.symm)

theorem Sound.mem_scanVisible {row : Row} (h : t.Sound) :
    row ∈ t.scanVisible s ↔ t.view s (valueKey (t.rowKey row)) = some row := by
  have hl := scanVisible_listing h.ordered s
  rw [scanVisible, CoroDB.scanVisible, ← keyedRows_map_snd]
  constructor
  · intro hrow
    obtain ⟨p, hp, rfl⟩ := List.mem_map.mp hrow
    have hv := ((hl.mem_iff _ _).mp (List.mem_map_of_mem hp)).1
    have hk := (h.of_view hv).1
    rw [hk]
    exact hv
  · intro hv
    have hne := ne_nil_of_full (h.of_view hv).2.2
    have hmem := (hl.mem_iff _ _).mpr ⟨hv, hne⟩
    obtain ⟨p, hp, hpe⟩ := List.mem_map.mp hmem
    exact List.mem_map.mpr ⟨p, hp, (Prod.mk.inj hpe).2⟩

theorem Sound.mem_scanVisible_of_newest (h : t.Sound) (he : e ∈ t.versions)
    (hrow : e.tombstone = false) (hs : e.commitTs ≤ s)
    (hmax : ∀ x ∈ t.versions, valueEq x.pk e.pk = true → x.commitTs ≤ s →
      x.commitTs ≤ e.commitTs) : e.row ∈ t.scanVisible s := by
  rw [h.mem_scanVisible, ← h.keyed e he hrow]
  have hnew : History.IsNewest (History.ofList t.versions) (valueKey e.pk) s e.commitTs e.content := by
    apply isNewest_of_mem h.coherent he hs
    intro x hx hk
    exact hmax x hx ((valueEq_iff (h.ordered x hx) (h.ordered e he)).mpr hk)
  rw [view, History.view_eq hnew, MemEntry.content, if_neg (by simp [hrow])]

end Reads

section Writes

theorem mem_versions_put {x : MemEntry} (hx : x ∈ (t.put e).versions) : x = e ∨ x ∈ t.versions := by
  rcases List.mem_append.mp hx with hx | hx
  · exact .inr (List.mem_append_left _ hx)
  · rcases mem_of_mem_priorityMerge hx with hx | hx
    · exact .inl (List.mem_singleton.mp hx)
    · exact .inr (List.mem_append_right _ hx)

/-- The entry is one that the table may take: its key is ordered, no level file holds its version
with another content, and a row is full and under its own key. -/
structure Takes (t : SqlTable) (e : MemEntry) : Prop where
  ordered : e.pk.isNaN = false
  agrees : ∀ x ∈ t.files.probedEntries, valueKey x.pk = valueKey e.pk → x.commitTs = e.commitTs →
    x.content = e.content
  keyed : e.tombstone = false → e.pk = t.rowKey e.row
  full : e.tombstone = false → e.row.values.length = t.columns.length

/-- The entry is also not older than a version of the table, and no level file has its timestamp. -/
structure Accepts (t : SqlTable) (e : MemEntry) : Prop where
  ordered : e.pk.isNaN = false
  newest : ∀ x ∈ t.versions, x.commitTs ≤ e.commitTs
  fresh : ∀ x ∈ t.files.probedEntries, x.commitTs ≠ e.commitTs
  keyed : e.tombstone = false → e.pk = t.rowKey e.row
  full : e.tombstone = false → e.row.values.length = t.columns.length

theorem Accepts.takes (he : t.Accepts e) : t.Takes e :=
  ⟨he.ordered, fun x hx _ hts => absurd hts (he.fresh x hx), he.keyed, he.full⟩

theorem Takes.ordered_singleton (he : t.Takes e) : Ordered [e] := by
  intro x hx
  rw [List.mem_singleton.mp hx]
  exact he.ordered

theorem ofList_put (h : t.Sound) (he : t.Takes e) (k : ValueKey) (τ : UInt64) :
    History.ofList (t.put e).versions k τ =
      if valueKey e.pk = k ∧ e.commitTs = τ then some e.content
      else History.ofList t.versions k τ := by
  have hmem : Ordered t.memtable := h.ordered.subset (List.subset_append_right _ _)
  have hsorted := h.sorted t.memtable List.mem_cons_self
  have hmerge := ofList_mergeEntries he.ordered_singleton hmem (.inl ⟨List.pairwise_singleton _ _, hsorted⟩)
  have hprobed : History.ofList (t.put e).versions k τ =
      (History.ofList t.files.probedEntries k τ).or
        ((History.ofList [e] k τ).or (History.ofList t.memtable k τ)) := by
    rw [versions, considered, History.ofList_append, History.overlay_apply]
    change Option.or _ (History.ofList (mergeEntries [e] t.memtable) k τ) = _
    rw [hmerge, History.overlay_apply]
    rfl
  rw [hprobed]
  by_cases hv : valueKey e.pk = k ∧ e.commitTs = τ
  · have hfile : ∀ c, History.ofList t.files.probedEntries k τ = some c → c = e.content := by
      intro c hc
      obtain ⟨x, hx, hk, hτ, hcell⟩ := History.exists_of_ofList hc
      exact hcell.symm.trans (he.agrees x hx (hk.trans hv.1.symm) (hτ.trans hv.2.symm))
    have hcell : History.ofList [e] k τ = some e.content :=
      (History.ofList_cons e [] k τ).trans (if_pos hv)
    rw [if_pos hv, hcell]
    cases hc : History.ofList t.files.probedEntries k τ with
    | none => rfl
    | some c => rw [hfile c hc]; rfl
  · have hnone : History.ofList [e] k τ = none :=
      (History.ofList_cons e [] k τ).trans (if_neg hv)
    rw [if_neg hv, hnone, versions, considered, History.ofList_append, History.overlay_apply,
      Option.none_or]

theorem Sound.view_put (h : t.Sound) (he : t.Accepts e) (s : UInt64) (k : ValueKey) :
    (t.put e).view s k =
      if valueKey e.pk = k ∧ e.commitTs ≤ s then e.content else t.view s k := by
  split_ifs with hk
  · apply History.view_eq
    refine ⟨by rw [ofList_put h he.takes, if_pos ⟨hk.1, rfl⟩], hk.2, ?_⟩
    intro τ _ hv
    obtain ⟨c, hc⟩ := Option.ne_none_iff_exists'.mp hv
    obtain ⟨x, hx, -, rfl, -⟩ := History.exists_of_ofList hc
    rcases mem_versions_put hx with rfl | hx
    · exact le_rfl
    · exact he.newest x hx
  · apply History.view_congr
    intro τ hτ
    rw [ofList_put h he.takes, if_neg]
    rintro ⟨hke, rfl⟩
    exact hk ⟨hke, hτ⟩

theorem Sound.put_sorted (h : t.Sound) (he : t.Takes e) :
    SortedVersions (mergeEntries [e] t.memtable) :=
  mergeEntries_sorted he.ordered_singleton (h.ordered.subset (List.subset_append_right _ _))
    (List.pairwise_singleton _ _) (h.sorted t.memtable List.mem_cons_self)

theorem Sound.put (h : t.Sound) (he : t.Takes e) : (t.put e).Sound where
  ordered x hx := by
    rcases mem_versions_put hx with rfl | hx
    · exact he.ordered
    · exact h.ordered x hx
  sorted src hsrc := by
    rcases List.mem_cons.mp hsrc with rfl | hsrc
    · exact h.put_sorted he
    · exact h.sorted src (List.mem_cons_of_mem _ hsrc)
  coherent x hx y hy hk ht := by
    have hold : ∀ x ∈ mergeEntries [e] t.memtable, ∀ y ∈ t.files.probedEntries,
        Versioned.key x = Versioned.key y → Versioned.ts x = Versioned.ts y →
          Versioned.cell x = Versioned.cell y := by
      intro x hx y hy hk ht
      rcases mem_of_mem_priorityMerge hx with hx | hx
      · rw [List.mem_singleton.mp hx] at hk ht ⊢
        exact (he.agrees y hy hk.symm ht.symm).symm
      · exact h.coherent x (List.mem_append_right _ hx) y (List.mem_append_left _ hy) hk ht
    rcases List.mem_append.mp hx with hx | hx <;> rcases List.mem_append.mp hy with hy | hy
    · exact h.coherent x (List.mem_append_left _ hx) y (List.mem_append_left _ hy) hk ht
    · exact (hold y hy x hx hk.symm ht.symm).symm
    · exact hold x hx y hy hk ht
    · exact (h.put_sorted he).sameCells x hx y hy hk ht
  keyed x hx htomb := by
    rcases mem_versions_put hx with rfl | hx
    · exact he.keyed htomb
    · exact h.keyed x hx htomb
  full x hx htomb := by
    rcases mem_versions_put hx with rfl | hx
    · exact he.full htomb
    · exact h.full x hx htomb

end Writes

section Batches

variable {ts : UInt64} {es : List MemEntry}

/-- What an entry must be like whatever the table holds. -/
structure Fits (t : SqlTable) (e : MemEntry) : Prop where
  ordered : e.pk.isNaN = false
  keyed : e.tombstone = false → e.pk = t.rowKey e.row
  full : e.tombstone = false → e.row.values.length = t.columns.length

instance Fits.decidable (t : SqlTable) (e : MemEntry) : Decidable (t.Fits e) :=
  decidable_of_iff (e.pk.isNaN = false ∧ (e.tombstone = false → e.pk = t.rowKey e.row) ∧
      (e.tombstone = false → e.row.values.length = t.columns.length))
    ⟨fun h => ⟨h.1, h.2.1, h.2.2⟩, fun h => ⟨h.ordered, h.keyed, h.full⟩⟩

/-- The versions are up to a timestamp, those of the level files below it. -/
structure Behind (t : SqlTable) (ts : UInt64) : Prop where
  versions_le : ∀ x ∈ t.versions, x.commitTs ≤ ts
  files_ne : ∀ x ∈ t.files.probedEntries, x.commitTs ≠ ts

theorem behind_of_lt (h : ∀ x ∈ t.versions, x.commitTs < ts) : t.Behind ts where
  versions_le x hx := (h x hx).le
  files_ne x hx := (h x (List.mem_append_left _ hx)).ne

theorem Behind.accepts (h : t.Behind ts) (he : t.Fits e) (hts : e.commitTs = ts) : t.Accepts e where
  ordered := he.ordered
  newest x hx := hts ▸ h.versions_le x hx
  fresh x hx := hts ▸ h.files_ne x hx
  keyed := he.keyed
  full := he.full

theorem Behind.put (h : t.Behind ts) (hts : e.commitTs = ts) : (t.put e).Behind ts where
  versions_le x hx := by
    rcases mem_versions_put hx with rfl | hx
    · exact hts.le
    · exact h.versions_le x hx
  files_ne := h.files_ne

theorem Fits.put {x : MemEntry} (h : t.Fits e) : (t.put x).Fits e := ⟨h.ordered, h.keyed, h.full⟩

theorem puts_cons (t : SqlTable) (e : MemEntry) (es : List MemEntry) :
    t.puts (e :: es) = (t.put e).puts es := rfl

theorem mem_versions_puts {x : MemEntry} (hx : x ∈ (t.puts es).versions) :
    x ∈ es ∨ x ∈ t.versions := by
  induction es generalizing t with
  | nil => exact .inr hx
  | cons e es ih =>
    rcases ih hx with hx | hx
    · exact .inl (List.mem_cons_of_mem _ hx)
    · rcases mem_versions_put hx with rfl | hx
      · exact .inl List.mem_cons_self
      · exact .inr hx

@[simp]
theorem puts_columns (t : SqlTable) (es : List MemEntry) : (t.puts es).columns = t.columns := by
  induction es generalizing t with
  | nil => rfl
  | cons e es ih => exact ih (t.put e)

theorem Sound.puts (h : t.Sound) (hts : t.Behind ts)
    (hes : ∀ e ∈ es, t.Fits e ∧ e.commitTs = ts) : (t.puts es).Sound := by
  induction es generalizing t with
  | nil => exact h
  | cons e es ih =>
    obtain ⟨hfit, he⟩ := hes e List.mem_cons_self
    apply ih (h.put (hts.accepts hfit he).takes) (hts.put he)
    intro x hx
    obtain ⟨hfit', hx'⟩ := hes x (List.mem_cons_of_mem _ hx)
    exact ⟨hfit'.put, hx'⟩

def latest (es : List MemEntry) (k : ValueKey) : Option MemEntry :=
  (es.filter fun e => valueKey e.pk = k).getLast?

theorem latest_cons (e : MemEntry) (es : List MemEntry) (k : ValueKey) :
    latest (e :: es) k = (latest es k).or (if valueKey e.pk = k then some e else none) := by
  rw [latest, List.filter_cons]
  split_ifs with hc hk hk
  · rw [List.getLast?_cons]
    cases h : (es.filter fun e => decide (valueKey e.pk = k)).getLast? <;> simp [latest, h]
  · exact absurd (of_decide_eq_true hc) hk
  · exact absurd (decide_eq_true hk) hc
  · rw [Option.or_none]
    rfl

theorem Sound.view_puts (h : t.Sound) (hts : t.Behind ts)
    (hes : ∀ e ∈ es, t.Fits e ∧ e.commitTs = ts) (s : UInt64) (k : ValueKey) :
    (t.puts es).view s k =
      if ts ≤ s then (latest es k).elim (t.view s k) MemEntry.content else t.view s k := by
  induction es generalizing t with
  | nil => exact (ite_self _).symm
  | cons e es ih =>
    obtain ⟨hfit, he⟩ := hes e List.mem_cons_self
    have hacc := hts.accepts hfit he
    have hrest : ∀ x ∈ es, (t.put e).Fits x ∧ x.commitTs = ts := by
      intro x hx
      obtain ⟨hfit', hx'⟩ := hes x (List.mem_cons_of_mem _ hx)
      exact ⟨hfit'.put, hx'⟩
    rw [puts_cons, ih (h.put hacc.takes) (hts.put he) hrest, h.view_put hacc, latest_cons, he]
    by_cases hs : ts ≤ s
    · cases latest es k with
      | some x => simp [hs]
      | none =>
        by_cases hk : valueKey e.pk = k <;> simp [hs, hk]
    · simp [hs]

end Batches

section TableWrites

/-- A write of a transaction's buffer to one table. -/
inductive Write where
  | delete (key : Value)
  | upsert (row : Row)
  deriving DecidableEq, Repr

def applyWrite (ts : UInt64) (t : SqlTable) : Write → SqlTable
  | .delete key => t.persistRowDelete key ts
  | .upsert row => t.persistRowUpsert row ts

def applyWrites (t : SqlTable) (ws : List Write) (ts : UInt64) : SqlTable := ws.foldl (applyWrite ts) t

def entryOf (t : SqlTable) (ts : UInt64) : Write → MemEntry
  | .delete key => ⟨key, ⟨[]⟩, true, ts⟩
  | .upsert row => ⟨t.rowKey row, row, false, ts⟩

theorem bumps_put (n : Nat) (t : SqlTable) (e : MemEntry) :
    (bumpWriteCounter^[n] t).put e = bumpWriteCounter^[n] (t.put e) := by
  induction n generalizing t with
  | zero => rfl
  | succ n ih => exact ih t.bumpWriteCounter

theorem bumps_puts (n : Nat) (t : SqlTable) (es : List MemEntry) :
    (bumpWriteCounter^[n] t).puts es = bumpWriteCounter^[n] (t.puts es) := by
  induction es generalizing t with
  | nil => rfl
  | cons e es ih => rw [puts_cons, bumps_put, ih, puts_cons]

theorem applyWrites_eq (t : SqlTable) (ws : List Write) (ts : UInt64) :
    t.applyWrites ws ts = bumpWriteCounter^[ws.length] (t.puts (ws.map (t.entryOf ts))) := by
  induction ws generalizing t with
  | nil => rfl
  | cons w ws ih =>
    have hw : applyWrite ts t w = bumpWriteCounter^[1] (t.put (t.entryOf ts w)) := by
      cases w <;> rfl
    have hentry : (applyWrite ts t w).entryOf ts = t.entryOf ts := by
      funext x
      cases w <;> cases x <;> rfl
    rw [applyWrites, List.foldl_cons, ← applyWrites, ih, hentry, hw, bumps_puts,
      ← Function.iterate_add_apply, List.length_cons, List.map_cons, puts_cons]

theorem bumps_versions (n : Nat) (t : SqlTable) :
    (bumpWriteCounter^[n] t).versions = t.versions := by
  induction n generalizing t with
  | zero => rfl
  | succ n ih => exact ih t.bumpWriteCounter

theorem bumps_view (n : Nat) (t : SqlTable) : (bumpWriteCounter^[n] t).view = t.view := by
  funext s k
  rw [view, bumps_versions, view]

theorem bumps_columns (n : Nat) (t : SqlTable) : (bumpWriteCounter^[n] t).columns = t.columns := by
  induction n generalizing t with
  | zero => rfl
  | succ n ih => exact ih t.bumpWriteCounter

theorem Sound.bumps (h : t.Sound) (n : Nat) : (bumpWriteCounter^[n] t).Sound := by
  induction n generalizing t with
  | zero => exact h
  | succ n ih => exact ih ⟨h.ordered, h.sorted, h.coherent, h.keyed, h.full⟩

end TableWrites

section Flush

def flush (t : SqlTable) : SqlTable :=
  { t with
    memtable := []
    files := t.files.write 0 (mergeEntries t.memtable (t.files.entriesAt 0)) }

theorem Sound.ofList_flush (h : t.Sound) :
    History.ofList t.flush.versions = History.ofList t.versions :=
  ofList_considered_flush h.ordered fun x hx y hy =>
    h.coherent x (List.mem_append_right _ hx) y (List.mem_append_left _ hy)

theorem mem_sources_write_zero {f : LevelFiles} {es src : List MemEntry} (memtable : List MemEntry)
    (h : src ∈ sources [] (f.write 0 es)) : src = [] ∨ src = es ∨ src ∈ sources memtable f := by
  rcases List.mem_cons.mp h with rfl | h
  · exact .inl rfl
  · obtain ⟨p, hp, rfl⟩ := List.mem_map.mp h
    obtain ⟨level, hlevel, hfile⟩ := List.mem_filterMap.mp hp
    obtain ⟨x, hx, rfl⟩ := Option.map_eq_some_iff.mp hfile
    rw [LevelFiles.probedLevels, LevelFiles.maxLevel_write_zero] at hlevel
    by_cases hzero : level = 0
    · subst hzero
      rw [LevelFiles.write_file_self] at hx
      exact .inr (.inl (Option.some.inj hx).symm)
    · rw [LevelFiles.write_file_of_ne f hzero] at hx
      refine .inr (.inr (mem_sources_of_probed (p := (level, x)) ?_ memtable))
      exact List.mem_filterMap.mpr ⟨level, hlevel, by rw [hx]; rfl⟩

theorem Sound.sorted_entriesAt_zero (h : t.Sound) : SortedVersions (t.files.entriesAt 0) := by
  cases hfile : t.files.file 0 with
  | none =>
    rw [LevelFiles.entriesAt, hfile]
    exact List.Pairwise.nil
  | some es =>
    rw [LevelFiles.entriesAt_of_file hfile]
    apply h.sorted
    apply mem_sources_of_probed (p := (0, es))
    exact List.mem_filterMap.mpr ⟨0, List.mem_range.mpr (Nat.succ_pos _), by rw [hfile]; rfl⟩

theorem Sound.flush (h : t.Sound) : t.flush.Sound := by
  have hsub : ∀ e ∈ t.flush.versions, e ∈ t.versions := fun e he => mem_considered_flush he
  refine ⟨fun e he => h.ordered e (hsub e he), fun src hsrc => ?_,
    h.coherent.subset hsub, fun e he => h.keyed e (hsub e he), fun e he => h.full e (hsub e he)⟩
  have hmem : Ordered t.memtable := h.ordered.subset (List.subset_append_right _ _)
  have hzero : Ordered (t.files.entriesAt 0) := by
    apply h.ordered.subset
    rw [versions, considered, LevelFiles.probedEntries_eq_append, List.append_assoc]
    exact List.subset_append_left _ _
  rcases mem_sources_write_zero t.memtable hsrc with rfl | rfl | hsrc
  · exact List.Pairwise.nil
  · exact mergeEntries_sorted hmem hzero (h.sorted _ List.mem_cons_self) h.sorted_entriesAt_zero
  · exact h.sorted src hsrc

theorem Sound.scanVisible_flush (h : t.Sound) (s : UInt64) :
    t.flush.scanVisible s = t.scanVisible s := by
  apply h.flush.scanVisible_congr h
  funext k
  rw [view, h.ofList_flush, view]

end Flush

theorem fresh_sound (columns : List Column) (h : columns ≠ []) : (fresh columns h).Sound where
  ordered e he := absurd he List.not_mem_nil
  sorted src hsrc := by
    have hnil : ∀ src ∈ sources [] LevelFiles.fresh, src = [] := by decide
    rw [hnil src hsrc]
    exact List.Pairwise.nil
  coherent e he := absurd he List.not_mem_nil
  keyed e he := absurd he List.not_mem_nil
  full e he := absurd he List.not_mem_nil

end SqlTable

end CoroDB
