import CoroDB.Exec.Index

/-!
# Indexes in memory and on disk

CREATE INDEX and DROP INDEX change the indexes of a table in memory, their files and the registry of
their names.
-/

namespace CoroDB

open Framework

/-- The text of the `.idx_names` file. -/
def saveIndexRegistry (registry : KeyMap (KeyEq.ofDecidableEq Bytes) Bytes) : Bytes :=
  registry.entries.flatMap fun e => e.1 ++ 0x3a :: e.2 ++ [0x0a]

/-- A line `index_name:column_name` of the registry; a line without a colon is skipped. -/
def loadRegistryLine (registry : KeyMap (KeyEq.ofDecidableEq Bytes) Bytes) (line : Bytes) :
    KeyMap (KeyEq.ofDecidableEq Bytes) Bytes :=
  (line.idxOf? 0x3a).elim registry fun colon =>
    registry.assign (line.take colon) (line.drop (colon + 1))

def loadIndexRegistry (text : Bytes) : KeyMap (KeyEq.ofDecidableEq Bytes) Bytes :=
  (text.splitOn 0x0a).foldl loadRegistryLine .empty

def compositeColumns (value : Bytes) : List Bytes :=
  let columns := value.splitOn 0x1f
  if columns.getLast? = some [] then columns.dropLast else columns

/-- A table with its indexes in memory, the registry file and the entries of its index files, in the
order of the directory. -/
structure StoredIndexes where
  live : IndexedTable
  registryFile : Bytes
  indexFiles : KeyMap (KeyEq.ofDecidableEq Bytes) (List (Value × Value))

namespace StoredIndexes

variable (s : StoredIndexes) (indexName : Bytes)

def registry : KeyMap (KeyEq.ofDecidableEq Bytes) Bytes := s.live.defs.nameRegistry

/-- `write_index_file`, which appends entries and truncates the file when there are none. -/
def writeIndexFile (name : Bytes) (entries : List (Value × Value)) :
    KeyMap (KeyEq.ofDecidableEq Bytes) (List (Value × Value)) :=
  s.indexFiles.assign name
    (if entries.isEmpty then [] else (s.indexFiles.get? name).getD [] ++ entries)

def builtFiles : List Bytes → KeyMap (KeyEq.ofDecidableEq Bytes) (List (Value × Value))
  | [] => s.indexFiles
  | [column] =>
    if column ∈ s.live.defs.indexedColumns then s.indexFiles
    else s.writeIndexFile column (s.live.builtEntries (s.live.table.columnValue column))
  | columns =>
    if s.live.defs.compositeIndexes.contains indexName then s.indexFiles
    else s.writeIndexFile indexName (s.live.builtEntries (s.live.table.compositeKey columns))

def savedRegistry (columns : List Bytes) : Bytes :=
  if indexName = [] ∨ columns = [] then s.registryFile
  else saveIndexRegistry (s.live.defs.createIndex indexName columns).nameRegistry

/-- `Table::create_index` with its files. -/
def createIndex (columns : List Bytes) : Except String StoredIndexes :=
  (s.live.createIndex indexName columns).map fun live =>
    ⟨live, s.savedRegistry indexName columns, s.builtFiles indexName columns⟩

/-- The column whose index `drop_index` removes. -/
def dropColumn : Bytes := (s.registry.get? indexName).getD indexName

/-- `Table::drop_index` with its files. -/
def dropIndex : Option StoredIndexes :=
  (s.live.dropIndex indexName).map fun live =>
    { live
      registryFile := saveIndexRegistry live.defs.nameRegistry
      indexFiles := s.indexFiles.erase (s.dropColumn indexName) }

def loadEntries (name : Bytes) : List (Value × Value) :=
  ((s.indexFiles.get? name).getD []).foldl (fun m e => Multimap.emplace valueLess m e.1 e.2) []

def listedColumns : List Bytes :=
  (s.indexFiles.entries.map Prod.fst).filter fun n =>
    n ≠ [] && (s.live.table.findColumn n).isSome

/-- The indexes that the constructor of `Table` loads. -/
def reopen : IndexedTable :=
  let registry := loadIndexRegistry s.registryFile
  let composite := registry.entries.filter fun e => e.2.contains 0x1f
  { table := s.live.table
    defs :=
      { indexedColumns := s.listedColumns
        compositeIndexes := composite.foldl (fun m e => m.assign e.1 (compositeColumns e.2)) .empty
        nameRegistry := registry }
    indexes := (s.listedColumns ++ composite.map Prod.fst).foldl
      (fun m n => m.assign n (s.loadEntries n)) .empty }

/-- The two tables have the same indexes in memory. -/
structure SameDefs (d d' : IndexDefs) : Prop where
  columns : ∀ c, c ∈ d'.indexedColumns ↔ c ∈ d.indexedColumns
  composite : ∀ n, d'.compositeIndexes.get? n = d.compositeIndexes.get? n
  names : ∀ n, d'.nameRegistry.get? n = d.nameRegistry.get? n

def SameAnswers (t t' : IndexedTable) (name : Bytes) : Prop :=
  (∀ key, t'.lookupIndex name key = t.lookupIndex name key) ∧
    ∀ r, t'.lookupIndexRange name r = t.lookupIndexRange name r

/-- What DROP INDEX is to restore after CREATE INDEX. -/
structure Restored (s s₁ s₂ : StoredIndexes) : Prop where
  memory : SameDefs s.live.defs s₂.live.defs
  registry : loadIndexRegistry s₂.registryFile = loadIndexRegistry s.registryFile
  reopened : s₂.reopen = s.reopen
  others : ∀ n, n ∈ s.live.defs.indexedColumns ∨ s.live.defs.compositeIndexes.contains n = true →
    SameAnswers s.live s₁.live n ∧ SameAnswers s.live s₂.live n

/-- The files go with the indexes in memory: the file of a column is that of an index, and the registry
file was written from the registry. The columns of a table have names. -/
structure Synced (s : StoredIndexes) : Prop where
  named : ∀ c, (s.live.table.findColumn c).isSome = true → c ≠ []
  nodup : s.live.defs.indexedColumns.Nodup
  registry : loadIndexRegistry s.registryFile = loadIndexRegistry (saveIndexRegistry s.registry)
  indexed : ∀ c, (s.live.table.findColumn c).isSome = true → s.indexFiles.contains c = true →
    c ∈ s.live.defs.indexedColumns ∨ s.live.defs.compositeIndexes.contains c = true

/-- There is nothing under the name of a column, in memory, on disk or in the rows. -/
structure Blank (c : Bytes) : Prop where
  file : s.indexFiles.contains c = false
  entries : s.live.entriesOf c = []
  built : s.live.builtEntries (s.live.table.columnValue c) = []

/-- CREATE INDEX makes the first index of one column under a new name, and a composite index with the
name of the column, if there is one, is blank. -/
def Fresh (columns : List Bytes) : Prop :=
  ∃ c, columns = [c] ∧ c ∉ s.live.defs.indexedColumns ∧ indexName ≠ [] ∧
    s.registry.contains indexName = false ∧
    (s.live.defs.compositeIndexes.contains c = true → s.Blank c)

variable {s} {s₁ s₂ : StoredIndexes} {indexName : Bytes} {columns : List Bytes}

theorem createIndex_ok (h : s.createIndex indexName columns = .ok s₁) :
    (∀ c ∈ columns, (s.live.table.findColumn c).isSome = true) ∧
      s₁ = ⟨⟨(s.live.buildIndex indexName columns).table, s.live.defs.createIndex indexName columns,
        (s.live.buildIndex indexName columns).indexes⟩, s.savedRegistry indexName columns,
        s.builtFiles indexName columns⟩ := by
  rw [createIndex, IndexedTable.createIndex] at h
  cases hany : columns.any fun c => (s.live.table.findColumn c).isNone with
  | true =>
    rw [hany] at h
    cases h
  | false =>
    rw [hany] at h
    cases h
    refine ⟨fun c hc => ?_, rfl⟩
    simpa [Option.isSome_iff_ne_none] using List.any_eq_false.mp hany c hc

theorem dropIndex_eq_some_iff : s.dropIndex indexName = some s₂ ↔
    s.dropColumn indexName ∈ s.live.defs.indexedColumns ∧
      s₂ = ⟨⟨s.live.table, ⟨s.live.defs.indexedColumns.erase (s.dropColumn indexName),
          s.live.defs.compositeIndexes, s.registry.erase indexName⟩,
        s.live.indexes.erase (s.dropColumn indexName)⟩,
        saveIndexRegistry (s.registry.erase indexName),
        s.indexFiles.erase (s.dropColumn indexName)⟩ := by
  simp only [dropIndex, IndexedTable.dropIndex, IndexDefs.dropIndex, dropColumn, registry]
  split_ifs with h
  · simp [h, eq_comm]
  · simp [h]

theorem sameAnswers_of_entries {t t' : IndexedTable} {name : Bytes}
    (h : t'.entriesOf name = t.entriesOf name) : SameAnswers t t' name := by
  simp [SameAnswers, IndexedTable.lookupIndex, IndexedTable.lookupIndexRange, h]

theorem foldl_emplace_eq_nil {es m : List (Value × Value)} :
    es.foldl (fun m e => Multimap.emplace valueLess m e.1 e.2) m = [] ↔ es = [] ∧ m = [] := by
  induction es generalizing m with
  | nil => simp
  | cons e es ih =>
    have hne : Multimap.emplace valueLess m e.1 e.2 ≠ [] :=
      List.ne_nil_of_mem (Multimap.mem_emplace.mpr (.inl rfl))
    simp [ih, hne]

theorem entriesOf_eq_nil_iff {t t' : IndexedTable} {name : Bytes} (h : SameAnswers t t' name) :
    t'.entriesOf name = [] ↔ t.entriesOf name = [] := by
  have hall := h.2 {}
  simp only [IndexedTable.lookupIndexRange, KeyRange.first, KeyRange.last, Option.elim_none,
    Nat.zero_le, if_true, Option.some.injEq, Multimap.slice, List.drop_zero, Nat.sub_zero,
    List.take_length] at hall
  rw [← List.map_eq_nil_iff, ← valueKeyEq.dedup_eq_nil, hall, valueKeyEq.dedup_eq_nil,
    List.map_eq_nil_iff]

theorem not_restored_of_erased {c : Bytes} (hnodup : s.live.defs.indexedColumns.Nodup)
    (hc : c ∈ s.live.defs.indexedColumns)
    (h : s₂.live.defs.indexedColumns = s.live.defs.indexedColumns.erase c) : ¬ s.Restored s₁ s₂ := by
  intro hrestored
  have hmem := (hrestored.memory.columns c).mpr hc
  rw [h] at hmem
  exact hnodup.not_mem_erase hmem

theorem restored_of_fresh (h : s.Synced) (hok : s.createIndex indexName columns = .ok s₁)
    (hfresh : s.Fresh indexName columns) : ∃ s₂, s₁.dropIndex indexName = some s₂ ∧ s.Restored s₁ s₂ := by
  obtain ⟨c, rfl, hc, hname, hnew, hblank⟩ := hfresh
  obtain ⟨hknown, hs₁⟩ := createIndex_ok hok
  have hself : ∀ b : Bytes, (KeyEq.ofDecidableEq Bytes).eq b b = true := by simp
  have hnone : s.indexFiles.contains c = false := by
    rw [← Bool.not_eq_true]
    intro hfile
    rcases h.indexed c (hknown c (by simp)) hfile with hmem | hmem
    · exact hc hmem
    · simp [(hblank hmem).file] at hfile
  have hdefs : s₁.live.defs = ⟨s.live.defs.indexedColumns ++ [c], s.live.defs.compositeIndexes,
      s.registry.assign indexName c⟩ := by
    simp [hs₁, IndexDefs.createIndex, IndexDefs.register, hc, hname, registry]
  have hindexes : s₁.live.indexes = s.live.indexes.assign c
      ((s.live.builtEntries (s.live.table.columnValue c)).foldl
        (fun m e => Multimap.emplace valueLess m e.1 e.2) []) := by
    simp [hs₁, IndexedTable.buildIndex, hc, IndexedTable.rebuild]
  have hfiles : s₁.indexFiles.erase c = s.indexFiles := by
    simp only [hs₁, builtFiles, if_neg hc, writeIndexFile]
    exact KeyMap.erase_assign_of_free hnone (hself c)
  have htable : s₁.live.table = s.live.table := by
    simp [hs₁, IndexedTable.buildIndex, hc, IndexedTable.rebuild]
  have hregistry : s₁.registry.erase indexName = s.registry := by
    rw [registry, hdefs]
    exact KeyMap.erase_assign_of_free hnew (hself _)
  have hdrop : s₁.dropColumn indexName = c := by
    simp [dropColumn, registry, hdefs, KeyMap.get?_assign]
  refine ⟨_, dropIndex_eq_some_iff.mpr ⟨by simp [hdrop, hdefs], rfl⟩, ?_⟩
  rw [hdrop, hregistry, hfiles, htable]
  constructor
  case memory =>
    rw [hdefs, List.erase_append_right _ hc]
    exact ⟨by simp, fun n => rfl, fun n => rfl⟩
  case registry => exact h.registry.symm
  case reopened => simp only [reopen, listedColumns, loadEntries, h.registry]
  case others =>
    intro n hn
    by_cases hne : c = n
    · subst hne
      have hb := hblank (hn.resolve_left hc)
      have hentries := hb.entries
      rw [IndexedTable.entriesOf] at hentries
      constructor <;> apply sameAnswers_of_entries
      · simp [IndexedTable.entriesOf, hindexes, KeyMap.get?_assign, hb.built, hentries]
      · simp [IndexedTable.entriesOf, hindexes, KeyMap.get?_erase, hentries]
    · constructor <;> apply sameAnswers_of_entries
      · simp [IndexedTable.entriesOf, hindexes, KeyMap.get?_assign, hne]
      · simp [IndexedTable.entriesOf, hindexes, KeyMap.get?_assign, KeyMap.get?_erase, hne]

theorem synced_new {table : SqlTable} (h : ∀ c, (table.findColumn c).isSome = true → c ≠ []) :
    Synced ⟨⟨table, {}, .empty⟩, [], .empty⟩ where
  named := h
  nodup := List.nodup_nil
  registry := rfl
  indexed c _ hc := by simp at hc

/-- DROP INDEX undoes CREATE INDEX exactly for a fresh index of one column. -/
theorem restored_iff (h : s.Synced) (hok : s.createIndex indexName columns = .ok s₁) :
    (∃ s₂, s₁.dropIndex indexName = some s₂ ∧ s.Restored s₁ s₂) ↔ s.Fresh indexName columns := by
  refine ⟨?_, restored_of_fresh h hok⟩
  rintro ⟨s₂, hdrop, hrestored⟩
  obtain ⟨hmem, hs₂⟩ := dropIndex_eq_some_iff.mp hdrop
  obtain ⟨hknown, hs₁⟩ := createIndex_ok hok
  have hnames : s.registry.contains indexName = false := by
    have hnone := hrestored.memory.names indexName
    rw [hs₂, KeyMap.get?_erase, if_pos (by simp)] at hnone
    exact KeyMap.get?_eq_none_iff.mp hnone.symm
  have hnew : s₁.live.defs.indexedColumns ≠ s.live.defs.indexedColumns := by
    intro hsame
    rw [hsame] at hmem
    exact not_restored_of_erased h.nodup hmem (by rw [hs₂, hsame]) hrestored
  obtain ⟨c, rfl, hc⟩ : ∃ c, columns = [c] ∧ c ∉ s.live.defs.indexedColumns := by
    rw [hs₁] at hnew
    rcases columns with - | ⟨c, - | ⟨c', columns⟩⟩
    · exact absurd rfl hnew
    · refine ⟨c, rfl, fun hc => hnew ?_⟩
      simp only [IndexDefs.createIndex, IndexDefs.register, hc]
      split_ifs <;> rfl
    · refine absurd ?_ hnew
      simp only [IndexDefs.createIndex, IndexDefs.register]
      split_ifs <;> rfl
  have hcolumns : s₁.live.defs.indexedColumns = s.live.defs.indexedColumns ++ [c] := by
    simp only [hs₁, IndexDefs.createIndex, IndexDefs.register, if_neg hc]
    split_ifs <;> rfl
  have hcol : s₁.dropColumn indexName = c := by
    by_contra hne
    have hafter := hrestored.memory.columns c
    rw [hs₂, hcolumns, iff_false_right hc] at hafter
    exact hafter ((List.mem_erase_of_ne (Ne.symm hne)).mpr (by simp))
  refine ⟨c, rfl, hc, ?_, hnames, fun hcomposite => ?_⟩
  · rintro rfl
    have hempty : s₁.dropColumn [] = [] := by
      have hnone := KeyMap.get?_eq_none_iff.mpr hnames
      rw [registry] at hnone
      simp [dropColumn, registry, hs₁, IndexDefs.createIndex, IndexDefs.register, hc, hnone]
    exact h.named c (hknown c (by simp)) (hcol.symm.trans hempty)
  · obtain ⟨hfirst, hlast⟩ := hrestored.others c (.inr hcomposite)
    have hentries : s.live.entriesOf c = [] := by
      rw [← entriesOf_eq_nil_iff hlast, hs₂, hcol]
      simp [IndexedTable.entriesOf, KeyMap.get?_erase]
    refine ⟨?_, hentries, ?_⟩
    · rw [← Bool.not_eq_true]
      intro hfile
      have hlisted : c ∈ s.reopen.defs.indexedColumns := by
        obtain ⟨e, he, hec⟩ := KeyMap.contains_iff.mp hfile
        have hsome := hknown c (by simp)
        refine List.mem_filter.mpr ⟨List.mem_map.mpr ⟨e, he, by simpa using hec⟩, ?_⟩
        simp [h.named c hsome, hsome]
      rw [← hrestored.reopened, hs₂, hcol] at hlisted
      obtain ⟨e, he, hec⟩ := List.mem_map.mp (List.mem_filter.mp hlisted).1
      exact absurd (KeyMap.mem_erase.mp he).2 (by simp [hec])
    · rw [← entriesOf_eq_nil_iff hfirst, hs₁] at hentries
      simp only [IndexedTable.buildIndex, if_neg hc, IndexedTable.rebuild, IndexedTable.entriesOf,
        KeyMap.get?_assign] at hentries
      exact (foldl_emplace_eq_nil.mp (by simpa using hentries)).1

section Samples

/-- A new table with the columns `a` and `b`, without an index. -/
def twoColumns : StoredIndexes :=
  ⟨⟨.fresh [⟨[0x61], .int64, true, true⟩, ⟨[0x62], .int64, false, false⟩] (by decide), {}, .empty⟩, [],
    .empty⟩

theorem twoColumns_synced : twoColumns.Synced :=
  synced_new (by
    intro c hc
    rintro rfl
    exact absurd hc (by decide))

theorem twoColumns_restored :
    ∃ s₁, twoColumns.createIndex [0x69] [[0x62]] = .ok s₁ ∧
      ∃ s₂, s₁.dropIndex [0x69] = some s₂ ∧ twoColumns.Restored s₁ s₂ :=
  ⟨_, rfl, (restored_iff twoColumns_synced rfl).mpr
    ⟨[0x62], rfl, by decide, by decide, by decide, fun h => absurd h (by decide)⟩⟩

/-- A composite index cannot be dropped, and dropping a second index of a column drops the first. -/
theorem dropIndex_misses :
    (∃ s₁, twoColumns.createIndex [0x69] [[0x61], [0x62]] = .ok s₁ ∧ s₁.dropIndex [0x69] = none) ∧
      ∃ s s₁ s₂, twoColumns.createIndex [0x69] [[0x62]] = .ok s ∧
        s.createIndex [0x6a] [[0x62]] = .ok s₁ ∧ s₁.dropIndex [0x6a] = some s₂ ∧
        s.live.defs.indexedColumns = [[0x62]] ∧ s₂.live.defs.indexedColumns = [] :=
  ⟨⟨_, rfl, rfl⟩, _, _, _, rfl, rfl, rfl, rfl, rfl⟩

end Samples

end StoredIndexes

end CoroDB
