import CoroDB.Replication.Replica

/-!
# What a storage engine stores

The abstract content of an engine is a schema and a version history for each of its tables.
-/

namespace CoroDB

open Framework

variable {ν : Type} [DecidableEq ν]

abbrev VersionStore (ν : Type) := ν → Option (List Column × TableHistory)

namespace VersionStore

def write (H : TableHistory) (k : ValueKey) (ts : UInt64) (c : Option Row) : TableHistory :=
  fun k' ts' => if k = k' ∧ ts = ts' then some c else H k' ts'

def apply (S : VersionStore ν) : ReplicationRecord ν → VersionStore ν
  | .createTable table columns _ =>
    if (S table).isSome then S else Function.update S table (some (columns, .empty))
  | .dropTable table => Function.update S table none
  | .applyRow table row commitTs => Function.update S table ((S table).map fun c =>
      (c.1, write c.2 (valueKey (extractKey row c.1)) commitTs (some row)))
  | .applyDelete table key commitTs => Function.update S table ((S table).map fun c =>
      (c.1, write c.2 (valueKey key) commitTs none))
  | .commit _ => S

/-- A record that a store may take: a new table has the columns of its name, a row version has an
ordered key and one value for each column, and it does not change a version that the store has. -/
def Ok (schemas : ν → List Column) (S : VersionStore ν) : ReplicationRecord ν → Prop
  | .createTable table columns _ => S table = none ∧ columns = schemas table
  | .applyRow table row commitTs => ∃ c, S table = some c ∧
      (extractKey row c.1).isNaN = false ∧ row.values.length = c.1.length ∧
      ∀ x, c.2 (valueKey (extractKey row c.1)) commitTs = some x → x = some row
  | .applyDelete table key commitTs => ∃ c, S table = some c ∧ key.isNaN = false ∧
      ∀ x, c.2 (valueKey key) commitTs = some x → x = none
  | _ => True

theorem apply_columns {schemas : ν → List Column} {S : VersionStore ν} {r : ReplicationRecord ν}
    (hr : Ok schemas S r) (h : ∀ n c, S n = some c → c.1 = schemas n) {n : ν}
    {c : List Column × TableHistory} (hc : apply S r n = some c) : c.1 = schemas n := by
  have hupdate : ∀ table (o : Option (List Column × TableHistory)),
      (∀ c, o = some c → c.1 = schemas table) → Function.update S table o n = some c →
        c.1 = schemas n := by
    intro table o ho hc
    by_cases hn : n = table
    · subst hn
      rw [Function.update_self] at hc
      exact ho c hc
    · rw [Function.update_of_ne hn] at hc
      exact h n c hc
  cases r with
  | createTable table columns hne =>
    rw [apply] at hc
    split_ifs at hc
    · exact h n c hc
    · exact hupdate table _ (fun c hc => Option.some.inj hc ▸ hr.2) hc
  | dropTable table => exact hupdate table none (by intros; contradiction) hc
  | commit commitTs => exact h n c hc
  | applyRow table row commitTs =>
    refine hupdate table _ (fun c hc => ?_) hc
    obtain ⟨c₀, hc₀, rfl⟩ := Option.map_eq_some_iff.mp hc
    exact h table c₀ hc₀
  | applyDelete table key commitTs =>
    refine hupdate table _ (fun c hc => ?_) hc
    obtain ⟨c₀, hc₀, rfl⟩ := Option.map_eq_some_iff.mp hc
    exact h table c₀ hc₀

end VersionStore

namespace SqlTable

variable {t : SqlTable} {e : MemEntry}

theorem ofList_put_eq_write (h : t.Sound) (he : t.Takes e) :
    History.ofList (t.put e).versions =
      VersionStore.write (History.ofList t.versions) (valueKey e.pk) e.commitTs e.content := by
  funext k τ
  exact ofList_put h he k τ

end SqlTable

namespace ReplEngine

def content (e : ReplEngine ν) : VersionStore ν :=
  fun n => (e.tables n).map fun t => (t.columns, History.ofList t.versions)

def flush (e : ReplEngine ν) (table : ν) : ReplEngine ν :=
  e.setTable table ((e.tables table).map SqlTable.flush)

variable {e : ReplEngine ν} {r : ReplicationRecord ν} {schemas : ν → List Column}

theorem content_setTable (e : ReplEngine ν) (table : ν) (t : Option SqlTable) :
    (e.setTable table t).content = Function.update e.content table
      (t.map fun t => (t.columns, History.ofList t.versions)) := by
  funext n
  by_cases hn : n = table
  · rw [hn, Function.update_self, content, setTable_self]
  · rw [Function.update_of_ne hn, content, setTable_of_ne hn, content]

omit [DecidableEq ν] in
theorem isSome_content (e : ReplEngine ν) (n : ν) : (e.content n).isSome = (e.tables n).isSome :=
  Option.isSome_map

theorem Sound.takes {t : SqlTable} {x : MemEntry} (h : t.Sound) (hnan : x.pk.isNaN = false)
    (hsame : ∀ c, History.ofList t.versions (valueKey x.pk) x.commitTs = some c → c = x.content)
    (hkeyed : x.tombstone = false → x.pk = t.rowKey x.row)
    (hfull : x.tombstone = false → x.row.values.length = t.columns.length) : t.Takes x := by
  refine ⟨hnan, fun y hy hk hts => ?_, hkeyed, hfull⟩
  apply hsame
  rw [← hk, ← hts]
  exact ofList_of_mem h.coherent (List.mem_append_left _ hy)

omit [DecidableEq ν] in
theorem Sound.takes_of_ok (h : e.Sound) (hr : VersionStore.Ok schemas e.content r) : e.Takes r := by
  cases r with
  | createTable table columns hne => trivial
  | dropTable table => trivial
  | commit commitTs => trivial
  | applyRow table row commitTs =>
    obtain ⟨c, hc, hnan, hfull, hsame⟩ := hr
    intro t ht
    rw [content, ht] at hc
    obtain rfl := Option.some.inj hc
    exact Sound.takes (h table t ht) hnan (fun c hc => hsame c hc) (fun _ => rfl) fun _ => hfull
  | applyDelete table key commitTs =>
    obtain ⟨c, hc, hnan, hsame⟩ := hr
    intro t ht
    rw [content, ht] at hc
    obtain rfl := Option.some.inj hc
    exact Sound.takes (h table t ht) hnan (fun c hc => hsame c hc) nofun nofun

/-- An engine refines its content: a record does to the engine what it does to the content. -/
theorem Sound.content_apply (h : e.Sound) (hr : VersionStore.Ok schemas e.content r) :
    (e.applyReplicationRecord r).2.content = VersionStore.apply e.content r := by
  have htakes := h.takes_of_ok hr
  cases r with
  | createTable table columns hne =>
    rw [applyReplicationRecord, VersionStore.apply, isSome_content]
    split_ifs
    · rfl
    · rw [content_setTable]
      rfl
  | dropTable table =>
    rw [applyReplicationRecord, VersionStore.apply]
    split_ifs with ht
    · rw [content_setTable]
      rfl
    · refine (Function.update_eq_self_iff.mpr ?_).symm
      rw [content, Option.not_isSome_iff_eq_none.mp ht]
      rfl
  | commit commitTs =>
    rw [applyReplicationRecord, markCommitted, VersionStore.apply]
    split_ifs <;> rfl
  | applyRow table row commitTs =>
    obtain ⟨c, hc, -⟩ := hr
    obtain ⟨t, ht, rfl⟩ := Option.map_eq_some_iff.mp hc
    simp only [applyReplicationRecord, ht, content_setTable, VersionStore.apply, hc, Option.map_some]
    rw [SqlTable.appendRow, SqlTable.ofList_put_eq_write (h table t ht) (htakes t ht)]
    rfl
  | applyDelete table key commitTs =>
    obtain ⟨c, hc, -⟩ := hr
    obtain ⟨t, ht, rfl⟩ := Option.map_eq_some_iff.mp hc
    simp only [applyReplicationRecord, ht, content_setTable, VersionStore.apply, hc, Option.map_some]
    rw [SqlTable.deleteRowByKey, SqlTable.ofList_put_eq_write (h table t ht) (htakes t ht)]
    rfl

theorem Sound.flush (h : e.Sound) (table : ν) :
    (e.flush table).Sound ∧ (e.flush table).content = e.content := by
  constructor
  · apply h.setTable
    intro x hx
    obtain ⟨t, ht, rfl⟩ := Option.map_eq_some_iff.mp hx
    exact (h table t ht).flush
  · rw [ReplEngine.flush, content_setTable, Function.update_eq_self_iff, content, Option.map_map]
    apply Option.map_congr
    intro t ht
    exact Prod.ext rfl (h table t ht).ofList_flush

theorem exists_of_flush {table n : ν} {t : SqlTable} (h : (e.flush table).tables n = some t) :
    ∃ t₀, e.tables n = some t₀ ∧ t.columns = t₀.columns := by
  by_cases hn : n = table
  · rw [hn, ReplEngine.flush, setTable_self] at h
    obtain ⟨t₀, ht₀, rfl⟩ := Option.map_eq_some_iff.mp h
    exact ⟨t₀, hn ▸ ht₀, rfl⟩
  · rw [ReplEngine.flush, setTable_of_ne hn] at h
    exact ⟨t, h, rfl⟩

omit [DecidableEq ν] in
theorem Sound.scanVisible_congr {e' : ReplEngine ν} (h : e.Sound) (h' : e'.Sound)
    (heq : e.content = e'.content) {n : ν} {t : SqlTable} (ht : e.tables n = some t) :
    ∃ t', e'.tables n = some t' ∧ t'.columns = t.columns ∧
      ∀ s, t'.scanVisible s = t.scanVisible s := by
  have hn : e'.content n = some (t.columns, History.ofList t.versions) := by
    rw [← heq, content, ht]
    rfl
  obtain ⟨t', ht', hc⟩ := Option.map_eq_some_iff.mp hn
  obtain ⟨hcols, hversions⟩ := Prod.mk.inj hc
  refine ⟨t', ht', hcols, fun s => ?_⟩
  apply SqlTable.Sound.scanVisible_congr (h' n t' ht') (h n t ht)
  funext k
  rw [SqlTable.view, SqlTable.view, hversions]

end ReplEngine

end CoroDB
