import CoroDB.Txn.Transitions
import CoroDB.Txn.BufferSteps

/-!
# What a statement stores

An autocommit statement and a COMMIT store versions of one timestamp, and nothing else happens to a
table.
-/

namespace CoroDB

open Framework

variable {ν ι : Type} [DecidableEq ν]

namespace SqlTable

variable {t t' t'' : SqlTable} {ts : UInt64} {es fs : List MemEntry} {e : MemEntry}

/-- One table is the other with some versions of one timestamp, and its counter moved on if there is
any. -/
structure Stores (ts : UInt64) (es : List MemEntry) (t t' : SqlTable) : Prop where
  eq : ∃ k, (es ≠ [] → 0 < k) ∧ t' = bumpWriteCounter^[k] (t.puts es)
  ts_eq : ∀ e ∈ es, e.commitTs = ts

theorem Stores.refl (t : SqlTable) (ts : UInt64) : Stores ts [] t t :=
  ⟨⟨0, fun h => absurd rfl h, rfl⟩, by simp⟩

theorem puts_append (t : SqlTable) (es fs : List MemEntry) :
    t.puts (es ++ fs) = (t.puts es).puts fs :=
  List.foldl_append ..

theorem Stores.trans (h : Stores ts es t t') (h' : Stores ts fs t' t'') :
    Stores ts (es ++ fs) t t'' := by
  obtain ⟨k, hk, rfl⟩ := h.eq
  obtain ⟨l, hl, rfl⟩ := h'.eq
  refine ⟨⟨l + k, ?_, ?_⟩, ?_⟩
  · intro hne
    by_cases hes : es = []
    · have := hl (by simpa [hes] using hne)
      omega
    · have := hk hes
      omega
  · rw [bumps_puts, ← Function.iterate_add_apply, puts_append]
  · intro e he
    rcases List.mem_append.mp he with he | he
    · exact h.ts_eq e he
    · exact h'.ts_eq e he

def rowEntry (t : SqlTable) (ts : UInt64) (row : Row) : MemEntry := ⟨t.rowKey row, row, false, ts⟩

theorem stores_persistRowUpsert (t : SqlTable) (row : Row) (ts : UInt64) :
    Stores ts [t.rowEntry ts row] t (t.persistRowUpsert row ts) :=
  ⟨⟨1, fun _ => Nat.one_pos, rfl⟩, by simp [rowEntry]⟩

theorem stores_persistRowDelete (t : SqlTable) (key : Value) (ts : UInt64) :
    Stores ts [⟨key, ⟨[]⟩, true, ts⟩] t (t.persistRowDelete key ts) :=
  ⟨⟨1, fun _ => Nat.one_pos, rfl⟩, by simp⟩

theorem stores_insertBatch (t : SqlTable) (rows : List Row) (ts : UInt64) :
    Stores ts (rows.map fun row => ⟨t.rowKey row, row, false, ts⟩) t (t.insertBatch rows ts) := by
  cases rows with
  | nil => exact .refl t ts
  | cons row rows =>
    refine ⟨⟨1, fun _ => Nat.one_pos, rfl⟩, ?_⟩
    intro e he
    obtain ⟨r, -, rfl⟩ := List.mem_map.mp he
    rfl

theorem stores_applyWrites (t : SqlTable) (ws : List Write) (ts : UInt64) :
    Stores ts (ws.map (t.entryOf ts)) t (t.applyWrites ws ts) := by
  refine ⟨⟨ws.length, ?_, t.applyWrites_eq ws ts⟩, ?_⟩
  · intro hne
    exact List.length_pos_iff.mpr fun h => hne (by rw [h, List.map_nil])
  · intro e he
    obtain ⟨w, -, rfl⟩ := List.mem_map.mp he
    cases w <;> rfl

theorem Stores.columns (h : Stores ts es t t') : t'.columns = t.columns := by
  obtain ⟨k, -, rfl⟩ := h.eq
  rw [bumps_columns, puts_columns]

theorem Stores.mem_versions (h : Stores ts es t t') (he : e ∈ t'.versions) :
    e ∈ es ∨ e ∈ t.versions := by
  obtain ⟨k, -, rfl⟩ := h.eq
  rw [bumps_versions] at he
  exact mem_versions_puts he

theorem Stores.sound (h : Stores ts es t t') (ht : t.Sound)
    (hpast : ∀ e ∈ t.versions, e.commitTs < ts) (hfit : ∀ e ∈ es, t.Fits e) : t'.Sound := by
  obtain ⟨k, -, rfl⟩ := h.eq
  exact (ht.puts (behind_of_lt hpast) fun e he => ⟨hfit e he, h.ts_eq e he⟩).bumps k

theorem Stores.view (h : Stores ts es t t') (ht : t.Sound)
    (hpast : ∀ e ∈ t.versions, e.commitTs < ts) (hfit : ∀ e ∈ es, t.Fits e) (s : UInt64)
    (k : ValueKey) :
    t'.view s k = if ts ≤ s then (latest es k).elim (t.view s k) MemEntry.content else t.view s k := by
  obtain ⟨n, -, rfl⟩ := h.eq
  rw [bumps_view]
  exact ht.view_puts (behind_of_lt hpast) (fun e he => ⟨hfit e he, h.ts_eq e he⟩) s k

end SqlTable

section Written

variable {columns : List Column} {p : UpdatePlan ν} {rows : List Row} {newRow : Row}

omit [DecidableEq ν]

/-- The new rows of an UPDATE in autocommit mode, up to the first row that ends it with an error. -/
def UpdatePlan.written (columns : List Column) (p : UpdatePlan ν) : List Row → List Row
  | [] => []
  | row :: rows =>
    match autoRowUpdate columns p row with
    | .error _ => []
    | .ok none => UpdatePlan.written columns p rows
    | .ok (some newRow) => newRow :: UpdatePlan.written columns p rows

theorem UpdatePlan.mem_written (h : newRow ∈ p.written columns rows) :
    ∃ row ∈ rows, autoRowUpdate columns p row = .ok (some newRow) := by
  induction rows with
  | nil => cases h
  | cons row rows ih =>
    rw [UpdatePlan.written] at h
    cases hmade : autoRowUpdate columns p row with
    | error e => simp [hmade] at h
    | ok made =>
      cases made with
      | none =>
        rw [hmade] at h
        obtain ⟨r, hr, hr'⟩ := ih h
        exact ⟨r, List.mem_cons_of_mem row hr, hr'⟩
      | some first =>
        rw [hmade] at h
        rcases List.mem_cons.mp h with rfl | h
        · exact ⟨row, List.mem_cons_self, hmade⟩
        · obtain ⟨r, hr, hr'⟩ := ih h
          exact ⟨r, List.mem_cons_of_mem row hr, hr'⟩

end Written

namespace Database

section Autocommit

variable {db : Database ν ι} {i : ι} {ts : UInt64} {q : Statement ν} {table : ν}
  {r : Option (SqlError ν) × SqlTable}

/-- A version that a statement stores in autocommit mode: a row of an INSERT, what UPDATE makes of a
row that it finds, the end of a row that DELETE finds. -/
inductive AutoWrite (db : Database ν ι) (i : ι) (ts : UInt64) : Statement ν → ν → MemEntry → Prop
  | insert (p values) : values ∈ p.rows →
      AutoWrite db i ts (.insert p) p.table
        ⟨(db.tables p.table).rowKey
            (insertRowOf (db.tables p.table).columns p.columnIndexes values),
          insertRowOf (db.tables p.table).columns p.columnIndexes values, false, ts⟩
  | update (subqueries p sub row newRow) :
      (db.sessions i).resolveSubqueries db.tables subqueries = some sub →
      row ∈ (db.tables (p sub.1).table).scanVisible maxTs → (p sub.1).Makes row newRow →
      AutoWrite db i ts (.update subqueries p) (p sub.1).table
        ⟨(db.tables (p sub.1).table).rowKey newRow, newRow, false, ts⟩
  | delete (subqueries p sub row) :
      (db.sessions i).resolveSubqueries db.tables subqueries = some sub →
      row ∈ (db.tables (p sub.1).table).scanVisible maxTs →
      holdsOn (ν := ν) (p sub.1).condition row = .ok true →
      AutoWrite db i ts (.delete subqueries p) (p sub.1).table
        ⟨(db.tables (p sub.1).table).rowKey row, ⟨[]⟩, true, ts⟩

omit [DecidableEq ν] in
theorem stores_autoUpdate (t : SqlTable) (p : UpdatePlan ν) (ts : UInt64) :
    SqlTable.Stores ts ((p.written t.columns (t.scanVisible maxTs)).map (t.rowEntry ts)) t
      (autoUpdate t p ts).2 := by
  have hrounds : ∀ (rows : List Row) (t₁ : SqlTable), t₁.columns = t.columns →
      SqlTable.Stores ts ((p.written t.columns rows).map (t.rowEntry ts)) t₁
        (attempt (autoUpdateRow p ts) t₁ rows).2 := by
    intro rows
    induction rows with
    | nil => exact fun t₁ _ => .refl t₁ ts
    | cons row rows ih =>
      intro t₁ hcol
      rw [attempt, autoUpdateRow, hcol, UpdatePlan.written]
      cases autoRowUpdate t.columns p row with
      | error e => exact .refl t₁ ts
      | ok made =>
        cases made with
        | none => exact ih t₁ hcol
        | some newRow =>
          have hentry : t₁.rowEntry ts newRow = t.rowEntry ts newRow := by
            rw [SqlTable.rowEntry, SqlTable.rowEntry, SqlTable.rowKey, SqlTable.rowKey, hcol]
          have hfirst := t₁.stores_persistRowUpsert newRow ts
          rw [hentry] at hfirst
          exact hfirst.trans (ih (t₁.persistRowUpsert newRow ts) hcol)
  exact hrounds (t.scanVisible maxTs) t rfl

theorem stores_foldl_persistRowDelete (t : SqlTable) (keys : List Value) (ts : UInt64) :
    SqlTable.Stores ts (keys.map fun key => ⟨key, ⟨[]⟩, true, ts⟩) t
      (keys.foldl (fun t key => t.persistRowDelete key ts) t) := by
  induction keys generalizing t with
  | nil => exact .refl t ts
  | cons key keys ih =>
    exact (t.stores_persistRowDelete key ts).trans (ih (t.persistRowDelete key ts))

theorem AutoDml.stores (h : AutoDml db i ts q table r) :
    ∃ es, SqlTable.Stores ts es (db.tables table) r.2 ∧ ∀ e ∈ es, AutoWrite db i ts q table e := by
  cases h with
  | invalid p e he => exact ⟨[], .refl _ ts, by simp⟩
  | insert p rows hrows =>
    rw [autoInsert]
    split
    · exact ⟨[], .refl _ ts, by simp⟩
    · refine ⟨_, SqlTable.stores_insertBatch _ rows ts, fun e he => ?_⟩
      rw [insertRows_ok hrows, List.map_map] at he
      obtain ⟨values, hvalues, rfl⟩ := List.mem_map.mp he
      exact .insert p values hvalues
  | update subqueries p sub hsub =>
    refine ⟨_, stores_autoUpdate _ (p sub.1) ts, fun e he => ?_⟩
    obtain ⟨newRow, hnew, rfl⟩ := List.mem_map.mp he
    obtain ⟨row, hrow, hmade⟩ := UpdatePlan.mem_written hnew
    exact .update subqueries p sub row newRow hsub hrow (autoRowUpdate_ok hmade)
  | delete subqueries p sub hsub =>
    rw [autoDelete]
    split
    · exact ⟨[], .refl _ ts, by simp⟩
    · rename_i keys hkeys
      refine ⟨_, stores_foldl_persistRowDelete _ keys ts, fun e he => ?_⟩
      obtain ⟨key, hkey, rfl⟩ := List.mem_map.mp he
      obtain ⟨p', hp', rfl, hhit⟩ := (mem_matchingKeys hkeys key).mp hkey
      obtain ⟨row, hrow, rfl⟩ := List.mem_map.mp hp'
      exact .delete subqueries p sub row hsub hrow hhit

end Autocommit

section Timestamps

def Past (db : Database ν ι) : Prop :=
  ∀ n, ∀ e ∈ (db.tables n).versions, e.commitTs < db.txnManager.nextTs

variable [DecidableEq ι] {db db' : Database ν ι} {i : ι} {q : Statement ν} {out : Output ν}

/-- A statement takes at most two timestamps, and stores versions of the last one only. -/
theorem Transition.nextTs (h : Transition db i q db' out)
    (hroom : db.txnManager.nextTs.toNat + 2 < 2 ^ 64) :
    db.txnManager.nextTs.toNat ≤ db'.txnManager.nextTs.toNat ∧
      db'.txnManager.nextTs.toNat ≤ db.txnManager.nextTs.toNat + 2 ∧
      ∀ n, ∀ e ∈ (db'.tables n).versions, e ∈ (db.tables n).versions ∨
        db.txnManager.nextTs ≤ e.commitTs ∧ e.commitTs < db'.txnManager.nextTs := by
  have hone := TransactionManager.toNat_add_one (a := db.txnManager.nextTs) (by omega)
  have htwo : (db.txnManager.nextTs + 1 + 1).toNat = db.txnManager.nextTs.toNat + 2 := by
    rw [TransactionManager.toNat_add_one (by omega), hone]
  cases h with
  | within s m out hs hm =>
    rcases hm with rfl | rfl
    · exact ⟨le_rfl, by simp, fun n e he => .inl he⟩
    · change _ ≤ (db.txnManager.nextTs + 1).toNat ∧ (db.txnManager.nextTs + 1).toNat ≤ _ ∧ _
      rw [hone]
      exact ⟨by omega, by omega, fun n e he => .inl he⟩
  | begin snapshot hq hidle hsnap =>
    change _ ≤ (db.txnManager.nextTs + 1).toNat ∧ (db.txnManager.nextTs + 1).toNat ≤ _ ∧ _
    rw [hone]
    exact ⟨by omega, by omega, fun n e he => .inl he⟩
  | abandon m savepoints out hin hm hq =>
    change _ ≤ m.nextTs.toNat ∧ m.nextTs.toNat ≤ _ ∧ _
    rw [hm.nextTs]
    exact ⟨le_rfl, by omega, fun n e he => .inl he⟩
  | commit ts m hq hin hconflict hcommit =>
    obtain ⟨rfl, hnext, -, -⟩ := TransactionManager.commit_eq_some hcommit
    change _ ≤ m.nextTs.toNat ∧ m.nextTs.toNat ≤ _ ∧ ∀ n, ∀ e ∈ _, _ ∨ _ ∧ _ < m.nextTs
    rw [hnext, hone]
    refine ⟨by omega, by omega, fun n e he => ?_⟩
    change e ∈ (applyBuffer db.tables (db.sessions i).writeBuffer _ n).versions at he
    rw [applyBuffer_apply] at he
    rcases (SqlTable.stores_applyWrites _ _ _).mem_versions he with he | he
    · rw [(SqlTable.stores_applyWrites _ _ _).ts_eq e he]
      exact .inr ⟨le_rfl, TransactionManager.lt_add_one_of_room (by omega)⟩
    · exact .inl he
  | dml table r s m hin haborted hdml hs hbuf hsaves hm =>
    have hnext : (if r.1.isSome then m.markFailed (db.sessions i).currentTxnId else m).nextTs =
        m.nextTs := by
      split_ifs <;> rfl
    change _ ≤ (if r.1.isSome then _ else m).nextTs.toNat ∧
      (if r.1.isSome then _ else m).nextTs.toNat ≤ _ ∧ _
    rw [hnext]
    rcases hm with rfl | rfl
    · exact ⟨le_rfl, by omega, fun n e he => .inl he⟩
    · change _ ≤ (db.txnManager.nextTs + 1).toNat ∧ (db.txnManager.nextTs + 1).toNat ≤ _ ∧ _
      rw [hone]
      exact ⟨by omega, by omega, fun n e he => .inl he⟩
  | auto table r s hidle hdml hs =>
    change _ ≤ (db.txnManager.nextTs + 1 + 1).toNat ∧ (db.txnManager.nextTs + 1 + 1).toNat ≤ _ ∧
      ∀ n, ∀ e ∈ _, _ ∨ _ ∧ _ < db.txnManager.nextTs + 1 + 1
    rw [htwo]
    refine ⟨by omega, by omega, fun n e he => ?_⟩
    change e ∈ (Function.update db.tables table r.2 n).versions at he
    by_cases hn : n = table
    · subst hn
      rw [Function.update_self] at he
      obtain ⟨es, hes, -⟩ := hdml.stores
      rcases hes.mem_versions he with he | he
      · rw [hes.ts_eq e he]
        refine .inr ⟨(TransactionManager.lt_add_one_of_room (by omega)).le, ?_⟩
        exact TransactionManager.lt_add_one_of_room (by omega)
      · exact .inl he
    · rw [Function.update_of_ne hn] at he
      exact .inl he

theorem Past.transition (h : db.Past) (hroom : db.txnManager.nextTs.toNat + 2 < 2 ^ 64)
    (hstep : Transition db i q db' out) : db'.Past := by
  obtain ⟨hle, -, hnew⟩ := hstep.nextTs hroom
  intro n e he
  rcases hnew n e he with hold | ⟨-, hlt⟩
  · exact lt_of_lt_of_le (h n e hold) (UInt64.le_iff_toNat_le.mpr hle)
  · exact hlt

end Timestamps

end Database

end CoroDB
