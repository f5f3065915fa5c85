import CoroDB.Txn.TableWrites

/-!
# Statements that fail in autocommit mode

INSERT and DELETE check all their rows before they store anything, so a failed one leaves its table
alone.
-/

namespace CoroDB

open Framework

namespace SqlTable

section Restores

variable {t t' : SqlTable} {s ts : UInt64} {rows : List Row} {k : Value} {x : MemEntry}
  {es : List MemEntry}

def lastUnder (t : SqlTable) (rows : List Row) (k : Value) : Option Row :=
  (rows.filter fun row => valueEq (t.rowKey row) k).getLast?

/-- Rows that a table shows already: the last row under each key is the visible one. -/
def Restores (t : SqlTable) (rows : List Row) : Prop :=
  ∀ row ∈ rows, (t.rowKey row).isNaN = false ∧
    t.lastUnder rows (t.rowKey row) = t.lookupVisible (t.rowKey row) maxTs

theorem latest_rowEntry (hrows : ∀ row ∈ rows, (t.rowKey row).isNaN = false)
    (hk : k.isNaN = false) (ts : UInt64) :
    latest (rows.map (t.rowEntry ts)) (valueKey k) =
      (t.lastUnder rows k).map (t.rowEntry ts) := by
  rw [latest, lastUnder, List.filter_map, List.getLast?_map]
  congr 2
  apply List.filter_congr
  intro row hrow
  rw [Bool.eq_iff_iff, valueEq_iff (hrows row hrow) hk]
  exact decide_eq_true_iff

theorem lastUnder_isSome {row : Row} (hrow : row ∈ rows) (hk : (t.rowKey row).isNaN = false) :
    (t.lastUnder rows (t.rowKey row)).isSome = true := by
  rw [lastUnder, List.getLast?_isSome]
  apply List.ne_nil_of_mem (a := row)
  simp [hrow, (valueEq_iff hk hk).mpr rfl]

theorem Sound.view_congr (h : t.Sound) (h' : t'.Sound) (hcol : t'.columns = t.columns)
    (hscan : t'.scanVisible s = t.scanVisible s) : t'.view s = t.view s := by
  have hkey : ∀ row, t'.rowKey row = t.rowKey row := by
    intro row
    rw [rowKey, rowKey, hcol]
  funext k
  ext row
  constructor
  · intro hv
    have hmem : row ∈ t'.scanVisible s := by
      rw [h'.mem_scanVisible, (h'.of_view hv).1]
      exact hv
    rw [hscan, h.mem_scanVisible, ← hkey, (h'.of_view hv).1] at hmem
    exact hmem
  · intro hv
    have hmem : row ∈ t.scanVisible s := by
      rw [h.mem_scanVisible, (h.of_view hv).1]
      exact hv
    rw [← hscan, h'.mem_scanVisible, hkey, (h.of_view hv).1] at hmem
    exact hmem

theorem mem_versions_puts_of_lt (hes : ∀ e ∈ es, e.commitTs = ts) (hx : x ∈ t.versions)
    (hlt : x.commitTs < ts) : x ∈ (t.puts es).versions := by
  induction es generalizing t with
  | nil => exact hx
  | cons e es ih =>
    apply ih fun y hy => hes y (List.mem_cons_of_mem _ hy)
    rcases List.mem_append.mp hx with hx | hx
    · exact List.mem_append_left _ hx
    · apply List.mem_append_right
      have hkept : x ∈ mergeEntries [e] t.memtable ∨
          ∃ y ∈ [e], mvccLess y x = false ∧ mvccLess x y = false :=
        mem_priorityMerge_right [e] hx
      rcases hkept with hx | ⟨y, hy, hyx, hxy⟩
      · exact hx
      · obtain rfl := List.mem_singleton.mp hy
        have hts := hes y List.mem_cons_self
        rw [mvccLess] at hyx hxy
        split_ifs at hyx hxy
        rw [hts] at hyx
        exact absurd hlt (by simpa using hyx)

section Stores

variable (h : Stores ts (rows.map (t.rowEntry ts)) t t')
  (hpast : ∀ e ∈ t.versions, e.commitTs < ts)
  (hfull : ∀ row ∈ rows, row.values.length = t.columns.length)

include hfull in
theorem fits_rowEntry (ts : UInt64) (hnan : ∀ row ∈ rows, (t.rowKey row).isNaN = false) :
    ∀ e ∈ rows.map (t.rowEntry ts), t.Fits e := by
  intro e he
  obtain ⟨row, hrow, rfl⟩ := List.mem_map.mp he
  exact ⟨hnan row hrow, fun _ => rfl, fun _ => hfull row hrow⟩

include h hpast hfull in
theorem Stores.scanVisible_of_restores (ht : t.Sound) (hrest : t.Restores rows) (s : UInt64) :
    t'.scanVisibleStream s = t.scanVisibleStream s := by
  have hnan : ∀ row ∈ rows, (t.rowKey row).isNaN = false := fun row hrow => (hrest row hrow).1
  have hfit := fits_rowEntry hfull ts hnan
  have ht' := h.sound ht hpast hfit
  rw [ht.scanVisibleStream_eq, ht'.scanVisibleStream_eq]
  apply congrArg some
  apply ht'.scanVisible_congr ht
  funext k
  rw [h.view ht hpast hfit]
  split_ifs with hs
  · cases hlast : latest (rows.map (t.rowEntry ts)) k with
    | none => rfl
    | some e =>
      have he : e ∈ (rows.map (t.rowEntry ts)).filter fun e => valueKey e.pk = k :=
        List.mem_of_getLast? hlast
      obtain ⟨hmem, hpk⟩ := List.mem_filter.mp he
      obtain ⟨row, hrow, rfl⟩ := List.mem_map.mp hmem
      obtain rfl : valueKey (t.rowKey row) = k := of_decide_eq_true hpk
      obtain ⟨hk, hlook⟩ := hrest row hrow
      rw [latest_rowEntry hnan hk, hlook, ht.lookupVisible_eq hk] at hlast
      obtain ⟨last, hv, heq⟩ := Option.map_eq_some_iff.mp hlast
      obtain rfl : last = row := congrArg MemEntry.row heq
      rw [view_eq_maxTs fun e he => (hpast e he).le.trans hs, hv]
      rfl
  · rfl

include h hpast hfull in
theorem Stores.restores_of_scanVisible (ht : t.Sound)
    (hnan : ∀ row ∈ rows, (t.rowKey row).isNaN = false)
    (hscan : ∀ s, t'.scanVisibleStream s = t.scanVisibleStream s) : t.Restores rows := by
  have hfit := fits_rowEntry hfull ts hnan
  have ht' := h.sound ht hpast hfit
  simp only [ht.scanVisibleStream_eq, ht'.scanVisibleStream_eq, Option.some.injEq] at hscan
  intro row hrow
  have hk := hnan row hrow
  refine ⟨hk, ?_⟩
  rw [ht.lookupVisible_eq hk, ← ht.view_congr ht' h.columns (hscan maxTs),
    h.view ht hpast hfit, if_pos (ts_le_maxTs ts), latest_rowEntry hnan hk]
  obtain ⟨last, hlast⟩ := Option.isSome_iff_exists.mp (lastUnder_isSome hrow hk)
  rw [hlast]
  rfl

include h hpast in
theorem Stores.scanVisible_of_not_ordered (ho : ¬ Ordered t.versions) (s : UInt64) :
    t'.scanVisibleStream s = t.scanVisibleStream s := by
  obtain ⟨x, hx, hnan⟩ : ∃ x ∈ t.versions, x.pk.isNaN = true := by simpa [Ordered] using ho
  have hx' : x ∈ t'.versions := by
    obtain ⟨k, -, rfl⟩ := h.eq
    rw [bumps_versions]
    exact mem_versions_puts_of_lt h.ts_eq hx (hpast x hx)
  rw [scanVisibleStream_of_isNaN ⟨x, hx, hnan⟩, scanVisibleStream_of_isNaN ⟨x, hx', hnan⟩]

end Stores

end Restores

end SqlTable

namespace Database

variable {ν ι : Type} [DecidableEq ν] {db db' : Database ν ι} {i : ι} {q : Statement ν}
  {ts : UInt64}

def Unchanged (db db' : Database ν ι) : Prop :=
  ∀ n s, (db'.tables n).scanVisibleStream s = (db.tables n).scanVisibleStream s

/-- The rows that a failing UPDATE has stored before its error are those its table has shown under
their keys. The other statements store nothing before their last check. -/
def FailsCleanly (db : Database ν ι) (i : ι) : Statement ν → Prop
  | .update subqueries p => ∀ sub,
      (db.sessions i).resolveSubqueries db.tables subqueries = some sub →
      let t := db.tables (p sub.1).table
      Ordered t.versions → t.Restores ((p sub.1).written t.columns (t.scanVisible maxTs))
  | _ => True

/-- An UPDATE that gives no row a `NaN` as its key. -/
def StoresOrderedKeys (db : Database ν ι) (i : ι) : Statement ν → Prop
  | .update subqueries p => ∀ sub,
      (db.sessions i).resolveSubqueries db.tables subqueries = some sub →
      let t := db.tables (p sub.1).table
      ∀ row ∈ (p sub.1).written t.columns (t.scanVisible maxTs), (t.rowKey row).isNaN = false
  | _ => True

section Update

variable {t : SqlTable} {p : UpdatePlan ν}

omit [DecidableEq ν] in
theorem length_of_mem_written (ht : t.Sound) {row : Row}
    (hrow : row ∈ p.written t.columns (t.scanVisible maxTs)) :
    row.values.length = t.columns.length := by
  obtain ⟨old, hold, hmade⟩ := UpdatePlan.mem_written hrow
  rw [(autoRowUpdate_ok hmade).length]
  exact (ht.of_view (ht.mem_scanVisible.mp hold)).2.2

omit [DecidableEq ν] in
theorem autoUpdate_unchanged (ht : t.Stored) (hpast : ∀ e ∈ t.versions, e.commitTs < ts)
    (hrest : Ordered t.versions → t.Restores (p.written t.columns (t.scanVisible maxTs)))
    (s : UInt64) : (autoUpdate t p ts).2.scanVisibleStream s = t.scanVisibleStream s := by
  have hstores := stores_autoUpdate t p ts
  by_cases ho : Ordered t.versions
  · have hsound := ht.sound ho
    exact hstores.scanVisible_of_restores hpast (fun _ => length_of_mem_written hsound) hsound
      (hrest ho) s
  · exact hstores.scanVisible_of_not_ordered hpast ho s

end Update

theorem AutoDml.eq_of_error {r : Option (SqlError ν) × SqlTable} {table : ν} {e : SqlError ν}
    (h : AutoDml db i ts q table r) (hq : ∀ subqueries p, q ≠ .update subqueries p)
    (he : r.1 = some e) : r.2 = db.tables table := by
  cases h with
  | invalid p e he => rfl
  | insert p rows hrows =>
    rw [autoInsert] at he ⊢
    split at he
    · rfl
    · cases he
  | update subqueries p sub hsub => exact absurd rfl (hq subqueries p)
  | delete subqueries p sub hsub =>
    rw [autoDelete] at he ⊢
    split at he
    · rfl
    · cases he

variable [DecidableEq ι]

omit [DecidableEq ν] in
theorem result_eq_error {r : Option (SqlError ν)} {e : SqlError ν} (h : result r = .error e) :
    r = some e := by
  cases r with
  | none => cases h
  | some e' => exact congrArg some (Except.error.inj h)

theorem tables_of_error {e : SqlError ν} (hidle : (db.sessions i).inTransaction = false)
    (hq : ∀ subqueries p, q ≠ .update subqueries p) (h : db.exec i q = some (db', .error e)) :
    db'.tables = db.tables := by
  generalize hout : (.error e : Output ν) = out at h
  cases exec_transition h with
  | within s m out hs hm => rfl
  | begin snapshot hq _ hsnap => rfl
  | abandon m savepoints out hin hm hq => rfl
  | commit ts m hq hin hconflict hcommit =>
    rw [hidle] at hin
    cases hin
  | dml table r s m hin haborted hdml hs hbuf hsaves hm =>
    rw [hidle] at hin
    cases hin
  | auto table r s _ hdml hs =>
    change Function.update db.tables table r.2 = db.tables
    rw [hdml.eq_of_error hq (result_eq_error hout.symm), Function.update_eq_self]

theorem exec_update_idle {subqueries : List ν} {p : List (List Row) → UpdatePlan ν} {out : Output ν}
    (hidle : (db.sessions i).inTransaction = false)
    (h : db.exec i (.update subqueries p) = some (db', out)) :
    ∃ sub, (db.sessions i).resolveSubqueries db.tables subqueries = some sub ∧
      db'.tables = Function.update db.tables (p sub.1).table
        (autoUpdate (db.tables (p sub.1).table) (p sub.1) (db.txnManager.nextTs + 1)).2 ∧
      out = result (autoUpdate (db.tables (p sub.1).table) (p sub.1)
        (db.txnManager.nextTs + 1)).1 ∧
      db'.txnManager.nextTs = db.txnManager.nextTs + 1 + 1 ∧
      (db'.sessions i).inTransaction = false := by
  have haborted : db.aborted i = false := by simp [aborted, hidle]
  rw [exec, if_neg (by simp [haborted])] at h
  obtain ⟨sub, hsub, hrun⟩ := Option.map_eq_some_iff.mp h
  refine ⟨sub, hsub, ?_⟩
  obtain ⟨r, v, hs⟩ := Session.exists_resolveSubqueries hsub
  have hin : sub.2.inTransaction = false := by
    rw [hs]
    exact hidle
  have hts : (sub.2.prepareForStatement false db.txnManager).1.autoCommitTs =
      db.txnManager.nextTs + 1 := by
    simp [Session.prepareForStatement, Session.prepareSnapshot, hin, TransactionManager.allocateTs]
  have hnext : (sub.2.prepareForStatement false db.txnManager).2.nextTs =
      db.txnManager.nextTs + 1 + 1 := by
    simp [Session.prepareForStatement, Session.prepareSnapshot, hin, TransactionManager.allocateTs]
  rw [update_eq, runDml, if_neg (by simp [hin]), hts] at hrun
  obtain ⟨rfl, rfl⟩ := Prod.mk.inj hrun
  refine ⟨rfl, rfl, hnext, ?_⟩
  rw [setSession_sessions_self]
  exact hin

theorem update_unchanged {subqueries : List ν} {p : List (List Row) → UpdatePlan ν} {out : Output ν}
    (hidle : (db.sessions i).inTransaction = false) (hstored : ∀ n, (db.tables n).Stored)
    (hpast : db.Past) (hroom : db.txnManager.nextTs.toNat + 1 < 2 ^ 64)
    (h : db.exec i (.update subqueries p) = some (db', out))
    (hclean : FailsCleanly db i (.update subqueries p)) : Unchanged db db' := by
  obtain ⟨sub, hsub, htables, -⟩ := exec_update_idle hidle h
  intro n s
  rw [htables]
  by_cases hn : n = (p sub.1).table
  · subst hn
    rw [Function.update_self]
    apply autoUpdate_unchanged (hstored _) _ (hclean sub hsub)
    exact fun e he => (hpast _ e he).trans (TransactionManager.lt_add_one_of_room hroom)
  · rw [Function.update_of_ne hn]

/-- A statement that fails in autocommit mode changes no scan when the rows that it has stored are
those shown before. An UPDATE that stores ordered keys changes no scan only then. -/
theorem failed_statement_unchanged {e : SqlError ν} (hidle : (db.sessions i).inTransaction = false)
    (hstored : ∀ n, (db.tables n).Stored) (hpast : db.Past)
    (hroom : db.txnManager.nextTs.toNat + 2 < 2 ^ 64) (h : db.exec i q = some (db', .error e)) :
    (FailsCleanly db i q → Unchanged db db') ∧
      (StoresOrderedKeys db i q → (Unchanged db db' ↔ FailsCleanly db i q)) := by
  by_cases hq : ∃ subqueries p, q = .update subqueries p
  · obtain ⟨subqueries, p, rfl⟩ := hq
    obtain ⟨sub, hsub, htables, -⟩ := exec_update_idle hidle h
    have hlt : ∀ e ∈ (db.tables (p sub.1).table).versions, e.commitTs < db.txnManager.nextTs + 1 :=
      fun e he => (hpast _ e he).trans (TransactionManager.lt_add_one_of_room (by omega))
    have hsuff : FailsCleanly db i (.update subqueries p) → Unchanged db db' :=
      update_unchanged hidle hstored hpast (by omega) h
    refine ⟨hsuff, fun hkeys => ⟨fun hsame sub' hsub' ho => ?_, hsuff⟩⟩
    obtain rfl : sub = sub' := Option.some.inj (hsub.symm.trans hsub')
    have hsound := (hstored (p sub.1).table).sound ho
    apply (stores_autoUpdate _ (p sub.1) _).restores_of_scanVisible hlt
      (fun _ => length_of_mem_written hsound) hsound (hkeys sub hsub)
    intro s
    have := hsame (p sub.1).table s
    rwa [htables, Function.update_self] at this
  · have hq' : ∀ subqueries p, q ≠ .update subqueries p := by simpa using hq
    have hsame : Unchanged db db' := by
      intro n s
      rw [tables_of_error hidle hq' h]
    have hclean : FailsCleanly db i q := by
      cases q with
      | update subqueries p => exact absurd rfl (hq' subqueries p)
      | _ => trivial
    exact ⟨fun _ => hsame, fun _ => iff_of_true hsame hclean⟩

section Sample

def twoAccounts : Database Unit Unit :=
  (run step (fresh fun _ => .accounts)
    [((), .insert ⟨(), [0, 1], [[.int 1, .int 10], [.int 2, .int 20]]⟩)]).getD
      (fresh fun _ => .accounts)

/-- `UPDATE accounts SET balance = 10 % (2 - id)`, which the account 2 ends with an error. -/
def setRemainder : Statement Unit :=
  .update [] fun _ => ⟨(), none, [⟨1, fun row =>
    match row.values with
    | .int id :: _ =>
      if 2 - id = 0 then .error "[Executor] Modulo by zero" else .ok (.int (10 % (2 - id)))
    | _ => .ok .null⟩]⟩

theorem setRemainder_leaves_first_row :
    (execAll twoAccounts [((), .select [] [()]), ((), setRemainder), ((), .select [] [()])]).map
        Prod.snd =
      some [.ok [[⟨[.int 1, .int 10]⟩, ⟨[.int 2, .int 20]⟩]],
        .error (.evaluation "[Executor] Modulo by zero"),
        .ok [[⟨[.int 1, .int 0]⟩, ⟨[.int 2, .int 20]⟩]]] := by
  decide

def insertTaken : Statement Unit := .insert ⟨(), [0, 1], [[.int 3, .int 30], [.int 2, .int 40]]⟩

theorem insertTaken_unchanged :
    ∃ db', twoAccounts.exec () insertTaken = some (db', .error .duplicateKey) ∧
      Unchanged twoAccounts db' := by
  have hfails : ((twoAccounts.exec () insertTaken).map Prod.snd) = some (.error .duplicateKey) := by
    decide
  obtain ⟨⟨db', out⟩, hexec, hout⟩ := Option.map_eq_some_iff.mp hfails
  obtain rfl : out = .error .duplicateKey := hout
  refine ⟨db', hexec, (failed_statement_unchanged (by decide) ?_ ?_ (by decide) hexec).1 trivial⟩
  · exact fun _ => ⟨by decide +revert, by decide +revert, by decide +revert, by decide +revert⟩
  · exact fun _ => by decide +revert

end Sample

end Database

end CoroDB
