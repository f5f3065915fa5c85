import CoroDB.Txn.Savepoints
import CoroDB.Txn.StatementSnapshot

/-!
# What a transaction reads

A RepeatableRead or Serializable transaction reads what was committed when it began, under what it
has written itself.
-/

namespace CoroDB

open Framework

variable {ν ι : Type} [DecidableEq ν]

namespace SqlTable

variable {t t' : SqlTable} {e : MemEntry} {es : List MemEntry} {s ts : UInt64}

theorem ofList_mergeEntries_of_ne {mem : List MemEntry} {k : ValueKey} {τ : UInt64}
    (hτ : e.commitTs ≠ τ) :
    History.ofList (mergeEntries [e] mem) k τ = History.ofList mem k τ := by
  have hskip : ∀ es, History.ofList (e :: es) k τ = History.ofList es k τ :=
    fun es => (History.ofList_cons e es k τ).trans (if_neg fun h => hτ h.2)
  induction mem with
  | nil => exact hskip []
  | cons y ys ih =>
    rw [mergeEntries, priorityMerge_cons_cons]
    split_ifs with hey hye
    · exact hskip _
    · change History.ofList (y :: mergeEntries [e] ys) k τ = _
      rw [History.ofList_cons, ih, History.ofList_cons]
    · have hts : y.commitTs = e.commitTs := by
        simp only [mvccLess, Bool.not_eq_true] at hey hye
        grind
      change History.ofList (e :: ys) k τ = _
      rw [hskip, History.ofList_cons, if_neg fun h => hτ (hts ▸ h.2)]

theorem view_put_of_lt (hs : s < e.commitTs) : (t.put e).view s = t.view s := by
  funext k
  refine History.view_congr fun τ hτ => ?_
  rw [versions, versions, considered, considered, History.ofList_append, History.ofList_append,
    History.overlay_apply, History.overlay_apply]
  exact congrArg _ (ofList_mergeEntries_of_ne (hτ.trans_lt hs).ne')

theorem Stores.view_of_lt (h : Stores ts es t t') (hs : s < ts) : t'.view s = t.view s := by
  obtain ⟨n, -, rfl⟩ := h.eq
  have hts := h.ts_eq
  rw [bumps_view]
  clear h
  induction es generalizing t with
  | nil => rfl
  | cons e es ih =>
    rw [puts_cons, ih fun x hx => hts x (List.mem_cons_of_mem _ hx),
      view_put_of_lt (hts e List.mem_cons_self ▸ hs)]

end SqlTable

namespace Database

variable [DecidableEq ι] {db db' : Database ν ι} {i j : ι} {q : Statement ν} {out : Output ν}
  {s : UInt64}

theorem Transition.unseen (h : Transition db i q db' out)
    (hroom : db.txnManager.nextTs.toNat + 2 < 2 ^ 64) (hs : s < db.txnManager.nextTs) (n : ν) :
    (db'.tables n).view s = (db.tables n).view s ∧ (db'.tables n).columns = (db.tables n).columns := by
  cases h with
  | within | begin | abandon | dml => exact ⟨rfl, rfl⟩
  | commit ts m hq hin hconflict hcommit =>
    obtain ⟨rfl, -, -, -⟩ := TransactionManager.commit_eq_some hcommit
    have hstores := SqlTable.stores_applyWrites (db.tables n)
      ((db.sessions i).writeBuffer.forTable n).writes db.txnManager.nextTs
    rw [← applyBuffer_apply] at hstores
    exact ⟨hstores.view_of_lt hs, hstores.columns⟩
  | auto table r s hidle hdml hs' =>
    change (Function.update db.tables table r.2 n).view _ = _ ∧
      (Function.update db.tables table r.2 n).columns = _
    by_cases hn : n = table
    · subst hn
      rw [Function.update_self]
      obtain ⟨es, hes, -⟩ := hdml.stores
      exact ⟨hes.view_of_lt (hs.trans (TransactionManager.lt_add_one_of_room (by omega))), hes.columns⟩
    · rw [Function.update_of_ne hn]
      exact ⟨rfl, rfl⟩

structure SameTxn (s s' : Session ν) : Prop where
  txnId : s'.currentTxnId = s.currentTxnId
  isolation : s'.isolation = s.isolation
  snapshot : s'.snapshotTs = s.snapshotTs

theorem Transition.sameTxn (h : Transition db j q db' out)
    (hin : (db.sessions i).inTransaction = true) (hfixed : (db.sessions i).fixedSnapshot = true)
    (hq : j = i → q ≠ .commit ∧ q ≠ .rollback) : SameTxn (db.sessions i) (db'.sessions i) := by
  by_cases hj : j = i
  · subst hj
    cases h with
    | within s m out hs hm =>
      rw [setSession_sessions_self]
      exact ⟨hs.txnId, hs.isolation hin, hs.snapshot hin hfixed⟩
    | dml table r s m _ haborted hdml hs hbuf hsaves hm =>
      rw [setSession_sessions_self]
      exact ⟨hs.txnId, hs.isolation hin, hs.snapshot hin hfixed⟩
    | begin snapshot _ hidle => simp [hin] at hidle
    | auto table r s hidle => simp [hin] at hidle
    | commit ts m hcommit => exact absurd hcommit (hq rfl).1
    | abandon m savepoints out _ hm hend =>
      rcases hend with ⟨hcommit, -⟩ | hrollback
      · exact absurd hcommit (hq rfl).1
      · exact absurd hrollback (hq rfl).2
  · rw [h.sessions_of_ne (Ne.symm hj)]
    exact ⟨rfl, rfl, rfl⟩

/-- While a transaction at a fixed snapshot is open, no statement changes what its snapshot shows. -/
theorem run_unseen {as : List (ι × Statement ν)} (hin : (db.sessions i).inTransaction = true)
    (hfixed : (db.sessions i).fixedSnapshot = true)
    (hsnap : (db.sessions i).snapshotTs < db.txnManager.nextTs)
    (hroom : db.txnManager.nextTs.toNat + 2 * as.length < 2 ^ 64)
    (hopen : ∀ a ∈ as, a.1 = i → a.2 ≠ .commit ∧ a.2 ≠ .rollback)
    (hrun : run step db as = some db') :
    SameTxn (db.sessions i) (db'.sessions i) ∧ ∀ n,
      (db'.tables n).view (db.sessions i).snapshotTs = (db.tables n).view (db.sessions i).snapshotTs ∧
        (db'.tables n).columns = (db.tables n).columns := by
  induction as generalizing db with
  | nil =>
    obtain rfl := Option.some.inj hrun
    exact ⟨⟨rfl, rfl, rfl⟩, fun n => ⟨rfl, rfl⟩⟩
  | cons a as ih =>
    rw [List.length_cons] at hroom
    obtain ⟨db₁, hstep, hrun⟩ := run_cons hrun
    obtain ⟨⟨db₁, out⟩, hexec, rfl⟩ := Option.map_eq_some_iff.mp hstep
    have htrans := exec_transition hexec
    have hsame := htrans.sameTxn hin hfixed (hopen a List.mem_cons_self)
    obtain ⟨hle, hbound, -⟩ := htrans.nextTs (by omega)
    have hrun : run step db₁ as = some db' := hrun
    obtain ⟨htxn, hviews⟩ := ih (by rw [Session.inTransaction, hsame.txnId]; exact hin)
      (by rw [Session.fixedSnapshot, hsame.isolation]; exact hfixed)
      (by rw [hsame.snapshot]; exact hsnap.trans_le (UInt64.le_iff_toNat_le.mpr hle)) (by omega)
      (fun b hb => hopen b (List.mem_cons_of_mem _ hb)) hrun
    refine ⟨⟨htxn.txnId.trans hsame.txnId, htxn.isolation.trans hsame.isolation,
      htxn.snapshot.trans hsame.snapshot⟩, fun n => ?_⟩
    obtain ⟨hview, hcolumns⟩ := hviews n
    obtain ⟨hview₁, hcolumns₁⟩ := htrans.unseen (by omega) hsnap n
    rw [hsame.snapshot] at hview
    exact ⟨hview.trans hview₁, hcolumns.trans hcolumns₁⟩

theorem run_begin {db₀ : Database ν ι} {as : List (ι × Statement ν)}
    (hidle : (db₀.sessions i).inTransaction = false)
    (hfixed : (db₀.sessions i).fixedSnapshot = true) (hpast : db₀.Past)
    (hid : db₀.txnManager.nextTxnId ≠ 0)
    (hnew : TransactionManager.find db₀.txnManager.txns db₀.txnManager.nextTxnId = none)
    (hroom : db₀.txnManager.nextTs.toNat + 2 * (as.length + 1) < 2 ^ 64)
    (hrun : run step db₀ ((i, .begin) :: as) = some db)
    (hopen : ∀ a ∈ as, a.1 = i → a.2 ≠ .commit ∧ a.2 ≠ .rollback) :
    SameTxn { db₀.sessions i with
        currentTxnId := db₀.txnManager.nextTxnId
        snapshotTs := db₀.txnManager.nextTs } (db.sessions i) ∧
      ∀ n, (db.tables n).view db₀.txnManager.nextTs = (db₀.tables n).view maxTs ∧
        (db.tables n).columns = (db₀.tables n).columns := by
  obtain ⟨db₁, hbegin, hrun⟩ := run_cons hrun
  obtain rfl : (db₀.begin i).1 = db₁ := Option.some.inj hbegin
  rw [begin_eq hidle (Session.fixedSnapshot_iff.mp hfixed) hnew] at hrun
  have hnext : (db₀.txnManager.nextTs + 1).toNat = db₀.txnManager.nextTs.toNat + 1 :=
    TransactionManager.toNat_add_one (by omega)
  have hsnap : db₀.txnManager.nextTs < db₀.txnManager.nextTs + 1 :=
    UInt64.lt_iff_toNat_lt.mpr (by omega)
  obtain ⟨hsame, hviews⟩ := run_unseen (i := i)
    (by rw [setSession_sessions_self]; simpa [Session.inTransaction] using hid)
    (by rw [setSession_sessions_self]; exact hfixed) (by rw [setSession_sessions_self]; exact hsnap)
    (by change (db₀.txnManager.nextTs + 1).toNat + _ < _; omega) hopen hrun
  rw [setSession_sessions_self] at hsame hviews
  exact ⟨⟨hsame.txnId, hsame.isolation, hsame.snapshot⟩, fun n => ⟨(hviews n).1.trans
    (SqlTable.view_eq_maxTs fun x hx => (hpast n x hx).le), (hviews n).2⟩⟩

/-- Whatever all sessions do after its BEGIN, a query of a RepeatableRead or Serializable transaction
returns the rows that were committed before the BEGIN, under what the transaction has written. -/
theorem select_atBegin {db₀ : Database ν ι} {as : List (ι × Statement ν)} {subqueries tables : List ν}
    {rows : List (List Row)} (hidle : (db₀.sessions i).inTransaction = false)
    (hfixed : (db₀.sessions i).fixedSnapshot = true) (hpast : db₀.Past)
    (hid : db₀.txnManager.nextTxnId ≠ 0)
    (hnew : TransactionManager.find db₀.txnManager.txns db₀.txnManager.nextTxnId = none)
    (hclock : db₀.txnManager.nextTs ≠ 0)
    (hroom : db₀.txnManager.nextTs.toNat + 2 * (as.length + 1) < 2 ^ 64)
    (hrun : run step db₀ ((i, .begin) :: as) = some db)
    (hopen : ∀ a ∈ as, a.1 = i → a.2 ≠ .commit ∧ a.2 ≠ .rollback)
    (hsound₀ : ∀ n, (db₀.tables n).Sound) (hsound : ∀ n, (db.tables n).Sound)
    (h : db.exec i (.select subqueries tables) = some (db', .ok rows)) :
    rows = (subqueries ++ tables).map fun n =>
      overlayRows (db₀.tables n).columns ((db.sessions i).bufferFor n)
        ((db₀.tables n).scanVisible maxTs) := by
  obtain ⟨⟨htxn, hisolation, hsnap⟩, hviews⟩ :=
    run_begin hidle hfixed hpast hid hnew hroom hrun hopen
  have hin : (db.sessions i).inTransaction = true := by
    rw [Session.inTransaction, htxn]
    simpa using hid
  have hlevel : (db.sessions i).fixedSnapshot = true := by
    rw [Session.fixedSnapshot, hisolation]
    exact hfixed
  have hread : (db.sessions i).readSnapshot = db₀.txnManager.nextTs := by
    rw [Session.readSnapshot, hsnap, if_pos hclock]
  have hsub : db.subquerySnapshot i = db₀.txnManager.nextTs := by
    rw [subquerySnapshot, Session.forSubqueries, if_pos hin, hread]
  have houter : db.outerSnapshot i (.select subqueries tables) = db₀.txnManager.nextTs := by
    rw [outerSnapshot, Session.prepareForStatement_fixed hin (Session.fixedSnapshot_iff.mp hlevel)]
    exact hread
  rw [select_rows hsound h, hsub, houter, ← List.map_append]
  refine List.map_congr_left fun n _ => ?_
  rw [readRows, (hviews n).2, (hsound n).scanVisible_congr (hsound₀ n) (hviews n).1]

def repeatableStart : Database Unit Bool :=
  ⟨fun _ => .accounts, {}, .empty, fun _ => { isolation := .repeatableRead }⟩

/-- Session `true` commits a row after the BEGIN of session `false`, which inserts another. -/
def bothInsert : List (Bool × Statement Unit) :=
  [(true, .insert ⟨(), [0, 1], [[.int 1, .int 10]]⟩),
    (false, .insert ⟨(), [0, 1], [[.int 2, .int 20]]⟩)]

def repeatableEnd : Database Unit Bool :=
  (run step repeatableStart ((false, .begin) :: bothInsert)).getD repeatableStart

theorem select_bothInsert :
    [[⟨[.int 2, .int 20]⟩]] = ([] ++ [()]).map fun n =>
      overlayRows (repeatableStart.tables n).columns ((repeatableEnd.sessions false).bufferFor n)
        ((repeatableStart.tables n).scanVisible maxTs) := by
  have hpast : repeatableStart.Past := by
    rw [Past]
    decide
  have hrun : run step repeatableStart ((false, .begin) :: bothInsert) = some repeatableEnd := rfl
  exact select_atBegin rfl rfl hpast (by decide) rfl (by decide) (by decide) hrun
    (by simp [bothInsert]) (fun _ => SqlTable.fresh_sound ..)
    (fun _ => SqlTable.Stored.sound
      ⟨by decide +revert, by decide +revert, by decide +revert, by decide +revert⟩
      (by decide +revert)) rfl

end Database

end CoroDB
