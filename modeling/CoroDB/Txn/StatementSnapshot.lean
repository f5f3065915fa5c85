import CoroDB.Txn.TableWrites

/-!
# The snapshots of one statement

The uncorrelated subqueries of a statement run before the statement has its snapshot: outside a
transaction at the latest versions, inside one at the snapshot that the session still has.
-/

namespace CoroDB

open Framework

variable {ν ι : Type} [DecidableEq ν]

def Statement.subqueries : Statement ν → List ν
  | .select subqueries _ => subqueries
  | .update subqueries _ => subqueries
  | .delete subqueries _ => subqueries
  | _ => []

namespace Database

variable (db : Database ν ι) (i : ι)

def subquerySnapshot : UInt64 := (db.sessions i).forSubqueries.readSnapshot

/-- The snapshot of the outer query; UPDATE and DELETE read the latest versions. -/
def outerSnapshot : Statement ν → UInt64
  | .select _ _ => ((db.sessions i).prepareForStatement true db.txnManager).1.readSnapshot
  | _ => maxTs

def readRows (s : UInt64) (n : ν) : List Row :=
  overlayRows (db.tables n).columns ((db.sessions i).bufferFor n) ((db.tables n).scanVisible s)

variable {db i} {db' : Database ν ι}

theorem scanAll_rows {s s' : Session ν} {names : List ν} {rows : List (List Row)}
    (hsound : ∀ n, (db.tables n).Sound) (hs : ∀ n, s.bufferFor n = (db.sessions i).bufferFor n)
    (h : s.scanAll db.tables names = some (rows, s')) :
    rows = names.map (db.readRows i s.readSnapshot) := by
  induction names generalizing s rows with
  | nil => exact (Prod.mk.inj (Option.some.inj h)).1.symm
  | cons name names ih =>
    obtain ⟨read, rest, hread, hrest, rfl⟩ := Session.scanAll_cons h
    obtain ⟨r, v, htrack⟩ := Session.exists_trackScan s name (db.tables name) read
    rw [htrack] at hrest
    rw [(hsound name).scanVisibleStream_eq] at hread
    rw [List.map_cons, ih (s := s.withReads r v) hs hrest, ← Option.some.inj hread, hs, readRows]
    rfl

theorem resolveSubqueries_rows {s : Session ν} {names : List ν} {rows : List (List Row)}
    (hsound : ∀ n, (db.tables n).Sound)
    (h : (db.sessions i).resolveSubqueries db.tables names = some (rows, s)) :
    rows = names.map (db.readRows i (db.subquerySnapshot i)) := by
  obtain ⟨r, hr, heq⟩ := Option.map_eq_some_iff.mp h
  obtain ⟨rfl, -⟩ := Prod.mk.inj heq
  refine scanAll_rows hsound (fun n => ?_) hr
  rw [Session.forSubqueries]
  split_ifs <;> rfl

theorem select_rows [DecidableEq ι] {subqueries tables : List ν} {rows : List (List Row)}
    (hsound : ∀ n, (db.tables n).Sound)
    (h : db.exec i (.select subqueries tables) = some (db', .ok rows)) :
    rows = subqueries.map (db.readRows i (db.subquerySnapshot i)) ++
      tables.map (db.readRows i (db.outerSnapshot i (.select subqueries tables))) := by
  rw [exec] at h
  split_ifs at h
  · cases (Prod.mk.inj (Option.some.inj h)).2
  · obtain ⟨⟨subRows, s₁⟩, hsub, h⟩ := Option.bind_eq_some_iff.mp h
    obtain ⟨⟨outer, s₂⟩, hscan, h⟩ := Option.map_eq_some_iff.mp h
    obtain ⟨-, hout⟩ := Prod.mk.inj h
    obtain rfl := Except.ok.inj hout
    rw [resolveSubqueries_rows hsound hsub]
    obtain ⟨r, v, rfl⟩ := Session.exists_resolveSubqueries hsub
    have houter := scanAll_rows (i := i) hsound (by intro n; rfl) hscan
    exact congrArg _ houter

/-- The subqueries and the outer query read as at one snapshot that includes every stored version. -/
def ReadsOneSnapshot (db : Database ν ι) (i : ι) (q : Statement ν) : Prop :=
  ∃ s, (∀ n, ∀ e ∈ (db.tables n).versions, e.commitTs ≤ s) ∧
    (∀ n ∈ q.subqueries, (db.tables n).view (db.subquerySnapshot i) = (db.tables n).view s) ∧
    ∀ n, (db.tables n).view (db.outerSnapshot i q) = (db.tables n).view s

theorem Past.run [DecidableEq ι] {db₀ : Database ν ι} {history : List (ι × Statement ν)}
    (h : db₀.Past) (hroom : db₀.txnManager.nextTs.toNat + 2 * history.length < 2 ^ 64)
    (hrun : Framework.run step db₀ history = some db) : db.Past := by
  induction history generalizing db₀ with
  | nil => exact Option.some.inj hrun ▸ h
  | cons a history ih =>
    rw [List.length_cons] at hroom
    obtain ⟨db₁, hstep, hrun⟩ := run_cons hrun
    obtain ⟨⟨db₂, out⟩, hexec, rfl⟩ := Option.map_eq_some_iff.mp hstep
    have htrans := exec_transition hexec
    obtain ⟨-, hle, -⟩ := htrans.nextTs (by omega)
    exact ih (h.transition (by omega) htrans) (by omega) hrun

/-- After every history, the subqueries and the outer query of a statement in autocommit mode or in a
ReadCommitted transaction read one snapshot with everything that is committed, exactly when the
session has no snapshot of an earlier statement of its transaction or the tables of the subqueries
still show what they showed at it. -/
theorem readsOneSnapshot_iff [DecidableEq ι] {db₀ : Database ν ι} {history : List (ι × Statement ν)}
    {q : Statement ν} (h : db₀.Past)
    (hroom : db₀.txnManager.nextTs.toNat + 2 * history.length < 2 ^ 64)
    (hrun : Framework.run step db₀ history = some db)
    (hlevel : (db.sessions i).inTransaction = false ∨ (db.sessions i).isolation = .readCommitted) :
    ReadsOneSnapshot db i q ↔ ((db.sessions i).inTransaction = true →
      (db.sessions i).snapshotTs ≠ 0 → ∀ n ∈ q.subqueries,
        (db.tables n).view (db.sessions i).snapshotTs = (db.tables n).view maxTs) := by
  have hpast := h.run hroom hrun
  have houter : ∀ n, (db.tables n).view (db.outerSnapshot i q) = (db.tables n).view maxTs := by
    intro n
    cases q with
    | select subqueries tables =>
      have hprep : ((db.sessions i).prepareForStatement true db.txnManager).1.snapshotTs =
          db.txnManager.nextTs := by
        cases hin : (db.sessions i).inTransaction with
        | false => simp [Session.prepareForStatement, Session.prepareSnapshot, hin,
            TransactionManager.allocateTs]
        | true =>
          have hrc := hlevel.resolve_left (by simp [hin])
          simp [Session.prepareForStatement, Session.prepareSnapshot, hin, hrc,
            TransactionManager.allocateTs]
      rw [outerSnapshot, Session.readSnapshot, hprep]
      split_ifs
      · exact SqlTable.view_eq_maxTs fun e he => (hpast n e he).le
      · rfl
    | _ => rfl
  have hsub : db.subquerySnapshot i =
      if (db.sessions i).inTransaction = true ∧ (db.sessions i).snapshotTs ≠ 0 then
        (db.sessions i).snapshotTs else maxTs := by
    rw [subquerySnapshot, Session.forSubqueries]
    cases hin : (db.sessions i).inTransaction <;> simp [Session.readSnapshot]
  rw [ReadsOneSnapshot, hsub]
  constructor
  · rintro ⟨s, hall, hread, -⟩ hin hne n hn
    rw [if_pos ⟨hin, hne⟩] at hread
    rw [hread n hn, SqlTable.view_eq_maxTs (hall n)]
  · intro hcond
    refine ⟨maxTs, fun n e _ => ts_le_maxTs _, fun n hn => ?_, houter⟩
    split_ifs with hc
    · exact hcond hc.1 hc.2 n hn
    · rfl

section Sample

/-- One row, stored in autocommit mode; session `true` is in a ReadCommitted transaction. -/
def readCommittedHistory : List (Bool × Statement Unit) :=
  [(false, .insert ⟨(), [0, 1], [[.int 1, .int 10]]⟩), (true, .begin), (true, .select [] [()])]

def afterHistory : Database Unit Bool :=
  (Framework.run step (fresh fun _ => .accounts) readCommittedHistory).getD (fresh fun _ => .accounts)

/-- Nothing is committed after the first query of the transaction. -/
theorem afterHistory_readsOneSnapshot : ReadsOneSnapshot afterHistory true (.select [()] [()]) := by
  have hpast : (fresh fun _ => .accounts : Database Unit Bool).Past := by
    rw [Past]
    decide
  have hrun : Framework.run step (fresh fun _ => .accounts) readCommittedHistory =
      some afterHistory := rfl
  refine (readsOneSnapshot_iff hpast (by decide) hrun (.inr (by decide))).mpr fun _ _ n _ => ?_
  apply SqlTable.view_eq_maxTs
  decide +revert

/-- A row is stored between two queries of the transaction: the subquery of the second one does not
see it and the outer query does. -/
theorem subquery_reads_older_snapshot :
    (execAll (fresh fun _ => .accounts) (readCommittedHistory ++
      [(false, .insert ⟨(), [0, 1], [[.int 2, .int 20]]⟩), (true, .select [()] [()])])).map
      (fun r => r.2.getLast?) =
      some (some (.ok [[⟨[.int 1, .int 10]⟩], [⟨[.int 1, .int 10]⟩, ⟨[.int 2, .int 20]⟩]])) := by
  decide

end Sample

end Database

end CoroDB
