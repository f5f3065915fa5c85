import CoroDB.Process.ReadOnly

/-!
# The read_only role

A session that has logged in with the role `read_only` may query, control its transaction and explain
a query.
-/

namespace CoroDB

open Framework

variable {ν ι : Type} [DecidableEq ν]

namespace Processor

structure SameAccounts (P P' : Processor ν ι) : Prop where
  users : P'.users = P.users
  login : P'.login = P.login
  texts : P'.preparedSql = P.preparedSql
  plans : P'.preparedStmts = P.preparedStmts

variable {P P' P'' : Processor ν ι}

theorem SameAccounts.refl (P : Processor ν ι) : P.SameAccounts P := ⟨rfl, rfl, rfl, rfl⟩

theorem SameAccounts.trans (h : P.SameAccounts P') (h' : P'.SameAccounts P'') :
    P.SameAccounts P'' where
  users := h'.users.trans h.users
  login := h'.login.trans h.login
  texts := h'.texts.trans h.texts
  plans := h'.plans.trans h.plans

theorem sameAccounts_db (P : Processor ν ι) (db : Database ν ι) :
    P.SameAccounts { P with db := db } :=
  ⟨rfl, rfl, rfl, rfl⟩

theorem sameAccounts_markFailed (P : Processor ν ι) (i : ι) : P.SameAccounts (P.markFailed i) :=
  sameAccounts_db P _

section Parts

variable [DecidableEq ι] {env : Environment ν} {i : ι} {reply : Reply ν}

theorem SameAccounts.clearPrepared (h : P.SameAccounts P') (i : ι) :
    (P.clearPrepared i).SameAccounts (P'.clearPrepared i) where
  users := h.users
  login := h.login
  texts := h.texts
  plans := by
    change Function.update P'.preparedStmts i _ = Function.update P.preparedStmts i _
    rw [h.plans]

omit [DecidableEq ι] in
theorem sameAccounts_analyzeTables (P : Processor ν ι) (ts : UInt64) (tables : List ν) :
    P.SameAccounts (tables.foldl (fun Q t => Q.analyzeTable env ts t) P) := by
  induction tables generalizing P with
  | nil => exact .refl P
  | cons t tables ih =>
    have hhead : P.SameAccounts (P.analyzeTable env ts t) := ⟨rfl, rfl, rfl, rfl⟩
    exact hhead.trans (ih _)

variable (env P i) in
/-- The processor whose session has forgotten its plans where a query on the tables refreshes
statistics. -/
def refreshed (tables : List ν) : Processor ν ι :=
  if env.autoAnalyze ∧ P.staleTables env tables ≠ [] then P.clearPrepared i else P

theorem sameAccounts_maybeAutoAnalyze (P : Processor ν ι) (i : ι) (tables : List ν) :
    (P.refreshed env i tables).SameAccounts (P.maybeAutoAnalyze env i tables) := by
  have hsnapshot : P.SameAccounts (P.snapshotTs i).2 := by
    rw [snapshotTs]
    split_ifs
    · exact .refl P
    · exact sameAccounts_db P _
  have hrefreshed : P.SameAccounts ((P.staleTables env tables).foldl
      (fun Q t => Q.analyzeTable env (P.snapshotTs i).1 t) (P.snapshotTs i).2) :=
    hsnapshot.trans (sameAccounts_analyzeTables _ _ _)
  rw [refreshed, maybeAutoAnalyze]
  dsimp only
  by_cases hauto : env.autoAnalyze = true
  · by_cases hstale : P.staleTables env tables = []
    · rw [if_neg (by simp [hstale]), if_pos hauto, if_pos hstale]
      exact hrefreshed
    · rw [if_pos ⟨hauto, hstale⟩, if_pos hauto, if_neg hstale]
      exact hrefreshed.clearPrepared i
  · rw [if_neg (by simp [hauto]), if_neg hauto]
    exact .refl P

theorem sameAccounts_resolveSubqueries {tables : List ν} {rows : List (List Row)}
    (h : P.resolveSubqueries i tables = some (.ok (rows, P'))) : P.SameAccounts P' := by
  rw [resolveSubqueries] at h
  split_ifs at h
  · obtain ⟨r, -, heq⟩ := Option.map_eq_some_iff.mp h
    obtain ⟨-, rfl⟩ := Prod.mk.inj (Except.ok.inj heq)
    exact sameAccounts_db P _
  · cases h

theorem sameAccounts_select {q : Query ν (SelectPlan ν)}
    (h : P.runStatement env i (.select q) = some (P', reply)) :
    (P.refreshed env i q.tables).SameAccounts P' := by
  have hstart : (P.refreshed env i q.tables).SameAccounts (P.started env i (.select q)) :=
    sameAccounts_maybeAutoAnalyze P i q.tables
  obtain ⟨resolved, hr, heq⟩ := Option.bind_eq_some_iff.mp h
  cases resolved with
  | error e =>
    obtain ⟨rfl, -⟩ := Prod.mk.inj (Option.some.inj heq)
    exact hstart.trans (sameAccounts_markFailed _ i)
  | ok resolved =>
    obtain ⟨rows, Q⟩ := resolved
    have hQ := hstart.trans (sameAccounts_resolveSubqueries hr)
    change Q.runPlanned i (.select q) rows = some (P', reply) at heq
    rw [runPlanned, buildPhysicalPlan] at heq
    cases hplan : q.plan Q.schema rows with
    | error message =>
      rw [hplan] at heq
      obtain ⟨rfl, -⟩ := Prod.mk.inj (Option.some.inj heq)
      exact hQ.trans (sameAccounts_markFailed Q i)
    | ok plan =>
      rw [hplan] at heq
      obtain ⟨r, -, heq⟩ := Option.map_eq_some_iff.mp heq
      obtain ⟨db, rows | rows⟩ := r
      · obtain ⟨rfl, -⟩ := Prod.mk.inj heq
        exact hQ.trans (sameAccounts_db Q db)
      · obtain ⟨rfl, -⟩ := Prod.mk.inj heq
        exact hQ.trans (sameAccounts_db Q db)

theorem sameAccounts_explain {analyze : Bool} {inner : Ast ν}
    (h : P.explain i analyze inner = some (P', reply)) : P.SameAccounts P' := by
  obtain ⟨resolved, hr, heq⟩ := Option.bind_eq_some_iff.mp h
  cases resolved with
  | error e =>
    obtain ⟨rfl, -⟩ := Prod.mk.inj (Option.some.inj heq)
    exact .refl _
  | ok resolved =>
    obtain ⟨rows, Q⟩ := resolved
    have hQ : P.SameAccounts Q := sameAccounts_resolveSubqueries hr
    dsimp only at heq
    split at heq
    · obtain ⟨rfl, -⟩ := Prod.mk.inj (Option.some.inj heq)
      exact hQ
    · split_ifs at heq
      · obtain ⟨r, -, heq⟩ := Option.map_eq_some_iff.mp heq
        obtain ⟨rfl, -⟩ := Prod.mk.inj heq
        exact hQ.trans (sameAccounts_db Q r.1)
      · obtain ⟨rfl, -⟩ := Prod.mk.inj (Option.some.inj heq)
        exact hQ

end Parts

/-- A session that has logged in with the role `read_only`, outside a transaction or in one without
writes, whose user is no administrator. -/
structure Reader (P : Processor ν ι) (i : ι) (name : String) : Prop where
  login : P.login i = some (name, .readOnly)
  hasUsers : P.hasUsers = true
  role : P.roleOf name ≠ .admin
  unwritten : (P.db.sessions i).Unwritten

variable {i : ι} {name : String}

theorem Reader.isRead_of_refusal (hP : P.Reader i name) {a : Ast ν} (h : P.refusal i a = none) :
    a.isRead = true := by
  have hany : ((P.login i).any fun u => P.roleOf u.1 == .admin) = false := by
    simpa [hP.login] using hP.role
  rw [refusal.eq_def] at h
  split at h
  · cases h
  · cases a with
    | createUser n password role => simp [hP.hasUsers, hany] at h
    | auth n password => rfl
    | _ => simpa [hP.login, hP.hasUsers] using h

theorem Reader.resolve_select_ne {env : Environment ν} (hP : P.Reader i name) {fuel : Nat}
    {sql : Bytes} {q : Query ν (SelectPlan ν)} (hparse : env.parse sql = some (.select q))
    (e : ProcessError ν) : P.resolve env i fuel sql ≠ some (.error e) := by
  have hrefusal : P.refusal i (.select q : Ast ν) = none := by
    simp [refusal.eq_def, Ast.changesData, Ast.isWriteStatement, Ast.isRead, hP.login]
  intro h
  cases fuel with
  | zero => cases h
  | succ fuel =>
    rw [resolve, hparse] at h
    simp [hrefusal] at h

theorem Reader.parse_of_resolve {env : Environment ν} (hP : P.Reader i name) {fuel : Nat}
    {sql : Bytes} {a : Ast ν} (h : P.resolve env i fuel sql = some (.ok a)) :
    env.parse sql = some a := by
  cases fuel with
  | zero => cases h
  | succ fuel =>
    rw [resolve] at h
    split at h
    · cases h
    · rename_i b hparse
      split at h
      · cases h
      · rename_i hrefusal
        split at h
        · exact absurd (hP.isRead_of_refusal hrefusal) (by simp [Ast.isRead])
        · rw [hparse, Except.ok.inj (Option.some.inj h)]

section Run

variable [DecidableEq ι] {env : Environment ν} {fuel : Nat} {reply : Reply ν}

/-- Whether a text is a query that refreshes statistics before it is planned. -/
def refreshes (env : Environment ν) (P : Processor ν ι) (i : ι) (sql : Bytes) : Bool :=
  match env.parse sql with
  | some (.select q) =>
    !P.db.aborted i && env.autoAnalyze && decide (P.staleTables env q.tables ≠ [])
  | _ => false

/-- What a text of a session leaves of the plans: all of them, or those of the other sessions. -/
def afterRefresh (env : Environment ν) (P : Processor ν ι) (i : ι) (sql : Bytes) : Processor ν ι :=
  if P.refreshes env i sql then P.clearPrepared i else P

/-- The same data and accounts, apart from plans that were forgotten, and a session that still only
reads. -/
structure Served (P : Processor ν ι) (env : Environment ν) (i : ι) (name : String) (sql : Bytes)
    (P' : Processor ν ι) : Prop where
  kept : P'.db.tables = P.db.tables ∧ P'.catalog = P.catalog ∧ P'.indexes = P.indexes
  accounts : (P.afterRefresh env i sql).SameAccounts P'
  reader : P'.Reader i name

theorem afterRefresh_accounts (env : Environment ν) (P : Processor ν ι) (i : ι) (sql : Bytes) :
    (P.afterRefresh env i sql).users = P.users ∧ (P.afterRefresh env i sql).login = P.login ∧
      (P.afterRefresh env i sql).preparedSql = P.preparedSql := by
  rw [afterRefresh]
  split_ifs <;> exact ⟨rfl, rfl, rfl⟩

theorem Reader.served {sql : Bytes} (hP : P.Reader i name)
    (hkept : P'.db.tables = P.db.tables ∧ P'.catalog = P.catalog ∧ P'.indexes = P.indexes)
    (haccounts : (P.afterRefresh env i sql).SameAccounts P')
    (hunwritten : (P'.db.sessions i).Unwritten) : P.Served env i name sql P' where
  kept := hkept
  accounts := haccounts
  reader := by
    obtain ⟨husers, hlogin, -⟩ := afterRefresh_accounts env P i sql
    refine ⟨?_, ?_, ?_, hunwritten⟩
    · rw [haccounts.login, hlogin, hP.login]
    · rw [Processor.hasUsers, haccounts.users, husers, ← Processor.hasUsers, hP.hasUsers]
    · rw [roleOf, haccounts.users, husers]
      exact hP.role

theorem Reader.served_of_moves {sql : Bytes} (hP : P.Reader i name) (h : Moves i false P P')
    (haccounts : (P.afterRefresh env i sql).SameAccounts P') : P.Served env i name sql P' :=
  have hkept := kept_of_moves h
  hP.served ⟨hkept.tables, hkept.catalog, hkept.indexes⟩ haccounts (unwritten_moves h hP.unwritten)

theorem Reader.served_run {sql : Bytes} (hP : P.Reader i name)
    (hauth : ∀ n password, env.parse sql ≠ some (.auth n password))
    (h : P.run env fuel i sql = some (P', reply)) : P.Served env i name sql P' := by
  have hquiet (hq : ∀ q, env.parse sql = some (.select q) → P.db.aborted i = true) :
      P.afterRefresh env i sql = P := by
    refine if_neg ?_
    rw [refreshes]
    split
    · rename_i q hparse
      simp [hq q hparse]
    · exact Bool.false_ne_true
  have hsame (hq : ∀ q, env.parse sql = some (.select q) → P.db.aborted i = true) :
      P.Served env i name sql P := by
    refine hP.served ⟨rfl, rfl, rfl⟩ ?_ hP.unwritten
    rw [hquiet hq]
    exact .refl P
  rcases run_cases_of_resolve h with ⟨e, hr, rfl, -⟩ | ⟨a, hr, h⟩
  · refine hsame fun q hparse => ?_
    exact absurd hr (hP.resolve_select_ne hparse e)
  · have hread := hP.isRead_of_refusal (refusal_of_resolve hr)
    have hparse := hP.parse_of_resolve hr
    have hother (ha : ∀ q, a ≠ .select q) :
        ∀ q, env.parse sql = some (.select q) → P.db.aborted i = true := by
      intro q hq
      exact absurd (Option.some.inj (hparse.symm.trans hq)) (ha q)
    cases a with
    | select q =>
      change (if P.db.aborted i then some (P, .error (.sql .transactionAborted))
        else P.runStatement env i (.select q)) = some (P', reply) at h
      split_ifs at h with haborted
      · obtain ⟨rfl, -⟩ := Prod.mk.inj (Option.some.inj h)
        exact hsame fun _ _ => haborted
      · refine hP.served_of_moves (moves_runStatement h) ?_
        have heq : P.afterRefresh env i sql = P.refreshed env i q.tables := by
          rw [afterRefresh, refreshes, hparse, refreshed]
          simp [haborted]
        rw [heq]
        exact sameAccounts_select h
    | showStatus =>
      obtain ⟨rfl, -⟩ := Prod.mk.inj (Option.some.inj h)
      exact hsame (hother (by simp))
    | control c =>
      obtain ⟨rfl, -⟩ := Prod.mk.inj (Option.some.inj h)
      have hcontrol := control_unwritten hP.unwritten c
      refine hP.served ⟨hcontrol.1, rfl, rfl⟩ ?_ (hcontrol.2 i hP.unwritten)
      rw [hquiet (hother (by simp))]
      exact sameAccounts_db P _
    | explain analyze inner =>
      have hinner : inner.isWriteStatement = false := by simpa [Ast.isRead] using hread
      rw [dispatch] at h
      split_ifs at h
      · obtain ⟨rfl, -⟩ := Prod.mk.inj (Option.some.inj h)
        exact hsame (hother (by simp))
      · refine hP.served_of_moves (hinner ▸ moves_explain h) ?_
        rw [hquiet (hother (by simp))]
        exact sameAccounts_explain h
    | auth n password => exact absurd hparse (hauth n password)
    | _ => cases hread

/-- What a session of the role `read_only` leaves as it is: the data, the users, the logins, the
prepared texts, and the plans, unless its own have been forgotten. -/
structure ReadsOnly (P : Processor ν ι) (i : ι) (P' : Processor ν ι) : Prop where
  data : P.SameData P'
  users : P'.users = P.users
  login : P'.login = P.login
  texts : P'.preparedSql = P.preparedSql
  plans : P'.preparedStmts = P.preparedStmts ∨
    P'.preparedStmts = Function.update P.preparedStmts i fun _ => none

/-- Whatever the session sends next, it forgets its plans when that is a query that refreshes
statistics, and no plan is added, replaced or forgotten otherwise. -/
def ForgetsOnRefresh (env : Environment ν) (fuel : Nat) (i : ι) (P : Processor ν ι) : Prop :=
  ∀ sql P', (∀ n password, env.parse sql ≠ some (.auth n password)) →
    P.step env fuel (i, sql) = some P' →
    P'.preparedStmts = if P.refreshes env i sql then Function.update P.preparedStmts i fun _ => none
      else P.preparedStmts

theorem Served.plans {sql : Bytes} (h : P.Served env i name sql P') :
    P'.preparedStmts = if P.refreshes env i sql then Function.update P.preparedStmts i fun _ => none
      else P.preparedStmts := by
  rw [h.accounts.plans, afterRefresh]
  split_ifs <;> rfl

theorem ReadsOnly.served {sql : Bytes} (h : P.ReadsOnly i P') (h' : P'.Served env i name sql P'') :
    P.ReadsOnly i P'' := by
  obtain ⟨htables, hcatalog, hindexes⟩ := h'.kept
  obtain ⟨husers, hlogin, htexts⟩ := afterRefresh_accounts env P' i sql
  refine ⟨h.data.trans ⟨hcatalog, fun t => by rw [htables], fun t => by rw [hindexes],
    fun t _ => by rw [htables]⟩, ?_, ?_, ?_, ?_⟩
  · rw [h'.accounts.users, husers, h.users]
  · rw [h'.accounts.login, hlogin, h.login]
  · rw [h'.accounts.texts, htexts, h.texts]
  · rw [h'.plans]
    rcases h.plans with hplans | hplans <;> rw [hplans] <;> split_ifs <;> simp

/-- A session of the role `read_only` changes no data, no user and no prepared text, as long as its
user is not registered as an administrator; of the prepared plans it forgets its own, with a query
that refreshes statistics. -/
theorem readOnlyRole_throughout (fuel : Nat) {texts : List Bytes}
    (hlogin : P.login i = some (name, .readOnly)) (husers : P.hasUsers = true)
    (hrole : P.roleOf name ≠ .admin) (htxn : (P.db.sessions i).inTransaction = false)
    (hbuffer : (P.db.sessions i).writeBuffer.entries = [])
    (hauth : ∀ sql ∈ texts, ∀ n password, env.parse sql ≠ some (.auth n password)) :
    Throughout (step env fuel) (fun Q => P.ReadsOnly i Q ∧ Q.ForgetsOnRefresh env fuel i) P
      (texts.map fun sql => (i, sql)) := by
  have hreader : P.Reader i name :=
    ⟨hlogin, husers, hrole, hbuffer, fun hin => absurd (htxn.symm.trans hin) (by simp)⟩
  have hreads : Throughout (step env fuel) (fun Q => P.ReadsOnly i Q ∧ Q.Reader i name) P
      (texts.map fun sql => (i, sql)) := by
    have hguard : Guarded (step env fuel)
        (fun _ a => a.1 = i ∧ ∀ n password, env.parse a.2 ≠ some (.auth n password)) P
        (texts.map fun sql => (i, sql)) := by
      apply Guarded.of_invariant (I := fun _ => True) (fun _ _ _ _ _ _ => trivial) _ trivial
      intro Q a ha _
      obtain ⟨sql, hsql, rfl⟩ := List.mem_map.mp ha
      exact ⟨rfl, hauth sql hsql⟩
    apply hguard.throughout
    · intro Q a Q' hQ ha hstep
      obtain ⟨⟨Q', reply⟩, hrun, rfl⟩ := Option.map_eq_some_iff.mp hstep
      rw [ha.1] at hrun
      have hQ' := hQ.2.served_run ha.2 hrun
      exact ⟨hQ.1.served hQ', hQ'.reader⟩
    · exact ⟨⟨(Kept.refl P).sameData, rfl, rfl, rfl, .inl rfl⟩, hreader⟩
  refine hreads.mono fun Q hQ => ⟨hQ.1, fun sql Q' hsql hstep => ?_⟩
  obtain ⟨⟨Q', reply⟩, hrun, rfl⟩ := Option.map_eq_some_iff.mp hstep
  exact (hQ.2.served_run hsql hrun).plans

end Run

end Processor

section Sample

open Ascii

/-- A session of the role `read_only` that has prepared an `INSERT` under another login; `role` is
the role that its user has now. -/
def Processor.reader (role : UserRole) : Processor Unit Unit :=
  { Processor.sample false with
    users := KeyMap.empty.assign "reader" ("secret", role)
    login := fun _ => some ("reader", .readOnly)
    preparedStmts := fun _ name =>
      if name = "p" then some (.insert ⟨(), [0, 1], [[.int 1, .int 7]]⟩) else none }

def readerTexts : List (Bytes × Ast Unit) :=
  [(ascii "SELECT * FROM t", .select (.onTable ⟨[()], fun rows => .ok rows.flatten⟩)),
    (ascii "INSERT INTO t VALUES (1, 7)", .insert (.onTable ⟨(), [0, 1], [[.int 1, .int 7]]⟩)),
    (ascii "EXECUTE p", .execute "p" []), (ascii "BEGIN", .control .begin),
    (ascii "COMMIT", .control .commit),
    (ascii "CREATE USER eve 'x' ROLE admin", .createUser "eve" "x" .admin)]

/-- The `INSERT` and the `EXECUTE` are refused. -/
def readerSession : List Bytes :=
  [ascii "BEGIN", ascii "SELECT * FROM t", ascii "INSERT INTO t VALUES (1, 7)", ascii "EXECUTE p",
    ascii "COMMIT"]

theorem readOnlyRole_throughout_readerSession :
    Throughout (Processor.step (.ofTexts readerTexts) 2)
      (fun Q => (Processor.reader .readOnly).ReadsOnly () Q ∧
        Q.ForgetsOnRefresh (.ofTexts readerTexts) 2 ())
      (.reader .readOnly) (readerSession.map fun sql => ((), sql)) := by
  apply Processor.readOnlyRole_throughout 2 rfl (by decide) (by decide) rfl rfl
  intro sql hsql n password
  simp only [readerSession, List.mem_cons, List.not_mem_nil, or_false] at hsql
  rcases hsql with rfl | rfl | rfl | rfl | rfl <;> exact fun h => by cases h

/-- A query with stale statistics forgets the prepared `INSERT`, and a user who has been registered
anew as an administrator creates users with the old login. -/
theorem readOnlyRole_changes :
    (Framework.run (Processor.step { Environment.ofTexts readerTexts with
        autoAnalyze := true, stale := fun _ _ => true } 1) (.reader .readOnly)
        [((), ascii "SELECT * FROM t")]).map
          (fun P => (P.preparedStmts () "p").any Plan.isWrite) = some false ∧
      ((Processor.reader .readOnly).preparedStmts () "p").any Plan.isWrite = true ∧
      (Framework.run (Processor.step (.ofTexts readerTexts) 1) (.reader .admin)
        [((), ascii "CREATE USER eve 'x' ROLE admin")]).map
          (fun P => P.users.entries.map Prod.fst) = some ["reader", "eve"] ∧
      (Processor.reader .admin).users.entries.map Prod.fst = ["reader"] := by
  decide +kernel

end Sample

end CoroDB
