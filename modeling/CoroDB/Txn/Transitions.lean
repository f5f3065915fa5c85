import CoroDB.Txn.StatementSteps

/-!
# What a statement can do

Every statement is one of six transitions: it changes the session within its transaction, begins a
transaction, ends one without its writes, commits one, works on the buffer of one table, or writes to
a table in autocommit mode.
-/

namespace CoroDB

open Framework

variable {ν ι : Type} [DecidableEq ν]

namespace TransactionManager

/-- A manager that has handed out at most one more timestamp. -/
def Ticks (m m' : TransactionManager) : Prop := m' = m ∨ m' = m.allocateTs.2

/-- A manager that has dealt with one transaction: the records of the others are as they were. -/
structure Settles (txnId : UInt64) (m m' : TransactionManager) : Prop where
  nextTs : m'.nextTs = m.nextTs
  nextTxnId : m'.nextTxnId = m.nextTxnId
  others : ∀ k, k ≠ txnId → find m'.txns k = find m.txns k
  ids : ∀ r ∈ m'.txns, ∃ r₀ ∈ m.txns, r.txnId = r₀.txnId

variable {txnId k : UInt64} {m m₁ m₂ : TransactionManager}

theorem Settles.refl (txnId : UInt64) (m : TransactionManager) : Settles txnId m m :=
  ⟨rfl, rfl, fun _ _ => rfl, fun r hr => ⟨r, hr, rfl⟩⟩

theorem Settles.trans (h : Settles txnId m m₁) (h' : Settles txnId m₁ m₂) : Settles txnId m m₂ where
  nextTs := h'.nextTs.trans h.nextTs
  nextTxnId := h'.nextTxnId.trans h.nextTxnId
  others k hk := (h'.others k hk).trans (h.others k hk)
  ids r hr := by
    obtain ⟨r₁, hr₁, heq₁⟩ := h'.ids r hr
    obtain ⟨r₀, hr₀, heq₀⟩ := h.ids r₁ hr₁
    exact ⟨r₀, hr₀, heq₁.trans heq₀⟩

theorem find_erase_of_ne {txns : List TxnRecord} (h : k ≠ txnId) :
    find (erase txns txnId) k = find txns k := by
  induction txns with
  | nil => rfl
  | cons r txns ih =>
    rw [erase, List.filter_cons]
    by_cases hr : r.txnId = txnId
    · rw [if_neg (by simpa using hr), ← erase, ih, find, find,
        List.find?_cons_of_neg (by simpa [hr] using h.symm)]
    · rw [if_pos (by simpa using hr), ← erase, find, find, List.find?_cons, List.find?_cons,
        ← find, ← find, ih]

theorem settles_rollback (m : TransactionManager) (txnId : UInt64) :
    Settles txnId m (m.rollback txnId).2 := by
  rw [rollback]
  split
  · exact .refl txnId m
  · split_ifs
    · exact ⟨rfl, rfl, fun k hk => find_erase_of_ne hk,
        fun r hr => ⟨r, List.mem_of_mem_filter hr, rfl⟩⟩
    · exact .refl txnId m

theorem settles_markFailed (m : TransactionManager) (txnId : UInt64) :
    Settles txnId m (m.markFailed txnId) where
  nextTs := rfl
  nextTxnId := rfl
  others k hk := by
    rw [find_markFailed_eq]
    cases hr : find m.txns k with
    | none => rfl
    | some r =>
      have hid : r.txnId = k := by simpa using List.find?_some hr
      rw [Option.map_some, if_neg fun hc => hk (hid.symm.trans hc.1)]
  ids r hr := by
    obtain ⟨r₀, hr₀, rfl⟩ := List.mem_map.mp hr
    refine ⟨r₀, hr₀, ?_⟩
    split_ifs <;> rfl

end TransactionManager

namespace Session

def buffers (s : Session ν) : List (TxnWriteBuffer ν) :=
  s.writeBuffer :: s.savepoints.map (·.writeBuffer)

def fixedSnapshot (s : Session ν) : Bool :=
  s.isolation == .repeatableRead || s.isolation == .serializable

theorem fixedSnapshot_iff {s : Session ν} : s.fixedSnapshot = true ↔
    s.isolation = .repeatableRead ∨ s.isolation = .serializable := by
  simp [fixedSnapshot]

/-- A session that has stayed in its transaction, or outside one, without a new buffer. -/
structure Within (s s' : Session ν) : Prop where
  txnId : s'.currentTxnId = s.currentTxnId
  isolation : s.inTransaction = true → s'.isolation = s.isolation
  snapshot : s.inTransaction = true → s.fixedSnapshot = true → s'.snapshotTs = s.snapshotTs
  idle : s.inTransaction = false → s'.writeBuffer = s.writeBuffer
  buffers : ∀ b ∈ s'.buffers, b ∈ s.buffers

theorem Within.refl (s : Session ν) : s.Within s := ⟨rfl, fun _ => rfl, fun _ _ => rfl, fun _ => rfl, fun _ => id⟩

theorem Within.withReads {s s' : Session ν} (h : s.Within s') (r : KeyMap (tableRowEq ν) Unit)
    (v : KeyMap (KeyEq.ofDecidableEq ν) UInt64) : s.Within (s'.withReads r v) :=
  ⟨h.txnId, h.isolation, h.snapshot, h.idle, h.buffers⟩

theorem Within.trans {s₁ s₂ s₃ : Session ν} (h : s₁.Within s₂) (h' : s₂.Within s₃) :
    s₁.Within s₃ := by
  have hin : s₂.inTransaction = s₁.inTransaction := by rw [inTransaction, h.txnId, inTransaction]
  refine ⟨h'.txnId.trans h.txnId, fun hi => ?_, fun hi hf => ?_, fun hi => ?_,
    fun b hb => h.buffers b (h'.buffers b hb)⟩
  · exact (h'.isolation (hin.trans hi)).trans (h.isolation hi)
  · have hf' : s₂.fixedSnapshot = true := by rw [fixedSnapshot, h.isolation hi, ← fixedSnapshot, hf]
    exact (h'.snapshot (hin.trans hi) hf').trans (h.snapshot hi hf)
  · exact (h'.idle (hin.trans hi)).trans (h.idle hi)

theorem within_prepareForStatement (s : Session ν) (isSelect : Bool) (m : TransactionManager) :
    s.Within (s.prepareForStatement isSelect m).1 := by
  refine ⟨rfl, fun _ => rfl, fun hin hf => ?_, fun _ => rfl, fun _ => id⟩
  rw [prepareForStatement_fixed hin (fixedSnapshot_iff.mp hf)]

theorem ticks_prepareForStatement {s : Session ν} (m : TransactionManager)
    (h : s.inTransaction = true) (isSelect : Bool) :
    m.Ticks (s.prepareForStatement isSelect m).2 := by
  have hauto : (s.prepareForStatement isSelect m).2 = (s.prepareSnapshot m).2 := by
    simp [prepareForStatement, h]
  rw [hauto, prepareSnapshot, if_pos h]
  split
  · exact .inl rfl
  · exact .inr rfl
  · exact .inl rfl

theorem prepareForStatement_select (s : Session ν) (m : TransactionManager) :
    m.Ticks (s.prepareForStatement true m).2 := by
  cases h : s.inTransaction with
  | true => exact ticks_prepareForStatement m h true
  | false =>
    right
    simp [prepareForStatement, prepareSnapshot, h]

end Session

namespace Database

section Transition

variable (db : Database ν ι) (i : ι)

/-- What a data statement does to the buffer of its table in a transaction. -/
inductive TxnDml : Statement ν → ν → Option (SqlError ν) × TxnWork ν → Prop
  | invalid (p e) : insertRows (db.tables p.table).columns p = .error e →
      TxnDml (.insert p) p.table
        (some e, ⟨(db.sessions i).writeBuffer.forTable p.table, db.rowLocks⟩)
  | insert (p rows) : insertRows (db.tables p.table).columns p = .ok rows →
      TxnDml (.insert p) p.table (txnInsert (db.tables p.table).columns (db.sessions i).currentTxnId
        (fun pk => ((db.tables p.table).lookupVisible pk maxTs).isSome) p.table rows
        ⟨(db.sessions i).writeBuffer.forTable p.table, db.rowLocks⟩)
  | update (subqueries p sub) :
      (db.sessions i).resolveSubqueries db.tables subqueries = some sub →
      TxnDml (.update subqueries p) (p sub.1).table
        (txnUpdate (db.tables (p sub.1).table).columns
          ((db.tables (p sub.1).table).scanVisible maxTs) (db.sessions i).currentTxnId (p sub.1)
          ⟨(db.sessions i).writeBuffer.forTable (p sub.1).table, db.rowLocks⟩)
  | delete (subqueries p sub) :
      (db.sessions i).resolveSubqueries db.tables subqueries = some sub →
      TxnDml (.delete subqueries p) (p sub.1).table
        (txnDelete (db.tables (p sub.1).table).columns
          ((db.tables (p sub.1).table).scanVisible maxTs) (db.sessions i).currentTxnId (p sub.1)
          ⟨(db.sessions i).writeBuffer.forTable (p sub.1).table, db.rowLocks⟩)

/-- What a data statement does to its table in autocommit mode. -/
inductive AutoDml (ts : UInt64) : Statement ν → ν → Option (SqlError ν) × SqlTable → Prop
  | invalid (p e) : insertRows (db.tables p.table).columns p = .error e →
      AutoDml ts (.insert p) p.table (some e, db.tables p.table)
  | insert (p rows) : insertRows (db.tables p.table).columns p = .ok rows →
      AutoDml ts (.insert p) p.table (autoInsert (db.tables p.table) rows ts)
  | update (subqueries p sub) :
      (db.sessions i).resolveSubqueries db.tables subqueries = some sub →
      AutoDml ts (.update subqueries p) (p sub.1).table
        (autoUpdate (db.tables (p sub.1).table) (p sub.1) ts)
  | delete (subqueries p sub) :
      (db.sessions i).resolveSubqueries db.tables subqueries = some sub →
      AutoDml ts (.delete subqueries p) (p sub.1).table
        (autoDelete (db.tables (p sub.1).table) (p sub.1) ts)

variable [DecidableEq ι]

inductive Transition (q : Statement ν) : Database ν ι → Output ν → Prop
  | within (s m out) : (db.sessions i).Within s → db.txnManager.Ticks m →
      Transition q ({ db with txnManager := m }.setSession i s) out
  | begin (snapshot) : q = .begin → (db.sessions i).inTransaction = false →
      ((db.sessions i).fixedSnapshot = true → snapshot =
        (db.txnManager.begin.2.getReadTs db.txnManager.nextTxnId).getD 0) →
      Transition q ({ db with txnManager := db.txnManager.begin.2 }.setSession i
        { db.sessions i with
          currentTxnId := db.txnManager.nextTxnId
          savepoints := []
          snapshotTs := snapshot }) (.ok [])
  | abandon (m savepoints out) : (db.sessions i).inTransaction = true →
      TransactionManager.Settles (db.sessions i).currentTxnId db.txnManager m →
      (q = .commit ∧ (∃ e, out = .error e) ∨ q = .rollback) →
      Transition q (db.abandon i m { (db.sessions i).ended with savepoints := savepoints }) out
  | commit (ts m) : q = .commit → (db.sessions i).inTransaction = true →
      serializationConflict db.tables (db.sessions i) = none →
      db.txnManager.commit (db.sessions i).currentTxnId = (some ts, m) →
      Transition q { db.abandon i m { (db.sessions i).ended with savepoints := [] } with
        tables := applyBuffer db.tables (db.sessions i).writeBuffer ts } (.ok [])
  | dml (table r s m) : (db.sessions i).inTransaction = true → db.aborted i = false →
      TxnDml db i q table r → (db.sessions i).Within s →
      s.writeBuffer = (db.sessions i).writeBuffer → s.savepoints = (db.sessions i).savepoints →
      db.txnManager.Ticks m →
      Transition q ({ db with
        txnManager := if r.1.isSome then m.markFailed (db.sessions i).currentTxnId else m
        rowLocks := r.2.locks }.setSession i
          { s with writeBuffer := (db.sessions i).writeBuffer.assign table r.2.buffer }) (result r.1)
  | auto (table r s) : (db.sessions i).inTransaction = false →
      AutoDml db i (db.txnManager.nextTs + 1) q table r → (db.sessions i).Within s →
      Transition q ({ db with
        txnManager := db.txnManager.allocateTs.2.allocateTs.2
        tables := Function.update db.tables table r.2 }.setSession i s) (result r.1)

variable {db i} {db' : Database ν ι} {q : Statement ν} {out : Output ν}

theorem setSession_self : db.setSession i (db.sessions i) = db := by
  rw [setSession, Function.update_eq_self]

theorem Transition.same (out : Output ν) : Transition db i q db out := by
  have h := Transition.within (q := q) (db.sessions i) db.txnManager out (.refl _) (.inl rfl)
  have hself : db.setSession i (db.sessions i) = db := setSession_self
  change Transition db i q (db.setSession i (db.sessions i)) out at h
  rwa [hself] at h

theorem mem_savepointsUpTo {savepoints : List (Savepoint ν)} {name : String} {sp : Savepoint ν}
    (h : sp ∈ savepointsUpTo savepoints name) : sp ∈ savepoints := by
  rw [savepointsUpTo, List.mem_reverse] at h
  exact List.mem_reverse.mp ((List.dropWhile_sublist _).subset h)

theorem transition_runDml {s : Session ν} {table : ν}
    {inTxn : UInt64 → TxnWork ν → Option (SqlError ν) × TxnWork ν}
    {auto : UInt64 → Option (SqlError ν) × SqlTable} (haborted : db.aborted i = false)
    (hs : ∃ r v, s = (db.sessions i).withReads r v)
    (htxn : TxnDml db i q table (inTxn (db.sessions i).currentTxnId
      ⟨(db.sessions i).writeBuffer.forTable table, db.rowLocks⟩))
    (hauto : AutoDml db i (db.txnManager.nextTs + 1) q table (auto (db.txnManager.nextTs + 1)))
    (h : db.runDml i s table inTxn auto = (db', out)) : Transition db i q db' out := by
  obtain ⟨r, v, rfl⟩ := hs
  have hwithin := ((Session.Within.refl (db.sessions i)).withReads r v).trans
    (((db.sessions i).withReads r v).within_prepareForStatement false db.txnManager)
  cases hin : (db.sessions i).inTransaction with
  | true =>
    have hin' : ((db.sessions i).withReads r v).inTransaction = true := hin
    rw [runDml, if_pos hin'] at h
    obtain ⟨rfl, rfl⟩ := Prod.mk.inj h
    exact .dml table _ _ _ hin haborted htxn hwithin rfl rfl
      (Session.ticks_prepareForStatement _ hin' false)
  | false =>
    have hin' : ((db.sessions i).withReads r v).inTransaction = false := hin
    have hprep : (((db.sessions i).withReads r v).prepareForStatement false db.txnManager).2 =
        db.txnManager.allocateTs.2.allocateTs.2 := by
      simp [Session.prepareForStatement, Session.prepareSnapshot, hin']
    have hts : (((db.sessions i).withReads r v).prepareForStatement false
        db.txnManager).1.autoCommitTs = db.txnManager.nextTs + 1 := by
      simp [Session.prepareForStatement, Session.prepareSnapshot, hin',
        TransactionManager.allocateTs]
    rw [runDml, if_neg (by simp [hin']), hprep, hts] at h
    obtain ⟨rfl, rfl⟩ := Prod.mk.inj h
    exact .auto table _ _ hin hauto hwithin

theorem transition_commit (h : db.commit i = (db', out)) : Transition db i .commit db' out := by
  have hroll := TransactionManager.settles_rollback db.txnManager (db.sessions i).currentTxnId
  rw [commit] at h
  split_ifs at h with hidle haborted
  · obtain ⟨rfl, rfl⟩ := Prod.mk.inj h
    exact .same _
  · obtain ⟨rfl, rfl⟩ := Prod.mk.inj h
    exact .abandon _ (db.sessions i).savepoints _ (by simpa using hidle) hroll (.inl ⟨rfl, _, rfl⟩)
  · split at h
    · obtain ⟨rfl, rfl⟩ := Prod.mk.inj h
      exact .abandon _ (db.sessions i).savepoints _ (by simpa using hidle)
        (hroll.trans (TransactionManager.settles_markFailed _ _)) (.inl ⟨rfl, _, rfl⟩)
    · rename_i hconflict
      split at h
      · rename_i m hcommit
        obtain ⟨rfl, rfl⟩ := Prod.mk.inj h
        have hm : m = db.txnManager := TransactionManager.commit_eq_none hcommit
        exact .abandon _ (db.sessions i).savepoints _ (by simpa using hidle)
          (hm ▸ TransactionManager.settles_markFailed _ _) (.inl ⟨rfl, _, rfl⟩)
      · rename_i ts m hcommit
        obtain ⟨rfl, rfl⟩ := Prod.mk.inj h
        exact .commit ts m rfl (by simpa using hidle) hconflict hcommit

/-- Every statement is one of the transitions. -/
theorem exec_transition (h : db.exec i q = some (db', out)) : Transition db i q db' out := by
  cases q with
  | begin =>
    rw [exec, begin] at h
    split_ifs at h with hin
    · obtain ⟨rfl, rfl⟩ := Prod.mk.inj (Option.some.inj h)
      exact .same _
    · obtain ⟨rfl, rfl⟩ := Prod.mk.inj (Option.some.inj h)
      refine .begin _ rfl (by simpa using hin) fun hf => ?_
      rcases Session.fixedSnapshot_iff.mp hf with hf | hf <;> simp only [hf] <;> rfl
  | commit => exact transition_commit (Option.some.inj h)
  | rollback =>
    rw [exec, rollback] at h
    split_ifs at h with hidle
    · obtain ⟨rfl, rfl⟩ := Prod.mk.inj (Option.some.inj h)
      exact .same _
    · obtain ⟨rfl, rfl⟩ := Prod.mk.inj (Option.some.inj h)
      exact .abandon _ [] _ (by simpa using hidle) (TransactionManager.settles_rollback _ _) (.inr rfl)
  | savepoint name =>
    rw [exec, savepoint] at h
    split_ifs at h with hidle
    · obtain ⟨rfl, rfl⟩ := Prod.mk.inj (Option.some.inj h)
      exact .same _
    · obtain ⟨rfl, rfl⟩ := Prod.mk.inj (Option.some.inj h)
      refine .within _ db.txnManager _ ⟨rfl, fun _ => rfl, fun _ _ => rfl, fun _ => rfl, ?_⟩ (.inl rfl)
      intro b hb
      simp only [Session.buffers, List.map_append, List.map_cons, List.map_nil, List.mem_cons,
        List.mem_append, List.not_mem_nil, or_false] at hb ⊢
      tauto
  | rollbackTo name =>
    rw [exec, rollbackTo] at h
    split_ifs at h with hidle
    · obtain ⟨rfl, rfl⟩ := Prod.mk.inj (Option.some.inj h)
      exact .same _
    · dsimp only at h
      split at h
      · obtain ⟨rfl, rfl⟩ := Prod.mk.inj (Option.some.inj h)
        exact .same _
      · rename_i sp hsp
        obtain ⟨rfl, rfl⟩ := Prod.mk.inj (Option.some.inj h)
        refine .within _ db.txnManager _ ⟨rfl, fun _ => rfl, fun _ _ => rfl,
          fun hi => absurd hi hidle, ?_⟩ (.inl rfl)
        intro b hb
        rcases List.mem_cons.mp hb with rfl | hb
        · exact List.mem_cons_of_mem _
            (List.mem_map_of_mem (mem_savepointsUpTo (List.mem_of_getLast? hsp)))
        · obtain ⟨x, hx, rfl⟩ := List.mem_map.mp hb
          exact List.mem_cons_of_mem _ (List.mem_map_of_mem (mem_savepointsUpTo hx))
  | releaseSavepoint name =>
    rw [exec, releaseSavepoint] at h
    split_ifs at h with hidle
    · obtain ⟨rfl, rfl⟩ := Prod.mk.inj (Option.some.inj h)
      exact .same _
    · split at h
      · obtain ⟨rfl, rfl⟩ := Prod.mk.inj (Option.some.inj h)
        exact .same _
      · obtain ⟨rfl, rfl⟩ := Prod.mk.inj (Option.some.inj h)
        refine .within _ db.txnManager _ ⟨rfl, fun _ => rfl, fun _ _ => rfl, fun _ => rfl, ?_⟩
          (.inl rfl)
        intro b hb
        rcases List.mem_cons.mp hb with rfl | hb
        · exact List.mem_cons_self
        · obtain ⟨x, hx, rfl⟩ := List.mem_map.mp hb
          exact List.mem_cons_of_mem _
            (List.mem_map_of_mem (mem_savepointsUpTo (List.mem_of_mem_dropLast hx)))
  | setTransaction level =>
    rw [exec, setTransaction] at h
    split_ifs at h with hin
    · obtain ⟨rfl, rfl⟩ := Prod.mk.inj (Option.some.inj h)
      exact .same _
    · obtain ⟨rfl, rfl⟩ := Prod.mk.inj (Option.some.inj h)
      exact .within _ db.txnManager _ ⟨rfl, fun hi => absurd hi hin, fun hi => absurd hi hin,
        fun _ => rfl, fun _ => id⟩ (.inl rfl)
  | select subqueries tables =>
    rw [exec] at h
    split_ifs at h
    · obtain ⟨rfl, rfl⟩ := Prod.mk.inj (Option.some.inj h)
      exact .same _
    · obtain ⟨⟨subRows, s₁⟩, hsub, h⟩ := Option.bind_eq_some_iff.mp h
      obtain ⟨⟨rows, s₂⟩, hscan, h⟩ := Option.map_eq_some_iff.mp h
      obtain ⟨rfl, rfl⟩ := Prod.mk.inj h
      obtain ⟨r, v, rfl⟩ := Session.exists_resolveSubqueries hsub
      obtain ⟨r', v', rfl⟩ := Session.exists_scanAll hscan
      refine .within _ _ _ ?_ (Session.prepareForStatement_select _ _)
      exact (((Session.Within.refl _).withReads r v).trans
        (Session.within_prepareForStatement _ true _)).withReads r' v'
  | insert p =>
    rw [exec] at h
    split_ifs at h with haborted
    · obtain ⟨rfl, rfl⟩ := Prod.mk.inj (Option.some.inj h)
      exact .same _
    · rw [Bool.not_eq_true] at haborted
      have hrun := Option.some.inj h
      rw [insert] at hrun
      split at hrun
      · rename_i e he
        exact transition_runDml haborted ⟨_, _, rfl⟩ (.invalid p e he) (.invalid p e he) hrun
      · rename_i rows hrows
        exact transition_runDml haborted ⟨_, _, rfl⟩ (.insert p rows hrows) (.insert p rows hrows) hrun
  | update subqueries p =>
    rw [exec] at h
    split_ifs at h with haborted
    · obtain ⟨rfl, rfl⟩ := Prod.mk.inj (Option.some.inj h)
      exact .same _
    · rw [Bool.not_eq_true] at haborted
      obtain ⟨sub, hsub, hrun⟩ := Option.map_eq_some_iff.mp h
      rw [update_eq] at hrun
      exact transition_runDml haborted (Session.exists_resolveSubqueries hsub)
        (.update subqueries p sub hsub) (.update subqueries p sub hsub) hrun
  | delete subqueries p =>
    rw [exec] at h
    split_ifs at h with haborted
    · obtain ⟨rfl, rfl⟩ := Prod.mk.inj (Option.some.inj h)
      exact .same _
    · rw [Bool.not_eq_true] at haborted
      obtain ⟨sub, hsub, hrun⟩ := Option.map_eq_some_iff.mp h
      rw [delete_eq] at hrun
      exact transition_runDml haborted (Session.exists_resolveSubqueries hsub)
        (.delete subqueries p sub hsub) (.delete subqueries p sub hsub) hrun

end Transition

end Database

end CoroDB
