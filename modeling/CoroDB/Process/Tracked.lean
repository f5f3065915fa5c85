import CoroDB.Process.Moves
import CoroDB.Txn.Dml
import CoroDB.Txn.TableWrites

/-!
# Transactions under the processor

Every session that is in a transaction has its own record with the transaction manager, and the
transaction is active or failed.
-/

namespace CoroDB

open Framework

variable {ν ι : Type} [DecidableEq ν]

namespace Database

variable {db db₁ db₂ : Database ν ι} {i j : ι}

/-- The session stays in its transaction, or outside one. Its record may become a failed one, and
the others are as they were. -/
structure Stays (db : Database ν ι) (i : ι) (db' : Database ν ι) : Prop where
  others : ∀ j, j ≠ i → db'.sessions j = db.sessions j
  txnId : (db'.sessions i).currentTxnId = (db.sessions i).currentTxnId
  nextTxnId : db'.txnManager.nextTxnId = db.txnManager.nextTxnId
  ids : ∀ r ∈ db'.txnManager.txns, ∃ r₀ ∈ db.txnManager.txns, r.txnId = r₀.txnId
  records : ∀ k, k ≠ (db.sessions i).currentTxnId →
    TransactionManager.find db'.txnManager.txns k = TransactionManager.find db.txnManager.txns k
  own : ∀ r, TransactionManager.find db.txnManager.txns (db.sessions i).currentTxnId = some r →
    ∃ r', TransactionManager.find db'.txnManager.txns (db.sessions i).currentTxnId = some r' ∧
      (r.state = .active → r'.state = .active ∨ r'.state = .failed) ∧
      (r.state = .failed → r'.state = .failed)

theorem Stays.of_txns (hothers : ∀ j, j ≠ i → db₁.sessions j = db.sessions j)
    (hid : (db₁.sessions i).currentTxnId = (db.sessions i).currentTxnId)
    (hnext : db₁.txnManager.nextTxnId = db.txnManager.nextTxnId)
    (htxns : db₁.txnManager.txns = db.txnManager.txns) : db.Stays i db₁ where
  others := hothers
  txnId := hid
  nextTxnId := hnext
  ids r hr := ⟨r, htxns ▸ hr, rfl⟩
  records k _ := by rw [htxns]
  own r hr := ⟨r, by rw [htxns, hr], .inl, id⟩

theorem Stays.refl (db : Database ν ι) (i : ι) : db.Stays i db :=
  .of_txns (fun _ _ => rfl) rfl rfl rfl

theorem Stays.trans (h : db.Stays i db₁) (h' : db₁.Stays i db₂) : db.Stays i db₂ where
  others j hj := (h'.others j hj).trans (h.others j hj)
  txnId := h'.txnId.trans h.txnId
  nextTxnId := h'.nextTxnId.trans h.nextTxnId
  ids r hr := by
    obtain ⟨r₁, hr₁, heq₁⟩ := h'.ids r hr
    obtain ⟨r₀, hr₀, heq₀⟩ := h.ids r₁ hr₁
    exact ⟨r₀, hr₀, heq₁.trans heq₀⟩
  records k hk := (h'.records k (h.txnId ▸ hk)).trans (h.records k hk)
  own r hr := by
    obtain ⟨r₁, hr₁, hactive, hfailed⟩ := h.own r hr
    obtain ⟨r₂, hr₂, hactive', hfailed'⟩ := h'.own r₁ (h.txnId ▸ hr₁)
    refine ⟨r₂, h.txnId ▸ hr₂, fun hr => ?_, fun hr => hfailed' (hfailed hr)⟩
    rcases hactive hr with hr₁ | hr₁
    · exact hactive' hr₁
    · exact .inr (hfailed' hr₁)

theorem stays_markFailed (db : Database ν ι) (i : ι) : db.Stays i (db.markFailed i) := by
  rw [markFailed]
  split_ifs
  · have hsettles := TransactionManager.settles_markFailed db.txnManager
      (db.sessions i).currentTxnId
    refine ⟨fun _ _ => rfl, rfl, hsettles.nextTxnId, hsettles.ids, hsettles.others, fun r hr => ?_⟩
    change ∃ r', TransactionManager.find (db.txnManager.markFailed _).txns _ = some r' ∧ _
    rw [TransactionManager.find_markFailed_eq, hr]
    refine ⟨_, rfl, fun hactive => ?_, fun hfailed => ?_⟩
    · dsimp only
      split_ifs
      · exact .inr rfl
      · exact .inl hactive
    · dsimp only
      split_ifs
      · rfl
      · exact hfailed
  · exact .refl db i

theorem Stays.currentTxnId (h : db.Stays i db₁) (j : ι) :
    (db₁.sessions j).currentTxnId = (db.sessions j).currentTxnId := by
  by_cases hj : j = i
  · rw [hj, h.txnId]
  · rw [h.others j hj]

theorem Stays.inTransaction (h : db.Stays i db₁) (j : ι) :
    (db₁.sessions j).inTransaction = (db.sessions j).inTransaction := by
  rw [Session.inTransaction, h.currentTxnId, Session.inTransaction]

end Database

namespace Processor

variable [DecidableEq ι] {env : Environment ν} {P P' : Processor ν ι} {i : ι} {w : Bool}
  {reply : Reply ν}

theorem stays_modify (db : Database ν ι) (i : ι) (table : ν)
    (inTxn : UInt64 → TxnWork ν → Option (SqlError ν) × TxnWork ν)
    (auto : UInt64 → Option (SqlError ν) × SqlTable) :
    db.Stays i (db.modify i table inTxn auto).1 := by
  have htxns := (db.sessions i).prepareForStatement_txns false db.txnManager
  rw [Database.modify]
  dsimp only
  split_ifs
  · refine .of_txns (fun j hj => Database.setSession_sessions_of_ne hj _) ?_ htxns.2 htxns.1
    rw [Database.setSession_sessions_self]
    rfl
  · refine .of_txns (fun j hj => Database.setSession_sessions_of_ne hj _) ?_ htxns.2 htxns.1
    rw [Database.setSession_sessions_self]
    rfl

omit [DecidableEq ι] in
theorem utility_db {d : Ddl ν} (h : P.utility d = .ok P') :
    P'.db.sessions = P.db.sessions ∧ P'.db.txnManager = P.db.txnManager := by
  cases d with
  | createTable table columns =>
    rw [utility] at h
    split_ifs at h
    obtain rfl := Except.ok.inj h
    exact ⟨rfl, rfl⟩
  | createIndex table indexName columns =>
    obtain rfl := Except.ok.inj h
    exact ⟨rfl, rfl⟩
  | dropTable table ifExists =>
    rw [utility] at h
    split_ifs at h
    all_goals
      obtain rfl := Except.ok.inj h
      exact ⟨rfl, rfl⟩
  | dropIndex table indexName ifExists =>
    rw [utility] at h
    split at h
    · split_ifs at h
      obtain rfl := Except.ok.inj h
      exact ⟨rfl, rfl⟩
    · split at h
      · obtain rfl := Except.ok.inj h
        exact ⟨rfl, rfl⟩
      · split_ifs at h
        obtain rfl := Except.ok.inj h
        exact ⟨rfl, rfl⟩

theorem stays_of_move (h : Move i w P P') : P.db.Stays i P'.db := by
  cases h with
  | notes stats stmts texts users login => exact .refl P.db i
  | reads s m hs htxns hid =>
    refine .of_txns (fun j hj => Database.setSession_sessions_of_ne hj s) ?_ hid htxns
    rw [Database.setSession_sessions_self]
    exact hs.txnId
  | fail => exact Database.stays_markFailed P.db i
  | write isSelect plan r hw hplan hr =>
    cases plan with
    | insert p =>
      obtain rfl := Option.some.inj hr
      change P.db.Stays i (P.db.modifyInsert i p).1
      rw [Database.modifyInsert]
      split <;> exact stays_modify P.db i p.table _ _
    | update p =>
      obtain rfl := Option.some.inj hr
      exact stays_modify P.db i p.table _ _
    | delete p =>
      obtain rfl := Option.some.inj hr
      exact stays_modify P.db i p.table _ _
    | select p => cases hplan
    | utility d => cases hplan
  | utility d P' hw h =>
    obtain ⟨hsessions, hmanager⟩ := utility_db h
    exact .of_txns (fun j _ => by rw [hsessions]) (by rw [hsessions]) (by rw [hmanager])
      (by rw [hmanager])
  | files tables hw => exact .of_txns (fun _ _ => rfl) rfl rfl rfl

theorem stays_of_moves (h : Moves i w P P') : P.db.Stays i P'.db := by
  induction h with
  | refl => exact .refl P.db i
  | tail _ hmove ih => exact ih.trans (stays_of_move hmove)

end Processor

end CoroDB
