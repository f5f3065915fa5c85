import CoroDB.Framework.Run
import CoroDB.Txn.TransactionManager

/-!
# The books of the transaction manager

Along every history of calls the timestamps increase, the horizon stays below the snapshots of the open
transactions, and the records that these may still ask for are not pruned.
-/

namespace CoroDB

open Framework
open TransactionManager (lt_add_one_of_room call_cases commit_eq_none commit_eq_some call)

/-- A call on the manager, with the raise of its counter at recovery. -/
inductive ManagerCall where
  | txn (c : TxnCall)
  | bootstrapMinNextTs (minNextTs : UInt64)
  deriving DecidableEq, Repr

/-- The manager, the timestamps that it has handed out, and the ids and read timestamps of the
transactions that were begun and are neither committed nor rolled back. -/
structure ManagerHistory where
  manager : TransactionManager := {}
  handed : List UInt64 := []
  opened : List (UInt64 × UInt64) := []
  deriving DecidableEq, Repr

namespace ManagerHistory

variable {h h' : ManagerHistory}

def fits (m : TransactionManager) (c : TxnCall) : Bool :=
  decide (((m.call c).1.isSome → m.nextTs.toNat + 1 < 2 ^ 64) ∧
    (c = .begin → m.nextTxnId.toNat + 1 < 2 ^ 64))

def openedAfter (m : TransactionManager) (opened : List (UInt64 × UInt64)) :
    TxnCall → List (UInt64 × UInt64)
  | .begin => opened ++ [(m.begin.1, (m.begin.2.getReadTs m.begin.1).getD 0)]
  | .commit txnId => if (m.commit txnId).1.isSome then opened.filter (·.1 ≠ txnId) else opened
  | .rollback txnId => if (m.rollback txnId).1 then opened.filter (·.1 ≠ txnId) else opened
  | .markFailed _ | .allocateTs | .pruneCommitted => opened

/-- A call of the history; none if a counter would wrap around. -/
def step (h : ManagerHistory) : ManagerCall → Option ManagerHistory
  | .txn c =>
    if fits h.manager c then
      some ⟨(h.manager.call c).2, h.handed ++ (h.manager.call c).1.toList,
        openedAfter h.manager h.opened c⟩
    else none
  | .bootstrapMinNextTs n => some { h with manager := h.manager.bootstrapMinNextTs n }

structure Bookkeeping (h : ManagerHistory) : Prop where
  increasing : h.handed.Pairwise (· < ·)
  horizon : ∀ t ∈ h.opened, h.manager.minActiveReadTs ≤ t.2
  kept : ∀ t ∈ h.opened, ∀ r ∈ h.manager.committed, t.2 ≤ r.commitTs →
    r ∈ h.manager.pruneCommitted.committed

/-- The manager has a record of the open transaction. -/
def Registered (txns : List TxnRecord) (t : UInt64 × UInt64) : Prop :=
  ∃ r ∈ txns, r.txnId = t.1 ∧ r.readTs = t.2 ∧ (r.state = .active ∨ r.state = .failed)

structure Inv (h : ManagerHistory) : Prop where
  increasing : h.handed.Pairwise (· < ·)
  handed_lt : ∀ ts ∈ h.handed, ts < h.manager.nextTs
  read_lt : ∀ r ∈ h.manager.txns, r.readTs < h.manager.nextTs
  id_lt : ∀ r ∈ h.manager.txns, r.txnId < h.manager.nextTxnId
  registered : ∀ t ∈ h.opened, Registered h.manager.txns t

theorem Inv.bookkeeping (inv : Inv h) : Bookkeeping h := by
  have hhorizon : ∀ t ∈ h.opened, h.manager.minActiveReadTs ≤ t.2 := by
    intro t ht
    obtain ⟨r, hr, -, hts, hlive⟩ := inv.registered t ht
    rw [TransactionManager.minActiveReadTs_le_iff inv.read_lt (hts ▸ inv.read_lt r hr)]
    exact ⟨r, hr, hlive, hts.le⟩
  refine ⟨inv.increasing, hhorizon, ?_⟩
  intro t ht r hr hle
  rw [TransactionManager.pruneCommitted, List.mem_filter]
  refine ⟨hr, ?_⟩
  simpa using (hhorizon t ht).trans hle

section Step

variable {m : TransactionManager} {opened : List (UInt64 × UInt64)} {c : TxnCall}

theorem registered_erase (hreg : ∀ t ∈ opened, Registered m.txns t) (txnId : UInt64) :
    ∀ t ∈ opened.filter (·.1 ≠ txnId), Registered (TransactionManager.erase m.txns txnId) t := by
  intro t ht
  obtain ⟨ht, hne⟩ := List.mem_filter.mp ht
  obtain ⟨r, hr, hid, hrest⟩ := hreg t ht
  refine ⟨r, List.mem_filter.mpr ⟨hr, ?_⟩, hid, hrest⟩
  rwa [hid]

theorem rollback_cases (m : TransactionManager) (txnId : UInt64) :
    m.rollback txnId = (true, { m with txns := TransactionManager.erase m.txns txnId }) ∨
      m.rollback txnId = (false, m) := by
  rw [TransactionManager.rollback]
  split
  · exact .inr rfl
  · split_ifs
    · exact .inl rfl
    · exact .inr rfl

theorem nextTs_le_call (hfits : fits m c = true) : m.nextTs ≤ (m.call c).2.nextTs := by
  rcases call_cases m c with ⟨hts, hnext⟩ | ⟨-, hnext⟩
  · rw [hnext]
    exact (lt_add_one_of_room ((of_decide_eq_true hfits).1 (by rw [hts]; rfl))).le
  · exact hnext.ge

theorem txns_begin (hid : ∀ r ∈ m.txns, r.txnId < m.nextTxnId) :
    TransactionManager.find m.txns m.nextTxnId = none ∧
      m.begin.2.txns = m.txns ++ [⟨m.nextTxnId, m.nextTs, 0, .active⟩] := by
  have hnone : TransactionManager.find m.txns m.nextTxnId = none := by
    rw [TransactionManager.find, List.find?_eq_none]
    intro r hr
    simpa using (hid r hr).ne
  exact ⟨hnone, by simp [TransactionManager.begin, TransactionManager.emplace, hnone]⟩

theorem mem_txns_call (hc : c ≠ .begin) {r : TxnRecord} (hr : r ∈ (m.call c).2.txns) :
    ∃ r₀ ∈ m.txns, r.txnId = r₀.txnId ∧ r.readTs = r₀.readTs := by
  cases c with
  | begin => exact absurd rfl hc
  | commit txnId =>
    cases hcommit : m.commit txnId with
    | mk ts m' =>
      rw [call, hcommit] at hr
      cases ts with
      | none => exact ⟨r, commit_eq_none hcommit ▸ hr, rfl, rfl⟩
      | some ts =>
        rw [(commit_eq_some hcommit).2.2.2] at hr
        exact ⟨r, List.mem_of_mem_filter hr, rfl, rfl⟩
  | rollback txnId => exact ⟨r, TransactionManager.mem_rollback hr, rfl, rfl⟩
  | markFailed txnId => exact TransactionManager.mem_markFailed hr
  | allocateTs => exact ⟨r, hr, rfl, rfl⟩
  | pruneCommitted => exact ⟨r, hr, rfl, rfl⟩

theorem nextTxnId_call (hc : c ≠ .begin) : (m.call c).2.nextTxnId = m.nextTxnId := by
  cases c with
  | begin => exact absurd rfl hc
  | commit txnId =>
    cases hcommit : m.commit txnId with
    | mk ts m' =>
      rw [call, hcommit]
      cases ts with
      | none => rw [commit_eq_none hcommit]
      | some ts => exact (commit_eq_some hcommit).2.2.1
  | rollback txnId =>
    rw [call]
    rcases rollback_cases m txnId with heq | heq <;> rw [heq]
  | markFailed txnId => rfl
  | allocateTs => rfl
  | pruneCommitted => rfl

theorem registered_call (hid : ∀ r ∈ m.txns, r.txnId < m.nextTxnId)
    (hreg : ∀ t ∈ opened, Registered m.txns t) :
    ∀ t ∈ openedAfter m opened c, Registered (m.call c).2.txns t := by
  cases c with
  | begin =>
    obtain ⟨hnone, htxns⟩ := txns_begin hid
    intro t ht
    rw [call, htxns]
    rcases List.mem_append.mp ht with ht | ht
    · obtain ⟨r, hr, hrest⟩ := hreg t ht
      exact ⟨r, List.mem_append_left _ hr, hrest⟩
    · rw [List.mem_singleton.mp ht]
      refine ⟨_, List.mem_append_right _ (List.mem_singleton.mpr rfl), rfl, ?_, .inl rfl⟩
      exact congrArg (·.getD 0) (TransactionManager.getReadTs_begin hnone).symm
  | commit txnId =>
    rw [openedAfter, call]
    cases hcommit : m.commit txnId with
    | mk ts m' =>
      cases ts with
      | none => simpa [commit_eq_none hcommit] using hreg
      | some ts =>
        rw [(commit_eq_some hcommit).2.2.2]
        exact registered_erase hreg txnId
  | rollback txnId =>
    rw [openedAfter, call]
    rcases rollback_cases m txnId with heq | heq
    · rw [heq]
      exact registered_erase hreg txnId
    · rw [heq]
      exact hreg
  | markFailed txnId =>
    intro t ht
    obtain ⟨r, hr, htid, hts, hlive⟩ := hreg t ht
    refine ⟨_, List.mem_map.mpr ⟨r, hr, rfl⟩, ?_⟩
    split_ifs
    · exact ⟨htid, hts, .inr rfl⟩
    · exact ⟨htid, hts, hlive⟩
  | allocateTs => exact hreg
  | pruneCommitted => exact hreg

end Step

theorem Inv.txn (inv : Inv h) {c : TxnCall} (hfits : fits h.manager c = true) :
    Inv ⟨(h.manager.call c).2, h.handed ++ (h.manager.call c).1.toList,
      openedAfter h.manager h.opened c⟩ := by
  have hle := nextTs_le_call hfits
  refine ⟨?_, ?_, ?_, ?_, registered_call inv.id_lt inv.registered⟩
  · rw [List.pairwise_append]
    refine ⟨inv.increasing, ?_, ?_⟩
    · rcases call_cases h.manager c with ⟨hts, -⟩ | ⟨hts, -⟩ <;> simp [hts]
    · intro a ha b hb
      rcases call_cases h.manager c with ⟨hts, -⟩ | ⟨hts, -⟩
      · rw [hts, Option.toList_some, List.mem_singleton] at hb
        exact hb ▸ inv.handed_lt a ha
      · simp [hts] at hb
  · intro ts hts
    rcases List.mem_append.mp hts with hts | hts
    · exact lt_of_lt_of_le (inv.handed_lt ts hts) hle
    · rcases call_cases h.manager c with ⟨hsome, hnext⟩ | ⟨hnone, -⟩
      · have hroom := (of_decide_eq_true hfits).1 (by rw [hsome]; rfl)
        rw [hsome, Option.toList_some, List.mem_singleton] at hts
        rw [hts, hnext]
        exact lt_add_one_of_room hroom
      · simp [hnone] at hts
  · by_cases hc : c = .begin
    · subst hc
      have hroom := lt_add_one_of_room ((of_decide_eq_true hfits).1 rfl)
      intro r hr
      rw [call, (txns_begin inv.id_lt).2] at hr
      rcases List.mem_append.mp hr with hr | hr
      · exact (inv.read_lt r hr).trans hroom
      · rw [List.mem_singleton.mp hr]
        exact hroom
    · intro r hr
      obtain ⟨r₀, hr₀, -, hread⟩ := mem_txns_call hc hr
      rw [hread]
      exact lt_of_lt_of_le (inv.read_lt r₀ hr₀) hle
  · by_cases hc : c = .begin
    · subst hc
      have hroom := lt_add_one_of_room ((of_decide_eq_true hfits).2 rfl)
      intro r hr
      rw [call, (txns_begin inv.id_lt).2] at hr
      rcases List.mem_append.mp hr with hr | hr
      · exact (inv.id_lt r hr).trans hroom
      · rw [List.mem_singleton.mp hr]
        exact hroom
    · intro r hr
      obtain ⟨r₀, hr₀, hid, -⟩ := mem_txns_call hc hr
      rw [hid, nextTxnId_call hc]
      exact inv.id_lt r₀ hr₀

theorem Inv.bootstrap (inv : Inv h) (n : UInt64) :
    Inv { h with manager := h.manager.bootstrapMinNextTs n } := by
  rw [TransactionManager.bootstrapMinNextTs]
  split_ifs with hlt
  · exact ⟨inv.increasing, fun ts hts => (inv.handed_lt ts hts).trans hlt,
      fun r hr => (inv.read_lt r hr).trans hlt, inv.id_lt, inv.registered⟩
  · exact inv

theorem Inv.step {c : ManagerCall} (inv : Inv h) (hstep : h.step c = some h') : Inv h' := by
  cases c with
  | txn c =>
    rw [ManagerHistory.step] at hstep
    split_ifs at hstep with hfits
    exact Option.some.inj hstep ▸ inv.txn hfits
  | bootstrapMinNextTs n => exact Option.some.inj hstep ▸ inv.bootstrap n

/-- After every history without a wrap-around the books are in order. -/
theorem bookkeeping_throughout (calls : List ManagerCall) (h : ManagerHistory)
    (hrun : run step {} calls = some h) : Bookkeeping h := by
  have hstart : Inv {} := by constructor <;> simp
  exact (run_invariant (fun _ _ _ inv => inv.step) hstart hrun).bookkeeping

/-- Two transactions around a raise of the counter; the second one has failed. -/
theorem bookkeeping_sixCalls : Bookkeeping
    ⟨⟨3, 9, [⟨2, 7, 0, .failed⟩], [⟨1, 1, 8, .committed⟩]⟩, [1, 7, 8], [(2, 7)]⟩ :=
  bookkeeping_throughout [.txn .begin, .bootstrapMinNextTs 7, .txn .begin, .txn (.markFailed 2), .txn (.commit 1),
    .txn .pruneCommitted] _ (by decide)

end ManagerHistory

end CoroDB
