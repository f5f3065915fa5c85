import CoroDB.Framework.Word

/-!
# The transaction manager

`TransactionManager` hands out transaction ids and timestamps and keeps the active and the committed
transactions.
-/

namespace CoroDB

open Framework

inductive TxnState where
  | active
  | failed
  | committed
  | aborted
  deriving DecidableEq, Repr

structure TxnRecord where
  txnId : UInt64
  readTs : UInt64
  commitTs : UInt64
  state : TxnState
  deriving DecidableEq, Repr

structure TransactionManager where
  nextTxnId : UInt64 := 1
  nextTs : UInt64 := 1
  txns : List TxnRecord := []
  committed : List TxnRecord := []
  deriving DecidableEq, Repr

namespace TransactionManager

def find (records : List TxnRecord) (txnId : UInt64) : Option TxnRecord :=
  records.find? (·.txnId = txnId)

/-- A map entry is only added when the key is new. -/
def emplace (records : List TxnRecord) (r : TxnRecord) : List TxnRecord :=
  if (find records r.txnId).isSome then records else records ++ [r]

def erase (records : List TxnRecord) (txnId : UInt64) : List TxnRecord :=
  records.filter (·.txnId ≠ txnId)

def allocateTs (m : TransactionManager) : UInt64 × TransactionManager :=
  (m.nextTs, { m with nextTs := m.nextTs + 1 })

/-- The new transaction's id, its read timestamp in its record. -/
def begin (m : TransactionManager) : UInt64 × TransactionManager :=
  (m.nextTxnId, { m with
    nextTxnId := m.nextTxnId + 1
    nextTs := m.nextTs + 1
    txns := emplace m.txns ⟨m.nextTxnId, m.nextTs, 0, .active⟩ })

def commit (m : TransactionManager) (txnId : UInt64) : Option UInt64 × TransactionManager :=
  match find m.txns txnId with
  | none => (none, m)
  | some r =>
    if r.state = .active then
      (some m.nextTs, { m with
        nextTs := m.nextTs + 1
        txns := erase m.txns txnId
        committed := emplace m.committed { r with commitTs := m.nextTs, state := .committed } })
    else (none, m)

def rollback (m : TransactionManager) (txnId : UInt64) : Bool × TransactionManager :=
  match find m.txns txnId with
  | none => (false, m)
  | some r =>
    if r.state = .active ∨ r.state = .failed then (true, { m with txns := erase m.txns txnId })
    else (false, m)

def markFailed (m : TransactionManager) (txnId : UInt64) : TransactionManager :=
  { m with txns := m.txns.map fun r =>
      if r.txnId = txnId ∧ r.state = .active then { r with state := .failed } else r }

def getState (m : TransactionManager) (txnId : UInt64) : Option TxnState :=
  match find m.txns txnId with
  | some r => some r.state
  | none => (find m.committed txnId).map (·.state)

def getReadTs (m : TransactionManager) (txnId : UInt64) : Option UInt64 :=
  match find m.txns txnId with
  | some r => some r.readTs
  | none => (find m.committed txnId).map (·.readTs)

/-- The smallest read timestamp below the largest word of an active or failed transaction, the
next timestamp when there is none. -/
def minActiveReadTs (m : TransactionManager) : UInt64 :=
  let live := m.txns.filter fun r => r.state = .active ∨ r.state = .failed
  let minTs := live.foldl (fun t r => min t r.readTs) 0xFFFFFFFFFFFFFFFF
  if live.any (fun r => r.readTs < 0xFFFFFFFFFFFFFFFF) then minTs else m.nextTs

def pruneCommitted (m : TransactionManager) : TransactionManager :=
  { m with committed := m.committed.filter fun r => !decide (r.commitTs < m.minActiveReadTs) }

def bootstrapMinNextTs (m : TransactionManager) (minNextTs : UInt64) : TransactionManager :=
  if m.nextTs < minNextTs then { m with nextTs := minNextTs } else m

end TransactionManager

/-- A call on the manager after its construction. -/
inductive TxnCall where
  | begin
  | commit (txnId : UInt64)
  | rollback (txnId : UInt64)
  | markFailed (txnId : UInt64)
  | allocateTs
  | pruneCommitted
  deriving DecidableEq, Repr

namespace TransactionManager

def call (m : TransactionManager) : TxnCall → Option UInt64 × TransactionManager
  | .begin => (some m.nextTs, m.begin.2)
  | .commit txnId => m.commit txnId
  | .rollback txnId => (none, (m.rollback txnId).2)
  | .markFailed txnId => (none, m.markFailed txnId)
  | .allocateTs => (some m.allocateTs.1, m.allocateTs.2)
  | .pruneCommitted => (none, m.pruneCommitted)

def handedOut (m : TransactionManager) : List TxnCall → List UInt64
  | [] => []
  | c :: cs => (m.call c).1.toList ++ handedOut (m.call c).2 cs

theorem call_cases (m : TransactionManager) (c : TxnCall) :
    ((m.call c).1 = some m.nextTs ∧ (m.call c).2.nextTs = m.nextTs + 1) ∨
      ((m.call c).1 = none ∧ (m.call c).2.nextTs = m.nextTs) := by
  cases c with
  | begin => exact .inl ⟨rfl, rfl⟩
  | commit txnId =>
    simp only [call, commit]
    split
    · exact .inr ⟨rfl, rfl⟩
    · split
      · exact .inl ⟨rfl, rfl⟩
      · exact .inr ⟨rfl, rfl⟩
  | rollback txnId =>
    refine .inr ⟨rfl, ?_⟩
    simp only [call, rollback]
    split
    · rfl
    · split <;> rfl
  | markFailed txnId => exact .inr ⟨rfl, rfl⟩
  | allocateTs => exact .inl ⟨rfl, rfl⟩
  | pruneCommitted => exact .inr ⟨rfl, rfl⟩

theorem toNat_add_one {a : UInt64} (h : a.toNat + 1 < 2 ^ 64) : (a + 1).toNat = a.toNat + 1 := by
  rw [UInt64.toNat_add]
  exact Nat.mod_eq_of_lt h

theorem lt_add_one_of_room {a : UInt64} (h : a.toNat + 1 < 2 ^ 64) : a < a + 1 := by
  rw [UInt64.lt_iff_toNat_lt, toNat_add_one h]
  exact Nat.lt_succ_self _

theorem nextTs_le_of_mem_handedOut {cs : List TxnCall} {m : TransactionManager} {ts : UInt64}
    (hwrap : m.nextTs.toNat + cs.length < 2 ^ 64) (h : ts ∈ m.handedOut cs) : m.nextTs ≤ ts := by
  induction cs generalizing m with
  | nil => simp [handedOut] at h
  | cons c cs ih =>
    rw [List.length_cons] at hwrap
    have hsucc : (m.nextTs + 1).toNat = m.nextTs.toNat + 1 := toNat_add_one (by omega)
    rcases call_cases m c with ⟨hts, hnext⟩ | ⟨hts, hnext⟩
    · simp only [handedOut, hts, Option.toList_some, List.singleton_append, List.mem_cons] at h
      rcases h with rfl | h
      · exact le_refl _
      · have hle := ih (by rw [hnext, hsucc]; omega) h
        rw [hnext, UInt64.le_iff_toNat_le, hsucc] at hle
        rw [UInt64.le_iff_toNat_le]
        omega
    · simp only [handedOut, hts, Option.toList_none, List.nil_append] at h
      have hle := ih (by rw [hnext]; omega) h
      rwa [hnext] at hle

section Records

variable {m : TransactionManager}

theorem find_begin (h : find m.txns m.nextTxnId = none) :
    find m.begin.2.txns m.nextTxnId = some ⟨m.nextTxnId, m.nextTs, 0, .active⟩ := by
  have hnew : m.begin.2.txns = m.txns ++ [⟨m.nextTxnId, m.nextTs, 0, .active⟩] := by
    simp [begin, emplace, h]
  rw [find] at h ⊢
  rw [hnew, List.find?_append, h]
  simp

theorem getReadTs_begin (h : find m.txns m.nextTxnId = none) :
    m.begin.2.getReadTs m.nextTxnId = some m.nextTs := by
  rw [getReadTs, find_begin h]

theorem commit_eq_some {txnId ts : UInt64} {m' : TransactionManager}
    (h : m.commit txnId = (some ts, m')) :
    ts = m.nextTs ∧ m'.nextTs = m.nextTs + 1 ∧ m'.nextTxnId = m.nextTxnId ∧
      m'.txns = erase m.txns txnId := by
  rw [commit] at h
  split at h
  · cases h
  · split at h
    · obtain ⟨hts, rfl⟩ := Prod.mk.inj h
      exact ⟨(Option.some.inj hts).symm, rfl, rfl, rfl⟩
    · cases h

theorem commit_eq_none {txnId : UInt64} {m' : TransactionManager}
    (h : m.commit txnId = (none, m')) : m' = m := by
  rw [commit] at h
  split at h
  · exact (Prod.mk.inj h).2.symm
  · split at h
    · cases h
    · exact (Prod.mk.inj h).2.symm

theorem find_markFailed_eq (m : TransactionManager) (txnId k : UInt64) :
    find (m.markFailed txnId).txns k = (find m.txns k).map fun r =>
      if r.txnId = txnId ∧ r.state = .active then { r with state := .failed } else r := by
  rw [find, markFailed, List.find?_map]
  congr 2
  funext r
  simp only [Function.comp_apply]
  split_ifs <;> rfl

theorem find_erase_of_none {txns : List TxnRecord} {k : UInt64} (h : find txns k = none)
    (txnId : UInt64) : find (erase txns txnId) k = none := by
  rw [find, List.find?_eq_none] at h ⊢
  intro r hr
  exact h r (List.mem_of_mem_filter hr)

theorem mem_rollback {txnId : UInt64} {r : TxnRecord} (h : r ∈ (m.rollback txnId).2.txns) :
    r ∈ m.txns := by
  rw [rollback] at h
  split at h
  · exact h
  · split_ifs at h
    · exact List.mem_of_mem_filter h
    · exact h

theorem mem_markFailed {txnId : UInt64} {r : TxnRecord} (h : r ∈ (m.markFailed txnId).txns) :
    ∃ r₀ ∈ m.txns, r.txnId = r₀.txnId ∧ r.readTs = r₀.readTs := by
  obtain ⟨r₀, hr₀, rfl⟩ := List.mem_map.mp h
  refine ⟨r₀, hr₀, ?_⟩
  split_ifs <;> exact ⟨rfl, rfl⟩

end Records

section Horizon

variable {m : TransactionManager} {s : UInt64}

theorem foldl_min_le_iff (records : List TxnRecord) (t : UInt64) :
    records.foldl (fun t r => min t r.readTs) t ≤ s ↔ t ≤ s ∨ ∃ r ∈ records, r.readTs ≤ s := by
  induction records generalizing t with
  | nil => simp
  | cons r records ih =>
    rw [List.foldl_cons, ih, min_le_iff, List.exists_mem_cons_iff, or_assoc]

theorem minActiveReadTs_le_iff (hold : ∀ r ∈ m.txns, r.readTs < m.nextTs) (hs : s < m.nextTs) :
    m.minActiveReadTs ≤ s ↔
      ∃ r ∈ m.txns, (r.state = .active ∨ r.state = .failed) ∧ r.readTs ≤ s := by
  have hlarge : ∀ t : UInt64, t < m.nextTs → t < 0xFFFFFFFFFFFFFFFF := by
    intro t ht
    exact lt_of_lt_of_le ht (UInt64.le_iff_toNat_le.mpr (Nat.le_of_lt_succ m.nextTs.toNat_lt))
  simp only [minActiveReadTs]
  split_ifs with hany
  · rw [foldl_min_le_iff]
    constructor
    · rintro (hle | ⟨r, hr, hle⟩)
      · exact absurd (hlarge s hs) (not_lt.mpr hle)
      · obtain ⟨hr, hlive⟩ := List.mem_filter.mp hr
        exact ⟨r, hr, by simpa using hlive, hle⟩
    · rintro ⟨r, hr, hlive, hle⟩
      exact .inr ⟨r, List.mem_filter.mpr ⟨hr, by simpa using hlive⟩, hle⟩
  · constructor
    · exact fun hle => absurd hs (not_lt.mpr hle)
    · rintro ⟨r, hr, hlive, hle⟩
      refine absurd (List.any_eq_true.mpr ⟨r, List.mem_filter.mpr ⟨hr, ?_⟩, ?_⟩) hany
      · simpa using hlive
      · simpa using hlarge _ (hold r hr)

theorem minActiveReadTs_le_nextTs (hold : ∀ r ∈ m.txns, r.readTs < m.nextTs) :
    m.minActiveReadTs ≤ m.nextTs := by
  simp only [minActiveReadTs]
  split_ifs with hany
  · obtain ⟨r, hr, -⟩ := List.any_eq_true.mp hany
    rw [foldl_min_le_iff]
    exact .inr ⟨r, hr, (hold r (List.mem_of_mem_filter hr)).le⟩
  · exact le_refl _

end Horizon

end TransactionManager

end CoroDB
