import CoroDB.Txn.Transitions

/-!
# The horizon of a compaction

A compaction drops versions that are hidden at the horizon it reads when it starts,
`min_active_read_ts`.
-/

namespace CoroDB

open Framework
open TransactionManager (lt_add_one_of_room toNat_add_one find emplace)

variable {ν ι : Type} [DecidableEq ν]

/-- Where a session is in a call that other threads can see halfway. -/
inductive ClientPc where
  | idle
  | beginId (txnId : UInt64)
  | beginTs (txnId readTs : UInt64)
  | statement
  deriving DecidableEq, Repr

structure Client (ν : Type) [DecidableEq ν] where
  session : Session ν := {}
  pc : ClientPc := .idle

inductive ClientAction where
  | setTransaction (level : IsolationLevel)
  | beginId
  | beginTs
  | beginRegister
  | takeSnapshot
  | takeCommitTs
  | finish
  | commit
  | rollback
  | fail
  | commitThrows
  deriving DecidableEq, Repr

def TransactionManager.Known (m : TransactionManager) : Prop :=
  ∀ r ∈ m.txns, r.txnId < m.nextTxnId ∧ r.readTs < m.nextTs

theorem TransactionManager.Known.mono {m m' : TransactionManager} (h : m.Known)
    (hids : m.nextTxnId ≤ m'.nextTxnId) (hts : m.nextTs ≤ m'.nextTs)
    (hrecords : ∀ r ∈ m'.txns, ∃ r₀ ∈ m.txns, r.txnId = r₀.txnId ∧ r.readTs = r₀.readTs) :
    m'.Known := by
  intro r hr
  obtain ⟨r₀, hr₀, hid, hread⟩ := hrecords r hr
  rw [hid, hread]
  exact ⟨(h r₀ hr₀).1.trans_le hids, (h r₀ hr₀).2.trans_le hts⟩

namespace Client

/-- The last part of `begin`: the transaction is registered and the session learns its snapshot. -/
def register (m : TransactionManager) (s : Session ν) (txnId readTs : UInt64) :
    TransactionManager × Client ν :=
  let m' := { m with txns := emplace m.txns ⟨txnId, readTs, 0, .active⟩ }
  (m', ⟨{ s with
    currentTxnId := txnId
    savepoints := []
    snapshotTs := if s.fixedSnapshot then (m'.getReadTs txnId).getD 0 else 0 }, .idle⟩)

def step (m : TransactionManager) (c : Client ν) :
    ClientAction → Option (TransactionManager × Client ν)
  | .setTransaction level =>
    if c.pc = .idle ∧ c.session.inTransaction = false then
      some (m, { c with session := { c.session with isolation := level } })
    else none
  | .beginId =>
    if c.pc = .idle ∧ c.session.inTransaction = false then
      some ({ m with nextTxnId := m.nextTxnId + 1 }, { c with pc := .beginId m.nextTxnId })
    else none
  | .beginTs =>
    match c.pc with
    | .beginId txnId => some (m.allocateTs.2, { c with pc := .beginTs txnId m.nextTs })
    | _ => none
  | .beginRegister =>
    match c.pc with
    | .beginTs txnId readTs => some (register m c.session txnId readTs)
    | _ => none
  | .takeSnapshot =>
    if c.pc = .idle then
      let snapshot := c.session.prepareSnapshot m
      some (snapshot.2,
        ⟨{ c.session with snapshotTs := snapshot.1, autoCommitTs := 0 }, .statement⟩)
    else none
  | .takeCommitTs =>
    if c.pc = .statement ∧ c.session.inTransaction = false then
      some (m.allocateTs.2, { c with session := { c.session with autoCommitTs := m.nextTs } })
    else none
  | .finish => if c.pc = .statement then some (m, { c with pc := .idle }) else none
  | .commit =>
    if c.pc = .idle ∧ c.session.inTransaction = true then
      some ((m.commit c.session.currentTxnId).2, { c with session := c.session.ended })
    else none
  | .rollback =>
    if c.pc = .idle ∧ c.session.inTransaction = true then
      some ((m.rollback c.session.currentTxnId).2, { c with session := c.session.ended })
    else none
  | .fail =>
    if c.session.inTransaction = true then
      some (m.markFailed c.session.currentTxnId, { c with pc := .idle })
    else none
  | .commitThrows =>
    if c.pc = .idle ∧ c.session.inTransaction = true then
      some (m.markFailed c.session.currentTxnId, { c with session := c.session.ended })
    else none

theorem begin_steps (m : TransactionManager) (s : Session ν) :
    register (TransactionManager.allocateTs { m with nextTxnId := m.nextTxnId + 1 }).2 s
        m.nextTxnId m.nextTs =
      (m.begin.2, ⟨{ s with
        currentTxnId := m.begin.1
        savepoints := []
        snapshotTs := if s.fixedSnapshot then (m.begin.2.getReadTs m.begin.1).getD 0 else 0 },
        .idle⟩) :=
  rfl

theorem prepare_steps (m : TransactionManager) (s : Session ν) (h : s.inTransaction = false) :
    ((step m ⟨s, .idle⟩ .takeSnapshot).bind fun r => step r.1 r.2 .takeCommitTs) =
      some ((s.prepareForStatement false m).2, ⟨(s.prepareForStatement false m).1, .statement⟩) := by
  simp only [Session.inTransaction, bne_eq_false_iff_eq] at h
  simp [step, Session.prepareForStatement, Session.inTransaction, h, TransactionManager.allocateTs]

/-- The snapshots that a session reads at or is going to read at. -/
inductive InUse (c : Client ν) : UInt64 → Prop
  | beginning (txnId readTs) : c.pc = .beginTs txnId readTs → c.session.fixedSnapshot = true →
      InUse c readTs
  | statement : c.pc = .statement → InUse c c.session.snapshotTs
  | transaction : c.session.inTransaction = true → c.session.fixedSnapshot = true →
      InUse c c.session.snapshotTs

/-- Those among them that no registered transaction of the session stands for. -/
inductive Unregistered (c : Client ν) : UInt64 → Prop
  | beginning (txnId readTs) : c.pc = .beginTs txnId readTs → c.session.fixedSnapshot = true →
      Unregistered c readTs
  | statement : c.pc = .statement → c.session.inTransaction = false →
      Unregistered c c.session.snapshotTs

def owned (c : Client ν) : Option UInt64 :=
  match c.pc with
  | .beginId txnId => some txnId
  | .beginTs txnId _ => some txnId
  | _ => if c.session.inTransaction then some c.session.currentTxnId else none

structure Open (m : TransactionManager) (c : Client ν) (r : TxnRecord) : Prop where
  found : find m.txns c.session.currentTxnId = some r
  live : r.state = .active ∨ r.state = .failed
  old : r.readTs < m.nextTs
  fixed : c.session.fixedSnapshot = true → r.readTs = c.session.snapshotTs
  statement : c.pc = .statement → r.readTs ≤ c.session.snapshotTs

/-- What a session knows of its transaction agrees with the manager. -/
structure Fits (m : TransactionManager) (c : Client ν) : Prop where
  id : ∀ k, c.owned = some k → k < m.nextTxnId ∧ k ≠ 0
  fresh : ∀ k, c.pc = .beginId k ∨ (∃ t, c.pc = .beginTs k t) →
    c.session.inTransaction = false ∧ find m.txns k = none
  readTs : ∀ k t, c.pc = .beginTs k t → t < m.nextTs
  opened : c.session.inTransaction = true → ∃ r, Open m c r
  auto : c.pc = .statement → c.session.inTransaction = false → c.session.snapshotTs < m.nextTs

section Steps

variable {m m' : TransactionManager} {c c' : Client ν}

theorem owned_of_inTransaction (h : Fits m c) (hin : c.session.inTransaction = true) :
    c.owned = some c.session.currentTxnId := by
  have hno : ∀ k, ¬ (c.pc = .beginId k ∨ ∃ t, c.pc = .beginTs k t) := by
    intro k hk
    rw [(h.fresh k hk).1] at hin
    cases hin
  cases hpc : c.pc with
  | idle => simp only [owned, hpc, hin, if_true]
  | beginId k => exact absurd (.inl hpc) (hno k)
  | beginTs k t => exact absurd (.inr ⟨t, hpc⟩) (hno k)
  | statement => simp only [owned, hpc, hin, if_true]

theorem Fits.mono (h : Fits m c)
    (hfind : ∀ k, c.owned = some k →
      find m'.txns k = find m.txns k)
    (hts : m.nextTs ≤ m'.nextTs) (hids : m.nextTxnId ≤ m'.nextTxnId) : Fits m' c where
  id k hk := ⟨(h.id k hk).1.trans_le hids, (h.id k hk).2⟩
  fresh k hk := by
    have howned : c.owned = some k := by
      rcases hk with hk | ⟨t, hk⟩ <;> simp only [owned, hk]
    rw [hfind k howned]
    exact h.fresh k hk
  readTs k t hk := (h.readTs k t hk).trans_le hts
  opened hin := by
    obtain ⟨r, hr⟩ := h.opened hin
    refine ⟨r, ?_, hr.live, hr.old.trans_le hts, hr.fixed, hr.statement⟩
    rw [hfind _ (owned_of_inTransaction h hin)]
    exact hr.found
  auto hpc hin := (h.auto hpc hin).trans_le hts

/-- What a step of a session changes. -/
structure Moves (m : TransactionManager) (c : Client ν) (m' : TransactionManager) (c' : Client ν) :
    Prop where
  ts : m.nextTs ≤ m'.nextTs ∧ m'.nextTs.toNat ≤ m.nextTs.toNat + 1
  ids : m.nextTxnId ≤ m'.nextTxnId ∧ m'.nextTxnId.toNat ≤ m.nextTxnId.toNat + 1
  known : m'.Known
  others : ∀ k, c.owned ≠ some k →
    find m'.txns k = find m.txns k
  owned : ∀ k, c'.owned = some k → c.owned = some k ∨ k = m.nextTxnId
  inUse : ∀ s, c'.InUse s → c.InUse s ∨ m.nextTs ≤ s
  fits : Fits m' c'

theorem free_uses (hpc : c.pc = .idle) (hfree : c.session.inTransaction = false) :
    c.owned = none ∧ ∀ s, ¬ c.InUse s := by
  refine ⟨by simp [owned, hpc, hfree], fun s hs => ?_⟩
  cases hs with
  | beginning k _ hk =>
    rw [hpc] at hk
    cases hk
  | statement hk =>
    rw [hpc] at hk
    cases hk
  | transaction hin =>
    rw [hfree] at hin
    cases hin

theorem Fits.of_free (m : TransactionManager) (hpc : c.pc = .idle)
    (hfree : c.session.inTransaction = false) : Fits m c := by
  refine ⟨fun k hk => ?_, ?_, fun k t hk => ?_, fun hin => ?_, fun hk => ?_⟩
  · rw [(free_uses hpc hfree).1] at hk
    cases hk
  · rintro k (hk | ⟨t, hk⟩) <;> rw [hpc] at hk <;> cases hk
  · rw [hpc] at hk
    cases hk
  · rw [hfree] at hin
    cases hin
  · rw [hpc] at hk
    cases hk

theorem Moves.of_free (hpc : c'.pc = .idle) (hfree : c'.session.inTransaction = false)
    (hts : m.nextTs ≤ m'.nextTs ∧ m'.nextTs.toNat ≤ m.nextTs.toNat + 1)
    (hid : m'.nextTxnId = m.nextTxnId) (hknown : m.Known)
    (hrecords : ∀ r ∈ m'.txns, ∃ r₀ ∈ m.txns, r.txnId = r₀.txnId ∧ r.readTs = r₀.readTs)
    (hothers : ∀ k, c.owned ≠ some k →
      find m'.txns k = find m.txns k) : Moves m c m' c' := by
  obtain ⟨hnone, hno⟩ := free_uses hpc hfree
  refine ⟨hts, hid ▸ ⟨le_refl _, Nat.le_succ _⟩, hknown.mono hid.ge hts.1 hrecords, hothers, ?_,
    fun s hs => absurd hs (hno s), .of_free m' hpc hfree⟩
  intro k hk
  rw [hnone] at hk
  cases hk

theorem Moves.settled {k : UInt64} (howned : c.owned = some k) (hknown : m.Known)
    (h : TransactionManager.Settles k m m')
    (hrecords : ∀ r ∈ m'.txns, ∃ r₀ ∈ m.txns, r.txnId = r₀.txnId ∧ r.readTs = r₀.readTs)
    (hpc : c'.pc = .idle) (hfree : c'.session.inTransaction = false) : Moves m c m' c' := by
  refine .of_free hpc hfree ?_ h.nextTxnId hknown hrecords ?_
  · rw [h.nextTs]
    exact ⟨le_refl _, Nat.le_succ _⟩
  · intro k' hk'
    apply h.others
    rintro rfl
    exact hk' howned

theorem moves_beginId (hknown : m.Known)
    (hpos : 0 < m.nextTxnId) (hroom : m.nextTxnId.toNat + 1 < 2 ^ 64)
    (hin : c.session.inTransaction = false) :
    Moves m c { m with nextTxnId := m.nextTxnId + 1 } { c with pc := .beginId m.nextTxnId } := by
  have hlt := lt_add_one_of_room hroom
  refine ⟨⟨le_refl _, Nat.le_succ _⟩, ⟨hlt.le, ?_⟩,
    hknown.mono hlt.le (le_refl _) fun r hr => ⟨r, hr, rfl, rfl⟩,
    fun _ _ => rfl, fun k hk => .inr ?_, fun s hs => ?_, ?_⟩
  · exact (toNat_add_one hroom).le
  · exact (Option.some.inj hk).symm
  · cases hs with
    | transaction hin' => exact absurd hin' (by rw [hin]; exact Bool.false_ne_true)
    | beginning k t hk => cases hk
    | statement hk => cases hk
  · refine ⟨fun k hk => ?_, fun k hk => ?_, nofun, fun hin' => ?_, nofun⟩
    · obtain rfl := Option.some.inj hk
      exact ⟨hlt, hpos.ne'⟩
    · rcases hk with hk | ⟨t, hk⟩
      · obtain rfl := ClientPc.beginId.inj hk
        refine ⟨hin, ?_⟩
        rw [find, List.find?_eq_none]
        intro r hr hrid
        exact absurd (hknown r hr).1 (by simpa using (by simpa using hrid : r.txnId = _).ge)
      · cases hk
    · exact absurd hin' (by rw [hin]; exact Bool.false_ne_true)

theorem Moves.of_ticks (hm : m.Ticks m') (hroom : m.nextTs.toNat + 1 < 2 ^ 64)
    (hknown : m.Known)
    (howned : ∀ k, c'.owned = some k → c.owned = some k)
    (hinUse : ∀ s, c'.InUse s → c.InUse s ∨ m.nextTs ≤ s) (hfits : Fits m' c') :
    Moves m c m' c' := by
  rcases hm with rfl | rfl
  · exact ⟨⟨le_refl _, Nat.le_succ _⟩, ⟨le_refl _, Nat.le_succ _⟩, hknown, fun _ _ => rfl,
      fun k hk => .inl (howned k hk), hinUse, hfits⟩
  · exact ⟨⟨(lt_add_one_of_room hroom).le,
      (toNat_add_one hroom).le⟩, ⟨le_refl _, Nat.le_succ _⟩,
      hknown.mono (le_refl _) (lt_add_one_of_room hroom).le
        fun r hr => ⟨r, hr, rfl, rfl⟩, fun _ _ => rfl, fun k hk => .inl (howned k hk), hinUse, hfits⟩

theorem moves_beginTs {txnId : UInt64} (h : Fits m c)
    (hknown : m.Known) (hroom : m.nextTs.toNat + 1 < 2 ^ 64)
    (hpc : c.pc = .beginId txnId) :
    Moves m c m.allocateTs.2 { c with pc := .beginTs txnId m.nextTs } := by
  have hfree := h.fresh txnId (.inl hpc)
  have howned : c.owned = some txnId := by simp only [owned, hpc]
  apply Moves.of_ticks (.inr rfl) hroom hknown
  · intro k hk
    rwa [howned]
  · intro s hs
    cases hs with
    | beginning k t hk =>
      cases hk
      exact .inr (le_refl _)
    | statement hk => cases hk
    | transaction hin => exact absurd (hfree.1.symm.trans hin) Bool.false_ne_true
  · refine ⟨fun k hk => h.id k (howned.trans hk), fun k hk => ?_, fun k t hk => ?_, fun hin => ?_,
      nofun⟩
    · rcases hk with hk | ⟨t, hk⟩ <;> cases hk
      exact hfree
    · cases hk
      exact lt_add_one_of_room hroom
    · exact absurd (hfree.1.symm.trans hin) Bool.false_ne_true

theorem find_emplace {txns : List TxnRecord} {r : TxnRecord}
    (h : find txns r.txnId = none) :
    emplace txns r = txns ++ [r] ∧
      find (emplace txns r) r.txnId = some r := by
  have hnew : emplace txns r = txns ++ [r] := by
    simp [emplace, h]
  refine ⟨hnew, ?_⟩
  rw [hnew, find, List.find?_append, ← find, h]
  simp

theorem moves_register {txnId readTs : UInt64} (h : Fits m c)
    (hknown : m.Known) (hpc : c.pc = .beginTs txnId readTs) :
    Moves m c (register m c.session txnId readTs).1 (register m c.session txnId readTs).2 := by
  have hfree := h.fresh txnId (.inr ⟨readTs, hpc⟩)
  have howned : c.owned = some txnId := by simp only [owned, hpc]
  have hid := h.id txnId howned
  obtain ⟨hnew, hfind⟩ := find_emplace (r := ⟨txnId, readTs, 0, .active⟩) hfree.2
  have hin : (register m c.session txnId readTs).2.session.inTransaction = true := by
    simpa [register, Session.inTransaction] using hid.2
  have howned' : (register m c.session txnId readTs).2.owned = some txnId := if_pos hin
  have hsnap : c.session.fixedSnapshot = true →
      (register m c.session txnId readTs).2.session.snapshotTs = readTs := by
    intro hf
    simp only [register, hf, if_true, TransactionManager.getReadTs, hfind, Option.getD_some]
  refine ⟨⟨le_refl _, Nat.le_succ _⟩, ⟨le_refl _, Nat.le_succ _⟩, fun r hr => ?_, fun k hk => ?_,
    fun k hk => .inl ?_, fun s hs => .inl ?_, ?_⟩
  · change r ∈ emplace _ _ at hr
    rw [hnew] at hr
    rcases List.mem_append.mp hr with hr | hr
    · exact hknown r hr
    · rw [List.mem_singleton.mp hr]
      exact ⟨hid.1, h.readTs txnId readTs hpc⟩
  · change find (emplace _ _) k = _
    have hne : txnId ≠ k := fun heq => hk (heq ▸ howned)
    rw [hnew, find, List.find?_append, List.find?_singleton,
      if_neg (by simpa using hne), Option.or_none]
    rfl
  · rw [howned]
    exact howned'.symm.trans hk
  · cases hs with
    | beginning k t hk => cases hk
    | statement hk => cases hk
    | transaction hin hf =>
      rw [hsnap hf]
      exact .beginning txnId readTs hpc hf
  · refine ⟨fun k hk => ?_, ?_, (by intros; contradiction), fun _ => ?_, (by intros; contradiction)⟩
    · exact (Option.some.inj (howned'.symm.trans hk)) ▸ hid
    · rintro k (hk | ⟨t, hk⟩) <;> cases hk
    · exact ⟨_, hfind, .inl rfl, h.readTs txnId readTs hpc, fun hf => (hsnap hf).symm, (by intros; contradiction)⟩

theorem prepareSnapshot_cases (s : Session ν) (m : TransactionManager) :
    m.Ticks (s.prepareSnapshot m).2 ∧
      (s.inTransaction = false →
        (s.prepareSnapshot m).1 = m.nextTs ∧ (s.prepareSnapshot m).2 = m.allocateTs.2) ∧
      (s.inTransaction = true → s.fixedSnapshot = true → (s.prepareSnapshot m).1 = s.snapshotTs) ∧
      (s.inTransaction = true → s.fixedSnapshot = false → m.nextTs ≤ (s.prepareSnapshot m).1) := by
  have hmax : m.nextTs ≤ maxTs := by
    rw [UInt64.le_iff_toNat_le]
    exact Nat.le_of_lt_succ m.nextTs.toNat_lt
  rw [Session.prepareSnapshot]
  cases hin : s.inTransaction with
  | false =>
    rw [if_neg Bool.false_ne_true]
    exact ⟨.inr rfl, fun _ => ⟨rfl, rfl⟩, (by intros; contradiction), (by intros; contradiction)⟩
  | true =>
    rw [if_pos rfl]
    cases hlevel : s.isolation with
    | readUncommitted => exact ⟨.inl rfl, (by intros; contradiction), by simp [Session.fixedSnapshot, hlevel], fun _ _ => hmax⟩
    | readCommitted =>
      exact ⟨.inr rfl, (by intros; contradiction), by simp [Session.fixedSnapshot, hlevel], fun _ _ => le_refl _⟩
    | repeatableRead =>
      exact ⟨.inl rfl, (by intros; contradiction), fun _ _ => rfl, by simp [Session.fixedSnapshot, hlevel]⟩
    | serializable =>
      exact ⟨.inl rfl, (by intros; contradiction), fun _ _ => rfl, by simp [Session.fixedSnapshot, hlevel]⟩

theorem moves_takeSnapshot (h : Fits m c) (hknown : m.Known)
    (hroom : m.nextTs.toNat + 1 < 2 ^ 64) (hpc : c.pc = .idle) :
    Moves m c (c.session.prepareSnapshot m).2
      ⟨{ c.session with snapshotTs := (c.session.prepareSnapshot m).1, autoCommitTs := 0 },
        .statement⟩ := by
  obtain ⟨hticks, hauto, hfixed, hnew⟩ := prepareSnapshot_cases c.session m
  have howned : ∀ k, owned (ν := ν) ⟨{ c.session with
      snapshotTs := (c.session.prepareSnapshot m).1, autoCommitTs := 0 }, .statement⟩ = some k →
      c.owned = some k := by
    intro k hk
    simp only [owned, hpc]
    exact hk
  have hsnap : (c.session.inTransaction = true ∧ c.session.fixedSnapshot = true) ∨
      m.nextTs ≤ (c.session.prepareSnapshot m).1 := by
    cases hin : c.session.inTransaction with
    | false => exact .inr (hauto hin).1.ge
    | true =>
      cases hf : c.session.fixedSnapshot with
      | false => exact .inr (hnew hin hf)
      | true => exact .inl ⟨rfl, rfl⟩
  have hts : m.nextTs ≤ (c.session.prepareSnapshot m).2.nextTs ∧
      (c.session.prepareSnapshot m).2.txns = m.txns ∧
      (c.session.prepareSnapshot m).2.nextTxnId = m.nextTxnId := by
    rcases hticks with heq | heq <;> rw [heq]
    · exact ⟨le_refl _, rfl, rfl⟩
    · exact ⟨(lt_add_one_of_room hroom).le, rfl, rfl⟩
  apply Moves.of_ticks hticks hroom hknown howned
  · intro s hs
    have hs' : s = (c.session.prepareSnapshot m).1 := by
      cases hs with
      | beginning k t hk => cases hk
      | statement hk => rfl
      | transaction hin hf => rfl
    rw [hs']
    rcases hsnap with ⟨hin, hf⟩ | hle
    · rw [hfixed hin hf]
      exact .inl (.transaction hin hf)
    · exact .inr hle
  · refine ⟨fun k hk => ?_, ?_, nofun, fun hin => ?_, fun _ hin => ?_⟩
    · rw [hts.2.2]
      exact h.id k (howned k hk)
    · rintro k (hk | ⟨t, hk⟩) <;> cases hk
    · obtain ⟨r, hr⟩ := h.opened hin
      refine ⟨r, ?_, hr.live, hr.old.trans_le hts.1, fun hf => ?_, fun _ => ?_⟩
      · rw [hts.2.1]
        exact hr.found
      · exact (hr.fixed hf).trans (hfixed hin hf).symm
      · rcases hsnap with ⟨hin, hf⟩ | hle
        · exact ((hr.fixed hf).trans (hfixed hin hf).symm).le
        · exact hr.old.le.trans hle
    · change (c.session.prepareSnapshot m).1 < _
      rw [(hauto hin).1, (hauto hin).2]
      exact lt_add_one_of_room hroom

theorem moves_takeCommitTs (h : Fits m c) (hknown : m.Known)
    (hroom : m.nextTs.toNat + 1 < 2 ^ 64) :
    Moves m c m.allocateTs.2 { c with session := { c.session with autoCommitTs := m.nextTs } } := by
  apply Moves.of_ticks (.inr rfl) hroom hknown
  · exact fun k hk => hk
  · intro s hs
    left
    cases hs with
    | beginning k _ hk hf => exact .beginning k _ hk hf
    | statement hk => exact .statement hk
    | transaction hin hf => exact .transaction hin hf
  · have hfits : Fits m.allocateTs.2 c := h.mono (fun _ _ => rfl)
      (lt_add_one_of_room hroom).le (le_refl _)
    refine ⟨hfits.id, hfits.fresh, hfits.readTs, fun hin => ?_, hfits.auto⟩
    obtain ⟨r, hr⟩ := hfits.opened hin
    exact ⟨r, hr.found, hr.live, hr.old, hr.fixed, hr.statement⟩

theorem Fits.idle (h : Fits m c) :
    Fits m { c with pc := .idle } ∧ (∀ k, owned { c with pc := .idle } = some k → c.owned = some k) ∧
      ∀ s, InUse { c with pc := .idle } s → c.InUse s := by
  have howned : ∀ k, owned { c with pc := .idle } = some k → c.owned = some k := by
    intro k hk
    cases hin : c.session.inTransaction with
    | false => simp [owned, hin] at hk
    | true =>
      rw [owned_of_inTransaction h hin]
      simpa only [owned, hin, if_true] using hk
  refine ⟨⟨fun k hk => h.id k (howned k hk), ?_, nofun, fun hin => ?_, nofun⟩, howned, fun s hs => ?_⟩
  · rintro k (hk | ⟨t, hk⟩) <;> cases hk
  · obtain ⟨r, hr⟩ := h.opened hin
    exact ⟨r, hr.found, hr.live, hr.old, hr.fixed, nofun⟩
  · cases hs with
    | beginning k t hk => cases hk
    | statement hk => cases hk
    | transaction hin hf => exact .transaction hin hf

theorem find_markFailed_of_live {txnId : UInt64} {r : TxnRecord}
    (h : find m.txns txnId = some r) :
    ∃ r', find (m.markFailed txnId).txns txnId = some r' ∧ r'.readTs = r.readTs ∧
      ((r.state = .active ∨ r.state = .failed) → r'.state = .active ∨ r'.state = .failed) := by
  rw [TransactionManager.find_markFailed_eq, h, Option.map_some]
  refine ⟨_, rfl, ?_, fun hlive => ?_⟩
  · split_ifs <;> rfl
  · split_ifs
    · exact .inr rfl
    · exact hlive

theorem moves_fail (h : Fits m c) (hknown : m.Known)
    (hin : c.session.inTransaction = true) :
    Moves m c (m.markFailed c.session.currentTxnId) { c with pc := .idle } := by
  have hsettles := TransactionManager.settles_markFailed m c.session.currentTxnId
  obtain ⟨hfits, howned, hinUse⟩ := h.idle
  refine ⟨⟨le_refl _, Nat.le_succ _⟩, ⟨le_refl _, Nat.le_succ _⟩,
    hknown.mono (le_refl _) (le_refl _) fun r => TransactionManager.mem_markFailed, fun k hk => ?_,
    fun k hk => .inl (howned k hk), fun s hs => .inl (hinUse s hs), ?_⟩
  · apply hsettles.others
    rintro rfl
    exact hk (owned_of_inTransaction h hin)
  · refine ⟨hfits.id, ?_, nofun, fun _ => ?_, nofun⟩
    · rintro k (hk | ⟨t, hk⟩) <;> cases hk
    · obtain ⟨r, hr⟩ := hfits.opened hin
      obtain ⟨r', hfound, hread, hlive⟩ := find_markFailed_of_live hr.found
      exact ⟨r', hfound, hlive hr.live, hread ▸ hr.old, fun hf => hread.trans (hr.fixed hf), nofun⟩

/-- What every step of a session does. -/
theorem step_moves {a : ClientAction} (h : Fits m c)
    (hknown : m.Known) (hpos : 0 < m.nextTxnId)
    (hts : m.nextTs.toNat + 1 < 2 ^ 64) (hid : m.nextTxnId.toNat + 1 < 2 ^ 64)
    (hstep : step m c a = some (m', c')) : Moves m c m' c' := by
  cases a with
  | setTransaction level =>
    rw [step] at hstep
    split_ifs at hstep with hc
    obtain ⟨rfl, rfl⟩ := Prod.mk.inj (Option.some.inj hstep)
    exact .of_free hc.1 hc.2 ⟨le_refl _, Nat.le_succ _⟩ rfl hknown
      (fun r hr => ⟨r, hr, rfl, rfl⟩) fun _ _ => rfl
  | beginId =>
    rw [step] at hstep
    split_ifs at hstep with hc
    obtain ⟨rfl, rfl⟩ := Prod.mk.inj (Option.some.inj hstep)
    exact moves_beginId hknown hpos hid hc.2
  | beginTs =>
    rw [step.eq_def] at hstep
    dsimp only at hstep
    split at hstep
    · rename_i txnId hpc
      obtain ⟨rfl, rfl⟩ := Prod.mk.inj (Option.some.inj hstep)
      exact moves_beginTs h hknown hts hpc
    · cases hstep
  | beginRegister =>
    rw [step.eq_def] at hstep
    dsimp only at hstep
    split at hstep
    · rename_i txnId readTs hpc
      have hreg := Option.some.inj hstep
      have hmoves := moves_register h hknown hpc
      rwa [hreg] at hmoves
    · cases hstep
  | takeSnapshot =>
    rw [step] at hstep
    split_ifs at hstep with hc
    obtain ⟨rfl, rfl⟩ := Prod.mk.inj (Option.some.inj hstep)
    exact moves_takeSnapshot h hknown hts hc
  | takeCommitTs =>
    rw [step] at hstep
    split_ifs at hstep with hc
    obtain ⟨rfl, rfl⟩ := Prod.mk.inj (Option.some.inj hstep)
    exact moves_takeCommitTs h hknown hts
  | finish =>
    rw [step] at hstep
    split_ifs at hstep with hc
    obtain ⟨rfl, rfl⟩ := Prod.mk.inj (Option.some.inj hstep)
    obtain ⟨hfits, howned, hinUse⟩ := h.idle
    exact .of_ticks (.inl rfl) hts hknown howned (fun s hs => .inl (hinUse s hs)) hfits
  | commit =>
    rw [step] at hstep
    split_ifs at hstep with hc
    obtain ⟨rfl, rfl⟩ := Prod.mk.inj (Option.some.inj hstep)
    cases hcommit : m.commit c.session.currentTxnId with
    | mk ts m' =>
      cases ts with
      | none =>
        obtain rfl := TransactionManager.commit_eq_none hcommit
        exact .settled (owned_of_inTransaction h hc.2) hknown (.refl _ _)
          (fun r hr => ⟨r, hr, rfl, rfl⟩) hc.1 rfl
      | some ts =>
        obtain ⟨-, hnext, hids, htxns⟩ := TransactionManager.commit_eq_some hcommit
        refine .of_free hc.1 rfl ?_ hids hknown ?_ ?_
        · rw [hnext]
          exact ⟨(lt_add_one_of_room hts).le,
            (toNat_add_one hts).le⟩
        · intro r hr
          rw [htxns] at hr
          exact ⟨r, List.mem_of_mem_filter hr, rfl, rfl⟩
        · intro k hk
          rw [htxns]
          apply TransactionManager.find_erase_of_ne
          rintro rfl
          exact hk (owned_of_inTransaction h hc.2)
  | rollback =>
    rw [step] at hstep
    split_ifs at hstep with hc
    obtain ⟨rfl, rfl⟩ := Prod.mk.inj (Option.some.inj hstep)
    exact .settled (owned_of_inTransaction h hc.2) hknown
      (TransactionManager.settles_rollback _ _)
      (fun r hr => ⟨r, TransactionManager.mem_rollback hr, rfl, rfl⟩) hc.1 rfl
  | fail =>
    rw [step] at hstep
    split_ifs at hstep with hc
    obtain ⟨rfl, rfl⟩ := Prod.mk.inj (Option.some.inj hstep)
    exact moves_fail h hknown hc
  | commitThrows =>
    rw [step] at hstep
    split_ifs at hstep with hc
    obtain ⟨rfl, rfl⟩ := Prod.mk.inj (Option.some.inj hstep)
    exact .settled (owned_of_inTransaction h hc.2) hknown
      (TransactionManager.settles_markFailed _ _) (fun r => TransactionManager.mem_markFailed)
      hc.1 rfl

theorem Unregistered.inUse {s : UInt64} (hs : c.Unregistered s) : c.InUse s := by
  cases hs with
  | beginning k _ hk hf => exact .beginning k _ hk hf
  | statement hk => exact .statement hk

theorem Unregistered.lt_nextTs {s : UInt64} (h : Fits m c) (hs : c.Unregistered s) :
    s < m.nextTs := by
  cases hs with
  | beginning k _ hk hf => exact h.readTs k _ hk
  | statement hk hin => exact h.auto hk hin

theorem InUse.registered {s : UInt64} (h : Fits m c) (hs : c.InUse s) : c.Unregistered s ∨
    ∃ r ∈ m.txns, (r.state = .active ∨ r.state = .failed) ∧ r.readTs ≤ s := by
  cases hs with
  | beginning k _ hk hf => exact .inl (.beginning k _ hk hf)
  | statement hk =>
    cases hin : c.session.inTransaction with
    | false => exact .inl (.statement hk hin)
    | true =>
      obtain ⟨r, hr⟩ := h.opened hin
      exact .inr ⟨r, List.mem_of_find?_eq_some hr.found, hr.live, hr.statement hk⟩
  | transaction hin hf =>
    obtain ⟨r, hr⟩ := h.opened hin
    exact .inr ⟨r, List.mem_of_find?_eq_some hr.found, hr.live, (hr.fixed hf).le⟩

end Steps

end Client

/-- The sessions, the transaction manager, and the horizon of the compaction that runs on a table. -/
structure GcState (ν ι : Type) [DecidableEq ν] where
  manager : TransactionManager := {}
  clients : ι → Client ν := fun _ => {}
  compactions : ν → Option UInt64 := fun _ => none

inductive GcAction (ν ι : Type) where
  | client (i : ι) (a : ClientAction)
  | compact (table : ν)
  | compacted (table : ν)

namespace GcState

/-- One step of a session, or the start or the end of a compaction. A table has one compaction at a
time. -/
def step [DecidableEq ι] (st : GcState ν ι) : GcAction ν ι → Option (GcState ν ι)
  | .client i a => ((st.clients i).step st.manager a).map fun r =>
    { st with manager := r.1, clients := Function.update st.clients i r.2 }
  | .compact table =>
    if st.compactions table = none then
      some { st with
        compactions := Function.update st.compactions table (some st.manager.minActiveReadTs) }
    else none
  | .compacted table =>
    if st.compactions table = none then none
    else some { st with compactions := Function.update st.compactions table none }

/-- No compaction has a horizon above a snapshot in use. -/
def HorizonSafe (st : GcState ν ι) : Prop :=
  ∀ table h, st.compactions table = some h → ∀ i s, (st.clients i).InUse s → h ≤ s

/-- A compaction starts while each unregistered snapshot has a registered transaction that is as
old. -/
def HorizonCovers (st : GcState ν ι) : GcAction ν ι → Prop
  | .compact _ => ∀ i s, (st.clients i).Unregistered s →
      ∃ r ∈ st.manager.txns, (r.state = .active ∨ r.state = .failed) ∧ r.readTs ≤ s
  | _ => True

/-- The sessions agree with the manager, no two hold one transaction, and horizons and snapshots are
below the next timestamp, which has room for a number of steps. -/
structure Managed (rest : Nat) (st : GcState ν ι) : Prop where
  tsRoom : st.manager.nextTs.toNat + rest + 1 < 2 ^ 64
  idRoom : st.manager.nextTxnId.toNat + rest < 2 ^ 64
  pos : 0 < st.manager.nextTxnId
  known : st.manager.Known
  fits : ∀ i, (st.clients i).Fits st.manager
  distinct : ∀ i j k, (st.clients i).owned = some k → (st.clients j).owned = some k → i = j
  horizon : ∀ table h, st.compactions table = some h → h ≤ st.manager.nextTs
  safe : st.HorizonSafe

/-- No session is at work and no compaction runs. -/
structure Quiet (st : GcState ν ι) : Prop where
  known : st.manager.Known
  pos : 0 < st.manager.nextTxnId
  idle : ∀ i, (st.clients i).pc = .idle
  free : ∀ i, (st.clients i).session.inTransaction = false
  compactions : ∀ table, st.compactions table = none

section Runs

variable [DecidableEq ι] {st st' : GcState ν ι} {n : Nat}

theorem Managed.client {i : ι} {a : ClientAction} (h : Managed (n + 1) st)
    (hstep : st.step (.client i a) = some st') : Managed n st' := by
  obtain ⟨⟨m', c'⟩, hclient, rfl⟩ := Option.map_eq_some_iff.mp hstep
  have hmoves := Client.step_moves (h.fits i) h.known h.pos (by have := h.tsRoom; omega)
    (by have := h.idRoom; omega) hclient
  have hne : ∀ j, j ≠ i → ∀ k, (st.clients j).owned = some k → (st.clients i).owned ≠ some k :=
    fun j hj k hk hk' => hj (h.distinct j i k hk hk')
  have hlt : ∀ j k, (st.clients j).owned = some k → k ≠ st.manager.nextTxnId :=
    fun j k hk => ((h.fits j).id k hk).1.ne
  refine ⟨?_, ?_, h.pos.trans_le hmoves.ids.1, hmoves.known, fun j => ?_, fun j l k hj hl => ?_,
    fun table x hx => (h.horizon table x hx).trans hmoves.ts.1, fun table x hx j s hs => ?_⟩
  · have := h.tsRoom
    have := hmoves.ts.2
    change m'.nextTs.toNat + n + 1 < _
    omega
  · have := h.idRoom
    have := hmoves.ids.2
    change m'.nextTxnId.toNat + n < _
    omega
  · change (Function.update st.clients i c' j).Fits m'
    by_cases hj : j = i
    · subst hj
      rw [Function.update_self]
      exact hmoves.fits
    · rw [Function.update_of_ne hj]
      exact (h.fits j).mono (fun k hk => hmoves.others k (hne j hj k hk)) hmoves.ts.1 hmoves.ids.1
  · change (Function.update st.clients i c' j).owned = some k at hj
    change (Function.update st.clients i c' l).owned = some k at hl
    by_cases hji : j = i <;> by_cases hli : l = i
    · rw [hji, hli]
    · subst hji
      rw [Function.update_self] at hj
      rw [Function.update_of_ne hli] at hl
      rcases hmoves.owned k hj with hk | hk
      · exact h.distinct j l k hk hl
      · exact absurd hk (hlt l k hl)
    · subst hli
      rw [Function.update_self] at hl
      rw [Function.update_of_ne hji] at hj
      rcases hmoves.owned k hl with hk | hk
      · exact h.distinct j l k hj hk
      · exact absurd hk (hlt j k hj)
    · rw [Function.update_of_ne hji] at hj
      rw [Function.update_of_ne hli] at hl
      exact h.distinct j l k hj hl
  · change (Function.update st.clients i c' j).InUse s at hs
    by_cases hj : j = i
    · subst hj
      rw [Function.update_self] at hs
      rcases hmoves.inUse s hs with hs | hs
      · exact h.safe table x hx j s hs
      · exact (h.horizon table x hx).trans hs
    · rw [Function.update_of_ne hj] at hs
      exact h.safe table x hx j s hs

omit [DecidableEq ι] in
theorem Managed.horizon_le_iff (h : Managed n st) (table : ν) :
    (∀ i s, (st.clients i).InUse s → st.manager.minActiveReadTs ≤ s) ↔
      st.HorizonCovers (.compact table) := by
  have hold : ∀ r ∈ st.manager.txns, r.readTs < st.manager.nextTs := fun r hr => (h.known r hr).2
  constructor
  · intro hle i s hs
    exact (TransactionManager.minActiveReadTs_le_iff hold (hs.lt_nextTs (h.fits i))).mp
      (hle i s hs.inUse)
  · intro hcovers i s hs
    obtain ⟨r, hr, hlive, hle⟩ : ∃ r ∈ st.manager.txns,
        (r.state = .active ∨ r.state = .failed) ∧ r.readTs ≤ s := by
      rcases hs.registered (h.fits i) with hun | hreg
      · exact hcovers i s hun
      · exact hreg
    exact ((TransactionManager.minActiveReadTs_le_iff hold (hold r hr)).mpr
      ⟨r, hr, hlive, le_refl _⟩).trans hle

omit [DecidableEq ι] in
theorem Managed.rest (h : Managed (n + 1) st) : Managed n st :=
  ⟨by have := h.tsRoom; omega, by have := h.idRoom; omega, h.pos, h.known, h.fits, h.distinct,
    h.horizon, h.safe⟩

theorem Managed.step {a : GcAction ν ι} (h : Managed (n + 1) st) (hguard : st.HorizonCovers a)
    (hstep : st.step a = some st') : Managed n st' := by
  have h' := h.rest
  cases a with
  | client i a => exact h.client hstep
  | compact table =>
    rw [GcState.step] at hstep
    split_ifs at hstep
    obtain rfl := Option.some.inj hstep
    refine ⟨h'.tsRoom, h'.idRoom, h.pos, h.known, h.fits, h.distinct, fun t x hx => ?_,
      fun t x hx => ?_⟩
    all_goals
      change Function.update st.compactions table _ t = some x at hx
      by_cases ht : t = table
    · subst ht
      rw [Function.update_self] at hx
      obtain rfl := Option.some.inj hx
      exact TransactionManager.minActiveReadTs_le_nextTs fun r hr => (h.known r hr).2
    · rw [Function.update_of_ne ht] at hx
      exact h.horizon t x hx
    · subst ht
      rw [Function.update_self] at hx
      obtain rfl := Option.some.inj hx
      exact (h.horizon_le_iff t).mpr hguard
    · rw [Function.update_of_ne ht] at hx
      exact h.safe t x hx
  | compacted table =>
    rw [GcState.step] at hstep
    split_ifs at hstep
    obtain rfl := Option.some.inj hstep
    have hsub : ∀ t x, Function.update st.compactions table none t = some x →
        st.compactions t = some x := by
      intro t x hx
      by_cases ht : t = table
      · rw [ht, Function.update_self] at hx
        cases hx
      · rwa [Function.update_of_ne ht] at hx
    exact ⟨h'.tsRoom, h'.idRoom, h.pos, h.known, h.fits, h.distinct,
      fun t x hx => h.horizon t x (hsub t x hx), fun t x hx => h.safe t x (hsub t x hx)⟩

theorem Managed.breaks {a : GcAction ν ι} (h : Managed n st) (hguard : ¬ st.HorizonCovers a)
    (hstep : st.step a = some st') : ¬ st'.HorizonSafe := by
  cases a with
  | client i a => exact absurd trivial hguard
  | compacted table => exact absurd trivial hguard
  | compact table =>
    rw [GcState.step] at hstep
    split_ifs at hstep
    obtain rfl := Option.some.inj hstep
    rw [← h.horizon_le_iff table] at hguard
    exact fun hsafe => hguard (hsafe table _ (Function.update_self ..))

/-- In every run from a quiet state, compactions keep their horizons at or below
every snapshot in use exactly when each starts only while the unregistered snapshots are covered. -/
theorem horizonSafe_throughout_iff {actions : List (GcAction ν ι)} (h : st.Quiet)
    (hts : st.manager.nextTs.toNat + actions.length + 1 < 2 ^ 64)
    (hid : st.manager.nextTxnId.toNat + actions.length < 2 ^ 64)
    (hrun : run step st actions = some st') :
    Throughout step HorizonSafe st actions ↔ Guarded step HorizonCovers st actions := by
  have hinit : Managed actions.length st := by
    have huses := fun i => Client.free_uses (h.idle i) (h.free i)
    refine ⟨hts, hid, h.pos, h.known, fun i => .of_free _ (h.idle i) (h.free i), fun i j k hi => ?_,
      fun table x hx => ?_, fun table x hx i s hs => absurd hs ((huses i).2 s)⟩
    · rw [(huses i).1] at hi
      cases hi
    · rw [h.compactions table] at hx
      cases hx
  exact throughout_iff_guarded_of_rest (J := fun as => Managed as.length)
    (fun a as s s' h hG hs => h.step hG hs) (fun as s h => h.safe)
    (fun a as s s' h hG hs => h.breaks hG hs) hinit hrun

end Runs

section Sample

/-- A compaction starts while an autocommit statement reads, beside an older transaction. -/
def coveredRun : List (GcAction Unit Bool) :=
  [.client true .beginId, .client true .beginTs, .client true .beginRegister,
    .client false .takeSnapshot, .compact ()]

theorem coveredRun_horizonSafe : Throughout step HorizonSafe ({} : GcState Unit Bool) coveredRun := by
  have hquiet : Quiet ({} : GcState Unit Bool) :=
    ⟨nofun, by decide, fun _ => rfl, fun _ => rfl, fun _ => rfl⟩
  obtain ⟨st, hrun⟩ := Option.isSome_iff_exists.mp
    (show (run step ({} : GcState Unit Bool) coveredRun).isSome = true by decide)
  apply (horizonSafe_throughout_iff hquiet (by decide) (by decide) hrun).mpr
  iterate 4
    refine ⟨trivial, fun st hst => ?_⟩
    obtain rfl := Option.some.inj hst
  refine ⟨fun i s hs => ⟨⟨1, 1, 0, .active⟩, by decide, .inl rfl, ?_⟩, fun _ _ => trivial⟩
  cases hs with
  | beginning k _ hk => exact absurd hk (by cases i <;> exact nofun)
  | statement hk =>
    cases i with
    | false => decide
    | true => cases hk

/-- An autocommit SELECT reads at snapshot 1 and a compaction takes horizon 2. -/
theorem horizon_above_statement_snapshot :
    (run step ({} : GcState Unit Bool) [.client true .takeSnapshot, .compact ()]).map
      (fun st => (st.compactions (), (st.clients true).pc, (st.clients true).session.snapshotTs)) =
      some (some 2, .statement, 1) := by
  decide

end Sample

end GcState

end CoroDB
