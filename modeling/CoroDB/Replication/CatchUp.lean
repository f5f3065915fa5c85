import CoroDB.Replication.Replica

/-!
# Reads of a replica

A client of the replica reads at a snapshot that the replica's own counter hands out, after
`maybe_auto_analyze` has taken a timestamp where it is enabled.
-/

namespace CoroDB

open Framework

variable {ν : Type} [DecidableEq ν]

structure Follower (ν : Type) where
  engine : ReplEngine ν
  manager : TransactionManager := {}

/-- A record arrives, or a statement of a client calls the transaction manager. -/
inductive FollowerAction (ν : Type) where
  | apply (r : ReplicationRecord ν)
  | call (c : TxnCall)

namespace Follower

def step (f : Follower ν) : FollowerAction ν → Option (Follower ν)
  | .apply r => some { f with engine := (f.engine.applyReplicationRecord r).2 }
  | .call c => some { f with manager := (f.manager.call c).2 }

/-- The manager when `maybe_auto_analyze` has returned: outside a transaction it takes a timestamp,
unless the threshold disables it. -/
def maybeAutoAnalyze (analyzes : Bool) (f : Follower ν) (s : Session ν) : TransactionManager :=
  if analyzes ∧ s.inTransaction = false then f.manager.allocateTs.2 else f.manager

def selectSnapshot (analyzes : Bool) (f : Follower ν) (s : Session ν) : UInt64 :=
  (s.prepareForStatement true (f.maybeAutoAnalyze analyzes s)).1.snapshotTs

/-- An autocommit SELECT that starts now reads at or above every applied commit, and finds each row
of one that a later version within its snapshot does not replace. -/
def CatchesUp (analyzes : Bool) (f : Follower ν) : Prop :=
  ∀ s : Session ν, s.inTransaction = false → ∀ c ∈ f.engine.commitLog,
    c ≤ f.selectSnapshot analyzes s ∧
    ∀ n t, f.engine.tables n = some t → ∀ e ∈ t.versions, e.commitTs = c → e.tombstone = false →
      (∀ x ∈ t.versions, valueEq x.pk e.pk = true → x.commitTs ≤ f.selectSnapshot analyzes s →
        x.commitTs ≤ c) → e.row ∈ t.scanVisible (f.selectSnapshot analyzes s)

/-- The rows of a record are ones that the replica's tables may take. -/
def RowsFit (f : Follower ν) : FollowerAction ν → Prop
  | .apply r => f.engine.Takes r
  | .call _ => True

def nextSnapshot (analyzes : Bool) (f : Follower ν) : UInt64 :=
  if analyzes then f.manager.nextTs + 1 else f.manager.nextTs

/-- A Commit record arrives when the replica's counter has reached its timestamp. -/
def CommitReached (analyzes : Bool) (f : Follower ν) : FollowerAction ν → Prop
  | .apply (.commit c) => c ≤ f.nextSnapshot analyzes
  | _ => True

section Runs

variable {f f' : Follower ν} {actions : List (FollowerAction ν)} {analyzes : Bool}

theorem selectSnapshot_eq (f : Follower ν) {s : Session ν} (h : s.inTransaction = false) :
    f.selectSnapshot analyzes s = f.nextSnapshot analyzes := by
  cases analyzes <;>
    simp [selectSnapshot, maybeAutoAnalyze, nextSnapshot, Session.prepareForStatement,
      Session.prepareSnapshot, h, TransactionManager.allocateTs]

theorem catchesUp_iff (h : f.engine.Sound) :
    f.CatchesUp analyzes ↔ ∀ c ∈ f.engine.commitLog, c ≤ f.nextSnapshot analyzes := by
  constructor
  · intro hcatch c hc
    rw [← f.selectSnapshot_eq (s := {}) rfl]
    exact (hcatch {} rfl c hc).1
  · intro hle s hs c hc
    rw [f.selectSnapshot_eq hs]
    refine ⟨hle c hc, fun n t ht e he hts hrow hmax => ?_⟩
    subst hts
    exact (h n t ht).mem_scanVisible_of_newest he hrow (hle _ hc) hmax

/-- The tables are sound, the counter has reached every applied commit, and it has room for the
actions that are left, whose rows the tables may take. -/
structure CaughtUp (analyzes : Bool) (actions : List (FollowerAction ν)) (f : Follower ν) : Prop where
  sound : f.engine.Sound
  reached : ∀ c ∈ f.engine.commitLog, c ≤ f.nextSnapshot analyzes
  room : f.manager.nextTs.toNat + actions.length + 1 < 2 ^ 64
  rows : Guarded step RowsFit f actions

omit [DecidableEq ν] in
theorem nextSnapshot_le_call (c : TxnCall) (hroom : f.manager.nextTs.toNat + 2 < 2 ^ 64) :
    f.nextSnapshot analyzes ≤ nextSnapshot analyzes { f with manager := (f.manager.call c).2 } := by
  rcases TransactionManager.call_cases f.manager c with ⟨-, hnext⟩ | ⟨-, hnext⟩
  · have hone := TransactionManager.toNat_add_one (a := f.manager.nextTs) (by omega)
    have htwo := TransactionManager.toNat_add_one (a := f.manager.nextTs + 1) (by omega)
    simp only [nextSnapshot, hnext, UInt64.le_iff_toNat_le]
    split_ifs <;> omega
  · simp only [nextSnapshot, hnext]
    exact le_rfl

theorem CaughtUp.call {c : TxnCall} (h : CaughtUp analyzes (.call c :: actions) f) :
    CaughtUp analyzes actions { f with manager := (f.manager.call c).2 } := by
  have hroom := h.room
  rw [List.length_cons] at hroom
  refine ⟨h.sound, fun x hx => (h.reached x hx).trans (nextSnapshot_le_call c (by omega)), ?_,
    h.rows.2 _ rfl⟩
  change (f.manager.call c).2.nextTs.toNat + _ + _ < _
  rcases TransactionManager.call_cases f.manager c with ⟨-, hnext⟩ | ⟨-, hnext⟩
  · rw [hnext, TransactionManager.toNat_add_one (by omega)]
    omega
  · rw [hnext]
    omega

theorem commitLog_apply (e : ReplEngine ν) (r : ReplicationRecord ν) :
    (e.applyReplicationRecord r).2.commitLog = e.commitLog ∨
      ∃ c, r = .commit c ∧ (e.applyReplicationRecord r).2.commitLog = e.commitLog ++ [c] := by
  cases r with
  | createTable table columns hne =>
    rw [ReplEngine.applyReplicationRecord]
    split_ifs <;> exact .inl rfl
  | dropTable table =>
    rw [ReplEngine.applyReplicationRecord]
    split_ifs <;> exact .inl rfl
  | commit c =>
    rw [ReplEngine.applyReplicationRecord, ReplEngine.markCommitted]
    split_ifs
    · exact .inl rfl
    · exact .inr ⟨c, rfl, rfl⟩
  | applyRow table row commitTs =>
    cases ht : e.tables table with
    | none => exact .inl (by simp only [ReplEngine.applyReplicationRecord, ht])
    | some t => exact .inl (by simp only [ReplEngine.applyReplicationRecord, ht]; rfl)
  | applyDelete table key commitTs =>
    cases ht : e.tables table with
    | none => exact .inl (by simp only [ReplEngine.applyReplicationRecord, ht])
    | some t => exact .inl (by simp only [ReplEngine.applyReplicationRecord, ht]; rfl)

theorem CaughtUp.step {a : FollowerAction ν} (h : CaughtUp analyzes (a :: actions) f)
    (hG : f.CommitReached analyzes a) (hstep : f.step a = some f') :
    CaughtUp analyzes actions f' := by
  cases a with
  | call c =>
    obtain rfl := Option.some.inj hstep
    exact h.call
  | apply r =>
    have hroom := h.room
    rw [List.length_cons] at hroom
    have hrows := h.rows.2 _ hstep
    obtain rfl := Option.some.inj hstep
    refine ⟨h.sound.apply h.rows.1, fun x hx => ?_, by change f.manager.nextTs.toNat + _ + 1 < _; omega, hrows⟩
    rcases commitLog_apply f.engine r with heq | ⟨c, rfl, heq⟩
    · exact h.reached x (heq ▸ hx)
    · rcases List.mem_append.mp (heq ▸ hx) with hx | hx
      · exact h.reached x hx
      · exact List.mem_singleton.mp hx ▸ hG

theorem CaughtUp.breaks {a : FollowerAction ν} (h : CaughtUp analyzes (a :: actions) f)
    (hG : ¬ f.CommitReached analyzes a) (hstep : f.step a = some f') : ¬ f'.CatchesUp analyzes := by
  cases a with
  | call c => exact absurd trivial hG
  | apply r =>
    obtain rfl := Option.some.inj hstep
    cases r with
    | commit c =>
      have hne : c ≠ 0 := by
        rintro rfl
        exact hG (UInt64.le_iff_toNat_le.mpr (Nat.zero_le _))
      rw [catchesUp_iff (h.sound.apply (r := .commit c) trivial)]
      intro hle
      apply hG
      apply hle c
      simp [ReplEngine.applyReplicationRecord, ReplEngine.markCommitted, hne]
    | _ => exact absurd trivial hG

/-- In every run whose rows the tables may take, queries read at or above every applied commit, and
find its rows, exactly when each Commit record arrives after the counter has reached it. -/
theorem catchesUp_throughout_iff (analyzes : Bool) (hsound : f.engine.Sound)
    (hreached : ∀ c ∈ f.engine.commitLog, c ≤ f.nextSnapshot analyzes)
    (hroom : f.manager.nextTs.toNat + actions.length + 1 < 2 ^ 64)
    (hrows : Guarded step RowsFit f actions) (hrun : run step f actions = some f') :
    Throughout step (CatchesUp analyzes) f actions ↔ Guarded step (CommitReached analyzes) f actions :=
  throughout_iff_guarded_of_rest (J := CaughtUp analyzes) (fun _ _ _ _ h hG hs => h.step hG hs)
    (fun _ _ h => (catchesUp_iff h.sound).mpr h.reached) (fun _ _ _ _ h hG hs => h.breaks hG hs)
    ⟨hsound, hreached, hroom, hrows⟩ hrun

end Runs

section Sample

def oneCommit : List (FollowerAction Unit) :=
  [.apply (.createTable () [SqlTable.intColumn true] (SqlTable.oneColumn_ne true)), .apply (.applyRow () ⟨[.int 1]⟩ 5),
    .apply (.commit 5)]

/-- A replica without tables whose counter stands at a timestamp. -/
def atTs (ts : UInt64) : Follower Unit := ⟨⟨fun _ => none, []⟩, { nextTs := ts }⟩

theorem oneCommit_catchesUp : Throughout step (CatchesUp true) (atTs 4) oneCommit := by
  have hrows : Guarded step RowsFit (atTs 4) oneCommit := by
    refine ⟨trivial, fun f hf => ?_⟩
    obtain rfl := Option.some.inj hf
    refine ⟨fun t ht => ?_, fun f hf => ⟨trivial, fun _ _ => trivial⟩⟩
    obtain rfl := Option.some.inj ht
    exact ⟨by decide, by decide, by decide, by decide⟩
  obtain ⟨f, hrun⟩ := Option.isSome_iff_exists.mp
    (show (run step (atTs 4) oneCommit).isSome = true by decide)
  apply (catchesUp_throughout_iff true nofun (fun _ hc => absurd hc List.not_mem_nil) (by decide)
    hrows hrun).mpr
  refine ⟨trivial, fun f hf => ⟨trivial, fun f' hf' => ⟨?_, fun _ _ => trivial⟩⟩⟩
  obtain rfl := Option.some.inj hf
  obtain rfl := Option.some.inj hf'
  exact le_refl (5 : UInt64)

/-- A replica whose counter stands at 1 has applied the commit 5; a query takes a timestamp for
`maybe_auto_analyze`, reads at 2 and does not see the row. -/
theorem query_below_applied_commit :
    (run step (atTs 1) oneCommit).map (fun f => (f.engine.commitLog, f.selectSnapshot true {},
      (f.engine.tables ()).map (·.scanVisible (f.selectSnapshot true {})))) =
      some ([5], 2, some []) := by
  decide

end Sample

end Follower

end CoroDB
