import CoroDB.Framework.Lag
import CoroDB.Replication.Store

/-!
# Convergence of a replica

The primary changes its tables and sends a record of each change to the replica that is connected at
that moment.
-/

namespace CoroDB

open Framework

variable {ν : Type} [DecidableEq ν]

/-- The primary's change that a record describes, none where the primary refuses it or sends no
record. -/
def ReplEngine.perform (e : ReplEngine ν) : ReplicationRecord ν → Option (ReplEngine ν)
  | .createTable table columns h =>
    if (e.tables table).isSome then none else some (e.setTable table (some (.fresh columns h)))
  | .dropTable table => if (e.tables table).isSome then some (e.setTable table none) else none
  | .applyRow table row commitTs =>
    (e.tables table).map fun t => e.setTable table (some (t.appendRow row commitTs))
  | .applyDelete table key commitTs =>
    (e.tables table).map fun t => e.setTable table (some (t.deleteRowByKey key commitTs))
  | .commit commitTs => if commitTs = 0 then none else some (e.markCommitted commitTs)

theorem ReplEngine.apply_of_perform {e e' : ReplEngine ν} {r : ReplicationRecord ν}
    (h : e.perform r = some e') : e.applyReplicationRecord r = (true, e') := by
  cases r with
  | createTable table columns hne =>
    rw [perform] at h
    split_ifs at h with ht
    rw [applyReplicationRecord, if_neg ht, Option.some.inj h]
  | dropTable table =>
    rw [perform] at h
    split_ifs at h with ht
    rw [applyReplicationRecord, if_pos ht, Option.some.inj h]
  | commit commitTs =>
    rw [perform] at h
    split_ifs at h
    rw [applyReplicationRecord, Option.some.inj h]
  | applyRow table row commitTs =>
    obtain ⟨t, ht, rfl⟩ := Option.map_eq_some_iff.mp h
    simp only [applyReplicationRecord, ht]
  | applyDelete table key commitTs =>
    obtain ⟨t, ht, rfl⟩ := Option.map_eq_some_iff.mp h
    simp only [applyReplicationRecord, ht]

/-- Primary and replica: the replica's catalog, the frames on the way to it while it is connected,
its transaction manager, the timestamps of rows it has applied without their commit, and those among
them that a session of the replica has read. -/
structure ReplState (ν : Type) where
  primary : ReplEngine ν
  follower : ReplEngine ν
  catalog : ν → Option (List Column)
  link : Option (List (ReplicationRecord ν)) := none
  manager : TransactionManager := {}
  unsealed : List UInt64 := []
  shown : List UInt64 := []

/-- What happens on either node; in `scan` a session of the replica reads a table. -/
inductive ReplAction (ν : Type) [DecidableEq ν] where
  | perform (r : ReplicationRecord ν)
  | flushPrimary (table : ν)
  | flushFollower (table : ν)
  | connect
  | disconnect
  | deliver
  | call (c : TxnCall)
  | scan (s : Session ν)

namespace ReplState

def reloadCatalog (catalog : ν → Option (List Column)) (e : ReplEngine ν) : ν → Option (List Column) :=
  fun n => (catalog n).or ((e.tables n).map (·.columns))

def catalogAfter (catalog : ν → Option (List Column)) (e : ReplEngine ν) :
    ReplicationRecord ν → ν → Option (List Column)
  | .createTable .. => reloadCatalog catalog e
  | .dropTable .. => reloadCatalog catalog e
  | _ => catalog

def rowTs : ReplicationRecord ν → Option UInt64
  | .applyRow _ _ commitTs => if commitTs = 0 then none else some commitTs
  | .applyDelete _ _ commitTs => if commitTs = 0 then none else some commitTs
  | _ => none

def unsealedAfter (unsealed : List UInt64) (r : ReplicationRecord ν) : List UInt64 :=
  match r with
  | .commit commitTs => unsealed.filter (· ≠ commitTs)
  | r => (rowTs r).toList ++ unsealed

/-- The snapshot of a session is none, the latest versions, or one that the manager has handed out. -/
def Holds (st : ReplState ν) (s : Session ν) : Prop :=
  s.snapshotTs = 0 ∨ s.snapshotTs = maxTs ∨ s.snapshotTs < st.manager.nextTs

instance Holds.decidable (st : ReplState ν) (s : Session ν) : Decidable (st.Holds s) :=
  inferInstanceAs (Decidable (_ ∨ _ ∨ _))

def step (st : ReplState ν) : ReplAction ν → Option (ReplState ν)
  | .perform r => (st.primary.perform r).map fun primary =>
    { st with primary := primary, link := st.link.map (· ++ [r]) }
  | .flushPrimary table => some { st with primary := st.primary.flush table }
  | .flushFollower table => some { st with follower := st.follower.flush table }
  | .connect => if st.link = none then some { st with link := some [] } else none
  | .disconnect => some { st with link := none }
  | .deliver =>
    match st.link with
    | some (r :: queue) =>
      let follower := (st.follower.applyReplicationRecord r).2
      some { st with
        follower := follower
        catalog := catalogAfter st.catalog follower r
        link := some queue
        unsealed := unsealedAfter st.unsealed r }
    | _ => none
  | .call c => some { st with manager := (st.manager.call c).2 }
  | .scan s =>
    if st.Holds s then
      some { st with shown := st.shown ++ st.unsealed.filter (· ≤ s.readSnapshot) }
    else none

/-- When everything sent has been applied, the replica has the primary's tables, knows their columns,
and answers every scan as the primary does. -/
def Converged (st : ReplState ν) : Prop :=
  st.link = some [] → ∀ n,
    (∀ t, st.primary.tables n = some t → st.catalog n = some t.columns ∧
      ∃ t', st.follower.tables n = some t' ∧ ∀ s, t'.scanVisible s = t.scanVisible s) ∧
    (st.primary.tables n = none → st.follower.tables n = none)

/-- No session of the replica has had a row version in its snapshot whose commit was still to come. -/
def UnsealedHidden (st : ReplState ν) : Prop := st.shown = []

def takesTs : TxnCall → Bool
  | .begin => true
  | .commit _ => true
  | .allocateTs => true
  | _ => false

/-- A change of the primary is one its content may take, with the schema of the table's name, and the
replica is connected; a connection drops when nothing is on the way; rows arrive above the replica's
counter, which does not reach them before their commit; and while a row waits for its commit no
session reads the latest versions. -/
def Kept (schemas : ν → List Column) (st : ReplState ν) : ReplAction ν → Prop
  | .perform r => VersionStore.Ok schemas st.primary.content r ∧ st.link ≠ none
  | .disconnect => st.link.getD [] = []
  | .deliver => ∀ r queue, st.link = some (r :: queue) → ∀ c ∈ rowTs r, st.manager.nextTs < c
  | .call c => takesTs c = true → ∀ x ∈ st.unsealed, st.manager.nextTs.toNat + 1 < x.toNat
  | .scan s => s.readSnapshot = maxTs → st.unsealed = []
  | _ => True

/-- The replica starts from a copy of the primary. -/
structure Copied (schemas : ν → List Column) (st : ReplState ν) : Prop where
  primarySound : st.primary.Sound
  followerSound : st.follower.Sound
  content : st.follower.content = st.primary.content
  schema : ∀ n t, st.follower.tables n = some t → t.columns = schemas n
  catalog : ∀ n, st.catalog n = (st.follower.tables n).map (·.columns)
  link : st.link.getD [] = []
  unsealed : st.unsealed = []
  shown : st.shown = []

/-- The replica lags behind the primary by the frames on the way. -/
structure Synced (schemas : ν → List Column) (st : ReplState ν) : Prop where
  primarySound : st.primary.Sound
  followerSound : st.follower.Sound
  lag : Lags VersionStore.apply (VersionStore.Ok schemas) st.follower.content (st.link.getD [])
    st.primary.content
  schema : ∀ n t, st.follower.tables n = some t → t.columns = schemas n
  registered : ∀ n, (st.follower.tables n).isSome = true → (st.catalog n).isSome = true
  catalog : ∀ n columns, st.catalog n = some columns → columns = schemas n
  hidden : ∀ c ∈ st.unsealed, st.manager.nextTs < c
  unsealedHidden : st.UnsealedHidden

section Runs

variable {schemas : ν → List Column} {st st' : ReplState ν}

theorem Copied.synced (h : Copied schemas st) : Synced schemas st := by
  refine ⟨h.primarySound, h.followerSound, ?_, h.schema, fun n hn => ?_, fun n columns hc => ?_, ?_,
    h.shown⟩
  · rw [h.link]
    exact h.content
  · rwa [h.catalog, Option.isSome_map]
  · rw [h.catalog] at hc
    obtain ⟨t, ht, rfl⟩ := Option.map_eq_some_iff.mp hc
    exact h.schema n t ht
  · rw [h.unsealed]
    exact fun c hc => absurd hc List.not_mem_nil

theorem Synced.converged (h : Synced schemas st) : st.Converged := by
  intro hlink n
  have hcontent : st.primary.content = st.follower.content := by
    have hlag := h.lag
    rw [hlink] at hlag
    exact (show st.follower.content = st.primary.content from hlag).symm
  constructor
  · intro t ht
    obtain ⟨t', ht', hcols, hscan⟩ := h.primarySound.scanVisible_congr h.followerSound hcontent ht
    refine ⟨?_, t', ht', hscan⟩
    obtain ⟨columns, hc⟩ := Option.isSome_iff_exists.mp (h.registered n (by rw [ht']; rfl))
    rw [hc, h.catalog n columns hc, ← hcols, h.schema n t' ht']
  · intro hnone
    have hn := congrFun hcontent n
    rw [ReplEngine.content, ReplEngine.content, hnone] at hn
    exact Option.map_eq_none_iff.mp hn.symm

theorem Synced.scan {s : Session ν} (h : Synced schemas st) (hG : Kept schemas st (.scan s))
    (hstep : st.step (.scan s) = some st') : Synced schemas st' := by
  rw [ReplState.step] at hstep
  split_ifs at hstep with hholds
  obtain rfl := Option.some.inj hstep
  have hshown : st.unsealed.filter (· ≤ s.readSnapshot) = [] := by
    rw [List.filter_eq_nil_iff]
    intro c hc hle
    have hne : s.readSnapshot ≠ maxTs := fun hmax => by simp [hG hmax] at hc
    have hread : s.readSnapshot = s.snapshotTs := by
      rw [Session.readSnapshot] at hne ⊢
      split_ifs at hne ⊢ <;> simp_all
    rw [hread] at hne hle
    rcases hholds with hzero | hmax | hlt
    · rw [Session.readSnapshot, hzero] at hread
      exact hne (hzero.trans hread.symm)
    · exact hne hmax
    · exact absurd (of_decide_eq_true hle) (not_le.mpr (hlt.trans (h.hidden c hc)))
  refine ⟨h.primarySound, h.followerSound, h.lag, h.schema, h.registered, h.catalog, h.hidden, ?_⟩
  change st.shown ++ _ = []
  rw [hshown, h.unsealedHidden]
  rfl

theorem Synced.perform {r : ReplicationRecord ν} (h : Synced schemas st)
    (hG : Kept schemas st (.perform r)) (hstep : st.step (.perform r) = some st') :
    Synced schemas st' := by
  obtain ⟨primary, hperform, rfl⟩ := Option.map_eq_some_iff.mp hstep
  obtain ⟨queue, hlink⟩ := Option.ne_none_iff_exists'.mp hG.2
  have happly := ReplEngine.apply_of_perform hperform
  have hsound := h.primarySound.apply (h.primarySound.takes_of_ok hG.1)
  have hcontent := h.primarySound.content_apply hG.1
  rw [happly] at hsound hcontent
  refine ⟨hsound, h.followerSound, ?_, h.schema, h.registered, h.catalog, h.hidden,
    h.unsealedHidden⟩
  have hlag := h.lag.append hG.1
  rw [hlink] at hlag
  change Lags _ _ _ ((st.link.map (· ++ [r])).getD []) primary.content
  rw [hlink, hcontent]
  exact hlag

/-- Only the creation of a table makes one exist. -/
theorem isSome_apply (e : ReplEngine ν) (r : ReplicationRecord ν) (catalog : ν → Option (List Column))
    (h : ∀ n, (e.tables n).isSome = true → (catalog n).isSome = true) (n : ν)
    (hn : ((e.applyReplicationRecord r).2.tables n).isSome = true) :
    (catalogAfter catalog (e.applyReplicationRecord r).2 r n).isSome = true := by
  have hreload : ∀ e' : ReplEngine ν, (e'.tables n).isSome = true →
      (reloadCatalog catalog e' n).isSome = true := by
    intro e' he'
    rw [reloadCatalog, Option.isSome_or, Option.isSome_map, he', Bool.or_true]
  have hset : ∀ table t, (e.tables table).isSome = true →
      ((e.setTable table (some t)).tables n).isSome = true → (e.tables n).isSome = true := by
    intro table t ht hset
    by_cases hn : n = table
    · rwa [hn]
    · rwa [ReplEngine.setTable_of_ne hn] at hset
  cases r with
  | createTable table columns hne => exact hreload _ hn
  | dropTable table => exact hreload _ hn
  | commit commitTs =>
    rw [ReplEngine.applyReplicationRecord, ReplEngine.markCommitted] at hn
    split_ifs at hn <;> exact h n hn
  | applyRow table row commitTs =>
    cases ht : e.tables table with
    | none =>
      simp only [ReplEngine.applyReplicationRecord, ht] at hn
      exact h n hn
    | some t =>
      simp only [ReplEngine.applyReplicationRecord, ht] at hn
      exact h n (hset table _ (by rw [ht]; rfl) hn)
  | applyDelete table key commitTs =>
    cases ht : e.tables table with
    | none =>
      simp only [ReplEngine.applyReplicationRecord, ht] at hn
      exact h n hn
    | some t =>
      simp only [ReplEngine.applyReplicationRecord, ht] at hn
      exact h n (hset table _ (by rw [ht]; rfl) hn)

omit [DecidableEq ν] in
theorem mem_unsealedAfter {unsealed : List UInt64} {r : ReplicationRecord ν} {c : UInt64}
    (h : c ∈ unsealedAfter unsealed r) : c ∈ unsealed ∨ c ∈ rowTs r := by
  cases r with
  | commit commitTs => exact .inl (List.mem_of_mem_filter h)
  | createTable table columns hne => exact .inl h
  | dropTable table => exact .inl h
  | applyRow table row commitTs =>
    rcases List.mem_append.mp h with h | h
    · exact .inr (Option.mem_toList.mp h)
    · exact .inl h
  | applyDelete table key commitTs =>
    rcases List.mem_append.mp h with h | h
    · exact .inr (Option.mem_toList.mp h)
    · exact .inl h

theorem Synced.deliver (h : Synced schemas st) (hG : Kept schemas st .deliver)
    (hstep : st.step .deliver = some st') : Synced schemas st' := by
  rw [step.eq_def] at hstep
  dsimp only at hstep
  split at hstep
  · rename_i r queue hlink
    obtain rfl := Option.some.inj hstep
    have hlag := h.lag
    rw [hlink] at hlag
    obtain ⟨hok, hlag⟩ : VersionStore.Ok schemas st.follower.content r ∧ _ := hlag
    have hcontent := h.followerSound.content_apply hok
    have hschema : ∀ n t, (st.follower.applyReplicationRecord r).2.tables n = some t →
        t.columns = schemas n := by
      intro n t ht
      have hc : VersionStore.apply st.follower.content r n =
          some (t.columns, History.ofList t.versions) := by
        rw [← hcontent, ReplEngine.content, ht]
        rfl
      refine VersionStore.apply_columns hok (fun n c hc => ?_) hc
      obtain ⟨t₀, ht₀, rfl⟩ := Option.map_eq_some_iff.mp hc
      exact h.schema n t₀ ht₀
    have hreload : ∀ n columns, reloadCatalog st.catalog (st.follower.applyReplicationRecord r).2 n =
        some columns → columns = schemas n := by
      intro n columns hc
      rcases Option.or_eq_some_iff.mp hc with hc | ⟨-, hc⟩
      · exact h.catalog n columns hc
      · obtain ⟨t, ht, rfl⟩ := Option.map_eq_some_iff.mp hc
        exact hschema n t ht
    refine ⟨h.primarySound, h.followerSound.apply (h.followerSound.takes_of_ok hok), ?_, hschema,
      isSome_apply st.follower r st.catalog h.registered, fun n columns hc => ?_, fun c hc => ?_,
      h.unsealedHidden⟩
    · change Lags _ _ (st.follower.applyReplicationRecord r).2.content queue _
      rw [hcontent]
      exact hlag
    · cases r with
      | createTable table cols hne => exact hreload n columns hc
      | dropTable table => exact hreload n columns hc
      | _ => exact h.catalog n columns hc
    · rcases mem_unsealedAfter hc with hc | hc
      · exact h.hidden c hc
      · exact hG r queue hlink c hc
  · cases hstep

theorem Synced.call {c : TxnCall} (h : Synced schemas st) (hG : Kept schemas st (.call c)) :
    Synced schemas { st with manager := (st.manager.call c).2 } := by
  refine ⟨h.primarySound, h.followerSound, h.lag, h.schema, h.registered, h.catalog, fun x hx => ?_,
    h.unsealedHidden⟩
  change (st.manager.call c).2.nextTs < x
  rcases TransactionManager.call_cases st.manager c with ⟨hts, hnext⟩ | ⟨-, hnext⟩
  · have htakes : takesTs c = true := by
      cases c with
      | begin => rfl
      | commit txnId => rfl
      | allocateTs => rfl
      | rollback txnId => cases hts
      | markFailed txnId => cases hts
      | pruneCommitted => cases hts
    have hlt := hG htakes x hx
    rw [hnext, UInt64.lt_iff_toNat_lt, TransactionManager.toNat_add_one (hlt.trans x.toNat_lt)]
    exact hlt
  · rw [hnext]
    exact h.hidden x hx

theorem Synced.step {a : ReplAction ν} (h : Synced schemas st) (hG : Kept schemas st a)
    (hstep : st.step a = some st') : Synced schemas st' := by
  cases a with
  | perform r => exact h.perform hG hstep
  | deliver => exact h.deliver hG hstep
  | scan s => exact h.scan hG hstep
  | call c =>
    obtain rfl := Option.some.inj hstep
    exact h.call hG
  | flushPrimary table =>
    obtain rfl := Option.some.inj hstep
    obtain ⟨hsound, hcontent⟩ := h.primarySound.flush table
    refine ⟨hsound, h.followerSound, ?_, h.schema, h.registered, h.catalog, h.hidden,
    h.unsealedHidden⟩
    change Lags _ _ _ _ (st.primary.flush table).content
    rw [hcontent]
    exact h.lag
  | flushFollower table =>
    obtain rfl := Option.some.inj hstep
    obtain ⟨hsound, hcontent⟩ := h.followerSound.flush table
    refine ⟨h.primarySound, hsound, ?_, fun n t ht => ?_, fun n hn => ?_, h.catalog, h.hidden,
      h.unsealedHidden⟩
    · change Lags _ _ (st.follower.flush table).content _ _
      rw [hcontent]
      exact h.lag
    · obtain ⟨t₀, ht₀, hcols⟩ := ReplEngine.exists_of_flush ht
      rw [hcols]
      exact h.schema n t₀ ht₀
    · obtain ⟨t, ht⟩ := Option.isSome_iff_exists.mp hn
      obtain ⟨t₀, ht₀, -⟩ := ReplEngine.exists_of_flush ht
      exact h.registered n (by rw [ht₀]; rfl)
  | connect =>
    rw [ReplState.step] at hstep
    split_ifs at hstep with hlink
    obtain rfl := Option.some.inj hstep
    have hlag := h.lag
    rw [hlink] at hlag
    exact ⟨h.primarySound, h.followerSound, hlag, h.schema, h.registered, h.catalog, h.hidden,
    h.unsealedHidden⟩
  | disconnect =>
    obtain rfl := Option.some.inj hstep
    have hlag := h.lag
    rw [show st.link.getD [] = [] from hG] at hlag
    exact ⟨h.primarySound, h.followerSound, hlag, h.schema, h.registered, h.catalog, h.hidden,
    h.unsealedHidden⟩

/-- In every run from a copy of the primary whose steps meet the condition, the replica converges and
hides rows until their commit. -/
theorem converged_throughout {actions : List (ReplAction ν)} (h : Copied schemas st)
    (hguard : Guarded ReplState.step (Kept schemas) st actions) :
    Throughout ReplState.step (fun st => st.Converged ∧ st.UnsealedHidden) st actions := by
  have hinv := hguard.throughout (I := Synced schemas) (fun s a s' h hG hs => h.step hG hs) h.synced
  exact hinv.mono fun s h => ⟨h.converged, h.unsealedHidden⟩

end Runs

section Sample

def emptyPair : ReplState Unit :=
  ⟨⟨fun _ => none, []⟩, ⟨fun _ => none, []⟩, fun _ => none, none, {}, [], []⟩

def oneTable : ReplicationRecord Unit := .createTable () [SqlTable.intColumn true] (SqlTable.oneColumn_ne true)

/-- A table is created and a row committed while the replica is connected, where a query reads at the
replica's first timestamp before the commit arrives. -/
def connectedRun : List (ReplAction Unit) :=
  [.connect, .perform oneTable, .deliver, .call .allocateTs, .perform (.applyRow () ⟨[.int 1]⟩ 5),
    .deliver, .scan { snapshotTs := 1 }, .perform (.commit 5), .deliver, .scan {}]

theorem connectedRun_converged :
    Throughout step (fun st => st.Converged ∧ st.UnsealedHidden) emptyPair connectedRun := by
  have hempty {p : Prop} (t : SqlTable) (ht : (none : Option SqlTable) = some t) : p := by cases ht
  have hcopied : Copied (fun _ => [SqlTable.intColumn true]) emptyPair :=
    ⟨fun _ t ht => hempty t ht, fun _ t ht => hempty t ht, rfl, fun _ t ht => hempty t ht,
      fun _ => rfl, rfl, rfl, rfl⟩
  apply converged_throughout hcopied
  refine ⟨trivial, fun st hst => ?_⟩
  obtain rfl := Option.some.inj hst
  refine ⟨⟨⟨rfl, rfl⟩, Option.some_ne_none _⟩, fun st hst => ?_⟩
  obtain rfl := Option.some.inj hst
  refine ⟨?_, fun st hst => ?_⟩
  · intro r queue hlink
    cases hlink
    intro c hc
    cases hc
  obtain rfl := Option.some.inj hst
  refine ⟨?_, fun st hst => ?_⟩
  · intro _ x hx
    cases hx
  obtain rfl := Option.some.inj hst
  have hfresh {x : Option Row} {p : Prop} (hx : (none : Option (Option Row)) = some x) : p := by
    cases hx
  refine ⟨⟨⟨_, rfl, rfl, rfl, fun _ hx => hfresh hx⟩, Option.some_ne_none _⟩, fun st hst => ?_⟩
  obtain rfl := Option.some.inj hst
  refine ⟨?_, fun st hst => ?_⟩
  · intro r queue hlink
    cases hlink
    intro c hc
    obtain rfl : (5 : UInt64) = c := Option.some.inj hc
    decide
  obtain rfl := Option.some.inj hst
  refine ⟨fun hmax => ?_, fun st hst => ?_⟩
  · cases hmax
  obtain rfl := Option.some.inj hst
  refine ⟨⟨trivial, Option.some_ne_none _⟩, fun st hst => ?_⟩
  obtain rfl := Option.some.inj hst
  refine ⟨?_, fun st hst => ?_⟩
  · intro r queue hlink
    cases hlink
    intro c hc
    cases hc
  obtain rfl := Option.some.inj hst
  exact ⟨fun _ => rfl, fun _ _ => trivial⟩

/-- A table that is created before the replica connects is never sent to it. A replica whose counter
has passed 5 shows a row of transaction 5 before its commit to a query, and the subquery of a query
outside a transaction sees such a row whatever the counter is. -/
theorem record_lost_and_row_shown_early :
    (run step emptyPair [.perform oneTable, .connect]).map (fun st =>
      (st.link.map List.length, (st.primary.tables ()).isSome, (st.follower.tables ()).isSome)) =
      some (some 0, true, false) ∧
    (run step { emptyPair with manager := { nextTs := 7 } } [.connect, .perform oneTable, .deliver,
      .perform (.applyRow () ⟨[.int 1]⟩ 5), .deliver, .call .allocateTs, .scan { snapshotTs := 7 }]).map
      (fun st => (st.follower.commitLog, st.shown,
        (st.follower.tables ()).map (·.scanVisible 7))) = some ([], [5], some [⟨[.int 1]⟩]) ∧
    (run step emptyPair [.connect, .perform oneTable, .deliver,
      .perform (.applyRow () ⟨[.int 1]⟩ 5), .deliver, .scan {}]).map (fun st =>
        (st.follower.commitLog, st.shown, (st.follower.tables ()).map (·.scanVisible maxTs))) =
      some ([], [5], some [⟨[.int 1]⟩]) := by
  decide

end Sample

end ReplState

end CoroDB
