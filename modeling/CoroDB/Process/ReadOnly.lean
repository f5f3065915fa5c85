import CoroDB.Process.Moves

/-!
# Read-only processors

A processor of a replica refuses the statements that change data.
-/

namespace CoroDB

open Framework

variable {ν ι : Type} [DecidableEq ν]

/-- A session that has nothing to write, and whose transaction has nothing to go back to. -/
structure Session.Unwritten (s : Session ν) : Prop where
  buffer : s.writeBuffer.entries = []
  buffers : s.inTransaction = true → ∀ b ∈ s.buffers, b.entries = []

def Database.Unwritten (db : Database ν ι) : Prop := ∀ j, (db.sessions j).Unwritten

/-- The same tables, catalog and indexes, and no new writes of any session. -/
structure Processor.Kept (P P' : Processor ν ι) : Prop where
  tables : P'.db.tables = P.db.tables
  catalog : P'.catalog = P.catalog
  indexes : P'.indexes = P.indexes
  readOnly : P'.readOnly = P.readOnly
  unwritten : P.db.Unwritten → P'.db.Unwritten

namespace Processor

variable {P P' P'' : Processor ν ι}

theorem Kept.refl (P : Processor ν ι) : P.Kept P := ⟨rfl, rfl, rfl, rfl, id⟩

theorem Kept.trans (h : P.Kept P') (h' : P'.Kept P'') : P.Kept P'' where
  tables := h'.tables.trans h.tables
  catalog := h'.catalog.trans h.catalog
  indexes := h'.indexes.trans h.indexes
  readOnly := h'.readOnly.trans h.readOnly
  unwritten hw := h'.unwritten (h.unwritten hw)

section Components

variable [DecidableEq ι] {i : ι} {env : Environment ν}

theorem unwritten_setSession {db : Database ν ι} {s : Session ν} {j : ι} (hs : j = i → s.Unwritten)
    (h : (db.sessions j).Unwritten) : ((db.setSession i s).sessions j).Unwritten := by
  by_cases hj : j = i
  · rw [hj, Database.setSession_sessions_self]
    exact hs hj
  · rw [Database.setSession_sessions_of_ne hj]
    exact h

theorem unwritten_within {s s' : Session ν} (h : s.Unwritten) (hs : s.Within s') :
    s'.Unwritten := by
  have hin : s'.inTransaction = s.inTransaction := by
    rw [Session.inTransaction, hs.txnId, Session.inTransaction]
  refine ⟨?_, fun hi b hb => h.buffers (hin ▸ hi) b (hs.buffers b hb)⟩
  cases hi : s.inTransaction with
  | true => exact h.buffers hi _ (hs.buffers _ List.mem_cons_self)
  | false => exact hs.idle hi ▸ h.buffer

theorem unwritten_move {j : ι} (h : Move i false P P') (hj : (P.db.sessions j).Unwritten) :
    (P'.db.sessions j).Unwritten := by
  cases h with
  | notes stats stmts texts users login => exact hj
  | reads s m hs htxns hid =>
    apply unwritten_setSession (fun hji => ?_) hj
    rw [hji] at hj
    exact unwritten_within hj hs
  | fail =>
    rw [markFailed, Database.markFailed]
    split_ifs <;> exact hj
  | write isSelect plan r hw hplan hr => cases hw
  | utility d P' hw h => cases hw
  | files tables hw => cases hw

theorem kept_of_move (h : Move i false P P') : P.Kept P' := by
  have hunwritten : P.db.Unwritten → P'.db.Unwritten := fun hw j => unwritten_move h (hw j)
  cases h with
  | notes stats stmts texts users login => exact ⟨rfl, rfl, rfl, rfl, hunwritten⟩
  | reads s m hs htxns hid => exact ⟨rfl, rfl, rfl, rfl, hunwritten⟩
  | fail =>
    refine ⟨?_, rfl, rfl, rfl, hunwritten⟩
    rw [markFailed, Database.markFailed]
    split_ifs <;> rfl
  | write isSelect plan r hw hplan hr => cases hw
  | utility d P' hw h => cases hw
  | files tables hw => cases hw

theorem kept_of_moves (h : Moves i false P P') : P.Kept P' := by
  induction h with
  | refl => exact .refl P
  | tail _ hmove ih => exact ih.trans (kept_of_move hmove)

theorem unwritten_moves {j : ι} (h : Moves i false P P') (hj : (P.db.sessions j).Unwritten) :
    (P'.db.sessions j).Unwritten := by
  induction h with
  | refl => exact hj
  | tail _ hmove ih => exact unwritten_move hmove ih

theorem control_unwritten (hw : (P.db.sessions i).Unwritten) (c : TxnControl) :
    (P.control i c).1.db.tables = P.db.tables ∧
      ∀ j, (P.db.sessions j).Unwritten → ((P.control i c).1.db.sessions j).Unwritten := by
  obtain ⟨q, hq, hm⟩ := Database.exists_exec_handle P.db i c
  generalize hr : P.db.handle i c = r at hq
  rw [control, hr]
  have hidle {s : Session ν} (h : s.inTransaction = false) (hb : s.writeBuffer.entries = []) :
      s.Unwritten := ⟨hb, fun hin => absurd (h.symm.trans hin) (by simp)⟩
  obtain ⟨db', out⟩ := r
  rcases Database.exec_transition hq with ⟨s, m, _, hs, -⟩ | ⟨snapshot, -, hin, -⟩ |
    ⟨m, savepoints, _, -, -, -⟩ | ⟨ts, m, -, -, -, -⟩ | ⟨table, r, s, m, -, -, hdml, -⟩ |
    ⟨table, r, s, -, hdml, -⟩
  · exact ⟨rfl, fun j hj => unwritten_setSession (fun _ => unwritten_within hw hs) hj⟩
  · refine ⟨rfl, fun j hj => unwritten_setSession (fun _ => ⟨hw.buffer, ?_⟩) hj⟩
    intro _ b hb
    obtain rfl := List.mem_singleton.mp hb
    exact hw.buffer
  · exact ⟨rfl, fun j hj => unwritten_setSession (fun _ => hidle rfl rfl) hj⟩
  · refine ⟨?_, fun j hj => unwritten_setSession (fun _ => hidle rfl rfl) hj⟩
    change applyBuffer _ _ _ = _
    rw [applyBuffer, hw.buffer]
    rfl
  · cases hdml <;> cases hm
  · cases hdml <;> cases hm

theorem kept_control (hw : P.db.Unwritten) (c : TxnControl) : P.Kept (P.control i c).1 :=
  have h := control_unwritten (hw i) c
  ⟨h.1, rfl, rfl, rfl, fun hw j => h.2 j (hw j)⟩

end Components

section Run

variable [DecidableEq ι] (env : Environment ν)

/-- The text comes to a `CHECKPOINT`. -/
def isCheckpoint (fuel : Nat) (P : Processor ν ι) (i : ι) (sql : Bytes) : Bool :=
  match P.resolve env i fuel sql with
  | some (.ok .checkpoint) => true
  | _ => false

/-- A `CHECKPOINT` would compact no table. -/
def FlushesOnly (P : Processor ν ι) : Prop :=
  ∀ n ∈ P.catalog, (P.db.tables n).Stored ∧ Ordered (P.db.tables n).versions ∧
    l0Full (env.lsm (P.db.tables n).columns) (P.db.tables n).flushed.files = false

instance FlushesOnly.decidable (P : Processor ν ι) : Decidable (P.FlushesOnly env) :=
  inferInstanceAs (Decidable (∀ n ∈ P.catalog, _ ∧ _ ∧ _ = false))

/-- The text is an `EXECUTE` of a plan that writes, or an `EXECUTE` with parameters of a text that
is one. -/
def executesWrite : Nat → Processor ν ι → ι → Bytes → Bool
  | 0, _, _, _ => false
  | fuel + 1, P, i, sql =>
    match env.parse sql with
    | some (.execute name params) =>
      match P.preparedSql i name with
      | none => (P.preparedStmts i name).any Plan.isWrite
      | some template =>
        match splice env.doubleText template params with
        | none => false
        | some sql => executesWrite fuel P i sql
    | _ => false

variable {env}

omit [DecidableEq ι] in
theorem changesData_of_refusal {i : ι} {a : Ast ν} (hro : P.readOnly = true)
    (h : P.refusal i a = none) : a.changesData = false := by
  by_contra hc
  have hguard : (P.readOnly && a.changesData) = true := by simpa [hro] using hc
  rw [refusal.eq_def, if_pos hguard] at h
  cases h

omit [DecidableEq ι] in
theorem executesWrite_of_resolve {fuel : Nat} {i : ι} {sql : Bytes} {name : String}
    {params : List Value} (hx : executesWrite env fuel P i sql = false)
    (h : P.resolve env i fuel sql = some (.ok (.execute name params))) :
    (P.preparedStmts i name).any Plan.isWrite = false := by
  induction fuel generalizing sql with
  | zero => cases h
  | succ fuel ih =>
    rw [executesWrite] at hx
    rw [resolve] at h
    cases hparse : env.parse sql with
    | none =>
      rw [hparse] at h
      cases h
    | some a =>
      rw [hparse] at h hx
      dsimp only at h hx
      split at h
      · cases h
      · split at h
        · rename_i name' params' _
          dsimp only at hx
          cases htext : P.preparedSql i name' with
          | none =>
            rw [htext] at h hx
            obtain ⟨rfl, -⟩ := Ast.execute.inj (Except.ok.inj (Option.some.inj h))
            exact hx
          | some template =>
            rw [htext] at h hx
            dsimp only at h hx
            cases hsplice : splice env.doubleText template params' with
            | none =>
              rw [hsplice] at h
              cases h
            | some sql =>
              rw [hsplice] at h hx
              exact ih hx h
        · rename_i hnot
          exact absurd (Except.ok.inj (Option.some.inj h)) (hnot name params)

/-- What clients see of the data: the tables, their columns and indexes, and their rows at every
snapshot. -/
structure SameData (P P' : Processor ν ι) : Prop where
  catalog : P'.catalog = P.catalog
  columns : ∀ t, (P'.db.tables t).columns = (P.db.tables t).columns
  indexes : ∀ t, P'.indexes t = P.indexes t
  rows : ∀ t snapshot, (P'.db.tables t).scanVisible snapshot = (P.db.tables t).scanVisible snapshot

omit [DecidableEq ι] in
theorem SameData.trans (h : P.SameData P') (h' : P'.SameData P'') : P.SameData P'' where
  catalog := h'.catalog.trans h.catalog
  columns t := (h'.columns t).trans (h.columns t)
  indexes t := (h'.indexes t).trans (h.indexes t)
  rows t snapshot := (h'.rows t snapshot).trans (h.rows t snapshot)

omit [DecidableEq ι] in
theorem Kept.sameData (h : P.Kept P') : P.SameData P' where
  catalog := h.catalog
  columns t := by rw [h.tables]
  indexes t := by rw [h.indexes]
  rows t snapshot := by rw [h.tables]

section Checkpoint

variable {cfg : LsmConfig} {pool : Bool} {gcHorizon : UInt64} {t : SqlTable}

omit [DecidableEq ν] [DecidableEq ι] in
theorem checkpointed_eq (h : l0Full cfg t.flushed.files = false) :
    t.checkpointed cfg pool gcHorizon = some t.flushed := by
  have hcompacted : t.flushed.compacted cfg gcHorizon = some t.flushed := by
    rw [SqlTable.compacted, compactLevels, if_neg (by simp [h])]
    rfl
  rw [SqlTable.checkpointed, hcompacted, ite_self, Option.bind_some, hcompacted]

theorem flushed_flushed (t : SqlTable) : t.flushed.flushed = t.flushed := by
  by_cases ht : t.memtable = []
  · have hflushed : t.flushed = t := if_pos ht
    rw [hflushed, hflushed]
  · have hflushed : t.flushed = t.flush := if_neg ht
    rw [hflushed]
    exact if_pos rfl

theorem flushed_same (h : t.Sound) : t.flushed.Sound ∧ t.flushed.columns = t.columns ∧
    ∀ s, t.flushed.scanVisible s = t.scanVisible s := by
  rw [SqlTable.flushed]
  split_ifs
  · exact ⟨h, rfl, fun _ => rfl⟩
  · exact ⟨h.flush, rfl, h.scanVisible_flush⟩

theorem checkpointAll_same {names : List ν} {tables tables' : ν → SqlTable}
    (h : ∀ n ∈ names, (tables n).Sound ∧
      l0Full (env.lsm (tables n).columns) (tables n).flushed.files = false)
    (heq : checkpointAll env gcHorizon names tables = some tables') (m : ν) :
    (tables' m).columns = (tables m).columns ∧
      ∀ s, (tables' m).scanVisible s = (tables m).scanVisible s := by
  induction names generalizing tables with
  | nil =>
    obtain rfl := Option.some.inj heq
    exact ⟨rfl, fun _ => rfl⟩
  | cons n names ih =>
    obtain ⟨hsound, hfull⟩ := h n List.mem_cons_self
    obtain ⟨hflushed, hcolumns, hrows⟩ := flushed_same hsound
    rw [checkpointAll, checkpointed_eq hfull, Option.bind_some] at heq
    have hrest : ∀ k ∈ names, (Function.update tables n (tables n).flushed k).Sound ∧
        l0Full (env.lsm (Function.update tables n (tables n).flushed k).columns)
          (Function.update tables n (tables n).flushed k).flushed.files = false := by
      intro k hk
      by_cases hkn : k = n
      · rw [hkn, Function.update_self, flushed_flushed, hcolumns]
        exact ⟨hflushed, hfull⟩
      · rw [Function.update_of_ne hkn]
        exact h k (List.mem_cons_of_mem n hk)
    obtain ⟨hcolumns', hrows'⟩ := ih hrest heq
    by_cases hmn : m = n
    · subst hmn
      rw [Function.update_self] at hcolumns' hrows'
      exact ⟨hcolumns'.trans hcolumns, fun s => (hrows' s).trans (hrows s)⟩
    · rw [Function.update_of_ne hmn] at hcolumns' hrows'
      exact ⟨hcolumns', hrows'⟩

omit [DecidableEq ι] in
theorem sameData_checkpoint (hflush : P.FlushesOnly env) (h : P.checkpoint env = some P') :
    P.SameData P' := by
  obtain ⟨tables, htables, rfl⟩ := Option.map_eq_some_iff.mp h
  have hsame := checkpointAll_same (fun n hn =>
    ⟨(hflush n hn).1.sound (hflush n hn).2.1, (hflush n hn).2.2⟩) htables
  exact ⟨rfl, fun t => (hsame t).1, fun _ => rfl, fun t => (hsame t).2⟩

end Checkpoint

/-- A replica that shows the data of `P` and has nothing to write. -/
structure Shows (P P' : Processor ν ι) : Prop where
  data : P.SameData P'
  readOnly : P'.readOnly = true
  unwritten : P'.db.Unwritten

/-- What clients of a replica may send: no `EXECUTE` that reaches a plan that writes, and a
`CHECKPOINT` only while it compacts no table. -/
def Harmless (env : Environment ν) (fuel : Nat) (P : Processor ν ι) (a : ι × Bytes) : Prop :=
  executesWrite env fuel P a.1 a.2 = false ∧
    (isCheckpoint env fuel P a.1 a.2 = true → P.FlushesOnly env)

instance Harmless.decidable (fuel : Nat) (P : Processor ν ι) (a : ι × Bytes) :
    Decidable (P.Harmless env fuel a) :=
  inferInstanceAs (Decidable (_ ∧ (_ → _)))

def step (env : Environment ν) (fuel : Nat) (P : Processor ν ι) (a : ι × Bytes) :
    Option (Processor ν ι) :=
  (P.run env fuel a.1 a.2).map Prod.fst

theorem Shows.step {fuel : Nat} {a : ι × Bytes} (hP : P.Shows P') (ha : P'.Harmless env fuel a)
    (h : P'.step env fuel a = some P'') : P.Shows P'' := by
  have hkept (hkept : P'.Kept P'') : P.Shows P'' :=
    ⟨hP.data.trans hkept.sameData, hkept.readOnly.trans hP.readOnly, hkept.unwritten hP.unwritten⟩
  obtain ⟨⟨Q, reply⟩, hrun, rfl⟩ := Option.map_eq_some_iff.mp h
  rcases run_cases_of_resolve hrun with ⟨e, -, rfl, -⟩ | ⟨q, hr, hq⟩
  · exact hP
  · have hchanges := changesData_of_refusal hP.readOnly (refusal_of_resolve hr)
    by_cases hcontrol : ∃ c, q = .control c
    · obtain ⟨c, rfl⟩ := hcontrol
      obtain ⟨rfl, -⟩ := Prod.mk.inj (Option.some.inj hq)
      exact hkept (kept_control hP.unwritten c)
    · by_cases hcheckpoint : q = .checkpoint
      · rw [hcheckpoint] at hr hq
        obtain ⟨Q, hQ, heq⟩ := Option.map_eq_some_iff.mp hq
        obtain ⟨rfl, -⟩ := Prod.mk.inj heq
        have hflush : P'.FlushesOnly env := ha.2 (by rw [isCheckpoint, hr])
        have hdata := hP.data.trans (sameData_checkpoint hflush hQ)
        obtain ⟨tables, -, rfl⟩ := Option.map_eq_some_iff.mp hQ
        exact ⟨hdata, hP.readOnly, hP.unwritten⟩
      · apply hkept
        apply kept_of_moves (i := a.1)
        apply moves_dispatch (fun c hc => hcontrol ⟨c, hc⟩) (fun hc => ?_)
          (fun hc => absurd hc hcheckpoint) (fun name params hn hp => ?_) hq
        · rw [hchanges] at hc
          cases hc
        · subst hn
          rw [executesWrite_of_resolve ha.1 hr] at hp
          cases hp

/-- The clients of a read-only processor do not change the data while no `EXECUTE` reaches a plan
that writes and no `CHECKPOINT` compacts a table. -/
theorem sameData_throughout (fuel : Nat) {as : List (ι × Bytes)} (hro : P.readOnly = true)
    (hw : P.db.Unwritten) (hg : Guarded (step env fuel) (Harmless env fuel) P as) :
    Throughout (step env fuel) (SameData P) P as := by
  have hstart : P.Shows P := ⟨(Kept.refl P).sameData, hro, hw⟩
  have hshows : Throughout (step env fuel) P.Shows P as :=
    hg.throughout (fun Q a Q' hQ ha hstep => hQ.step ha hstep) hstart
  exact hshows.mono fun Q hQ => hQ.data

end Run

end Processor

section Sample

open Ascii

def replicaTexts : List (Bytes × Ast Unit) :=
  [(ascii "INSERT INTO t VALUES (1, 7)", .insert (.onTable ⟨(), [0, 1], [[.int 1, .int 7]]⟩)),
    (ascii "SELECT * FROM t", .select (.onTable ⟨[()], fun rows => .ok rows.flatten⟩)),
    (ascii "PREPARE p FROM 'INSERT INTO t VALUES (1, 7)'",
      .prepare "p" (ascii "INSERT INTO t VALUES (1, 7)")),
    (ascii "PREPARE q FROM 'SELECT * FROM t'", .prepare "q" (ascii "SELECT * FROM t")),
    (ascii "EXECUTE p", .execute "p" []), (ascii "EXECUTE q", .execute "q" []),
    (ascii "BEGIN", .control .begin), (ascii "COMMIT", .control .commit),
    (ascii "CHECKPOINT", .checkpoint)]

def replicaQueries : List (Unit × Bytes) :=
  [((), ascii "BEGIN"), ((), ascii "PREPARE q FROM 'SELECT * FROM t'"), ((), ascii "EXECUTE q"),
    ((), ascii "INSERT INTO t VALUES (1, 7)"), ((), ascii "COMMIT"), ((), ascii "CHECKPOINT")]

theorem replicaQueries_sameData :
    Throughout (Processor.step (.ofTexts replicaTexts) 2) (Processor.SameData (.sample true))
      (.sample true) replicaQueries := by
  apply Processor.sameData_throughout 2 rfl
  · exact fun _ => ⟨rfl, fun hin => by cases hin⟩
  · decide +kernel

def Processor.replica : Processor Unit Unit :=
  { Processor.sample true with
    db := { Database.fresh fun _ => SqlTable.accounts.puts
        [⟨.int 1, ⟨[.int 1, .int 10]⟩, false, 1⟩, ⟨.int 1, ⟨[.int 1, .int 20]⟩, false, 3⟩] with
      txnManager := { nextTs := 9 } } }

/-- The `INSERT` is refused, and is run when it has been prepared. A `CHECKPOINT` that compacts a
table drops the version that older snapshots see. -/
theorem replica_changed_by_clients :
    ((Processor.sample true).run (.ofTexts replicaTexts) 2 ()
        (ascii "INSERT INTO t VALUES (1, 7)")).map Prod.snd = some (.error .replica) ∧
      (Framework.run (Processor.step (.ofTexts replicaTexts) 2) (.sample true)
        [((), ascii "PREPARE p FROM 'INSERT INTO t VALUES (1, 7)'"), ((), ascii "EXECUTE p")]).map
          (fun P => (P.db.tables ()).scanVisible maxTs) = some [⟨[.int 1, .int 7]⟩] ∧
      ((Processor.sample true).db.tables ()).scanVisible maxTs = [] ∧
      (Framework.run (Processor.step { Environment.ofTexts replicaTexts with
        lsm := fun columns => ⟨columns, 4096, 2⟩ } 1) .replica [((), ascii "CHECKPOINT")]).map
          (fun P => (P.db.tables ()).scanVisible 2) = some [] ∧
      (Processor.replica.db.tables ()).scanVisible 2 = [⟨[.int 1, .int 10]⟩] := by
  decide +kernel

end Sample

end CoroDB
