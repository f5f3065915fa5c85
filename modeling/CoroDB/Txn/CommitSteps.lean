import CoroDB.Txn.TxnView
import CoroDB.Txn.StatementSteps

/-!
# COMMIT step by step

COMMIT takes its timestamp first and then applies the writes of the buffer one by one, with no lock
against readers.
-/

namespace CoroDB

open Framework
open TransactionManager (lt_add_one_of_room toNat_add_one)

variable {ν ι : Type} [DecidableEq ν]

section Writes

def TxnWriteBuffer.writes (b : TxnWriteBuffer ν) : List (ν × SqlTable.Write) :=
  b.entries.flatMap fun p => p.2.writes.map (Prod.mk p.1)

def applyPending (ts : UInt64) (tables : ν → SqlTable) (p : ν × SqlTable.Write) : ν → SqlTable :=
  Function.update tables p.1 ((tables p.1).applyWrite ts p.2)

def applyAll (ts : UInt64) (tables : ν → SqlTable) (ws : List (ν × SqlTable.Write)) : ν → SqlTable :=
  ws.foldl (applyPending ts) tables

variable {ts : UInt64} {tables : ν → SqlTable} {ws : List (ν × SqlTable.Write)} {n : ν}

theorem applyAll_apply (ts : UInt64) (tables : ν → SqlTable) (ws : List (ν × SqlTable.Write)) (n : ν) :
    applyAll ts tables ws n =
      (tables n).applyWrites ((ws.filter (·.1 = n)).map Prod.snd) ts := by
  induction ws generalizing tables with
  | nil => rfl
  | cons p ws ih =>
    rw [applyAll, List.foldl_cons, ← applyAll, ih, List.filter_cons, applyPending]
    by_cases hp : p.1 = n
    · subst hp
      rw [Function.update_self, if_pos (by simp)]
      rfl
    · rw [Function.update_of_ne (Ne.symm hp), if_neg (by simpa using hp)]

theorem applyAll_map (ts : UInt64) (tables : ν → SqlTable) (p : ν × TableTxnBuffer) :
    applyAll ts tables (p.2.writes.map (Prod.mk p.1)) = applyTableBuffer ts tables p := by
  funext m
  rw [applyAll_apply, applyTableBuffer]
  by_cases hm : m = p.1
  · subst hm
    rw [Function.update_self, List.filter_eq_self.mpr (by simp), List.map_map]
    exact congrArg (fun ws => (tables p.1).applyWrites ws ts) (List.map_id _)
  · rw [Function.update_of_ne hm, List.filter_eq_nil_iff.mpr]
    · rfl
    · intro q hq
      obtain ⟨w, -, rfl⟩ := List.mem_map.mp hq
      simpa using Ne.symm hm

theorem applyAll_writes (ts : UInt64) (tables : ν → SqlTable) (b : TxnWriteBuffer ν) :
    applyAll ts tables b.writes = applyBuffer tables b ts := by
  rw [TxnWriteBuffer.writes, applyBuffer]
  induction b.entries generalizing tables with
  | nil => rfl
  | cons p entries ih =>
    rw [List.flatMap_cons, applyAll, List.foldl_append, ← applyAll, ← applyAll, applyAll_map, ih]
    rfl

theorem applyAll_append (ts : UInt64) (tables : ν → SqlTable) (ws : List (ν × SqlTable.Write))
    (p : ν × SqlTable.Write) :
    applyAll ts tables (ws ++ [p]) = applyPending ts (applyAll ts tables ws) p :=
  List.foldl_append ..

theorem applyAll_of_rest {rest : List (ν × SqlTable.Write)} (h : ∀ p ∈ rest, p.1 ≠ n) :
    applyAll ts tables (ws ++ rest) n = applyAll ts tables ws n := by
  have hnil : rest.filter (·.1 = n) = [] := List.filter_eq_nil_iff.mpr (by simpa using h)
  rw [applyAll_apply, applyAll_apply, List.filter_append, hnil, List.append_nil]

theorem applyAll_of_unwritten (h : ∀ p ∈ ws, p.1 ≠ n) : applyAll ts tables ws n = tables n := by
  have hnil : ws.filter (·.1 = n) = [] := List.filter_eq_nil_iff.mpr (by simpa using h)
  rw [applyAll_apply, hnil]
  rfl

/-- Every write stores a version that its table may take. -/
def WritesFit (tables : ν → SqlTable) (ws : List (ν × SqlTable.Write)) : Prop :=
  ∀ p ∈ ws, (tables p.1).Fits ((tables p.1).entryOf 0 p.2)

variable (hsound : (tables n).Sound) (hfit : WritesFit tables ws)
  (hpast : ∀ e ∈ (tables n).versions, e.commitTs < ts)

include hfit in
theorem entries_fit : ∀ e ∈ ((ws.filter (·.1 = n)).map Prod.snd).map ((tables n).entryOf ts),
    (tables n).Fits e ∧ e.commitTs = ts := by
  intro e he
  obtain ⟨w, hw, rfl⟩ := List.mem_map.mp he
  obtain ⟨p, hp, rfl⟩ := List.mem_map.mp hw
  obtain ⟨hmem, hn⟩ := List.mem_filter.mp hp
  obtain rfl : p.1 = n := by simpa using hn
  have h := hfit p hmem
  cases hw : p.2 <;> rw [hw] at h <;> exact ⟨⟨h.ordered, h.keyed, h.full⟩, rfl⟩

include hsound hfit hpast

theorem applyAll_sound : (applyAll ts tables ws n).Sound := by
  rw [applyAll_apply, SqlTable.applyWrites_eq]
  exact (hsound.puts (SqlTable.behind_of_lt hpast) (entries_fit hfit)).bumps _

theorem applyAll_scanVisible_maxTs {s : UInt64} (hs : ts ≤ s) :
    (applyAll ts tables ws n).scanVisible maxTs = (applyAll ts tables ws n).scanVisible s := by
  have hsound' := applyAll_sound hsound hfit hpast
  apply hsound'.scanVisible_congr hsound'
  have hview : (tables n).view s = (tables n).view maxTs :=
    SqlTable.view_eq_maxTs fun e he => (hpast e he).le.trans hs
  funext k
  rw [applyAll_apply, SqlTable.applyWrites_eq, SqlTable.bumps_view,
    hsound.view_puts (SqlTable.behind_of_lt hpast) (entries_fit hfit),
    hsound.view_puts (SqlTable.behind_of_lt hpast) (entries_fit hfit), if_pos hs,
    if_pos (ts_le_maxTs ts), hview]

theorem applyAll_scanVisible {s : UInt64} (hs : s < ts) :
    (applyAll ts tables ws n).scanVisible s = (tables n).scanVisible s := by
  apply (applyAll_sound hsound hfit hpast).scanVisible_congr hsound
  funext k
  rw [applyAll_apply, SqlTable.applyWrites_eq, SqlTable.bumps_view,
    hsound.view_puts (SqlTable.behind_of_lt hpast) (entries_fit hfit), if_neg (not_le.mpr hs)]

end Writes

section Machine

/-- How far a COMMIT is: the writes that it has still to apply. -/
inductive CommitPc (ν : Type) where
  | before
  | applying (ts : UInt64) (rest : List (ν × SqlTable.Write))
  | done (ts : UInt64)

def CommitPc.commitTs : CommitPc ν → Option UInt64
  | .before => none
  | .applying ts _ => some ts
  | .done ts => some ts

/-- A COMMIT beside a reader, with the reads of the reader's transaction or query and whether the
query has run subqueries and has no snapshot yet. -/
structure CommitRun (ν ι : Type) [DecidableEq ν] where
  db : Database ν ι
  pc : CommitPc ν
  reads : Option (List (ν × List Row))
  resolving : Bool := false

/-- The steps of the COMMIT and of the reader; in `tick` another statement, or the refresh of
statistics before a query, takes a timestamp. -/
inductive CommitAction (ν : Type) where
  | allocate
  | apply
  | finish
  | tick
  | begin
  | subquery (name : ν)
  | prepare
  | scan (name : ν)

variable [DecidableEq ι]

namespace CommitRun

def allocate (i : ι) (x : CommitRun ν ι) : Option (CommitRun ν ι) :=
  let s := x.db.sessions i
  if s.inTransaction = false ∨ x.db.aborted i ∨ (serializationConflict x.db.tables s).isSome then none
  else
    match x.db.txnManager.commit s.currentTxnId with
    | (none, _) => none
    | (some ts, m) =>
      some { x with db := { x.db with txnManager := m }, pc := .applying ts s.writeBuffer.writes }

def begin (j : ι) (x : CommitRun ν ι) : Option (CommitRun ν ι) :=
  if (x.db.sessions j).inTransaction = false ∧ (x.db.sessions j).isolation = .repeatableRead then
    some { x with db := (x.db.begin j).1, reads := some [], resolving := false }
  else none

def queryReads (j : ι) (x : CommitRun ν ι) : Option (List (ν × List Row)) :=
  if (x.db.sessions j).inTransaction ∨ x.resolving then x.reads else some []

def subquery (j : ι) (x : CommitRun ν ι) (name : ν) : Option (CommitRun ν ι) :=
  let s := x.db.sessions j
  (x.queryReads j).bind fun reads =>
    (s.forSubqueries.seqScan x.db.tables name).map fun r =>
      { x with
        db := x.db.setSession j { r.2 with snapshotTs := s.snapshotTs }
        reads := some (reads ++ [(name, r.1)])
        resolving := !s.inTransaction }

/-- A query outside a transaction takes a snapshot of its own. -/
def prepare (j : ι) (x : CommitRun ν ι) : CommitRun ν ι :=
  let prepared := (x.db.sessions j).prepareForStatement true x.db.txnManager
  { x with
    db := { x.db with txnManager := prepared.2 }.setSession j prepared.1
    reads := x.queryReads j
    resolving := false }

def scan (j : ι) (x : CommitRun ν ι) (name : ν) : Option (CommitRun ν ι) :=
  if x.resolving then none
  else
    x.reads.bind fun reads =>
      ((x.db.sessions j).seqScan x.db.tables name).map fun r =>
        { x with db := x.db.setSession j r.2, reads := some (reads ++ [(name, r.1)]) }

def step (i j : ι) (x : CommitRun ν ι) (a : CommitAction ν) : Option (CommitRun ν ι) :=
  match a, x.pc with
  | .allocate, .before => x.allocate i
  | .apply, .applying ts (p :: rest) =>
    some { x with
      db := { x.db with tables := applyPending ts x.db.tables p }, pc := .applying ts rest }
  | .finish, .applying ts [] =>
    some { x with
      db := x.db.abandon i x.db.txnManager { (x.db.sessions i).ended with savepoints := [] }
      pc := .done ts }
  | .tick, _ => some { x with db := { x.db with txnManager := x.db.txnManager.allocateTs.2 } }
  | .begin, _ => x.begin j
  | .subquery name, _ => x.subquery j name
  | .prepare, _ => some (x.prepare j)
  | .scan name, _ => x.scan j name
  | _, _ => none

/-- The steps of a COMMIT in a row are the COMMIT. -/
theorem run_commit {i j : ι} {db db' : Database ν ι} {out : List (List Row)}
    (h : db.commit i = (db', .ok out)) (reads : Option (List (ν × List Row))) :
    ∃ ts, run (step i j) ⟨db, .before, reads, false⟩ (.allocate ::
        (List.replicate (db.sessions i).writeBuffer.writes.length .apply ++ [.finish])) =
      some ⟨db', .done ts, reads, false⟩ := by
  have happlies : ∀ (ws : List (ν × SqlTable.Write)) (ts : UInt64) (db₁ : Database ν ι),
      run (step i j) ⟨db₁, .applying ts ws, reads, false⟩
          (List.replicate ws.length CommitAction.apply ++ [.finish]) =
        some ⟨{ db₁.abandon i db₁.txnManager { (db₁.sessions i).ended with savepoints := [] } with
          tables := applyAll ts db₁.tables ws }, .done ts, reads, false⟩ := by
    intro ws ts
    induction ws with
    | nil => exact fun _ => rfl
    | cons p ws ih => exact fun db₁ => ih { db₁ with tables := applyPending ts db₁.tables p }
  rw [Database.commit] at h
  split_ifs at h with hidle haborted
  · cases h
  · cases h
  · split at h
    · cases h
    · rename_i hconflict
      split at h
      · cases h
      · rename_i ts m hcommit
        obtain ⟨rfl, -⟩ := Prod.mk.inj h
        have halloc : (⟨db, .before, reads, false⟩ : CommitRun ν ι).allocate i =
            some ⟨{ db with txnManager := m }, .applying ts (db.sessions i).writeBuffer.writes,
              reads, false⟩ := by
          rw [allocate, if_neg (by simp [hidle, haborted, hconflict]), hcommit]
        refine ⟨ts, ?_⟩
        change ((⟨db, .before, reads, false⟩ : CommitRun ν ι).allocate i).bind _ = _
        rw [halloc, Option.bind_some, happlies, applyAll_writes]
        rfl

end CommitRun

end Machine

section Readers

variable {i j : ι} {before tables : ν → SqlTable} {ws : List (ν × SqlTable.Write)}

namespace CommitPc

/-- What a scan shows at a snapshot: the table with all the writes of the COMMIT once the snapshot
includes its timestamp, the table without them until then. -/
def shown (before : ν → SqlTable) (ws : List (ν × SqlTable.Write)) (s : UInt64) (pc : CommitPc ν)
    (n : ν) : List Row :=
  pc.commitTs.elim ((before n).scanVisible s) fun ts =>
    if ts ≤ s then (applyAll ts before ws n).scanVisible s else (before n).scanVisible s

def TablesAre (before : ν → SqlTable) (ws : List (ν × SqlTable.Write)) (tables : ν → SqlTable) :
    CommitPc ν → Prop
  | .before => tables = before
  | .applying ts rest => ∃ applied, ws = applied ++ rest ∧ tables = applyAll ts before applied
  | .done ts => tables = applyAll ts before ws

structure Reached (before : ν → SqlTable) (ws : List (ν × SqlTable.Write)) (next : UInt64)
    (tables : ν → SqlTable) (pc : CommitPc ν) : Prop where
  past : ∀ n, ∀ e ∈ (before n).versions, e.commitTs < pc.commitTs.getD next
  taken : ∀ ts, pc.commitTs = some ts → ts < next
  tables_eq : pc.TablesAre before ws tables

/-- At a snapshot that includes the COMMIT all its writes to a table are there. -/
def Complete (n : ν) (s : UInt64) : CommitPc ν → Prop
  | .applying ts rest => ts ≤ s → ∀ p ∈ rest, p.1 ≠ n
  | _ => True

instance Complete.decidable (n : ν) (s : UInt64) : (pc : CommitPc ν) → Decidable (pc.Complete n s)
  | .before => .isTrue trivial
  | .applying ts rest => inferInstanceAs (Decidable (ts ≤ s → ∀ p ∈ rest, p.1 ≠ n))
  | .done _ => .isTrue trivial

variable {s next : UInt64} {pc : CommitPc ν} {n : ν}

theorem Reached.mono {next' : UInt64} (h : pc.Reached before ws next tables) (hle : next ≤ next') :
    pc.Reached before ws next' tables where
  past n e he := by
    have hlt := h.past n e he
    cases hpc : pc.commitTs with
    | none =>
      rw [hpc] at hlt
      exact lt_of_lt_of_le hlt hle
    | some ts => rwa [hpc] at hlt
  taken ts hts := lt_of_lt_of_le (h.taken ts hts) hle
  tables_eq := h.tables_eq

theorem Reached.scanVisibleStream_eq (h : pc.Reached before ws next tables)
    (hsound : ∀ n, (before n).Sound) (hfit : WritesFit before ws)
    (hn : pc.Complete n s) :
    (tables n).scanVisibleStream s = some (pc.shown before ws s n) := by
  have hread : ∀ ts applied rest, ws = applied ++ rest → tables = applyAll ts before applied →
      pc.commitTs = some ts → (ts ≤ s → ∀ p ∈ rest, p.1 ≠ n) →
      (tables n).scanVisibleStream s = some (pc.shown before ws s n) := by
    intro ts applied rest hws htables hts hrest
    have hfit' : WritesFit before applied := fun p hp =>
      hfit p (hws ▸ List.mem_append_left _ hp)
    have hpast : ∀ e ∈ (before n).versions, e.commitTs < ts := by
      intro e he
      simpa [hts] using h.past n e he
    rw [htables, (applyAll_sound (hsound n) hfit' hpast).scanVisibleStream_eq, shown, hts,
      Option.elim_some]
    split_ifs with hle
    · rw [hws, applyAll_of_rest (hrest hle)]
    · rw [applyAll_scanVisible (hsound n) hfit' hpast (not_le.mp hle)]
  have heq := h.tables_eq
  cases pc with
  | before =>
    obtain rfl : tables = before := heq
    exact (hsound n).scanVisibleStream_eq s
  | applying ts rest =>
    obtain ⟨applied, hws, htables⟩ := heq
    exact hread ts applied rest hws htables rfl hn
  | done ts =>
    exact hread ts ws [] (List.append_nil ws).symm heq rfl fun _ p hp => absurd hp List.not_mem_nil

theorem Reached.shown_maxTs (h : pc.Reached before ws next tables)
    (hsound : ∀ n, (before n).Sound) (hfit : WritesFit before ws) (n : ν) :
    pc.shown before ws maxTs n = pc.shown before ws next n := by
  have hpast := h.past n
  cases hts : pc.commitTs with
  | none =>
    rw [hts] at hpast
    rw [shown, shown, hts]
    apply (hsound n).scanVisible_congr (hsound n)
    exact (SqlTable.view_eq_maxTs fun e he => (hpast e he).le).symm
  | some ts =>
    rw [hts] at hpast
    have hle := (h.taken ts hts).le
    rw [shown, shown, hts, Option.elim_some, Option.elim_some, if_pos (ts_le_maxTs ts), if_pos hle]
    exact applyAll_scanVisible_maxTs (hsound n) hfit hpast hle

end CommitPc

namespace CommitRun

variable {x x' : CommitRun ν ι} {a : CommitAction ν}

/-- The snapshot of the reader's transaction or query, which has the latest versions while the
subqueries of the query run. -/
def readAt (j : ι) (x : CommitRun ν ι) : UInt64 :=
  if x.resolving then maxTs else (x.db.sessions j).readSnapshot

/-- A table is scanned, at a snapshot that includes the COMMIT, only when all its writes are there;
and while a query has run subqueries and has no snapshot yet, a COMMIT that takes its timestamp has
no writes to the tables they have read. -/
def ScansComplete (i j : ι) (x : CommitRun ν ι) : CommitAction ν → Prop
  | .scan n => x.pc.Complete n (x.db.sessions j).readSnapshot
  | .subquery n => x.pc.Complete n (x.db.sessions j).forSubqueries.readSnapshot
  | .allocate => x.resolving = true → ∀ p ∈ x.reads.getD [],
      ∀ w ∈ (x.db.sessions i).writeBuffer.writes, w.1 ≠ p.1
  | _ => True

instance ScansComplete.decidable (i j : ι) (x : CommitRun ν ι) :
    (a : CommitAction ν) → Decidable (ScansComplete i j x a)
  | .scan n => CommitPc.Complete.decidable n _ x.pc
  | .subquery n => CommitPc.Complete.decidable n _ x.pc
  | .allocate => inferInstanceAs (Decidable (x.resolving = true → ∀ p ∈ x.reads.getD [],
      ∀ w ∈ (x.db.sessions i).writeBuffer.writes, w.1 ≠ p.1))
  | .apply => .isTrue trivial
  | .finish => .isTrue trivial
  | .tick => .isTrue trivial
  | .begin => .isTrue trivial
  | .prepare => .isTrue trivial

/-- The reads of the transaction or query are those of the tables from before, or all of them are
those of the tables with all the writes. -/
def SeesAllOrNone (before : ν → SqlTable) (ws : List (ν × SqlTable.Write)) (j : ι)
    (x : CommitRun ν ι) : Prop :=
  ∀ reads, x.reads = some reads →
    (∀ p ∈ reads, p.2 = (before p.1).scanVisible (x.readAt j)) ∨
      ∃ ts, x.pc.commitTs = some ts ∧
        ∀ p ∈ reads, p.2 = (applyAll ts before ws p.1).scanVisible (x.readAt j)

/-- Two reads of a table in the transaction or query return the same rows. -/
def RepeatsReads (x : CommitRun ν ι) : Prop :=
  ∀ reads, x.reads = some reads → ∀ p ∈ reads, ∀ q ∈ reads, p.1 = q.1 → p.2 = q.2

/-- The reader has read what each of its scans should show. -/
structure Consistent (before : ν → SqlTable) (ws : List (ν × SqlTable.Write)) (i j : ι)
    (x : CommitRun ν ι) : Prop where
  reached : x.pc.Reached before ws x.db.txnManager.nextTs x.db.tables
  next_ne : x.db.txnManager.nextTs ≠ 0
  writer : x.pc = .before → (x.db.sessions i).writeBuffer.writes = ws
  buffer : (x.db.sessions j).writeBuffer = .empty
  level : (x.db.sessions j).inTransaction = true → (x.db.sessions j).isolation = .repeatableRead
  newTxn : (x.db.sessions j).inTransaction = false → x.db.txnManager.nextTxnId ≠ 0 ∧
    TransactionManager.find x.db.txnManager.txns x.db.txnManager.nextTxnId = none
  idle : x.resolving = true → (x.db.sessions j).inTransaction = false
  snapshot : x.reads ≠ none → x.resolving = false → (x.db.sessions j).snapshotTs ≠ 0 ∧
    (x.db.sessions j).snapshotTs < x.db.txnManager.nextTs
  reads : ∀ reads, x.reads = some reads →
    ∀ p ∈ reads, p.2 = x.pc.shown before ws (x.readAt j) p.1

/-- A step keeps the reads consistent and takes at most one timestamp. -/
structure Advances (before : ν → SqlTable) (ws : List (ν × SqlTable.Write)) (i j : ι)
    (x x' : CommitRun ν ι) : Prop where
  consistent : Consistent before ws i j x'
  next : x'.db.txnManager.nextTs.toNat ≤ x.db.txnManager.nextTs.toNat + 1

theorem Consistent.seesAllOrNone (h : Consistent before ws i j x) :
    SeesAllOrNone before ws j x ∧ x.RepeatsReads := by
  constructor
  · intro reads hreads
    have hrows := h.reads reads hreads
    cases hts : x.pc.commitTs with
    | none =>
      left
      intro p hp
      rw [hrows p hp, CommitPc.shown, hts, Option.elim_none]
    | some ts =>
      by_cases hle : ts ≤ x.readAt j
      · right
        refine ⟨ts, rfl, fun p hp => ?_⟩
        rw [hrows p hp, CommitPc.shown, hts]
        exact if_pos hle
      · left
        intro p hp
        rw [hrows p hp, CommitPc.shown, hts]
        exact if_neg hle
  · intro reads hreads p hp q hq hpq
    have hrows := h.reads reads hreads
    rw [hrows p hp, hrows q hq, hpq]

theorem nextTs_add_ne {m : TransactionManager} (h : m.nextTs.toNat + 1 < 2 ^ 64) :
    m.nextTs + 1 ≠ 0 := by
  intro hzero
  have := toNat_add_one h
  rw [hzero] at this
  exact absurd this.symm (Nat.succ_ne_zero _)

theorem shown_applying {s ts : UInt64} {rest : List (ν × SqlTable.Write)} (h : s < ts) (n : ν) :
    (CommitPc.applying ts rest).shown before ws s n = CommitPc.before.shown before ws s n :=
  if_neg (not_le.mpr h)

theorem shown_of_unwritten {s : UInt64} {pc : CommitPc ν} {n : ν} (h : ∀ w ∈ ws, w.1 ≠ n) :
    pc.shown before ws s n = CommitPc.before.shown before ws s n := by
  rw [CommitPc.shown]
  cases pc.commitTs with
  | none => rfl
  | some ts => rw [Option.elim_some, applyAll_of_unwritten h, ite_self, CommitPc.shown]; rfl

omit [DecidableEq ν] in
theorem rows_append {reads : List (ν × List Row)} {rows : List Row} {n : ν} {shown : ν → List Row}
    (hreads : ∀ p ∈ reads, p.2 = shown p.1) (hrows : rows = shown n) :
    ∀ p ∈ reads ++ [(n, rows)], p.2 = shown p.1 := by
  simpa [or_imp, forall_and] using ⟨fun a b hp => hreads (a, b) hp, hrows⟩

variable (h : Consistent before ws i j x) (hroom : x.db.txnManager.nextTs.toNat + 1 < 2 ^ 64)

include h

theorem Consistent.resolving_eq_false (hin : (x.db.sessions j).inTransaction = true) :
    x.resolving = false := by
  by_contra hres
  have hidle := h.idle (by simpa using hres)
  exact Bool.false_ne_true (hidle.symm.trans hin)

theorem Consistent.readAt_of_prepared (hreads : x.reads ≠ none) (hres : x.resolving = false) :
    x.readAt j = (x.db.sessions j).snapshotTs := by
  rw [readAt, if_neg (by simp [hres])]
  exact if_pos (h.snapshot hreads hres).1

theorem Consistent.seqScan_eq {s : Session ν} {n : ν} (hsound : ∀ n, (before n).Sound)
    (hfit : WritesFit before ws) (hbuffer : s.writeBuffer = .empty)
    (hlevel : s.inTransaction = true → s.isolation = .repeatableRead)
    (hn : x.pc.Complete n s.readSnapshot) :
    s.seqScan x.db.tables n = some (x.pc.shown before ws s.readSnapshot n, s) := by
  have htracks : s.tracksReads = false := by
    cases hin : s.inTransaction with
    | true => simp [Session.tracksReads, hlevel hin]
    | false => simp [Session.tracksReads, hin]
  have hbuf : s.bufferFor n = none := by
    rw [Session.bufferFor, hbuffer]
    split_ifs <;> rfl
  rw [Session.seqScan, h.reached.scanVisibleStream_eq hsound hfit hn, Option.map_some,
    Session.trackScan_of_not_tracks htracks, hbuf]
  rfl

theorem Consistent.queryReads_rows {reads : List (ν × List Row)}
    (hin : (x.db.sessions j).inTransaction = false) (hreads : x.queryReads j = some reads) :
    ∀ p ∈ reads, p.2 = x.pc.shown before ws maxTs p.1 := by
  rw [queryReads] at hreads
  split_ifs at hreads with hcond
  · have hres : x.resolving = true := hcond.resolve_left (by simp [hin])
    have hrows := h.reads reads hreads
    rwa [readAt, if_pos hres] at hrows
  · obtain rfl := Option.some.inj hreads
    exact fun p hp => absurd hp List.not_mem_nil

include hroom

theorem Consistent.allocate (hpc : x.pc = .before) (hguard : ScansComplete i j x .allocate)
    (hstep : x.allocate i = some x') :
    Advances before ws i j x x' := by
  rw [CommitRun.allocate] at hstep
  split_ifs at hstep
  split at hstep
  · cases hstep
  · rename_i ts m hcommit
    obtain rfl := Option.some.inj hstep
    obtain ⟨rfl, hnext, hid, htxns⟩ := TransactionManager.commit_eq_some hcommit
    have hlt := lt_add_one_of_room hroom
    have hreached := h.reached
    rw [hpc] at hreached
    have htables : x.db.tables = before := hreached.tables_eq
    refine ⟨⟨⟨hreached.past, ?_, [], ?_, htables⟩, hnext ▸ nextTs_add_ne hroom, nofun, h.buffer,
      h.level, ?_, h.idle, ?_, ?_⟩, ?_⟩
    · intro ts hts
      obtain rfl := Option.some.inj hts
      exact hnext ▸ hlt
    · exact (h.writer hpc).symm
    · intro hidle
      change m.nextTxnId ≠ 0 ∧ TransactionManager.find m.txns m.nextTxnId = none
      rw [hid, htxns]
      refine ⟨(h.newTxn hidle).1, ?_⟩
      exact TransactionManager.find_erase_of_none (h.newTxn hidle).2 _
    · intro hreads hres
      obtain ⟨hsnap, hold⟩ := h.snapshot hreads hres
      exact ⟨hsnap, hold.trans (hnext ▸ hlt)⟩
    · intro reads hreads p hp
      change x.reads = some reads at hreads
      change p.2 = CommitPc.shown before ws (x.readAt j) (.applying x.db.txnManager.nextTs _) p.1
      rw [h.reads reads hreads p hp, hpc]
      cases hres : x.resolving with
      | true =>
        have hmem : p ∈ x.reads.getD [] := by
          rw [hreads]
          exact hp
        have hunwritten := hguard hres p hmem
        rw [h.writer hpc] at hunwritten
        exact (shown_of_unwritten hunwritten).symm
      | false =>
        have hsome : x.reads ≠ none := by simp [hreads]
        have hold := (h.snapshot hsome hres).2
        rw [← h.readAt_of_prepared hsome hres] at hold
        exact (shown_applying hold p.1).symm
    · change m.nextTs.toNat ≤ _
      rw [hnext, toNat_add_one hroom]

theorem Consistent.tick :
    Advances before ws i j x
      { x with db := { x.db with txnManager := x.db.txnManager.allocateTs.2 } } := by
  have hlt := lt_add_one_of_room hroom
  refine ⟨⟨h.reached.mono hlt.le, nextTs_add_ne hroom, h.writer, h.buffer, h.level, h.newTxn, h.idle,
    fun hreads hres => ?_, h.reads⟩, (toNat_add_one hroom).le⟩
  exact ⟨(h.snapshot hreads hres).1, (h.snapshot hreads hres).2.trans hlt⟩

variable [DecidableEq ι]

theorem Consistent.begin (hij : i ≠ j) (hstep : x.begin j = some x') :
    Advances before ws i j x x' := by
  rw [CommitRun.begin] at hstep
  split_ifs at hstep with hcond
  obtain rfl := Option.some.inj hstep
  obtain ⟨hid, hnew⟩ := h.newTxn hcond.1
  have hlt := lt_add_one_of_room hroom
  rw [Database.begin_eq hcond.1 (.inl hcond.2) hnew]
  refine ⟨⟨h.reached.mono hlt.le, nextTs_add_ne hroom, ?_, ?_, ?_, ?_, nofun, ?_, ?_⟩,
    (toNat_add_one hroom).le⟩
  · intro hpc
    rw [Database.setSession_sessions_of_ne hij]
    exact h.writer hpc
  · rw [Database.setSession_sessions_self]
    exact h.buffer
  · intro _
    rw [Database.setSession_sessions_self]
    exact hcond.2
  · rw [Database.setSession_sessions_self, Session.inTransaction]
    intro hidle
    exact absurd (by simpa using hidle) hid
  · intro _ _
    rw [Database.setSession_sessions_self]
    exact ⟨h.next_ne, hlt⟩
  · intro reads hreads
    obtain rfl := Option.some.inj hreads
    exact fun p hp => absurd hp List.not_mem_nil

theorem Consistent.prepare (hij : i ≠ j) (hsound : ∀ n, (before n).Sound)
    (hfit : WritesFit before ws) :
    Advances before ws i j x (x.prepare j) := by
  have hwriter : ∀ (m : TransactionManager) (s : Session ν), x.pc = .before →
      (({ x.db with txnManager := m }.setSession j s).sessions i).writeBuffer.writes = ws := by
    intro m s hpc
    rw [Database.setSession_sessions_of_ne hij]
    exact h.writer hpc
  cases hin : (x.db.sessions j).inTransaction with
  | true =>
    have hres := h.resolving_eq_false hin
    have hprep : x.prepare j = { x with
        db := x.db.setSession j { x.db.sessions j with autoCommitTs := 0 } } := by
      rw [CommitRun.prepare, Session.prepareForStatement_fixed hin (.inl (h.level hin)), queryReads,
        if_pos (.inl hin), hres]
    rw [hprep]
    refine ⟨⟨h.reached, h.next_ne, hwriter _ _, ?_, ?_, ?_, ?_, ?_, ?_⟩, Nat.le_succ _⟩
    all_goals simp only [readAt, Database.setSession_sessions_self]
    · exact h.buffer
    · exact h.level
    · exact h.newTxn
    · exact h.idle
    · exact h.snapshot
    · exact h.reads
  | false =>
    have hlt := lt_add_one_of_room hroom
    have hprep : x.prepare j = { x with
        db := { x.db with txnManager := x.db.txnManager.allocateTs.2 }.setSession j
          { x.db.sessions j with snapshotTs := x.db.txnManager.nextTs, autoCommitTs := 0 }
        reads := x.queryReads j
        resolving := false } := by
      rw [CommitRun.prepare]
      simp [Session.prepareForStatement, Session.prepareSnapshot, hin,
        TransactionManager.allocateTs]
    rw [hprep]
    refine ⟨⟨h.reached.mono hlt.le, nextTs_add_ne hroom, hwriter _ _, ?_, ?_, ?_,
      fun hres => absurd hres Bool.false_ne_true, ?_, ?_⟩,
      (toNat_add_one hroom).le⟩
    all_goals simp only [readAt, Database.setSession_sessions_self]
    · exact h.buffer
    · exact h.level
    · exact h.newTxn
    · exact fun _ _ => ⟨h.next_ne, hlt⟩
    · intro reads hreads p hp
      have hread : ({ x.db.sessions j with
          snapshotTs := x.db.txnManager.nextTs, autoCommitTs := 0 } : Session ν).readSnapshot =
          x.db.txnManager.nextTs := if_pos h.next_ne
      rw [if_neg Bool.false_ne_true, hread, ← h.reached.shown_maxTs hsound hfit]
      exact h.queryReads_rows hin hreads p hp

omit hroom in
theorem Consistent.scan {n : ν} (hsound : ∀ n, (before n).Sound) (hfit : WritesFit before ws)
    (hguard : ScansComplete i j x (.scan n)) (hstep : x.scan j n = some x') :
    Advances before ws i j x x' := by
  rw [CommitRun.scan] at hstep
  split_ifs at hstep with hres
  rw [Bool.not_eq_true] at hres
  obtain ⟨reads, hreads, hmap⟩ := Option.bind_eq_some_iff.mp hstep
  obtain ⟨r, hr, rfl⟩ := Option.map_eq_some_iff.mp hmap
  rw [h.seqScan_eq hsound hfit h.buffer h.level hguard] at hr
  obtain rfl := Option.some.inj hr
  have hself : x.db.setSession j (x.db.sessions j) = x.db := by
    rw [Database.setSession, Function.update_eq_self]
  rw [hself]
  have hsome : x.reads ≠ none := by simp [hreads]
  refine ⟨⟨h.reached, h.next_ne, h.writer, h.buffer, h.level, h.newTxn, h.idle,
    fun _ => h.snapshot hsome, ?_⟩, Nat.le_succ _⟩
  intro reads' hreads'
  obtain rfl := Option.some.inj hreads'
  refine rows_append (h.reads reads hreads) ?_
  rw [readAt, if_neg (by simp [hres])]

omit hroom in
theorem Consistent.subquery_eq {n : ν} (hsound : ∀ n, (before n).Sound) (hfit : WritesFit before ws)
    (hguard : ScansComplete i j x (.subquery n)) :
    x.subquery j n = (x.queryReads j).map fun reads =>
      { x with
        reads := some (reads ++
          [(n, x.pc.shown before ws (x.db.sessions j).forSubqueries.readSnapshot n)])
        resolving := !(x.db.sessions j).inTransaction } := by
  have hbuffer : (x.db.sessions j).forSubqueries.writeBuffer = .empty := by
    rw [Session.forSubqueries]
    split_ifs <;> exact h.buffer
  have hlevel : (x.db.sessions j).forSubqueries.inTransaction = true →
      (x.db.sessions j).forSubqueries.isolation = .repeatableRead := by
    rw [Session.forSubqueries]
    split_ifs <;> exact h.level
  have hs : ({ (x.db.sessions j).forSubqueries with
      snapshotTs := (x.db.sessions j).snapshotTs } : Session ν) = x.db.sessions j := by
    rw [Session.forSubqueries]
    split_ifs <;> rfl
  rw [CommitRun.subquery, Option.map_eq_bind, h.seqScan_eq hsound hfit hbuffer hlevel hguard]
  simp only [Option.map_some, hs, Database.setSession, Function.update_eq_self]
  rfl

omit hroom in
theorem Consistent.subquery {n : ν} (hsound : ∀ n, (before n).Sound) (hfit : WritesFit before ws)
    (hguard : ScansComplete i j x (.subquery n)) (hstep : x.subquery j n = some x') :
    Advances before ws i j x x' := by
  rw [h.subquery_eq hsound hfit hguard] at hstep
  obtain ⟨reads, hreads, rfl⟩ := Option.map_eq_some_iff.mp hstep
  cases hin : (x.db.sessions j).inTransaction with
  | true =>
    have hres := h.resolving_eq_false hin
    rw [queryReads, if_pos (.inl hin)] at hreads
    have hsome : x.reads ≠ none := by simp [hreads]
    have hfor : (x.db.sessions j).forSubqueries.readSnapshot = x.readAt j := by
      rw [Session.forSubqueries, if_pos hin, readAt, if_neg (by simp [hres])]
    refine ⟨⟨h.reached, h.next_ne, h.writer, h.buffer, h.level, h.newTxn,
      fun hres => absurd hres Bool.false_ne_true, fun _ _ => h.snapshot hsome hres, ?_⟩, Nat.le_succ _⟩
    intro reads' hreads' p hp
    obtain rfl := Option.some.inj hreads'
    have hshown : x.pc.shown before ws (x.db.sessions j).forSubqueries.readSnapshot n =
        x.pc.shown before ws (x.readAt j) n := by
      rw [hfor]
    rw [rows_append (h.reads reads hreads) hshown p hp, readAt, readAt, hres]
    rfl
  | false =>
    have hfor : (x.db.sessions j).forSubqueries.readSnapshot = maxTs := by
      rw [Session.forSubqueries, if_neg (by simp [hin])]
      rfl
    refine ⟨⟨h.reached, h.next_ne, h.writer, h.buffer, h.level, h.newTxn, fun _ => hin,
      fun _ hres => absurd hres.symm Bool.false_ne_true, ?_⟩, Nat.le_succ _⟩
    intro reads' hreads'
    obtain rfl := Option.some.inj hreads'
    have hshown : x.pc.shown before ws (x.db.sessions j).forSubqueries.readSnapshot n =
        x.pc.shown before ws maxTs n := by
      rw [hfor]
    exact rows_append (h.queryReads_rows hin hreads) hshown

/-- Every step of the COMMIT and of the reader keeps the reads consistent. -/
theorem Consistent.step (hij : i ≠ j) (hsound : ∀ n, (before n).Sound) (hfit : WritesFit before ws)
    (hguard : ScansComplete i j x a) (hstep : step i j x a = some x') :
    Advances before ws i j x x' := by
  rw [CommitRun.step.eq_def] at hstep
  split at hstep
  · rename_i hpc
    exact h.allocate hroom hpc hguard hstep
  · rename_i ts p rest hpc
    obtain rfl := Option.some.inj hstep
    have hreached := h.reached
    have hreads := h.reads
    rw [hpc] at hreached hreads
    obtain ⟨applied, hws, htables⟩ := hreached.tables_eq
    refine ⟨⟨⟨hreached.past, hreached.taken, applied ++ [p], ?_, ?_⟩, h.next_ne, nofun, h.buffer,
      h.level, h.newTxn, h.idle, h.snapshot, hreads⟩, Nat.le_succ _⟩
    · rw [hws, List.append_assoc]
      rfl
    · rw [applyAll_append, ← htables]
  · rename_i ts hpc
    obtain rfl := Option.some.inj hstep
    have hreached := h.reached
    have hreads := h.reads
    rw [hpc] at hreached hreads
    obtain ⟨applied, hws, htables⟩ := hreached.tables_eq
    rw [List.append_nil] at hws
    have hsession : ∀ s, ((x.db.abandon i x.db.txnManager s).sessions j) = x.db.sessions j :=
      fun s => Database.setSession_sessions_of_ne hij.symm s
    refine ⟨⟨⟨hreached.past, hreached.taken, ?_⟩, h.next_ne, nofun, ?_, ?_, ?_, ?_, ?_, ?_⟩,
      Nat.le_succ _⟩
    · rw [← hws] at htables
      exact htables
    all_goals simp only [readAt, hsession]
    · exact h.buffer
    · exact h.level
    · exact h.newTxn
    · exact h.idle
    · exact h.snapshot
    · exact hreads
  · obtain rfl := Option.some.inj hstep
    exact h.tick hroom
  · exact h.begin hroom hij hstep
  · exact h.subquery hsound hfit hguard hstep
  · obtain rfl := Option.some.inj hstep
    exact h.prepare hroom hij hsound hfit
  · exact h.scan hsound hfit hguard hstep
  · cases hstep

omit h hroom

structure Ready (db : Database ν ι) (i j : ι) : Prop where
  sound : ∀ n, (db.tables n).Sound
  past : ∀ n, ∀ e ∈ (db.tables n).versions, e.commitTs < db.txnManager.nextTs
  fit : WritesFit db.tables (db.sessions i).writeBuffer.writes
  next_ne : db.txnManager.nextTs ≠ 0
  idle : (db.sessions j).inTransaction = false
  buffer : (db.sessions j).writeBuffer = .empty
  newTxn : db.txnManager.nextTxnId ≠ 0 ∧
    TransactionManager.find db.txnManager.txns db.txnManager.nextTxnId = none

omit [DecidableEq ι] in
theorem Ready.consistent {db : Database ν ι} (h : Ready db i j) :
    Consistent db.tables (db.sessions i).writeBuffer.writes i j ⟨db, .before, none, false⟩ where
  reached := ⟨h.past, nofun, rfl⟩
  next_ne := h.next_ne
  writer _ := rfl
  buffer := h.buffer
  level hin := absurd (h.idle.symm.trans hin) Bool.false_ne_true
  newTxn _ := h.newTxn
  idle := nofun
  snapshot hreads := absurd rfl hreads
  reads _ := nofun

/-- In every run of the steps of a COMMIT and of a reader in which no table is scanned, at a snapshot
that includes the COMMIT, before all its writes are there, and no table that the subqueries of a query
have read is written by a COMMIT whose timestamp falls between them and the snapshot of the query, the
reader's transaction or query sees all of the COMMIT or nothing of it, and repeats its reads. -/
theorem seesAllOrNone_throughout {db : Database ν ι} {as : List (CommitAction ν)} (hij : i ≠ j)
    (h : Ready db i j) (hwrap : db.txnManager.nextTs.toNat + as.length + 1 < 2 ^ 64)
    (hguard : Guarded (step i j) (ScansComplete i j) ⟨db, .before, none, false⟩ as) :
    Throughout (step i j)
      (fun x => SeesAllOrNone db.tables (db.sessions i).writeBuffer.writes j x ∧ x.RepeatsReads)
      ⟨db, .before, none, false⟩ as := by
  have hbound : 0 + as.length < 2 ^ 64 - db.txnManager.nextTs.toNat - 1 := by omega
  refine hguard.throughout_of_count
    (J := fun k x => db.txnManager.nextTs.toNat + k + 1 < 2 ^ 64 →
      Consistent db.tables (db.sessions i).writeBuffer.writes i j x ∧
        x.db.txnManager.nextTs.toNat ≤ db.txnManager.nextTs.toNat + k) ?_ ?_ ?_ hbound
  · intro k x a x' hx hg hstep hk
    obtain ⟨hcons, hle⟩ := hx (by omega)
    obtain ⟨hcons', hle'⟩ := hcons.step (by omega) hij h.sound h.fit hg hstep
    exact ⟨hcons', by omega⟩
  · intro k x hk hx
    exact (hx (by omega)).1.seesAllOrNone
  · exact fun _ => ⟨h.consistent, le_rfl⟩

/-- Session `false` is about to commit an UPDATE of two rows. -/
def openUpdate : Database Unit Bool :=
  (run Database.step (.fresh fun _ => .accounts)
    [(false, .insert ⟨(), [0, 1], [[.int 1, .int 10], [.int 2, .int 10]]⟩),
      (false, .setTransaction .repeatableRead), (true, .setTransaction .repeatableRead),
      (false, .begin), (false, .setColumn () 1 (.int 20))]).getD (.fresh fun _ => .accounts)

theorem openUpdate_ready : Ready openUpdate false true where
  sound _ := SqlTable.Stored.sound
    ⟨by decide +revert, by decide +revert, by decide +revert, by decide +revert⟩
    (by decide +revert)
  past _ := by decide +revert
  fit := by
    rw [WritesFit]
    decide
  next_ne := by decide
  idle := by decide
  buffer := rfl
  newTxn := by decide

/-- A query with a subquery, and a transaction that begins before the COMMIT has its timestamp, read
the old rows in every state. -/
theorem openUpdate_seesAllOrNone :
    Throughout (step false true)
      (fun x => SeesAllOrNone openUpdate.tables (openUpdate.sessions false).writeBuffer.writes true x ∧
        x.RepeatsReads) ⟨openUpdate, .before, none, false⟩
      [.tick, .subquery (), .prepare, .scan (), .begin, .scan (), .allocate, .apply, .subquery (),
        .apply, .scan (), .finish, .scan ()] :=
  seesAllOrNone_throughout (by decide) openUpdate_ready (by decide) (by decide)

/-- A transaction that begins once the COMMIT has its timestamp reads no new row, then one of the two,
then both. A query whose subquery runs before the COMMIT and which takes its snapshot after it reads
the old rows and the new ones. -/
theorem reads_while_applying :
    (run (step false true) ⟨openUpdate, .before, none, false⟩
      [.allocate, .begin, .scan (), .apply, .scan (), .apply, .scan ()]).map (·.reads) =
      some (some [((), [⟨[.int 1, .int 10]⟩, ⟨[.int 2, .int 10]⟩]),
        ((), [⟨[.int 1, .int 20]⟩, ⟨[.int 2, .int 10]⟩]),
        ((), [⟨[.int 1, .int 20]⟩, ⟨[.int 2, .int 20]⟩])]) ∧
    (run (step false true) ⟨openUpdate, .before, none, false⟩
      [.subquery (), .allocate, .apply, .apply, .finish, .prepare, .scan ()]).map (·.reads) =
      some (some [((), [⟨[.int 1, .int 10]⟩, ⟨[.int 2, .int 10]⟩]),
        ((), [⟨[.int 1, .int 20]⟩, ⟨[.int 2, .int 20]⟩])]) := by
  decide

end CommitRun

end Readers

end CoroDB
