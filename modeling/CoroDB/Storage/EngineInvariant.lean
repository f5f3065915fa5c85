import CoroDB.Storage.Engine

/-!
# What the logs and the level files hold together

As long as no write and no other flush of a table falls between the move of its memtable and the
truncation of its log, the log and the level files of the table hold every version written to it in
every state, and so do the memtable, the entries a flush has moved out and the level files.
-/

namespace CoroDB

open Framework
open History (ofList ofList_append overlay_apply ofList_cons)

/-- Every level is sorted and no key is a `NaN`. -/
def LevelStore.Layered {ι : Type*} (x : LevelStore ι) : Prop :=
  ∀ level, Ordered (x.files.entriesAt level) ∧ SortedVersions (x.files.entriesAt level)

namespace LevelJob

variable {ι : Type*} {cfg : LsmConfig} {gcHorizon : UInt64} {i : ι} {x y : LevelStore ι}
  {job job' : LevelJob} {k : ValueKey} {c : UInt64} {w : Option Row}

/-- The copies a job has read are those of the files, which it alone changes. -/
def Exact (x : LevelStore ι) : LevelJob → Prop
  | flush memSnapshot => Ordered memSnapshot ∧ SortedVersions memSnapshot
  | flushWrite memSnapshot l0 =>
    (Ordered memSnapshot ∧ SortedVersions memSnapshot) ∧ l0 = x.files.entriesAt 0
  | compactNext level curr => curr = x.files.entriesAt level
  | compactWrite level curr next =>
    curr = x.files.entriesAt level ∧ next = x.files.entriesAt (level + 1)
  | _ => True

theorem act_exact (hj : job.Exact x) (h : act cfg gcHorizon i x job = some (y, job')) :
    job'.Exact y := by
  cases job with
  | flush memSnapshot =>
    obtain ⟨rfl, rfl⟩ := Prod.mk.inj (Option.some.inj h)
    exact ⟨hj, rfl⟩
  | flushWrite memSnapshot l0 =>
    obtain ⟨-, rfl⟩ := Prod.mk.inj (Option.some.inj h)
    trivial
  | compact =>
    obtain ⟨-, rfl⟩ := Prod.mk.inj (Option.some.inj h)
    split <;> trivial
  | compactLock =>
    simp only [act] at h
    split at h <;> obtain ⟨-, rfl⟩ := Prod.mk.inj (Option.some.inj h) <;> trivial
  | compactLevel level =>
    simp only [act, release] at h
    split at h
    · split at h <;> obtain ⟨rfl, rfl⟩ := Prod.mk.inj (Option.some.inj h)
      · trivial
      · rename_i curr hcurr
        exact (LevelFiles.entriesAt_of_file hcurr).symm
    · obtain ⟨-, rfl⟩ := Prod.mk.inj (Option.some.inj h)
      trivial
  | compactNext level curr =>
    obtain ⟨rfl, rfl⟩ := Prod.mk.inj (Option.some.inj h)
    exact ⟨hj, rfl⟩
  | compactWrite level curr next =>
    obtain ⟨merged, -, heq⟩ := Option.map_eq_some_iff.mp h
    obtain ⟨-, rfl⟩ := Prod.mk.inj heq
    trivial
  | compactClear level =>
    obtain ⟨-, rfl⟩ := Prod.mk.inj (Option.some.inj h)
    trivial
  | compactDecide level =>
    simp only [act, release] at h
    split at h
    · obtain ⟨-, rfl⟩ := Prod.mk.inj (Option.some.inj h)
      trivial
    · split at h <;> obtain ⟨-, rfl⟩ := Prod.mk.inj (Option.some.inj h) <;> trivial
  | done => simp [act] at h

theorem act_layered (hx : x.Layered) (hj : job.Exact x)
    (h : act cfg gcHorizon i x job = some (y, job')) : y.Layered := by
  have hwrite : ∀ {es : List MemEntry} (level : Nat), Ordered es → SortedVersions es →
      (⟨x.files.write level es, x.holder⟩ : LevelStore ι).Layered := by
    intro es level ho hs n
    by_cases hn : n = level
    · subst hn
      rw [LevelFiles.entriesAt_write_self]
      exact ⟨ho, hs⟩
    · rw [LevelFiles.entriesAt_write_of_ne hn]
      exact hx n
  rcases act_files h with ⟨hfiles, -⟩ | ⟨_, _, rfl, rfl, -⟩ | ⟨level, _, _, merged, rfl, hgc, rfl, -⟩ |
    ⟨level, rfl, rfl, -⟩
  · intro level
    rw [hfiles]
    exact hx level
  · obtain ⟨⟨ho, hs⟩, rfl⟩ := hj
    exact hwrite 0 (mergeEntries_ordered ho (hx 0).1) (mergeEntries_sorted ho (hx 0).1 hs (hx 0).2)
  · obtain ⟨rfl, rfl⟩ := hj
    obtain ⟨out, hout, ho, hs, -⟩ := gcPass_mergeEntries gcHorizon (hx level).1 (hx (level + 1)).1
      (hx level).2 (hx (level + 1)).2
    obtain rfl : merged = out := Option.some.inj (hgc.symm.trans hout)
    exact hwrite (level + 1) ho hs
  · intro n
    by_cases hn : n = level
    · subst hn
      rw [LevelFiles.clear_entriesAt_self]
      exact ⟨fun e he => absurd he List.not_mem_nil, List.Pairwise.nil⟩
    · rw [LevelFiles.entriesAt_congr (LevelFiles.clear_file_of_ne hn)]
      exact hx n

theorem act_unwritten (h : act cfg gcHorizon i x job = some (y, job')) :
    job'.unwritten = job.unwritten ∨ job' = done := by
  rcases act_files h with ⟨-, hu, -⟩ | ⟨_, _, -, -, rfl⟩ | ⟨_, _, _, _, rfl, -, -, rfl⟩ |
    ⟨_, rfl, -, rfl⟩
  · exact .inl hu
  · exact .inr rfl
  · exact .inl rfl
  · exact .inl rfl

def Flushes : LevelJob → Prop
  | flush _ => True
  | flushWrite _ _ => True
  | _ => False

theorem Flushes.act (hf : job.Flushes) (h : act cfg gcHorizon i x job = some (y, job')) :
    job' = done ∨ job'.Flushes := by
  cases job with
  | flush memSnapshot =>
    obtain ⟨-, rfl⟩ := Prod.mk.inj (Option.some.inj h)
    exact .inr trivial
  | flushWrite memSnapshot l0 =>
    obtain ⟨-, rfl⟩ := Prod.mk.inj (Option.some.inj h)
    exact .inl rfl
  | _ => exact hf.elim

/-- A version pass does not drop the version: the version is a row, and no later version of its key
lies at or below the horizon. -/
def Retains (gcHorizon : UInt64) (x : LevelStore ι) (k : ValueKey) (c : UInt64) (w : Option Row) :
    LevelJob → Prop
  | compactWrite _ _ _ => 0 < gcHorizon → w ≠ none ∧
      ∀ u, c < u → u ≤ gcHorizon → ofList x.files.entries k u = none
  | _ => True

theorem Flushes.retains (hf : job.Flushes) : job.Retains gcHorizon x k c w := by
  cases job <;> trivial

/-- The entries a job has still to write and the files hold a version, and so will the files once a
merged level is cleared. -/
structure Keeps (job : LevelJob) (x : LevelStore ι) (k : ValueKey) (c : UInt64) (w : Option Row) :
    Prop where
  files : ofList (job.unwritten ++ x.files.entries) k c = some w
  cleared : ∀ level, job = compactClear level →
    ofList (x.files.clear level).entries k c = some w

theorem ofList_merged {level : Nat} {merged : List MemEntry} (hx : x.Layered)
    (hret : Retains gcHorizon x k c w
      (compactWrite level (x.files.entriesAt level) (x.files.entriesAt (level + 1))))
    (hgc : gcPass gcHorizon (mergeEntries (x.files.entriesAt level)
      (x.files.entriesAt (level + 1))) = some merged)
    (hw : ∀ v, ofList (x.files.entriesAt level ++ x.files.entriesAt (level + 1)) k c =
      some v → v = w) :
    ofList merged k c =
      ofList (x.files.entriesAt level ++ x.files.entriesAt (level + 1)) k c := by
  obtain ⟨out, hout, -, -, hhist⟩ := gcPass_mergeEntries gcHorizon (hx level).1 (hx (level + 1)).1
    (hx level).2 (hx (level + 1)).2
  obtain rfl : merged = out := Option.some.inj (hgc.symm.trans hout)
  rw [hhist, ← ofList_append]
  split_ifs with hpos
  · obtain ⟨hrow, hlater⟩ := hret hpos
    obtain ⟨r, rfl⟩ := Option.ne_none_iff_exists'.mp hrow
    cases hcell : ofList (x.files.entriesAt level ++ x.files.entriesAt (level + 1)) k c with
    | none =>
      by_contra hv
      obtain ⟨v, hv⟩ := Option.ne_none_iff_exists'.mp hv
      exact absurd (History.gc_eq_some hv).1 (by simp [hcell])
    | some v =>
      obtain rfl := hw v hcell
      refine History.gc_of_not_superseded hcell fun u hcu hu => ?_
      refine History.ofList_eq_none.mpr fun e he => ?_
      refine History.ofList_eq_none.mp (hlater u hcu hu) e ?_
      rw [LevelFiles.entries_eq_pair _ level]
      exact List.mem_append_right _ (List.mem_append_left _ he)
  · rfl

theorem act_keeps (hx : x.Layered) (hj : job.Exact x) (hk : job.Keeps x k c w)
    (hret : job.Retains gcHorizon x k c w) (h : act cfg gcHorizon i x job = some (y, job')) :
    job'.Keeps y k c w := by
  rcases act_files h with ⟨hfiles, hunwritten, hclear⟩ | ⟨memSnapshot, l0, rfl, rfl, rfl⟩ |
    ⟨level, curr, next, merged, rfl, hgc, rfl, rfl⟩ | ⟨level, rfl, rfl, rfl⟩
  · exact ⟨by rw [hunwritten, hfiles]; exact hk.files, fun level hl => absurd hl (hclear level)⟩
  · obtain ⟨⟨ho, hs⟩, rfl⟩ := hj
    refine ⟨?_, fun level hl => by cases hl⟩
    change ofList (x.files.write 0 (mergeEntries memSnapshot _)).entries k c = some w
    rw [LevelFiles.ofList_write_zero ho hs (hx 0).1 (hx 0).2]
    exact hk.files
  · obtain ⟨rfl, rfl⟩ := hj
    have hbefore : ofList x.files.entries k c = some w := hk.files
    rw [LevelFiles.entries_eq_pair _ level, ofList_append, ofList_append,
      overlay_apply, overlay_apply] at hbefore
    suffices hafter : ofList (x.files.write (level + 1) merged).entries k c = some w ∧
        ofList (x.files.install level merged).entries k c = some w by
      refine ⟨hafter.1, fun n hn => ?_⟩
      obtain rfl : level = n := by simpa using hn
      exact hafter.2
    rw [LevelFiles.entries_write_succ, LevelFiles.entries_install]
    simp only [ofList_append, overlay_apply]
    cases habove : ofList (x.files.span 0 level) k c with
    | some v =>
      obtain rfl : v = w := by simpa [habove] using hbefore
      simp
    | none =>
      rw [habove, Option.none_or] at hbefore
      have hmerged := ofList_merged hx hret hgc fun v hv => by simpa [hv] using hbefore
      rw [ofList_append, overlay_apply] at hmerged hbefore
      simp only [Option.none_or, hmerged]
      refine ⟨?_, hbefore⟩
      rw [← Option.or_assoc, Option.or_self]
      exact hbefore
  · exact ⟨hk.cleared level rfl, fun n hn => by cases hn⟩

end LevelJob

section Tables

variable {ν ι : Type*} [DecidableEq ν]

instance : ResourceUse (EngineOp ν) ν where
  uses op table := match op with
    | .flushNonempty u => decide (u = table)
    | .flush u _ => decide (u = table)
    | .compact u _ => decide (u = table)
    | .truncateWal u => decide (u = table)
    | .truncateCommitLog => true
  opens := .flushNonempty

def jobOn (table : ν) : List (EngineOp ν) → LevelJob
  | .flush u job :: _ => if u = table then job else .done
  | .compact u job :: _ => if u = table then job else .done
  | _ => .done

/-- A table under the program that uses it: the memtable has been moved out, and the log holds what
the memtable and the entries moved out hold, until the log is to be truncated. -/
structure TableStore.Logged (x : TableStore ι) (table : ν) (p : List (EngineOp ν)) : Prop where
  ordered : Ordered x.memtable
  sorted : SortedVersions x.memtable
  walOrdered : Ordered x.wal
  layered : x.levels.Layered
  exact : (jobOn table p).Exact x.levels
  movedOut : InUse table p → x.memtable = []
  logged : p.head? ≠ some (.truncateWal table) →
    ofList (x.memtable ++ (jobOn table p).unwritten) = ofList x.wal.reverse

/-- A table holds a version twice over: in memory or the files, and in the log or the files. -/
structure TableStore.Keeps (x : TableStore ι) (table : ν) (p : List (EngineOp ν)) (k : ValueKey)
    (c : UInt64) (w : Option Row) : Prop where
  memory : ofList (x.memtable ++ ((jobOn table p).unwritten ++ x.levels.files.entries)) k c =
    some w
  log : ofList (x.wal.reverse ++ x.levels.files.entries) k c = some w
  cleared : ∀ level, jobOn table p = .compactClear level →
    ofList (x.levels.files.clear level).entries k c = some w

/-- Both, for all versions of interest that were written. -/
def TableStore.Fine (x : TableStore ι) (table : ν) (p : List (EngineOp ν)) (written : List MemEntry)
    (P : ValueKey → UInt64 → Option Row → Prop) : Prop :=
  x.Logged table p ∧ ∀ k c w, P k c w → ofList written k c = some w → x.Keeps table p k c w

def EngineOp.Fresh : EngineOp ν → Prop
  | .flush _ _ => False
  | .compact _ job => job = .compact
  | _ => True

/-- A program opens a table before it uses it, only its first operation has begun, and flushes and
compactions run their own jobs. -/
structure Legal (p : List (EngineOp ν)) : Prop where
  opensFirst : OpensFirst p
  fresh : ∀ op ∈ p.tail, op.Fresh
  flushes : ∀ table job, p.head? = some (.flush table job) → job.Flushes
  compacts : ∀ table job, p.head? = some (.compact table job) → job.unwritten = []

/-- A job of a program that is between two operations. -/
def Waiting (job : LevelJob) : Prop := job = .done ∨ job = .compact

theorem Legal.waiting {op : EngineOp ν} {rest : List (EngineOp ν)} (h : Legal (op :: rest))
    (table : ν) : Waiting (jobOn table rest) := by
  cases rest with
  | nil => exact .inl rfl
  | cons op' rest =>
    have hfresh := h.fresh op' List.mem_cons_self
    cases op' with
    | flush u job => exact hfresh.elim
    | compact u job =>
      obtain rfl : job = .compact := hfresh
      simp only [jobOn, Waiting]
      split <;> simp
    | _ => exact .inl rfl

theorem Waiting.unwritten {job : LevelJob} (h : Waiting job) : job.unwritten = [] := by
  rcases h with rfl | rfl <;> rfl

theorem Legal.tail {op : EngineOp ν} {rest : List (EngineOp ν)} (h : Legal (op :: rest)) :
    Legal rest := by
  refine ⟨h.opensFirst.tail, fun a ha => h.fresh a (List.mem_of_mem_tail ha), ?_, ?_⟩ <;>
    intro table job hhead
  · exact (h.fresh _ (List.mem_of_mem_head? hhead)).elim
  · obtain rfl : job = .compact := h.fresh _ (List.mem_of_mem_head? hhead)
    rfl

theorem inUse_cons {op : EngineOp ν} {rest : List (EngineOp ν)} {table : ν}
    (hu : ResourceUse.uses op table = false) : InUse table (op :: rest) ↔ InUse table rest := by
  refine inUse_cons_of_not_uses hu ?_
  rintro rfl
  simp [ResourceUse.uses, ResourceUse.opens] at hu

theorem jobOn_of_not_uses {op : EngineOp ν} {table : ν} (hu : ResourceUse.uses op table = false)
    (rest : List (EngineOp ν)) :
    jobOn table (op :: rest) = .done ∧ (op :: rest).head? ≠ some (.truncateWal table) := by
  cases op <;> simp_all [ResourceUse.uses, jobOn]

namespace TableStore

variable {x : TableStore ι} {table : ν} {p q : List (EngineOp ν)} {written : List MemEntry}
  {P : ValueKey → UInt64 → Option Row → Prop}

theorem Fine.shift (h : x.Fine table p written P) (hp : (jobOn table p).unwritten = [])
    (hq : Waiting (jobOn table q))
    (htruncate : p.head? = some (.truncateWal table) → q.head? = some (.truncateWal table))
    (huse : InUse table q → InUse table p ∨ x.memtable = []) : x.Fine table q written P := by
  obtain ⟨hl, hk⟩ := h
  refine ⟨⟨hl.ordered, hl.sorted, hl.walOrdered, hl.layered, ?_, ?_, ?_⟩, fun k c w hP hw => ?_⟩
  · rcases hq with hq | hq <;> rw [hq] <;> trivial
  · exact fun hu => (huse hu).elim hl.movedOut id
  · intro hhead
    rw [hq.unwritten, ← hp]
    exact hl.logged fun hp => hhead (htruncate hp)
  · refine ⟨?_, (hk k c w hP hw).log, fun level hc => ?_⟩
    · rw [hq.unwritten, ← hp]
      exact (hk k c w hP hw).memory
    · rcases hq with hq | hq <;> simp [hq] at hc

theorem Fine.pass (h : x.Fine table p written P) (huse : InUse table p)
    (hp : (jobOn table p).unwritten = []) (hhead : p.head? ≠ some (.truncateWal table))
    (hq : Waiting (jobOn table q)) :
    x.Fine table (if InUse table q then q else []) written P := by
  split_ifs
  · exact h.shift hp hq (fun heq => absurd heq hhead) fun _ => .inl huse
  · exact h.shift hp (.inl rfl) (fun heq => absurd heq hhead) fun _ => .inl huse

theorem Fine.put (h : x.Fine table [] written P) {e : MemEntry} (he : e.pk.isNaN = false)
    (bytes : Nat) : (x.put e bytes).Fine table [] (e :: written) P := by
  obtain ⟨hl, hk⟩ := h
  have hse : SortedVersions [e] := List.pairwise_singleton _ e
  have hoe : Ordered [e] := fun a ha => by rwa [List.mem_singleton.mp ha]
  have hmem : ofList (mergeEntries [e] x.memtable) = ofList (e :: x.memtable) := by
    rw [ofList_mergeEntries hoe hl.ordered (.inl ⟨hse, hl.sorted⟩), ← ofList_append,
      List.singleton_append]
  have hlogged : ofList x.memtable = ofList x.wal.reverse := by
    simpa [jobOn, LevelJob.unwritten] using hl.logged (by simp)
  have hwal : (x.wal ++ [e]).reverse = e :: x.wal.reverse := by simp
  refine ⟨⟨mergeEntries_ordered hoe hl.ordered, mergeEntries_sorted hoe hl.ordered hse hl.sorted,
    hl.walOrdered.append hoe, hl.layered, trivial, fun hu => absurd hu (not_inUse_nil table), ?_⟩, ?_⟩
  · intro _
    change ofList (mergeEntries [e] x.memtable ++ []) = ofList (x.wal ++ [e]).reverse
    rw [List.append_nil, hmem, hwal]
    funext k c
    rw [ofList_cons, ofList_cons, hlogged]
  · intro k c w hP hw
    rw [ofList_cons] at hw
    have hcell : ∀ es : List MemEntry,
        (¬ (Versioned.key e = k ∧ Versioned.ts e = c) → ofList es k c = some w) →
          ofList (e :: es) k c = some w := by
      intro es hes
      rw [ofList_cons]
      split_ifs at hw ⊢ with hv
      · exact hw
      · exact hes hv
    have hold : ¬ (Versioned.key e = k ∧ Versioned.ts e = c) → x.Keeps table [] k c w := by
      intro hv
      rw [if_neg hv] at hw
      exact hk k c w hP hw
    refine ⟨?_, ?_, fun level hc => by simp [jobOn] at hc⟩
    · change ofList (mergeEntries [e] x.memtable ++ _) k c = some w
      rw [ofList_append, hmem, ← ofList_append, List.cons_append]
      exact hcell _ fun hv => (hold hv).memory
    · change ofList ((x.wal ++ [e]).reverse ++ _) k c = some w
      rw [hwal, List.cons_append]
      exact hcell _ fun hv => (hold hv).log

theorem Fine.moveOut (h : x.Fine table [] written P) (rest : List (EngineOp ν)) :
    x.moveOut.Fine table (.flush table (.flush x.memtable) :: rest) written P := by
  obtain ⟨hl, hk⟩ := h
  have hjob : jobOn table (.flush table (.flush x.memtable) :: rest) = .flush x.memtable := by
    simp [jobOn]
  refine ⟨⟨fun e he => absurd he List.not_mem_nil, List.Pairwise.nil, hl.walOrdered, hl.layered, ?_,
    fun _ => rfl, fun _ => ?_⟩, fun k c w hP hw => ⟨?_, (hk k c w hP hw).log, fun level hc => ?_⟩⟩
  · rw [hjob]
    exact ⟨hl.ordered, hl.sorted⟩
  · rw [hjob]
    have := hl.logged (by simp)
    rwa [show (jobOn table ([] : List (EngineOp ν))).unwritten = [] from rfl, List.append_nil] at this
  · rw [hjob]
    exact (hk k c w hP hw).memory
  · simp [hjob] at hc

/-- A step of the job that the program runs on the table. A job that is done leaves the table to the
rest of the program. -/
theorem Fine.act {cfg : LsmConfig} {gcHorizon : UInt64} {i : ι} {y : LevelStore ι} {job' : LevelJob}
    (h : x.Fine table p written P) (huse : InUse table p)
    (hhead : p.head? ≠ some (.truncateWal table))
    (hact : (jobOn table p).act cfg gcHorizon i x.levels = some (y, job'))
    (hret : ∀ k c w, P k c w → (jobOn table p).Retains gcHorizon x.levels k c w)
    (hq : jobOn table q = job' ∨ job' = .done ∧ Waiting (jobOn table q))
    (hsame : q.head? ≠ some (.truncateWal table) → job'.unwritten = (jobOn table p).unwritten) :
    TableStore.Fine { x with levels := y } table q written P := by
  obtain ⟨hl, hk⟩ := h
  have hmem : x.memtable = [] := hl.movedOut huse
  have hunwritten : (jobOn table q).unwritten = job'.unwritten := by
    rcases hq with hq | ⟨rfl, hq⟩
    · rw [hq]
    · exact hq.unwritten
  have hlogged : ofList (jobOn table p).unwritten = ofList x.wal.reverse := by
    simpa [hmem] using hl.logged hhead
  refine ⟨⟨hl.ordered, hl.sorted, hl.walOrdered, LevelJob.act_layered hl.layered hl.exact hact, ?_,
    fun _ => hmem, fun hq => ?_⟩, fun k c w hP hw => ?_⟩
  · rcases hq with hq | ⟨-, hq | hq⟩
    · rw [hq]
      exact LevelJob.act_exact hl.exact hact
    · rw [hq]
      trivial
    · rw [hq]
      trivial
  · change ofList (x.memtable ++ _) = _
    rw [hmem, hunwritten, hsame hq]
    exact hlogged
  · have hbefore : (jobOn table p).Keeps x.levels k c w :=
      ⟨by simpa [hmem] using (hk k c w hP hw).memory, (hk k c w hP hw).cleared⟩
    have hafter := LevelJob.act_keeps hl.layered hl.exact hbefore (hret k c w hP) hact
    refine ⟨?_, ?_, fun level hc => ?_⟩
    · change ofList (x.memtable ++ _) k c = some w
      rw [hmem, hunwritten]
      exact hafter.files
    · have hfiles := hafter.files
      have hcell := hbefore.files
      rw [ofList_append, overlay_apply] at hcell hfiles
      rw [ofList_append, ← hlogged, overlay_apply]
      rcases LevelJob.act_unwritten hact with hu | hu
      · rwa [hu] at hfiles
      · rw [hu] at hfiles
        cases hv : ofList (jobOn table p).unwritten k c with
        | none => simpa [LevelJob.unwritten, History.empty] using hfiles
        | some v => simpa [hv] using hcell
    · rcases hq with hq | ⟨-, hq | hq⟩
      · exact hafter.cleared level (hq.symm.trans hc)
      · simp [hq] at hc
      · simp [hq] at hc

theorem Fine.truncate {rest : List (EngineOp ν)} (h : x.Fine table (.truncateWal table :: rest) written P)
    (huse : InUse table (.truncateWal table :: rest)) (hq : Waiting (jobOn table q)) :
    x.truncate.Fine table q written P := by
  obtain ⟨hl, hk⟩ := h
  have hmem : x.memtable = [] := hl.movedOut huse
  refine ⟨⟨hl.ordered, hl.sorted, fun e he => absurd he List.not_mem_nil, hl.layered, ?_,
    fun _ => hmem, fun _ => ?_⟩, fun k c w hP hw => ?_⟩
  · rcases hq with hq | hq <;> rw [hq] <;> trivial
  · change ofList (x.memtable ++ _) = _
    rw [hmem, hq.unwritten]
    rfl
  · have hfiles : ofList x.levels.files.entries k c = some w := by
      simpa [hmem, jobOn, LevelJob.unwritten] using (hk k c w hP hw).memory
    refine ⟨?_, hfiles, fun level hc => ?_⟩
    · change ofList (x.memtable ++ _) k c = some w
      rw [hmem, hq.unwritten]
      exact hfiles
    · rcases hq with hq | hq <;> simp [hq] at hc

end TableStore

end Tables

namespace Engine

variable {ν ι : Type*} [DecidableEq ν] {cfg : EngineConfig ν}
  {P : ν → ValueKey → UInt64 → Option Row → Prop}

def Free (s : Engine ν ι) (table : ν) : Prop := ∀ i, ¬ InUse table (s.programs i)

/-- What a step is asked for: no write to a table and no start of a flush of it while a flush or a
checkpoint of another thread has moved its memtable out and has not truncated its last log, and no
key that is a `NaN`. -/
def Orderly (cfg : EngineConfig ν) (s : Engine ν ι) : EngineAction ν ι → Prop
  | .appendRow _ table row _ =>
    (extractKey row (cfg.columns table)).isNaN = false ∧ s.Free table
  | .deleteRowByKey table key _ => key.isNaN = false ∧ s.Free table
  | .flushMemtable _ table => s.Free table
  | .advance i _ => ∀ table, (s.programs i).head? = some (.flushNonempty table) →
      ∀ j, j ≠ i → ¬ InUse table (s.programs j)
  | _ => True

instance Orderly.decidable [Fintype ν] [Fintype ι] [DecidableEq ι] (cfg : EngineConfig ν)
    (s : Engine ν ι) : (a : EngineAction ν ι) → Decidable (s.Orderly cfg a)
  | .appendRow _ table _ _ => inferInstanceAs (Decidable (_ = false ∧ ∀ i, ¬ InUse table (s.programs i)))
  | .deleteRowByKey table _ _ => inferInstanceAs (Decidable (_ = false ∧ ∀ i, ¬ InUse table (s.programs i)))
  | .flushMemtable _ table => inferInstanceAs (Decidable (∀ i, ¬ InUse table (s.programs i)))
  | .advance i _ => inferInstanceAs (Decidable (∀ table, (s.programs i).head? = some _ →
      ∀ j, j ≠ i → ¬ InUse table (s.programs j)))
  | .markCommitted _ | .syncWal _ | .syncCommitLog | .checkpoint _ => .isTrue trivial

/-- The version pass of a step drops no version of interest. -/
def Retaining (P : ν → ValueKey → UInt64 → Option Row → Prop) (s : Engine ν ι) :
    EngineAction ν ι → Prop
  | .advance i gcHorizon => ∀ table job, (s.programs i).head? = some (.compact table job) →
      ∀ k c w, P table k c w → job.Retains gcHorizon (s.tables table).levels k c w
  | _ => True

structure Inv (P : ν → ValueKey → UInt64 → Option Row → Prop) (s : Engine ν ι) : Prop where
  legal : ∀ i, Legal (s.programs i)
  fine : ∀ table, ∃ p, Owns s.programs table p ∧
    (s.tables table).Fine table p (s.written table) (P table)

theorem Inv.fine_of_free {s : Engine ν ι} (h : s.Inv P) {table : ν} (hfree : s.Free table) :
    (s.tables table).Fine table [] (s.written table) (P table) := by
  obtain ⟨p, hp, hfine⟩ := h.fine table
  rwa [hp.eq_nil hfree] at hfine

theorem Inv.fine_of_inUse {s : Engine ν ι} (h : s.Inv P) {table : ν} {i : ι}
    (huse : InUse table (s.programs i)) :
    (s.tables table).Fine table (s.programs i) (s.written table) (P table) ∧
      ∀ j, j ≠ i → ¬ InUse table (s.programs j) := by
  obtain ⟨p, hp, hfine⟩ := h.fine table
  obtain ⟨rfl, hothers⟩ := hp.of_inUse huse
  exact ⟨hfine, hothers⟩

section Steps

variable {s s' : Engine ν ι} {i : ι} {q rest : List (EngineOp ν)} {op : EngineOp ν}

theorem Inv.put (h : s.Inv P) {table : ν} {e : MemEntry} (he : e.pk.isNaN = false)
    (hfree : s.Free table) (bytes : Nat) : (s.put table e bytes).Inv P := by
  refine ⟨h.legal, fun u => ?_⟩
  by_cases hu : u = table
  · subst hu
    refine ⟨[], .inl ⟨rfl, hfree⟩, ?_⟩
    simp only [Engine.put, setTable, Function.update_self]
    exact (h.fine_of_free hfree).put he bytes
  · obtain ⟨p, hp, hfine⟩ := h.fine u
    refine ⟨p, hp, ?_⟩
    simpa only [Engine.put, setTable, Function.update_of_ne hu] using hfine

variable [DecidableEq ι]

theorem Inv.update (h : s.Inv P) (hlegal : Legal q) (hprograms : s'.programs = Function.update s.programs i q)
    (hwritten : s'.written = s.written)
    (hother : ∀ table, ¬ InUse table (s.programs i) → ¬ InUse table q →
      s'.tables table = s.tables table)
    (hfree : ∀ table, InUse table q → ¬ InUse table (s.programs i) →
      ∀ j, j ≠ i → ¬ InUse table (s.programs j))
    (hheld : ∀ table, InUse table (s.programs i) →
      (s.tables table).Fine table (s.programs i) (s.written table) (P table) →
      (s'.tables table).Fine table (if InUse table q then q else []) (s.written table) (P table))
    (hopened : ∀ table, InUse table q → ¬ InUse table (s.programs i) →
      (s.tables table).Fine table [] (s.written table) (P table) →
      (s'.tables table).Fine table q (s.written table) (P table)) : s'.Inv P := by
  refine ⟨fun j => ?_, fun table => ?_⟩
  · rw [hprograms]
    by_cases hj : j = i
    · subst hj
      rwa [Function.update_self]
    · rw [Function.update_of_ne hj]
      exact h.legal j
  · rw [hprograms, hwritten]
    by_cases huse : InUse table (s.programs i)
    · obtain ⟨hfine, hothers⟩ := h.fine_of_inUse huse
      exact ⟨_, owns_update hothers q, hheld table huse hfine⟩
    · by_cases hq : InUse table q
      · have hothers := hfree table hq huse
        have hnone : s.Free table := fun j => by
          by_cases hj : j = i
          · rwa [hj]
          · exact hothers j hj
        refine ⟨q, ?_, hopened table hq huse (h.fine_of_free hnone)⟩
        have howns := owns_update hothers q
        rwa [if_pos hq] at howns
      · obtain ⟨p, hp, hfine⟩ := h.fine table
        exact ⟨p, hp.update_of_not_inUse huse hq, by rwa [hother table huse hq]⟩

end Steps

end Engine

end CoroDB
