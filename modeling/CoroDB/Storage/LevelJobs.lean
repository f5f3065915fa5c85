import CoroDB.Framework.Threads
import CoroDB.Storage.Compaction

/-!
# Concurrent flushes and compactions

`flush_memtable_internal` and `compact_levels` as threads that share the level files of a table, one
file operation to a step.
-/

namespace CoroDB

open Framework

/-- The level files of a table and the job that holds its `compaction_mutex`. -/
structure LevelStore (ι : Type*) where
  files : LevelFiles
  holder : Option ι

/-- Where a job is, with what it has read so far. -/
inductive LevelJob where
  | flush (memSnapshot : List MemEntry)
  | flushWrite (memSnapshot l0 : List MemEntry)
  | compact
  | compactLock
  | compactLevel (level : Nat)
  | compactNext (level : Nat) (curr : List MemEntry)
  | compactWrite (level : Nat) (curr next : List MemEntry)
  | compactClear (level : Nat)
  | compactDecide (level : Nat)
  | done
  deriving DecidableEq

namespace LevelJob

variable {ι : Type*}

def release (x : LevelStore ι) : Option (LevelStore ι × LevelJob) :=
  some ({ x with holder := none }, .done)

/-- The next file operation of a job; none at its end, or when its version pass does not end. -/
def act (cfg : LsmConfig) (gcHorizon : UInt64) (i : ι) (x : LevelStore ι) :
    LevelJob → Option (LevelStore ι × LevelJob)
  | flush memSnapshot => some (x, flushWrite memSnapshot (x.files.entriesAt 0))
  | flushWrite memSnapshot l0 =>
    some ({ x with files := x.files.write 0 (mergeEntries memSnapshot l0) }, done)
  | compact => some (x, if l0Full cfg x.files then compactLock else done)
  | compactLock =>
    match x.holder with
    | some _ => some (x, done)
    | none => some ({ x with holder := some i }, compactLevel 0)
  | compactLevel level =>
    if level ≤ cfg.lsmMaxLevel then
      match x.files.file level with
      | none => release x
      | some curr => some (x, compactNext level curr)
    else release x
  | compactNext level curr => some (x, compactWrite level curr (x.files.entriesAt (level + 1)))
  | compactWrite level curr next =>
    (gcPass gcHorizon (mergeEntries curr next)).map fun merged =>
      ({ x with files := x.files.write (level + 1) merged }, compactClear level)
  | compactClear level => some ({ x with files := x.files.clear level }, compactDecide level)
  | compactDecide level =>
    match x.files.file (level + 1) with
    | none => release x
    | some next => if cascades cfg level next then some (x, compactLevel (level + 1)) else release x
  | done => none

def unwritten : LevelJob → List MemEntry
  | flush memSnapshot => memSnapshot
  | flushWrite memSnapshot _ => memSnapshot
  | _ => []

def copiesL0 : LevelJob → Bool
  | flushWrite _ _ => true
  | compactNext level _ => level == 0
  | compactWrite level _ _ => level == 0
  | compactClear level => level == 0
  | _ => false

def writesL0 : LevelJob → Bool
  | flushWrite _ _ => true
  | _ => false

def begins : LevelJob → Bool
  | flush _ => true
  | compact => true
  | done => true
  | _ => false

/-- What a job knows where it is: a copy of level 0 to be written back has all versions of level 0,
and a compaction, which alone changes the deeper levels, has exact copies of them. -/
def Knows (i : ι) (x : LevelStore ι) : LevelJob → Prop
  | flush memSnapshot => Ordered memSnapshot
  | flushWrite memSnapshot l0 =>
    Ordered memSnapshot ∧ Ordered l0 ∧ Carries (x.files.entriesAt 0) l0
  | compactLevel _ => x.holder = some i
  | compactNext level curr =>
    x.holder = some i ∧ Ordered curr ∧ Carries (x.files.entriesAt level) curr
  | compactWrite level curr next =>
    x.holder = some i ∧ Ordered curr ∧ Ordered next ∧
      Carries (x.files.entriesAt level) curr ∧ Carries (x.files.entriesAt (level + 1)) next
  | compactClear level =>
    x.holder = some i ∧ Carries (x.files.entriesAt level) (x.files.entriesAt (level + 1))
  | compactDecide _ => x.holder = some i
  | _ => True

def locks : LevelJob → Bool
  | compactLevel _ => true
  | compactNext _ _ => true
  | compactWrite _ _ _ => true
  | compactClear _ => true
  | compactDecide _ => true
  | _ => false

variable {cfg : LsmConfig} {gcHorizon : UInt64} {i j : ι} {x y : LevelStore ι} {job job' : LevelJob}

theorem Knows.holder (h : job.Knows i x) (hl : job.locks = true) : x.holder = some i := by
  cases job <;> simp_all [locks, Knows]

theorem Knows.frame_of_not_locks (h : job.Knows i x) (hl : job.locks = false)
    (hl0 : job.copiesL0 = true → Carries (y.files.entriesAt 0) (x.files.entriesAt 0)) :
    job.Knows i y := by
  cases job with
  | flushWrite memSnapshot l0 => exact ⟨h.1, h.2.1, (hl0 rfl).trans h.2.2⟩
  | flush memSnapshot => exact h
  | _ => simp_all [locks, Knows]

theorem Knows.frame_of_locks (h : job.Knows i x) (hl : job.locks = true)
    (hholder : y.holder = x.holder)
    (hfiles : ∀ level, level ≠ 0 ∨ job.copiesL0 = true →
      y.files.entriesAt level = x.files.entriesAt level) :
    job.Knows i y := by
  have hlevel : ∀ level, level ≠ 0 ∨ (level == 0) = true := fun level => by
    cases level <;> simp
  cases job with
  | compactNext level curr => simpa [Knows, hholder, hfiles level (hlevel level)] using h
  | compactWrite level curr next =>
    simpa [Knows, hholder, hfiles level (hlevel level),
      hfiles (level + 1) (.inl (Nat.succ_ne_zero level))] using h
  | compactClear level =>
    simpa [Knows, hholder, hfiles level (hlevel level),
      hfiles (level + 1) (.inl (Nat.succ_ne_zero level))] using h
  | compactLevel level => exact hholder.trans h
  | compactDecide level => exact hholder.trans h
  | _ => simp [locks] at hl

theorem act_of_not_locks (hl : job.locks = false) (h : act cfg gcHorizon i x job = some (y, job')) :
    (x.holder = none ∨ y.holder = x.holder) ∧ ∀ level, level ≠ 0 ∨ job.writesL0 = false →
      y.files.entriesAt level = x.files.entriesAt level := by
  cases job with
  | flush memSnapshot =>
    obtain ⟨rfl, -⟩ := Prod.mk.inj (Option.some.inj h)
    exact ⟨.inr rfl, fun _ _ => rfl⟩
  | flushWrite memSnapshot l0 =>
    obtain ⟨rfl, -⟩ := Prod.mk.inj (Option.some.inj h)
    refine ⟨.inr rfl, fun level hlevel => LevelFiles.entriesAt_write_of_ne ?_ _⟩
    exact hlevel.resolve_right (by simp [writesL0])
  | compact =>
    obtain ⟨rfl, -⟩ := Prod.mk.inj (Option.some.inj h)
    exact ⟨.inr rfl, fun _ _ => rfl⟩
  | compactLock =>
    simp only [act] at h
    split at h <;> obtain ⟨rfl, -⟩ := Prod.mk.inj (Option.some.inj h)
    · exact ⟨.inr rfl, fun _ _ => rfl⟩
    · exact ⟨.inl ‹_›, fun _ _ => rfl⟩
  | done => simp [act] at h
  | _ => simp [locks] at hl

/-- What a step does to the files: a flush replaces level 0, a compaction writes the next level and
then clears the current one, every other step leaves them and the unwritten entries alone. -/
theorem act_files (h : act cfg gcHorizon i x job = some (y, job')) :
    (y.files = x.files ∧ job'.unwritten = job.unwritten ∧ ∀ level, job' ≠ compactClear level) ∨
      (∃ memSnapshot l0, job = flushWrite memSnapshot l0 ∧
        y = { x with files := x.files.write 0 (mergeEntries memSnapshot l0) } ∧ job' = done) ∨
      (∃ level curr next merged, job = compactWrite level curr next ∧
        gcPass gcHorizon (mergeEntries curr next) = some merged ∧
        y = { x with files := x.files.write (level + 1) merged } ∧ job' = compactClear level) ∨
      ∃ level, job = compactClear level ∧ y = { x with files := x.files.clear level } ∧
        job' = compactDecide level := by
  cases job with
  | flush memSnapshot =>
    obtain ⟨rfl, rfl⟩ := Prod.mk.inj (Option.some.inj h)
    exact .inl ⟨rfl, rfl, by simp⟩
  | flushWrite memSnapshot l0 =>
    obtain ⟨rfl, rfl⟩ := Prod.mk.inj (Option.some.inj h)
    exact .inr (.inl ⟨memSnapshot, l0, rfl, rfl, rfl⟩)
  | compact =>
    obtain ⟨rfl, rfl⟩ := Prod.mk.inj (Option.some.inj h)
    exact .inl ⟨rfl, by split <;> rfl, by split <;> simp⟩
  | compactLock =>
    simp only [act] at h
    split at h <;> obtain ⟨rfl, rfl⟩ := Prod.mk.inj (Option.some.inj h) <;> exact .inl ⟨rfl, rfl, by simp⟩
  | compactLevel level =>
    simp only [act, release] at h
    split at h
    · split at h <;> obtain ⟨rfl, rfl⟩ := Prod.mk.inj (Option.some.inj h) <;> exact .inl ⟨rfl, rfl, by simp⟩
    · obtain ⟨rfl, rfl⟩ := Prod.mk.inj (Option.some.inj h)
      exact .inl ⟨rfl, rfl, by simp⟩
  | compactNext level curr =>
    obtain ⟨rfl, rfl⟩ := Prod.mk.inj (Option.some.inj h)
    exact .inl ⟨rfl, rfl, by simp⟩
  | compactWrite level curr next =>
    obtain ⟨merged, hgc, heq⟩ := Option.map_eq_some_iff.mp h
    obtain ⟨rfl, rfl⟩ := Prod.mk.inj heq
    exact .inr (.inr (.inl ⟨level, curr, next, merged, rfl, hgc, rfl, rfl⟩))
  | compactClear level =>
    obtain ⟨rfl, rfl⟩ := Prod.mk.inj (Option.some.inj h)
    exact .inr (.inr (.inr ⟨level, rfl, rfl, rfl⟩))
  | compactDecide level =>
    simp only [act, release] at h
    split at h
    · obtain ⟨rfl, rfl⟩ := Prod.mk.inj (Option.some.inj h)
      exact .inl ⟨rfl, rfl, by simp⟩
    · split at h <;> obtain ⟨rfl, rfl⟩ := Prod.mk.inj (Option.some.inj h) <;> exact .inl ⟨rfl, rfl, by simp⟩
  | done => simp [act] at h

theorem act_l0 (h : act cfg gcHorizon i x job = some (y, job')) (hw : job.writesL0 = false) :
    Carries (y.files.entriesAt 0) (x.files.entriesAt 0) := by
  rcases act_files h with ⟨hfiles, -⟩ | ⟨_, _, rfl, -⟩ | ⟨level, _, _, _, -, -, rfl, -⟩ |
    ⟨level, -, rfl, -⟩
  · rw [hfiles]
    exact Carries.refl _
  · simp [writesL0] at hw
  · rw [LevelFiles.entriesAt_write_of_ne (Nat.succ_ne_zero level).symm]
    exact Carries.refl _
  · by_cases hlevel : level = 0
    · subst hlevel
      simp [LevelFiles.clear_entriesAt_self, Carries]
    · rw [LevelFiles.entriesAt_congr (LevelFiles.clear_file_of_ne (Ne.symm hlevel))]
      exact Carries.refl _

end LevelJob

/-- No key of the files is a `NaN`. -/
def LevelStore.Sound {ι : Type*} (x : LevelStore ι) : Prop :=
  ∀ level, Ordered (x.files.entriesAt level)

namespace LevelJob

variable {ι : Type*} {cfg : LsmConfig} {gcHorizon : UInt64} {i : ι} {x y : LevelStore ι}
  {job job' : LevelJob}

theorem act_sound (hx : x.Sound) (hk : job.Knows i x)
    (h : act cfg gcHorizon i x job = some (y, job')) : y.Sound := by
  have hwrite : ∀ {es : List MemEntry} (level : Nat), Ordered es →
      (⟨x.files.write level es, x.holder⟩ : LevelStore ι).Sound := by
    intro es level hes n
    by_cases hn : n = level
    · subst hn
      rwa [LevelFiles.entriesAt_write_self]
    · rw [LevelFiles.entriesAt_write_of_ne hn]
      exact hx n
  rcases act_files h with ⟨hfiles, -⟩ | ⟨_, _, rfl, rfl, -⟩ | ⟨level, _, _, _, rfl, hgc, rfl, -⟩ |
    ⟨level, rfl, rfl, -⟩
  · intro level
    rw [hfiles]
    exact hx level
  · exact hwrite 0 (mergeEntries_ordered hk.1 hk.2.1)
  · exact hwrite (level + 1)
      ((mergeEntries_ordered hk.2.1 hk.2.2.1).subset (gcPass_sublist hgc).subset)
  · intro n
    by_cases hn : n = level
    · subst hn
      simp [LevelFiles.clear_entriesAt_self, Ordered]
    · rw [LevelFiles.entriesAt_congr (LevelFiles.clear_file_of_ne hn)]
      exact hx n

/-- A step establishes what its job knows next. -/
theorem act_knows (hx : x.Sound) (hk : job.Knows i x) (h : act cfg 0 i x job = some (y, job')) :
    job'.Knows i y := by
  cases job with
  | flush memSnapshot =>
    obtain ⟨rfl, rfl⟩ := Prod.mk.inj (Option.some.inj h)
    exact ⟨hk, hx 0, Carries.refl _⟩
  | flushWrite memSnapshot l0 =>
    obtain ⟨-, rfl⟩ := Prod.mk.inj (Option.some.inj h)
    trivial
  | compact =>
    obtain ⟨-, rfl⟩ := Prod.mk.inj (Option.some.inj h)
    split <;> trivial
  | compactLock =>
    simp only [act] at h
    split at h <;> obtain ⟨rfl, rfl⟩ := Prod.mk.inj (Option.some.inj h)
    · trivial
    · rfl
  | compactLevel level =>
    simp only [act, release] at h
    split at h
    · split at h <;> obtain ⟨rfl, rfl⟩ := Prod.mk.inj (Option.some.inj h)
      · trivial
      · rename_i curr hcurr
        obtain rfl := LevelFiles.entriesAt_of_file hcurr
        exact ⟨hk, hx level, Carries.refl _⟩
    · obtain ⟨-, rfl⟩ := Prod.mk.inj (Option.some.inj h)
      trivial
  | compactNext level curr =>
    obtain ⟨rfl, rfl⟩ := Prod.mk.inj (Option.some.inj h)
    exact ⟨hk.1, hk.2.1, hx (level + 1), hk.2.2, Carries.refl _⟩
  | compactWrite level curr next =>
    rw [act, gcPass_zero] at h
    obtain ⟨rfl, rfl⟩ := Prod.mk.inj (Option.some.inj h)
    refine ⟨hk.1, ?_⟩
    rw [LevelFiles.entriesAt_write_of_ne (Nat.lt_succ_self level).ne, LevelFiles.entriesAt_write_self]
    exact hk.2.2.2.1.trans (carries_mergeEntries_left curr next)
  | compactClear level =>
    obtain ⟨rfl, rfl⟩ := Prod.mk.inj (Option.some.inj h)
    exact hk.1
  | compactDecide level =>
    simp only [act, release] at h
    split at h
    · obtain ⟨-, rfl⟩ := Prod.mk.inj (Option.some.inj h)
      trivial
    · split at h <;> obtain ⟨rfl, rfl⟩ := Prod.mk.inj (Option.some.inj h)
      · exact hk
      · trivial
  | done => simp [act] at h

end LevelJob

section Jobs

variable {ι : Type*} {cfg : LsmConfig}

abbrev LevelJobs (ι : Type*) := Threads ι (LevelStore ι) LevelJob

/-- No flush replaces level 0 while another job holds a copy of it. -/
def LevelJobs.Undisturbed (s : LevelJobs ι) (i : ι) : Prop :=
  (s.locals i).writesL0 = true → ∀ j, j ≠ i → (s.locals j).copiesL0 = false

instance [DecidableEq ι] [Fintype ι] (s : LevelJobs ι) (i : ι) : Decidable (s.Undisturbed i) :=
  inferInstanceAs (Decidable (_ → ∀ j, j ≠ i → _))

/-- A version is in a level file, or in a snapshot that a flush has not written yet. -/
def LevelJobs.Kept (s : LevelJobs ι) (e : MemEntry) : Prop :=
  (∃ level, HasVersion (s.shared.files.entriesAt level) e) ∨
    ∃ i, HasVersion (s.locals i).unwritten e

abbrev LevelJobs.Inv (s : LevelJobs ι) : Prop :=
  s.Annotated LevelStore.Sound fun i x job => job.Knows i x

variable {s s' : LevelJobs ι} {i : ι}

theorem LevelJobs.knows_of_other {j : ι} {y : LevelStore ι} {job' : LevelJob} (hs : s.Inv)
    (hG : s.Undisturbed i) (h : LevelJob.act cfg 0 i s.shared (s.locals i) = some (y, job'))
    (hj : j ≠ i) : (s.locals j).Knows j y := by
  have hkj := hs.2 j
  have hwrites : (s.locals j).copiesL0 = true → (s.locals i).writesL0 = false := fun hcopy => by
    by_contra hw
    simp [hG (Bool.not_eq_false _ ▸ hw) j hj] at hcopy
  cases hl : (s.locals j).locks with
  | false => exact hkj.frame_of_not_locks hl fun hcopy => LevelJob.act_l0 h (hwrites hcopy)
  | true =>
    have hholder := hkj.holder hl
    have hnot : (s.locals i).locks = false := by
      by_contra hli
      have := (hs.2 i).holder (Bool.not_eq_false _ ▸ hli)
      exact hj (Option.some.inj (hholder.symm.trans this))
    obtain ⟨hlock, hfiles⟩ := LevelJob.act_of_not_locks hnot h
    exact hkj.frame_of_locks hl (hlock.resolve_left (by simp [hholder]))
      fun level hlevel => hfiles level (hlevel.imp_right hwrites)

theorem LevelJobs.inv_of_begins (hsound : s.shared.Sound) (hbegin : ∀ i, (s.locals i).begins = true)
    (hsnap : ∀ i, Ordered (s.locals i).unwritten) : s.Inv := by
  refine ⟨hsound, fun i => ?_⟩
  have hb := hbegin i
  have ho := hsnap i
  cases hjob : s.locals i with
  | flush memSnapshot =>
    rw [hjob] at ho
    exact ho
  | compact => trivial
  | done => trivial
  | _ => simp [hjob, LevelJob.begins] at hb

variable [DecidableEq ι]

theorem LevelJobs.inv_step (hs : s.Inv) (hG : s.Undisturbed i)
    (h : s.step (LevelJob.act cfg 0) i = some s') : s'.Inv :=
  Threads.annotated_step
    (fun _ i _ _ hs _ hact =>
      ⟨LevelJob.act_sound hs.1 (hs.2 i) hact, LevelJob.act_knows hs.1 (hs.2 i) hact⟩)
    (fun _ _ _ _ _ hs hG hact hj => LevelJobs.knows_of_other hs hG hact hj) hs hG h

/-- A step loses no version. -/
theorem LevelJobs.kept_step {e : MemEntry} (hs : s.Inv) (h : s.step (LevelJob.act cfg 0) i = some s')
    (he : s.Kept e) : s'.Kept e := by
  obtain ⟨y, job', hact, rfl⟩ := Threads.step_eq_some h
  have hki := hs.2 i
  have hother : ∀ j, j ≠ i → HasVersion (s.locals j).unwritten e →
      LevelJobs.Kept ⟨y, Function.update s.locals i job'⟩ e :=
    fun j hj hv => .inr ⟨j, by simpa [hj] using hv⟩
  rcases LevelJob.act_files hact with ⟨hfiles, hunwritten, -⟩ | ⟨memSnapshot, l0, hjob, rfl, rfl⟩ |
    ⟨level, curr, next, merged, hjob, hgc, rfl, rfl⟩ | ⟨level, hjob, rfl, rfl⟩
  · rcases he with ⟨level, hv⟩ | ⟨j, hv⟩
    · exact .inl ⟨level, by simpa [hfiles] using hv⟩
    · by_cases hj : j = i
      · subst hj
        exact .inr ⟨j, by simpa [hunwritten] using hv⟩
      · exact hother j hj hv
  · rw [hjob] at hki
    rcases he with ⟨level, hv⟩ | ⟨j, hv⟩
    · by_cases hlevel : level = 0
      · subst hlevel
        refine .inl ⟨0, ?_⟩
        simpa using (hki.2.2.trans (carries_mergeEntries_right hki.1 hki.2.1)).hasVersion hv
      · exact .inl ⟨level, by simpa [LevelFiles.entriesAt_write_of_ne hlevel] using hv⟩
    · by_cases hj : j = i
      · subst hj
        rw [hjob] at hv
        refine .inl ⟨0, ?_⟩
        simpa using (carries_mergeEntries_left memSnapshot l0).hasVersion hv
      · exact hother j hj hv
  · rw [hjob] at hki
    obtain rfl := Option.some.inj ((gcPass_zero _).symm.trans hgc)
    rcases he with ⟨n, hv⟩ | ⟨j, hv⟩
    · by_cases hn : n = level + 1
      · subst hn
        refine .inl ⟨level + 1, ?_⟩
        simpa using
          (hki.2.2.2.2.trans (carries_mergeEntries_right hki.2.1 hki.2.2.1)).hasVersion hv
      · exact .inl ⟨n, by simpa [LevelFiles.entriesAt_write_of_ne hn] using hv⟩
    · refine hother j (fun hj => ?_) hv
      subst hj
      simp [hjob, LevelJob.unwritten, HasVersion] at hv
  · rw [hjob] at hki
    have hclear : ∀ n, n ≠ level →
        (s.shared.files.clear level).entriesAt n = s.shared.files.entriesAt n :=
      fun n hn => LevelFiles.entriesAt_congr (LevelFiles.clear_file_of_ne hn)
    rcases he with ⟨n, hv⟩ | ⟨j, hv⟩
    · by_cases hn : n = level
      · subst hn
        exact .inl ⟨n + 1, by simpa [hclear (n + 1) (by omega)] using hki.2.hasVersion hv⟩
      · exact .inl ⟨n, by simpa [hclear n hn] using hv⟩
    · refine hother j (fun hj => ?_) hv
      subst hj
      simp [hjob, LevelJob.unwritten, HasVersion] at hv

/-- Once all jobs of an undisturbed run are done, every version of the level files and of the flushed
snapshots is in some level file. -/
theorem LevelJobs.versions_kept {t : LevelJobs ι} {as : List ι} (hsound : s.shared.Sound)
    (hbegin : ∀ i, (s.locals i).begins = true) (hsnap : ∀ i, Ordered (s.locals i).unwritten)
    (hguard : Guarded (Threads.step (LevelJob.act cfg 0)) LevelJobs.Undisturbed s as)
    (hrun : run (Threads.step (LevelJob.act cfg 0)) s as = some t) (hdone : ∀ i, t.locals i = .done) :
    ∀ e, ((∃ level, e ∈ s.shared.files.entriesAt level) ∨ ∃ i, e ∈ (s.locals i).unwritten) →
      ∃ level, ∃ x ∈ t.shared.files.entriesAt level,
        valueEq x.pk e.pk = true ∧ x.commitTs = e.commitTs := by
  intro e he
  have hkept : s.Kept e := he.imp (fun ⟨level, h⟩ => ⟨level, hasVersion_of_mem h⟩)
    fun ⟨i, h⟩ => ⟨i, hasVersion_of_mem h⟩
  have hthroughout : Throughout (Threads.step (LevelJob.act cfg 0))
      (fun s : LevelJobs ι => s.Inv ∧ s.Kept e) s as :=
    hguard.throughout (fun _ _ _ hs hG h => ⟨inv_step hs.1 hG h, kept_step hs.1 h hs.2⟩)
      ⟨inv_of_begins hsound hbegin hsnap, hkept⟩
  obtain ⟨hinv, hkept⟩ := hthroughout.last hrun
  have hepk : e.pk.isNaN = false :=
    he.elim (fun ⟨level, h⟩ => hsound level e h) fun ⟨i, h⟩ => hsnap i e h
  rcases hkept with ⟨level, x, hx, hk, ht⟩ | ⟨i, x, hx, -⟩
  · exact ⟨level, x, hx, (valueEq_iff (hinv.1 level x hx) hepk).mpr hk, ht⟩
  · simp [hdone i, LevelJob.unwritten] at hx

/-- One key column, the smallest threshold that every file reaches, one level to merge into. -/
def oneLevel : LsmConfig := ⟨[⟨[105, 100], .int64, false, true⟩], 4096, 1⟩

def firstRow : MemEntry := ⟨.int 1, ⟨[.int 1]⟩, false, 1⟩

def secondRow : MemEntry := ⟨.int 2, ⟨[.int 2]⟩, false, 2⟩

def twoFlushes : LevelJobs Bool :=
  ⟨⟨LevelFiles.fresh, none⟩, fun b => .flush [if b then secondRow else firstRow]⟩

def flushAndCompaction : LevelJobs Bool :=
  ⟨⟨LevelFiles.fresh, none⟩, fun b => if b then .compact else .flush [firstRow]⟩

theorem LevelJobs.versions_kept_in_turn :
    ∃ t, run (Threads.step (LevelJob.act oneLevel 0)) twoFlushes [false, false, true, true] = some t ∧
      ∃ level, ∃ x ∈ t.shared.files.entriesAt level,
        valueEq x.pk firstRow.pk = true ∧ x.commitTs = firstRow.commitTs := by
  have hsound : twoFlushes.shared.Sound := LevelFiles.forall_entriesAt (by decide) (by decide)
  have hguard : Guarded (Threads.step (LevelJob.act oneLevel 0)) LevelJobs.Undisturbed twoFlushes
      [false, false, true, true] := by decide
  exact ⟨_, rfl, LevelJobs.versions_kept hsound (by decide) (by decide) hguard rfl (by decide)
    firstRow (.inr ⟨false, by decide⟩)⟩

/-- Both flushes read level 0 before either writes it, and the first row is lost; a compaction that
has read level 0 before a flush writes it clears the flushed row. -/
theorem LevelJobs.concurrent_flush_loses :
    (∃ t, run (Threads.step (LevelJob.act oneLevel 0)) twoFlushes [false, true, false, true] = some t ∧
        (∀ i, t.locals i = .done) ∧ t.shared.files.entries = [secondRow]) ∧
      ∃ t, run (Threads.step (LevelJob.act oneLevel 0)) flushAndCompaction
          [true, true, true, true, true, false, false, true, true] = some t ∧
        (∀ i, t.locals i = .done) ∧ t.shared.files.entries = [] := by
  have hfull : l0Full oneLevel LevelFiles.fresh = true := l0Full_of_threshold_le rfl (by decide)
  have hcheck : Threads.step (LevelJob.act oneLevel 0) flushAndCompaction true =
      some ⟨⟨LevelFiles.fresh, none⟩,
        Function.update flushAndCompaction.locals true .compactLock⟩ :=
    Threads.step_of_act (by simp [LevelJob.act, flushAndCompaction, hfull])
  refine ⟨⟨_, rfl, by decide, by decide⟩, ?_⟩
  rw [run, hcheck, Option.bind_some]
  exact ⟨_, rfl, by decide, by decide⟩

end Jobs

end CoroDB
