import CoroDB.Storage.EngineSteps

/-!
# Durability of acknowledged rows

A row is acknowledged once no record of its version waits for a sync and its timestamp is in the
synced part of the commit log.
-/

namespace CoroDB

open Framework

def EngineOp.merges {ν : Type*} [DecidableEq ν] (table : ν) : EngineOp ν → Bool
  | .compact u (.compactWrite _ _ _) => u = table
  | _ => false

namespace Engine

variable {ν ι : Type*} [DecidableEq ν]

/-- The last write of a version was this row, every record of the version in the log is synced, and
the timestamp has been committed. -/
def Acknowledged (s : Engine ν ι) (table : ν) (k : ValueKey) (c : UInt64) (row : Row) : Prop :=
  History.ofList (s.written table) k c = some (some row) ∧
    (∀ e ∈ (s.tables table).wal.drop (s.tables table).walSynced,
      valueKey e.pk = k → e.commitTs ≠ c) ∧
    (c = 0 ∨ c ∈ s.commitLog.take s.commitSynced)

/-- Whatever a crash leaves, as long as it leaves the synced records, recovery finds the row. -/
def Recovers (s : Engine ν ι) (table : ν) (k : ValueKey) (c : UInt64) (row : Row) : Prop :=
  ∀ walKept commitKept, (∀ u, (s.tables u).walSynced ≤ walKept u) → s.commitSynced ≤ commitKept →
    s.recovered walKept commitKept table k c = some (some row)

/-- A compaction of the table does not drop the version: no later version of the key is at or below
the horizon. -/
def Spares (table : ν) (k : ValueKey) (c : UInt64) (s : Engine ν ι) : EngineAction ν ι → Prop
  | .advance i gcHorizon => (s.programs i).head?.any (EngineOp.merges table) = true →
      ∀ e ∈ (s.tables table).levels.files.entries, valueKey e.pk = k →
        e.commitTs ≤ gcHorizon → e.commitTs ≤ c
  | _ => True

def Leaves (cfg : EngineConfig ν) (table : ν) (k : ValueKey) (c : UInt64) :
    EngineAction ν ι → Prop
  | .appendRow _ u row commitTs =>
    ¬ (u = table ∧ valueKey (extractKey row (cfg.columns u)) = k ∧ commitTs = c)
  | .deleteRowByKey u key commitTs => ¬ (u = table ∧ valueKey key = k ∧ commitTs = c)
  | _ => True

instance Spares.decidable (table : ν) (k : ValueKey) (c : UInt64) (s : Engine ν ι) :
    (a : EngineAction ν ι) → Decidable (Spares table k c s a)
  | .advance i _ => inferInstanceAs (Decidable ((s.programs i).head?.any _ = true → ∀ e ∈ _, _))
  | .appendRow _ _ _ _ | .deleteRowByKey _ _ _ | .markCommitted _ | .syncWal _ | .syncCommitLog
  | .flushMemtable _ _ | .checkpoint _ => .isTrue trivial

instance Leaves.decidable (cfg : EngineConfig ν) (table : ν) (k : ValueKey) (c : UInt64) :
    (a : EngineAction ν ι) → Decidable (Leaves cfg table k c a)
  | .appendRow _ _ _ _ | .deleteRowByKey _ _ _ => inferInstanceAs (Decidable (¬ _))
  | .advance _ _ | .markCommitted _ | .syncWal _ | .syncCommitLog | .flushMemtable _ _
  | .checkpoint _ => .isTrue trivial

def RowOf (table : ν) (k : ValueKey) (c : UInt64) (u : ν) (k' : ValueKey) (c' : UInt64)
    (w : Option Row) : Prop :=
  u = table ∧ k' = k ∧ c' = c ∧ w ≠ none

variable {cfg : EngineConfig ν} {s s' : Engine ν ι} {table : ν} {k : ValueKey} {c : UInt64} {row : Row}

theorem Spares.retaining {a : EngineAction ν ι} (h : Spares table k c s a) :
    s.Retaining (RowOf table k c) a := by
  cases a with
  | advance i gcHorizon =>
    intro u job hhead k' c' w hrow
    obtain ⟨rfl, rfl, rfl, hw⟩ := hrow
    cases job with
    | compactWrite level curr next =>
      intro _
      refine ⟨hw, fun t hct ht => History.ofList_eq_none.mpr fun e he hk heq => ?_⟩
      obtain rfl : e.commitTs = t := heq
      exact absurd (h (by simp [hhead, EngineOp.merges]) e he hk ht) (not_le.mpr hct)
    | _ => trivial
  | _ => trivial

/-- What keeps an acknowledged row: it was the last write of its version, whose records are synced,
and either its timestamp is in the commit log or the log has no record of it. -/
structure Secured (s : Engine ν ι) (table : ν) (k : ValueKey) (c : UInt64) (row : Row) : Prop where
  inv : s.Inv (RowOf table k c)
  written : History.ofList (s.written table) k c = some (some row)
  synced : ∀ e ∈ (s.tables table).wal.drop (s.tables table).walSynced,
    valueKey e.pk = k → e.commitTs ≠ c
  committed : (c = 0 ∨ c ∈ s.commitLog.take s.commitSynced) ∨
    ∀ e ∈ (s.tables table).wal, valueKey e.pk = k → e.commitTs ≠ c

theorem Secured.recovers (h : s.Secured table k c row) : s.Recovers table k c row := by
  intro walKept commitKept hwal hcommit
  obtain ⟨p, -, hl, hkeeps⟩ := h.inv.fine table
  have hlog := (hkeeps k c _ ⟨rfl, rfl, rfl, by simp⟩ h.written).log
  have hdrop : ∀ e ∈ (s.tables table).wal.drop (walKept table), valueKey e.pk = k → e.commitTs ≠ c :=
    fun e he => h.synced e (List.drop_subset_drop_left _ (hwal table) he)
  have hreplayed : ∀ e ∈ (s.tables table).wal, valueKey e.pk = k → e.commitTs = c →
      tsCommitted s.commitLogPresent (s.commitLog.take commitKept) e = true := by
    intro e he hk hc
    rcases h.committed with (h0 | hmem) | hnone
    · simp [tsCommitted, hc, h0]
    · have hmem' : c ∈ s.commitLog.take commitKept := List.take_subset_take_left _ hcommit hmem
      simp [tsCommitted, hc, hmem']
    · exact absurd hc (hnone e he hk)
  rw [h.inv.recovered_eq, History.overlay_apply, ofList_take_filter_reverse hdrop hreplayed,
    ← History.overlay_apply, ← History.ofList_append]
  exact hlog

section Steps

theorem Secured.of_logs (h : s.Secured table k c row) (hinv : s'.Inv (RowOf table k c))
    (hwritten : s'.written table = s.written table)
    (hwal : (s'.tables table).wal = (s.tables table).wal ∧
      (s'.tables table).walSynced = (s.tables table).walSynced ∨ (s'.tables table).wal = [])
    (hcommit : s'.commitLog = s.commitLog ∧ s'.commitSynced = s.commitSynced ∨
      ∀ e ∈ (s.tables table).wal, valueKey e.pk = k → e.commitTs ≠ c) :
    s'.Secured table k c row := by
  have hsub : ∀ e ∈ (s'.tables table).wal, e ∈ (s.tables table).wal := by
    rcases hwal with ⟨hwal, -⟩ | hwal <;> simp [hwal]
  refine ⟨hinv, hwritten ▸ h.written, ?_, ?_⟩
  · rcases hwal with ⟨hwal, hsynced⟩ | hwal
    · rw [hwal, hsynced]
      exact h.synced
    · simp [hwal]
  · rcases hcommit with ⟨hlog, hsynced⟩ | hnone
    · rw [hlog, hsynced]
      exact h.committed.imp_right fun hnone e he => hnone e (hsub e he)
    · exact .inr fun e he => hnone e (hsub e he)

theorem Secured.put (h : s.Secured table k c row) {u : ν} {e : MemEntry} (he : e.pk.isNaN = false)
    (hfree : s.Free u) (hne : ¬ (u = table ∧ valueKey e.pk = k ∧ e.commitTs = c)) (bytes : Nat) :
    (s.put u e bytes).Secured table k c row := by
  by_cases hu : u = table
  · subst hu
    have hver : ¬ (valueKey e.pk = k ∧ e.commitTs = c) := fun hv => hne ⟨rfl, hv⟩
    have hnew : ∀ {n : Nat} (a : MemEntry), a ∈ ([e] : List MemEntry).drop n →
        valueKey a.pk = k → a.commitTs ≠ c := by
      intro n a ha hk hc
      obtain rfl := List.mem_singleton.mp (List.mem_of_mem_drop ha)
      exact hver ⟨hk, hc⟩
    refine ⟨h.inv.put he hfree bytes, ?_, ?_, ?_⟩
    · simp only [Engine.put, Function.update_self]
      exact (History.ofList_cons _ _ _ _).trans ((if_neg hver).trans h.written)
    · simp only [Engine.put, setTable, Function.update_self, TableStore.put]
      intro a ha
      rw [List.drop_append] at ha
      rcases List.mem_append.mp ha with ha | ha
      · exact h.synced a ha
      · exact hnew a ha
    · refine h.committed.imp_right fun hnone a ha => ?_
      simp only [Engine.put, setTable, Function.update_self, TableStore.put] at ha
      rcases List.mem_append.mp ha with ha | ha
      · exact hnone a ha
      · exact hnew (n := 0) a ha
  · have hu' : table ≠ u := Ne.symm hu
    refine h.of_logs (h.inv.put he hfree bytes) ?_ (.inl ?_) (.inl ⟨rfl, rfl⟩)
    · simp [Engine.put, hu']
    · simp [Engine.put, setTable, hu']

theorem Inv.wal_eq_nil {P : ν → ValueKey → UInt64 → Option Row → Prop} (h : s.Inv P) {i : ι}
    {rest : List (EngineOp ν)} (hp : s.programs i = .truncateCommitLog :: rest) (table : ν) :
    (s.tables table).wal = [] := by
  have hlegal : Legal (.truncateCommitLog :: rest) := hp ▸ h.legal i
  have huse : InUse table (s.programs i) := by
    rw [hp]
    exact hlegal.opensFirst.inUse_head rfl (by simp [ResourceUse.opens])
  obtain ⟨⟨hl, -⟩, -⟩ := h.fine_of_inUse huse
  have hlogged := hl.logged (by simp [hp])
  rw [hl.movedOut huse, hp] at hlogged
  rw [List.eq_nil_iff_forall_not_mem]
  intro e he
  refine History.ofList_ne_none (List.mem_reverse.mpr he) ?_
  rw [← hlogged]
  rfl

variable [DecidableEq ι]

theorem Secured.startFlush (h : s.Secured table k c row) {i : ι} {u : ν}
    {rest : List (EngineOp ν)} (hinv : (s.startFlush i u rest).Inv (RowOf table k c)) :
    (s.startFlush i u rest).Secured table k c row := by
  refine h.of_logs hinv rfl (.inl ?_) (.inl ⟨rfl, rfl⟩)
  by_cases hu : table = u
  · subst hu
    simp [Engine.startFlush, setTable, setProgram, TableStore.moveOut]
  · simp [Engine.startFlush, setTable, setProgram, hu]

theorem Secured.step {a : EngineAction ν ι} (h : s.Secured table k c row) (hord : s.Orderly cfg a)
    (hspare : s.Spares table k c a) (hleave : Leaves cfg table k c a)
    (hs : s.step cfg a = some s') : s'.Secured table k c row := by
  have hinv : s'.Inv (RowOf table k c) := h.inv.step hord hspare.retaining hs
  cases a with
  | appendRow i u r commitTs =>
    simp only [Engine.step] at hs
    split_ifs at hs with hidle
    obtain rfl := Option.some.inj hs
    have hput := h.put (e := ⟨extractKey r (cfg.columns u), r, false, commitTs⟩) hord.1 hord.2 hleave
      (encodeRow r).length
    simp only [appendRow] at hinv ⊢
    split_ifs at hinv ⊢
    · exact hput.startFlush hinv
    · exact hput
  | deleteRowByKey u key commitTs =>
    obtain rfl := Option.some.inj hs
    exact h.put (e := ⟨key, ⟨[]⟩, true, commitTs⟩) hord.1 hord.2 hleave 0
  | markCommitted commitTs =>
    simp only [Engine.step] at hs
    split_ifs at hs <;> obtain rfl := Option.some.inj hs
    · exact h
    · refine ⟨hinv, h.written, h.synced, h.committed.imp_left (Or.imp_right fun hmem => ?_)⟩
      rw [List.take_append]
      exact List.mem_append_left _ hmem
  | syncWal u =>
    obtain rfl := Option.some.inj hs
    by_cases hu : table = u
    · subst hu
      refine ⟨hinv, h.written, ?_, ?_⟩
      · simp [setTable]
      · simpa [setTable] using h.committed
    · exact h.of_logs hinv rfl (.inl (by simp [setTable, hu])) (.inl ⟨rfl, rfl⟩)
  | syncCommitLog =>
    obtain rfl := Option.some.inj hs
    refine ⟨hinv, h.written, h.synced, h.committed.imp_left (Or.imp_right fun hmem => ?_)⟩
    rw [List.take_length]
    exact List.mem_of_mem_take hmem
  | flushMemtable i u =>
    simp only [Engine.step] at hs
    split_ifs at hs with hidle
    obtain rfl := Option.some.inj hs
    exact h.startFlush hinv
  | checkpoint i =>
    simp only [Engine.step] at hs
    split_ifs at hs with hidle
    obtain rfl := Option.some.inj hs
    exact h.of_logs hinv rfl (.inl ⟨rfl, rfl⟩) (.inl ⟨rfl, rfl⟩)
  | advance i gcHorizon =>
    simp only [Engine.step] at hs
    split at hs
    · simp at hs
    · rename_i op rest hp
      obtain ⟨hwritten, -, hwal, hcommit⟩ := runOp_logs hs
      refine h.of_logs hinv (by rw [hwritten]) (hwal table) (hcommit.imp_right ?_)
      rintro rfl
      simp [h.inv.wal_eq_nil hp table]

end Steps

variable [DecidableEq ι]

/-- From when a row is acknowledged it is recovered after a crash in every state, as long as every
step is orderly, no compaction has a later version of its key at or below the horizon, and the
version is not written again. -/
theorem row_recovered {s₁ : Engine ν ι} {as bs : List (EngineAction ν ι)} (hopen : s.Opened)
    (has : Guarded (Engine.step cfg) (fun s a => s.Orderly cfg a ∧ s.Spares table k c a) s as)
    (hrun : run (Engine.step cfg) s as = some s₁) (hack : s₁.Acknowledged table k c row)
    (hbs : Guarded (Engine.step cfg)
      (fun s a => (s.Orderly cfg a ∧ s.Spares table k c a) ∧ Leaves cfg table k c a) s₁ bs) :
    Throughout (Engine.step cfg) (fun s => s.Recovers table k c row) s₁ bs := by
  have hinv : s₁.Inv (RowOf table k c) :=
    (has.throughout (fun _ _ _ hs hG => hs.step hG.1 hG.2.retaining) (hopen.inv _)).last hrun
  have hsecured : s₁.Secured table k c row := ⟨hinv, hack.1, hack.2.1, .inl hack.2.2⟩
  have hthroughout : Throughout (Engine.step cfg) (fun s => s.Secured table k c row) s₁ bs :=
    hbs.throughout (fun _ _ _ hs hG => hs.step hG.1.1 hG.1.2 hG.2) hsecured
  exact hthroughout.mono fun _ hs => hs.recovers

def oneTable : EngineConfig Unit where
  tables := [()]
  complete := by simp
  nodup := by simp
  columns := fun _ => [⟨[105], .int64, false, true⟩]
  memtableLimitBytes := 1000
  l0CompactionThresholdBytes := 1000
  lsmMaxLevel := 1

def newTable : Engine Unit Bool where
  tables := fun _ => ⟨[], 0, [], 0, ⟨LevelFiles.fresh, none⟩⟩
  commitLog := []
  commitSynced := 0
  commitLogPresent := false
  programs := fun _ => []
  written := fun _ => []

theorem newTable_opened : newTable.Opened := by
  refine ⟨fun _ => rfl, fun _ => rfl, fun _ => rfl, fun _ => ?_, rfl, fun _ => rfl⟩
  exact LevelFiles.forall_entriesAt (P := fun es => Ordered es ∧ SortedVersions es)
    ⟨by decide, List.Pairwise.nil⟩ fun level hlevel => by
      obtain rfl : level = 0 := Nat.lt_one_iff.mp hlevel
      exact ⟨fun e he => absurd he List.not_mem_nil, List.Pairwise.nil⟩

theorem row_recovered_around_flush :
    ∃ s₁, run (Engine.step oneTable) newTable
        [.appendRow false () ⟨[.int 1]⟩ 1, .syncWal (), .markCommitted 1, .syncCommitLog] = some s₁ ∧
      Throughout (Engine.step oneTable)
        (fun s => s.Recovers () (valueKey (.int 1)) 1 ⟨[.int 1]⟩) s₁
        [.flushMemtable true (), .advance true 0, .advance true 0, .advance true 0,
          .appendRow false () ⟨[.int 2]⟩ 2] := by
  have hstart : Guarded (Engine.step oneTable)
      (fun s a => s.Orderly oneTable a ∧ s.Spares () (valueKey (.int 1)) 1 a) newTable
      [.appendRow false () ⟨[.int 1]⟩ 1, .syncWal (), .markCommitted 1, .syncCommitLog] := by
    decide
  refine ⟨_, rfl, row_recovered newTable_opened hstart rfl ⟨by decide, by decide, by decide⟩ ?_⟩
  decide

/-- A write is acknowledged between the move of the memtable and the truncation of the log, and is
lost with the log. -/
theorem row_lost_by_flush :
    ∃ s₁ s₂, run (Engine.step oneTable) newTable
        [.flushMemtable true (), .appendRow false () ⟨[.int 1]⟩ 1, .syncWal (), .markCommitted 1,
          .syncCommitLog] = some s₁ ∧
      s₁.programs false = [] ∧ s₁.Acknowledged () (valueKey (.int 1)) 1 ⟨[.int 1]⟩ ∧
      run (Engine.step oneTable) s₁ [.advance true 0, .advance true 0, .advance true 0] = some s₂ ∧
      (∀ i, s₂.programs i = []) ∧
      ∀ walKept commitKept, s₂.recovered walKept commitKept () (valueKey (.int 1)) 1 = none := by
  refine ⟨_, _, rfl, rfl, ⟨by decide, by decide, by decide⟩, rfl, by decide, ?_⟩
  intro walKept commitKept
  change tableHistory (loadState true _ (([] : List MemEntry).take (walKept ()))) _ _ _ = none
  rw [List.take_nil]
  rfl

end Engine

end CoroDB
