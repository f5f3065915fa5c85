import CoroDB.Storage.Durability

/-!
# Atomicity of transactions over a crash

A transaction writes versions with its timestamp to any tables and then marks the timestamp as
committed.
-/

namespace CoroDB

open Framework

def EngineOp.Flushing {ν : Type*} : EngineOp ν → Prop
  | .flush _ _ => True
  | .truncateWal _ => True
  | _ => False

namespace Engine

variable {ν ι : Type*} {old : Set UInt64}

def recoveredSynced (s : Engine ν ι) : ν → TableHistory :=
  s.recovered (fun table => (s.tables table).walSynced) s.commitSynced

/-- Recovery finds every version of the transaction, with the content written last. -/
def Survives (s : Engine ν ι) (c : UInt64) : Prop :=
  ∀ table k w, History.ofList (s.written table) k c = some w → s.recoveredSynced table k c = some w

def Absent (s : Engine ν ι) (c : UInt64) : Prop := ∀ table k, s.recoveredSynced table k c = none

/-- Every transaction with a timestamp of its own is recovered as a whole or not at all, and one
whose commit record is not synced is not recovered. -/
def Atomic (old : Set UInt64) (s : Engine ν ι) : Prop :=
  ∀ c, c ≠ 0 → c ∉ old → (s.Survives c ∨ s.Absent c) ∧
    (c ∉ s.commitLog.take s.commitSynced → s.Absent c)

/-- Versions of the run that are in the level files are committed, and without a commit log no
record with a timestamp of the run is synced. -/
def Covered (old : Set UInt64) (s : Engine ν ι) : Prop :=
  (∀ table, ∀ e ∈ (s.tables table).levels.files.entries, e.commitTs ≠ 0 → e.commitTs ∉ old →
      e.commitTs ∈ s.commitLog.take s.commitSynced) ∧
    (s.commitLogPresent = false → ∀ table,
      ∀ e ∈ (s.tables table).wal.take (s.tables table).walSynced, e.commitTs ≠ 0 → e.commitTs ∈ old)

/-- The order of the calls of a transaction: it writes before it is marked as committed, and is
marked once its records are synced. No checkpoint is taken. -/
def Transacts (s : Engine ν ι) : EngineAction ν ι → Prop
  | .appendRow _ _ _ commitTs => commitTs ∉ s.commitLog
  | .deleteRowByKey _ _ commitTs => commitTs ∉ s.commitLog
  | .markCommitted commitTs => ∀ table,
      ∀ e ∈ (s.tables table).wal.drop (s.tables table).walSynced, e.commitTs ≠ commitTs
  | .checkpoint _ => False
  | _ => True

instance Transacts.decidable [Fintype ν] (s : Engine ν ι) :
    (a : EngineAction ν ι) → Decidable (s.Transacts a)
  | .appendRow _ _ _ _ | .deleteRowByKey _ _ _ => inferInstanceAs (Decidable (_ ∉ s.commitLog))
  | .markCommitted _ => inferInstanceAs (Decidable (∀ _, ∀ e ∈ _, _))
  | .checkpoint _ => .isFalse id
  | .advance _ _ | .syncWal _ | .syncCommitLog | .flushMemtable _ _ => .isTrue trivial

variable [DecidableEq ν]

/-- All versions written are kept, only flushes are under way, and the records of the transactions
marked as committed are synced. -/
structure Journaled (s : Engine ν ι) : Prop where
  inv : s.Inv fun _ _ _ _ => True
  flushing : ∀ i, ∀ op ∈ s.programs i, op.Flushing
  synced : ∀ c ∈ s.commitLog, ∀ table,
    ∀ e ∈ (s.tables table).wal.drop (s.tables table).walSynced, e.commitTs ≠ c
  absent : s.commitLogPresent = false → s.commitLog = []

variable {s s' : Engine ν ι}

theorem Journaled.recoveredSynced_eq (h : s.Journaled) (table : ν) :
    s.recoveredSynced table =
      History.overlay
        (History.ofList (((s.tables table).wal.take (s.tables table).walSynced).filter
          (tsCommitted s.commitLogPresent (s.commitLog.take s.commitSynced))).reverse)
        (History.ofList (s.tables table).levels.files.entries) :=
  h.inv.recovered_eq _ _ table

theorem Journaled.survives (h : s.Journaled) {c : UInt64}
    (hc : c ∈ s.commitLog.take s.commitSynced) : s.Survives c := by
  intro table k w hw
  obtain ⟨p, -, -, hkeeps⟩ := h.inv.fine table
  have hdrop : ∀ e ∈ (s.tables table).wal.drop (s.tables table).walSynced,
      Versioned.key e = k → Versioned.ts e ≠ c :=
    fun e he _ => h.synced c (List.mem_of_mem_take hc) table e he
  have hreplayed : ∀ e ∈ (s.tables table).wal, Versioned.key e = k → Versioned.ts e = c →
      tsCommitted s.commitLogPresent (s.commitLog.take s.commitSynced) e = true := by
    intro e _ _ hts
    have hts' : e.commitTs = c := hts
    simp [tsCommitted, hts', hc]
  rw [h.recoveredSynced_eq, History.overlay_apply, ofList_take_filter_reverse hdrop hreplayed,
    ← History.overlay_apply, ← History.ofList_append]
  exact (hkeeps k c w trivial hw).log

theorem Journaled.absent_of_covered (h : s.Journaled) (hcov : s.Covered old) {c : UInt64} (h0 : c ≠ 0)
    (hold : c ∉ old) (hc : c ∉ s.commitLog.take s.commitSynced) : s.Absent c := by
  intro table k
  rw [h.recoveredSynced_eq, History.overlay_eq_none]
  refine ⟨History.ofList_eq_none.mpr fun e he _ hts => ?_,
    History.ofList_eq_none.mpr fun e he _ hts => ?_⟩
  · obtain rfl : e.commitTs = c := hts
    obtain ⟨hmem, hpass⟩ := List.mem_filter.mp (List.mem_reverse.mp he)
    cases hpresent : s.commitLogPresent with
    | false => exact hold (hcov.2 hpresent table e hmem h0)
    | true =>
      rw [hpresent] at hpass
      exact hc (by simpa [tsCommitted, h0] using hpass)
  · obtain rfl : e.commitTs = c := hts
    exact hc (hcov.1 table e he h0 hold)

theorem Journaled.covered_of_atomic (h : s.Journaled) (hatomic : s.Atomic old) : s.Covered old := by
  refine ⟨fun table e he h0 hold => ?_, fun hpresent table e he h0 => ?_⟩
  · by_contra hc
    have habsent := (hatomic _ h0 hold).2 hc table (Versioned.key e)
    rw [h.recoveredSynced_eq, History.overlay_eq_none] at habsent
    exact History.ofList_ne_none he habsent.2
  · by_contra hold
    have habsent := (hatomic _ h0 hold).2 (by simp [h.absent hpresent]) table (Versioned.key e)
    rw [h.recoveredSynced_eq, History.overlay_eq_none] at habsent
    refine History.ofList_ne_none (List.mem_reverse.mpr (List.mem_filter.mpr ⟨he, ?_⟩)) habsent.1
    simp [tsCommitted, hpresent]

theorem Journaled.atomic_iff (h : s.Journaled) : s.Atomic old ↔ s.Covered old := by
  refine ⟨h.covered_of_atomic, fun hcov c h0 hold => ?_⟩
  by_cases hc : c ∈ s.commitLog.take s.commitSynced
  · exact ⟨.inl (h.survives hc), fun hn => absurd hc hn⟩
  · have habsent := h.absent_of_covered hcov h0 hold hc
    exact ⟨.inr habsent, fun _ => habsent⟩

theorem Journaled.retaining (h : s.Journaled) (a : EngineAction ν ι) :
    s.Retaining (fun _ _ _ _ => True) a := by
  cases a with
  | advance i gcHorizon =>
    intro table job hhead
    exact (h.flushing i _ (List.mem_of_mem_head? hhead)).elim
  | _ => trivial

theorem Journaled.of_logs (h : s.Journaled) (hinv : s'.Inv fun _ _ _ _ => True)
    (hflushing : ∀ i, ∀ op ∈ s'.programs i, op.Flushing) (hlog : s'.commitLog = s.commitLog)
    (hpresent : s'.commitLogPresent = s.commitLogPresent)
    (hwal : ∀ table, (s'.tables table).wal = (s.tables table).wal ∧
      (s'.tables table).walSynced = (s.tables table).walSynced ∨
        (s'.tables table).wal.drop (s'.tables table).walSynced = []) : s'.Journaled := by
  refine ⟨hinv, hflushing, fun c hc table => ?_, fun hp => ?_⟩
  · rw [hlog] at hc
    rcases hwal table with ⟨hwal, hsynced⟩ | hnil
    · rw [hwal, hsynced]
      exact h.synced c hc table
    · simp [hnil]
  · rw [hlog]
    exact h.absent (hpresent ▸ hp)

theorem Journaled.put (h : s.Journaled) {table : ν} {e : MemEntry} (he : e.pk.isNaN = false)
    (hfree : s.Free table) (hc : e.commitTs ∉ s.commitLog) (bytes : Nat) :
    (s.put table e bytes).Journaled := by
  refine ⟨h.inv.put he hfree bytes, h.flushing, fun c hc' u => ?_, h.absent⟩
  by_cases hu : u = table
  · subst hu
    simp only [Engine.put, setTable, Function.update_self, TableStore.put]
    intro a ha
    rw [List.drop_append] at ha
    rcases List.mem_append.mp ha with ha | ha
    · exact h.synced c hc' u a ha
    · obtain rfl := List.mem_singleton.mp (List.mem_of_mem_drop ha)
      rintro rfl
      exact hc hc'
  · simpa only [Engine.put, setTable, Function.update_of_ne hu] using h.synced c hc' u

variable [DecidableEq ι] {cfg : EngineConfig ν}

theorem Journaled.startFlush (h : s.Journaled) {i : ι} {u : ν}
    (hinv : (s.startFlush i u []).Inv fun _ _ _ _ => True) : (s.startFlush i u []).Journaled := by
  refine h.of_logs hinv (fun j op hop => ?_) rfl rfl fun table => .inl ?_
  · by_cases hj : j = i
    · subst hj
      simp only [Engine.startFlush, setProgram, Function.update_self, List.mem_singleton] at hop
      subst hop
      trivial
    · simp only [Engine.startFlush, setProgram, Function.update_of_ne hj] at hop
      exact h.flushing j op hop
  · by_cases hu : table = u
    · subst hu
      simp [Engine.startFlush, setTable, setProgram, TableStore.moveOut]
    · simp [Engine.startFlush, setTable, setProgram, hu]

theorem runOp_programs {i : ι} {op : EngineOp ν} {rest : List (EngineOp ν)} {gcHorizon : UInt64}
    (hop : op.Flushing) (hs : s.runOp cfg gcHorizon i rest op = some s') :
    ∀ j, ∀ a ∈ s'.programs j, a.Flushing ∨ a ∈ rest ∨ a ∈ s.programs j := by
  have hupdate : ∀ {q : List (EngineOp ν)}, (∀ a ∈ q, a.Flushing ∨ a ∈ rest) → ∀ j,
      ∀ a ∈ Function.update s.programs i q j, a.Flushing ∨ a ∈ rest ∨ a ∈ s.programs j := by
    intro q hq j a ha
    by_cases hj : j = i
    · subst hj
      rw [Function.update_self] at ha
      exact (hq a ha).imp_right .inl
    · rw [Function.update_of_ne hj] at ha
      exact .inr (.inr ha)
  cases op with
  | flush u job =>
    obtain ⟨r, -, rfl⟩ := Option.map_eq_some_iff.mp hs
    refine hupdate fun a ha => ?_
    rcases List.mem_cons.mp ha with rfl | ha
    · left
      split_ifs <;> trivial
    · exact .inr ha
  | truncateWal u =>
    obtain rfl := Option.some.inj hs
    exact hupdate fun a ha => .inr ha
  | _ => exact hop.elim

theorem Journaled.step {a : EngineAction ν ι} (h : s.Journaled) (hord : s.Orderly cfg a)
    (htrans : s.Transacts a) (hs : s.step cfg a = some s') : s'.Journaled := by
  have hinv := h.inv.step hord (h.retaining a) hs
  cases a with
  | appendRow i u row commitTs =>
    simp only [Engine.step] at hs
    split_ifs at hs with hidle
    obtain rfl := Option.some.inj hs
    have hput := h.put (e := ⟨extractKey row (cfg.columns u), row, false, commitTs⟩) hord.1 hord.2
      htrans (encodeRow row).length
    simp only [appendRow] at hinv ⊢
    split_ifs at hinv ⊢
    · exact hput.startFlush hinv
    · exact hput
  | deleteRowByKey u key commitTs =>
    obtain rfl := Option.some.inj hs
    exact h.put (e := ⟨key, ⟨[]⟩, true, commitTs⟩) hord.1 hord.2 htrans 0
  | markCommitted commitTs =>
    simp only [Engine.step] at hs
    split_ifs at hs <;> obtain rfl := Option.some.inj hs
    · exact h
    · refine ⟨hinv, h.flushing, fun c hc table e he => ?_, fun hp => by simp at hp⟩
      rcases List.mem_append.mp hc with hc | hc
      · exact h.synced c hc table e he
      · rw [List.mem_singleton.mp hc]
        exact htrans table e he
  | syncWal u =>
    obtain rfl := Option.some.inj hs
    refine h.of_logs hinv h.flushing rfl rfl fun table => ?_
    by_cases hu : table = u
    · subst hu
      exact .inr (by simp [setTable])
    · exact .inl (by simp [setTable, hu])
  | syncCommitLog =>
    obtain rfl := Option.some.inj hs
    exact h.of_logs hinv h.flushing rfl rfl fun table => .inl ⟨rfl, rfl⟩
  | flushMemtable i u =>
    simp only [Engine.step] at hs
    split_ifs at hs with hidle
    obtain rfl := Option.some.inj hs
    exact h.startFlush hinv
  | checkpoint i => exact htrans.elim
  | advance i gcHorizon =>
    simp only [Engine.step] at hs
    split at hs
    · simp at hs
    · rename_i op rest hp
      have hprog : ∀ a ∈ op :: rest, a.Flushing := hp ▸ h.flushing i
      have hop : op.Flushing := hprog op List.mem_cons_self
      obtain ⟨-, hpresent, hwal, hcommit⟩ := runOp_logs hs
      have hlog := hcommit.resolve_right (by rintro rfl; exact hop)
      refine h.of_logs hinv (fun j a ha => ?_) hlog.1 hpresent fun table => ?_
      · rcases runOp_programs hop hs j a ha with ha | ha | ha
        · exact ha
        · exact hprog a (List.mem_cons_of_mem op ha)
        · exact h.flushing j a ha
      · exact (hwal table).imp_right fun hnil => by simp [hnil]

omit [DecidableEq ι] in
theorem Opened.journaled (h : s.Opened) : s.Journaled := by
  refine ⟨h.inv _, fun i op hop => ?_, fun c hc => ?_, fun _ => h.commitLog⟩
  · rw [h.idle i] at hop
    simp at hop
  · rw [h.commitLog] at hc
    simp at hc

/-- In every state of an orderly run of transactions and flushes, a crash leaves each transaction
whole or absent, and one that is not committed absent, exactly when the level files hold committed
versions only and the commit log exists once a record of a transaction is synced. -/
theorem atomic_iff_covered {as : List (EngineAction ν ι)} (hopen : s.Opened)
    (hguard : Guarded (Engine.step cfg) (fun s a => s.Orderly cfg a ∧ s.Transacts a) s as) :
    Throughout (Engine.step cfg) (fun s => s.Atomic old ↔ s.Covered old) s as := by
  have hjournaled : Throughout (Engine.step cfg) Journaled s as :=
    hguard.throughout (fun _ _ _ hs hG => hs.step hG.1 hG.2) hopen.journaled
  exact hjournaled.mono fun _ hs => hs.atomic_iff

theorem atomic_iff_covered_two_commits :
    Throughout (Engine.step oneTable) (fun s => s.Atomic ∅ ↔ s.Covered ∅) newTable
      [.appendRow false () ⟨[.int 1]⟩ 1, .syncWal (), .markCommitted 1, .syncCommitLog,
        .flushMemtable true (), .advance true 0, .advance true 0, .advance true 0,
        .deleteRowByKey () (.int 1) 2, .syncWal (), .markCommitted 2, .syncCommitLog] := by
  refine atomic_iff_covered newTable_opened ?_
  decide

/-- A write that fills the memtable is flushed before its transaction is marked as committed, and
recovery finds the row of the uncommitted transaction. -/
theorem uncommitted_row_recovered :
    ∃ s, run (Engine.step { oneTable with memtableLimitBytes := 1 }) newTable
        [.markCommitted 1, .syncCommitLog, .appendRow false () ⟨[.int 1]⟩ 2, .syncWal (),
          .advance false 0, .advance false 0] = some s ∧
      2 ∉ s.commitLog ∧
      s.recoveredSynced () (valueKey (.int 1)) 2 = some (some ⟨[.int 1]⟩) ∧ ¬ s.Atomic ∅ := by
  have hrow : ∀ s : Engine Unit Bool, 2 ∉ s.commitLog →
      s.recoveredSynced () (valueKey (.int 1)) 2 = some (some ⟨[.int 1]⟩) → ¬ s.Atomic ∅ := by
    intro s hlog hrec hatomic
    have habsent := (hatomic 2 (by decide) (Set.notMem_empty 2)).2
      fun hmem => hlog (List.mem_of_mem_take hmem)
    simp [habsent () (valueKey (.int 1))] at hrec
  exact ⟨_, rfl, by decide, by decide, hrow _ (by decide) (by decide)⟩

end Engine

end CoroDB
