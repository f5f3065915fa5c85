import CoroDB.Storage.EngineInvariant

/-!
# The steps of the engine keep the invariant

One lemma for each operation of a program and each action, and from them the invariant of every
orderly step.
-/

namespace CoroDB

open Framework

namespace Engine

variable {ν ι : Type*} [DecidableEq ν] [DecidableEq ι] {cfg : EngineConfig ν}
  {P : ν → ValueKey → UInt64 → Option Row → Prop} {s s' : Engine ν ι} {i : ι}
  {q rest : List (EngineOp ν)} {op : EngineOp ν} {gcHorizon : UInt64}

theorem Inv.update_held (h : s.Inv P) (hlegal : Legal q)
    (hprograms : s'.programs = Function.update s.programs i q) (hwritten : s'.written = s.written)
    (hsub : ∀ table, InUse table q → InUse table (s.programs i))
    (hother : ∀ table, ResourceUse.uses op table = false → s'.tables table = s.tables table)
    (hp : s.programs i = op :: rest) (hop : ∀ table, op ≠ .flushNonempty table)
    (hwait : ∀ table, ResourceUse.uses op table = false → Waiting (jobOn table q))
    (hheld : ∀ table, ResourceUse.uses op table = true → InUse table (op :: rest) →
      (s.tables table).Fine table (op :: rest) (s.written table) (P table) →
      (s'.tables table).Fine table (if InUse table q then q else []) (s.written table) (P table)) :
    s'.Inv P := by
  have hfirst : OpensFirst (op :: rest) := hp ▸ (h.legal i).opensFirst
  refine h.update hlegal hprograms hwritten (fun table hn _ => hother table ?_)
    (fun table hq hn => absurd (hsub table hq) hn) (fun table huse hfine => ?_)
    fun table hq hn => absurd (hsub table hq) hn
  · rw [← Bool.not_eq_true]
    intro hu
    rw [hp] at hn
    exact hn (hfirst.inUse_head hu (hop table))
  · rw [hp] at huse hfine
    cases hu : ResourceUse.uses op table with
    | true => exact hheld table hu huse hfine
    | false =>
      obtain ⟨hjob, hhead⟩ := jobOn_of_not_uses hu rest
      rw [hother table hu]
      exact hfine.pass huse (by rw [hjob]; rfl) hhead (hwait table hu)

theorem Inv.startFlush {u : ν} (h : s.Inv P)
    (hlegal : Legal (.flush u (.flush (s.tables u).memtable) :: rest)) (hfree : s.Free u)
    (hsame : ∀ table, table ≠ u → (InUse table (s.programs i) ↔ InUse table rest))
    (hidle : ∀ table, table ≠ u → jobOn table (s.programs i) = .done ∧
      (s.programs i).head? ≠ some (.truncateWal table)) : (s.startFlush i u rest).Inv P := by
  have huse : InUse u (.flush u (.flush (s.tables u).memtable) :: rest) :=
    hlegal.opensFirst.inUse_head (by simp [ResourceUse.uses]) (by simp [ResourceUse.opens])
  have hother : ∀ {table}, table ≠ u →
      ResourceUse.uses (.flush u (.flush (s.tables u).memtable) : EngineOp ν) table = false :=
    fun hne => by simpa [ResourceUse.uses] using Ne.symm hne
  have htables : ∀ {table}, table ≠ u → (s.startFlush i u rest).tables table = s.tables table :=
    fun hne => by simp [Engine.startFlush, setTable, setProgram, hne]
  have heq : ∀ {table}, InUse table (.flush u (.flush (s.tables u).memtable) :: rest) →
      ¬ InUse table (s.programs i) → table = u := by
    intro table hq hn
    by_contra hu
    rw [inUse_cons (hother hu), ← hsame table hu] at hq
    exact hn hq
  refine h.update hlegal rfl rfl (fun table _ hq => ?_) (fun table hq hn => ?_)
    (fun table hi hfine => ?_) fun table hq hn hfine => ?_
  · refine htables ?_
    rintro rfl
    exact hq huse
  · obtain rfl := heq hq hn
    exact fun j _ => hfree j
  · have hu : table ≠ u := by
      rintro rfl
      exact hfree i hi
    obtain ⟨hjob, hhead⟩ := hidle table hu
    rw [htables hu]
    exact hfine.pass hi (by rw [hjob]; rfl) hhead (.inl (jobOn_of_not_uses (hother hu) rest).1)
  · obtain rfl := heq hq hn
    have hmoved : (s.startFlush i table rest).tables table = (s.tables table).moveOut := by
      simp [Engine.startFlush, setTable, setProgram]
    rw [hmoved]
    exact hfine.moveOut rest

theorem Inv.flushNonempty {u : ν} (h : s.Inv P) (hp : s.programs i = .flushNonempty u :: rest)
    (hord : ∀ j, j ≠ i → ¬ InUse u (s.programs j))
    (hs : s.runOp cfg gcHorizon i rest (.flushNonempty u) = some s') : s'.Inv P := by
  have hlegal : Legal (.flushNonempty u :: rest) := hp ▸ h.legal i
  have hopens : ¬ InUse u (s.programs i) := by
    rw [hp]
    exact fun hu => hu.2 List.mem_cons_self
  have huses : ∀ {table}, table ≠ u →
      ResourceUse.uses (.flushNonempty u : EngineOp ν) table = false := fun hne => by
    simpa [ResourceUse.uses] using Ne.symm hne
  have hsame : ∀ table, table ≠ u → (InUse table (s.programs i) ↔ InUse table rest) := by
    intro table hu
    rw [hp]
    exact inUse_cons (huses hu)
  have hidle : ∀ table, table ≠ u → jobOn table (s.programs i) = .done ∧
      (s.programs i).head? ≠ some (.truncateWal table) := by
    intro table hu
    rw [hp]
    exact jobOn_of_not_uses (huses hu) rest
  simp only [runOp] at hs
  split_ifs at hs with hempty <;> obtain rfl := Option.some.inj hs
  · have heq : ∀ {table}, InUse table rest → ¬ InUse table (s.programs i) → table = u := by
      intro table hq hn
      by_contra hu
      exact hn ((hsame table hu).mpr hq)
    refine h.update hlegal.tail rfl rfl (fun _ _ _ => rfl) (fun table hq hn => ?_)
      (fun table hi hfine => ?_) fun table hq hn hfine => ?_
    · obtain rfl := heq hq hn
      exact hord
    · have hu : table ≠ u := by
        rintro rfl
        exact hopens hi
      obtain ⟨hjob, hhead⟩ := hidle table hu
      exact hfine.pass hi (by rw [hjob]; rfl) hhead (hlegal.waiting table)
    · obtain rfl := heq hq hn
      exact hfine.shift rfl (hlegal.waiting table) (fun heq => by simp at heq) fun _ => .inr hempty
  · refine h.startFlush ?_ (fun j => ?_) hsame hidle
    · refine ⟨hlegal.opensFirst.replace_head fun r hr => hr, hlegal.fresh, fun table job hc => ?_,
        fun _ _ hc => by simp at hc⟩
      obtain ⟨-, rfl⟩ : u = table ∧ _ = job := by simpa using hc
      trivial
    · by_cases hj : j = i
      · rwa [hj]
      · exact hord j hj

theorem Inv.flush {u : ν} {job : LevelJob} (h : s.Inv P) (hp : s.programs i = .flush u job :: rest)
    (hs : s.runOp cfg gcHorizon i rest (.flush u job) = some s') : s'.Inv P := by
  have hlegal : Legal (.flush u job :: rest) := hp ▸ h.legal i
  obtain ⟨⟨y, job'⟩, hact, rfl⟩ := Option.map_eq_some_iff.mp hs
  have hflush : job.Flushes := hlegal.flushes u job rfl
  have hlegal' : Legal ((if job' = .done then .truncateWal u else .flush u job') :: rest) := by
    refine ⟨hlegal.opensFirst.replace_head fun r hr => ?_, hlegal.fresh, fun table j hc => ?_,
      fun table j hc => ?_⟩
    · split_ifs at hr <;> exact hr
    · split_ifs at hc with hdone
      · simp at hc
      · obtain ⟨-, rfl⟩ : u = table ∧ job' = j := by simpa using hc
        exact (hflush.act hact).resolve_left hdone
    · split_ifs at hc <;> simp at hc
  have huses : ∀ {table}, ResourceUse.uses (.flush u job : EngineOp ν) table = true ↔ u = table := by
    simp [ResourceUse.uses]
  have huses' : ∀ {table}, ResourceUse.uses
      (if job' = .done then .truncateWal u else .flush u job' : EngineOp ν) table = true ↔
        u = table := by
    intro table
    split_ifs <;> simp [ResourceUse.uses]
  refine h.update_held hlegal' rfl rfl (fun table hq => ?_) (fun table hu => ?_) hp (by simp)
    (fun table hu => ?_) fun table hu huse hfine => ?_
  · rw [hp]
    by_cases hu : u = table
    · exact hlegal.opensFirst.inUse_head (huses.mpr hu) (by simp [ResourceUse.opens])
    · rw [inUse_cons (by simpa using mt huses'.mp hu)] at hq
      exact (inUse_cons (by simpa using mt huses.mp hu)).mpr hq
  · have hne : table ≠ u := by
      rintro rfl
      simp [huses.mpr rfl] at hu
    simp [setTable, setProgram, hne]
  · refine .inl (jobOn_of_not_uses ?_ rest).1
    rw [← Bool.not_eq_true, huses', ← huses, hu]
    simp
  · obtain rfl := huses.mp hu
    have huse' := hlegal'.opensFirst.inUse_head (huses'.mpr rfl)
      (by split_ifs <;> simp [ResourceUse.opens])
    have hjob : jobOn u (.flush u job :: rest) = job := by simp [jobOn]
    rw [if_pos huse']
    simp only [setTable, setProgram, Function.update_self]
    refine hfine.act huse (by simp) (by rwa [hjob]) (fun _ _ _ _ => by rw [hjob]; exact hflush.retains)
      ?_ fun hhead => ?_
    · split_ifs with hdone
      · exact .inl hdone.symm
      · exact .inl (by simp [jobOn])
    · rw [hjob]
      split_ifs at hhead with hdone
      · simp at hhead
      · exact (LevelJob.act_unwritten hact).resolve_right hdone

theorem Inv.compact {u : ν} {job : LevelJob} (h : s.Inv P)
    (hp : s.programs i = .compact u job :: rest)
    (hret : ∀ k c w, P u k c w → job.Retains gcHorizon (s.tables u).levels k c w)
    (hs : s.runOp cfg gcHorizon i rest (.compact u job) = some s') : s'.Inv P := by
  have hlegal : Legal (.compact u job :: rest) := hp ▸ h.legal i
  obtain ⟨⟨y, job'⟩, hact, rfl⟩ := Option.map_eq_some_iff.mp hs
  have hunwritten : job.unwritten = [] := hlegal.compacts u job rfl
  have hunwritten' : job'.unwritten = [] := by
    rcases LevelJob.act_unwritten hact with hu | rfl
    · rw [hu, hunwritten]
    · rfl
  have huses : ∀ {job : LevelJob} {table},
      ResourceUse.uses (.compact u job : EngineOp ν) table = true ↔ u = table := by
    simp [ResourceUse.uses]
  have hnot : ∀ {job : LevelJob} {table}, u ≠ table →
      ResourceUse.uses (.compact u job : EngineOp ν) table = false := by
    simp [ResourceUse.uses]
  have hopen : ∀ {job : LevelJob} {table}, (.compact u job : EngineOp ν) ≠ ResourceUse.opens table := by
    simp [ResourceUse.opens]
  have hnext : OpensFirst (.compact u job' :: rest) :=
    hlegal.opensFirst.replace_head fun r hr => huses.mpr (huses.mp hr)
  have hlegal' : Legal (if job' = .done then rest else .compact u job' :: rest) := by
    split_ifs
    · exact hlegal.tail
    · refine ⟨hnext, hlegal.fresh, fun _ _ hc => by simp at hc, fun table j hc => ?_⟩
      obtain ⟨rfl, rfl⟩ : u = table ∧ job' = j := by simpa using hc
      exact hunwritten'
  refine h.update_held hlegal' rfl rfl (fun table hq => ?_) (fun table hu => ?_) hp (by simp)
    (fun table hu => ?_) fun table hu huse hfine => ?_
  · rw [hp]
    by_cases hu : u = table
    · exact hlegal.opensFirst.inUse_head (huses.mpr hu) hopen
    · refine (inUse_cons (hnot hu)).mpr ?_
      split_ifs at hq
      · exact hq
      · exact (inUse_cons (hnot hu)).mp hq
  · have hne : table ≠ u := by
      rintro rfl
      simp [huses.mpr rfl] at hu
    simp [setTable, setProgram, hne]
  · split_ifs
    · exact hlegal.waiting table
    · refine .inl (jobOn_of_not_uses (hnot ?_) rest).1
      rintro rfl
      simp [huses.mpr rfl] at hu
  · obtain rfl := huses.mp hu
    have hjob : jobOn u (.compact u job :: rest) = job := by simp [jobOn]
    simp only [setTable, setProgram, Function.update_self]
    refine hfine.act huse (by simp) (by rwa [hjob]) (by rwa [hjob]) ?_ fun _ => ?_
    · by_cases hdone : job' = .done
      · refine .inr ⟨hdone, ?_⟩
        rw [if_pos hdone]
        split_ifs
        · exact hlegal.waiting u
        · exact .inl rfl
      · rw [if_neg hdone, if_pos (hnext.inUse_head (huses.mpr rfl) hopen)]
        exact .inl (by simp [jobOn])
    · rw [hjob, hunwritten, hunwritten']

theorem Inv.truncateWal {u : ν} (h : s.Inv P) (hp : s.programs i = .truncateWal u :: rest)
    (hs : s.runOp cfg gcHorizon i rest (.truncateWal u) = some s') : s'.Inv P := by
  have hlegal : Legal (.truncateWal u :: rest) := hp ▸ h.legal i
  obtain rfl := Option.some.inj hs
  have huses : ∀ {table}, ResourceUse.uses (.truncateWal u : EngineOp ν) table = true ↔ u = table := by
    simp [ResourceUse.uses]
  refine h.update_held hlegal.tail rfl rfl (fun table hq => ?_) (fun table hu => ?_) hp (by simp)
    (fun table _ => hlegal.waiting table) fun table hu huse hfine => ?_
  · rw [hp]
    exact inUse_of_inUse_rest (by simp [ResourceUse.opens]) hq
  · have hne : table ≠ u := by
      rintro rfl
      simp [huses.mpr rfl] at hu
    simp [setTable, setProgram, hne]
  · obtain rfl := huses.mp hu
    simp only [setTable, setProgram, Function.update_self]
    refine hfine.truncate huse ?_
    split_ifs
    · exact hlegal.waiting u
    · exact .inl rfl

theorem Inv.truncateCommitLog (h : s.Inv P) (hp : s.programs i = .truncateCommitLog :: rest)
    (hs : s.runOp cfg gcHorizon i rest .truncateCommitLog = some s') : s'.Inv P := by
  have hlegal : Legal (.truncateCommitLog :: rest) := hp ▸ h.legal i
  obtain rfl := Option.some.inj hs
  refine h.update_held hlegal.tail rfl rfl (fun table hq => ?_) (fun _ _ => rfl) hp (by simp)
    (fun table _ => hlegal.waiting table) fun table hu huse hfine => ?_
  · rw [hp]
    exact inUse_of_inUse_rest (by simp [ResourceUse.opens]) hq
  · exact hfine.pass huse rfl (by simp) (hlegal.waiting table)

theorem Legal.nil : Legal ([] : List (EngineOp ν)) := by
  refine ⟨List.Pairwise.nil, fun op hop => ?_, fun table job hc => ?_, fun table job hc => ?_⟩
  · simp at hop
  · simp at hc
  · simp at hc

theorem legal_checkpointProgram (cfg : EngineConfig ν) : Legal (checkpointProgram cfg) := by
  have hfresh : ∀ op ∈ checkpointProgram cfg, op.Fresh := by
    intro op hop
    simp only [checkpointProgram, List.mem_append, List.mem_map, List.mem_singleton] at hop
    rcases hop with ⟨table, -, rfl⟩ | ⟨table, -, rfl⟩ | ⟨table, -, rfl⟩ | rfl
    · trivial
    · rfl
    · trivial
    · trivial
  refine ⟨?_, fun op hop => hfresh op (List.mem_of_mem_tail hop), fun table job hc => ?_,
    fun table job hc => ?_⟩
  · have hlater : ∀ op ∈ cfg.tables.map (.compact · .compact) ++
        (cfg.tables.map .truncateWal ++ [EngineOp.truncateCommitLog]),
        ∀ table, op ≠ .flushNonempty table := by
      intro op hop table
      simp only [List.mem_append, List.mem_map, List.mem_singleton] at hop
      rcases hop with ⟨u, -, rfl⟩ | ⟨u, -, rfl⟩ | rfl <;> simp
    refine List.pairwise_append.mpr ⟨?_, ?_, fun a _ b hb table _ => hlater b hb table⟩
    · refine List.pairwise_map.mpr (cfg.nodup.imp fun {t u} hne table hu heq => ?_)
      have ht : t = table := by simpa [ResourceUse.uses] using hu
      have hu' : u = table := by simpa [ResourceUse.opens] using heq
      exact hne (ht.trans hu'.symm)
    · exact List.pairwise_of_forall_mem_list fun a _ b hb table _ => hlater b hb table
  · exact (hfresh _ (List.mem_of_mem_head? hc)).elim
  · obtain rfl : job = .compact := hfresh _ (List.mem_of_mem_head? hc)
    rfl

theorem not_inUse_checkpointProgram (cfg : EngineConfig ν) (table : ν) :
    ¬ InUse table (checkpointProgram cfg) := by
  intro huse
  refine huse.2 (List.mem_append_left _ ?_)
  exact List.mem_map.mpr ⟨table, cfg.complete table, rfl⟩

theorem Inv.startFlush_of_idle {u : ν} (h : s.Inv P) (hp : s.programs i = []) (hfree : s.Free u) :
    (s.startFlush i u []).Inv P := by
  refine h.startFlush ?_ hfree (fun table _ => by rw [hp]) fun table _ => by rw [hp]; simp [jobOn]
  refine ⟨List.pairwise_singleton _ _, fun op hop => by simp at hop, fun table job hc => ?_,
    fun _ _ hc => by simp at hc⟩
  obtain ⟨-, rfl⟩ : u = table ∧ _ = job := by simpa using hc
  trivial

/-- Every orderly step that retains the versions of interest keeps the invariant. -/
theorem Inv.step {a : EngineAction ν ι} (h : s.Inv P) (hord : s.Orderly cfg a)
    (hret : s.Retaining P a) (hs : s.step cfg a = some s') : s'.Inv P := by
  cases a with
  | appendRow i table row commitTs =>
    simp only [Engine.step] at hs
    split_ifs at hs with hidle
    obtain rfl := Option.some.inj hs
    have hput := h.put (e := ⟨extractKey row (cfg.columns table), row, false, commitTs⟩) hord.1 hord.2
      (encodeRow row).length
    simp only [appendRow]
    split_ifs
    · exact hput.startFlush_of_idle hidle hord.2
    · exact hput
  | deleteRowByKey table key commitTs =>
    obtain rfl := Option.some.inj hs
    exact h.put hord.1 hord.2 0
  | markCommitted commitTs =>
    simp only [Engine.step] at hs
    split_ifs at hs <;> obtain rfl := Option.some.inj hs
    · exact h
    · exact ⟨h.legal, h.fine⟩
  | syncWal table =>
    obtain rfl := Option.some.inj hs
    refine ⟨h.legal, fun u => ?_⟩
    obtain ⟨p, hp, hfine⟩ := h.fine u
    refine ⟨p, hp, ?_⟩
    by_cases hu : u = table
    · subst hu
      simp only [setTable, Function.update_self]
      obtain ⟨hl, hk⟩ := hfine
      exact ⟨⟨hl.ordered, hl.sorted, hl.walOrdered, hl.layered, hl.exact, hl.movedOut, hl.logged⟩,
        fun k c w hP hw => ⟨(hk k c w hP hw).memory, (hk k c w hP hw).log, (hk k c w hP hw).cleared⟩⟩
    · simpa only [setTable, Function.update_of_ne hu] using hfine
  | syncCommitLog =>
    obtain rfl := Option.some.inj hs
    exact ⟨h.legal, h.fine⟩
  | flushMemtable i table =>
    simp only [Engine.step] at hs
    split_ifs at hs with hidle
    obtain rfl := Option.some.inj hs
    exact h.startFlush_of_idle hidle hord
  | checkpoint i =>
    simp only [Engine.step] at hs
    split_ifs at hs with hidle
    obtain rfl := Option.some.inj hs
    have hnot := not_inUse_checkpointProgram cfg
    have hnot' : ∀ table, ¬ InUse table (s.programs i) := by
      rw [hidle]
      exact not_inUse_nil
    exact h.update (legal_checkpointProgram cfg) rfl rfl (fun _ _ _ => rfl)
      (fun table hq => absurd hq (hnot table)) (fun table huse => absurd huse (hnot' table))
      fun table hq => absurd hq (hnot table)
  | advance i gcHorizon =>
    simp only [Engine.step] at hs
    split at hs
    · simp at hs
    · rename_i op rest hp
      cases op with
      | flushNonempty table => exact h.flushNonempty hp (hord table (by simp [hp])) hs
      | flush table job => exact h.flush hp hs
      | compact table job => exact h.compact hp (hret table job (by simp [hp])) hs
      | truncateWal table => exact h.truncateWal hp hs
      | truncateCommitLog => exact h.truncateCommitLog hp hs

/-- The state in which a run starts: nothing is in memory or in a log, no thread is at work, and the
level files are sorted. -/
structure Opened (s : Engine ν ι) : Prop where
  idle : ∀ i, s.programs i = []
  memtable : ∀ table, (s.tables table).memtable = []
  wal : ∀ table, (s.tables table).wal = []
  layered : ∀ table, (s.tables table).levels.Layered
  commitLog : s.commitLog = []
  written : ∀ table, s.written table = (s.tables table).levels.files.entries

omit [DecidableEq ι] in
theorem Opened.inv (h : s.Opened) (P : ν → ValueKey → UInt64 → Option Row → Prop) : s.Inv P := by
  have hfree : ∀ table, s.Free table := fun table i => by
    rw [h.idle i]
    exact not_inUse_nil table
  refine ⟨fun i => by rw [h.idle i]; exact Legal.nil, fun table => ⟨[], .inl ⟨rfl, hfree table⟩, ?_⟩⟩
  refine ⟨⟨?_, ?_, ?_, h.layered table, trivial, fun _ => h.memtable table, fun _ => ?_⟩, ?_⟩
  · rw [h.memtable]
    exact fun e he => absurd he List.not_mem_nil
  · rw [h.memtable]
    exact List.Pairwise.nil
  · rw [h.wal]
    exact fun e he => absurd he List.not_mem_nil
  · rw [h.memtable, h.wal]
    rfl
  · intro k c w _ hw
    rw [h.written] at hw
    refine ⟨?_, ?_, fun level hc => by simp [jobOn] at hc⟩
    · rw [h.memtable]
      exact hw
    · rw [h.wal]
      exact hw

theorem runOp_logs (hs : s.runOp cfg gcHorizon i rest op = some s') :
    s'.written = s.written ∧ s'.commitLogPresent = s.commitLogPresent ∧
      (∀ table, (s'.tables table).wal = (s.tables table).wal ∧
          (s'.tables table).walSynced = (s.tables table).walSynced ∨ (s'.tables table).wal = []) ∧
      (s'.commitLog = s.commitLog ∧ s'.commitSynced = s.commitSynced ∨ op = .truncateCommitLog) := by
  have hset : ∀ {u : ν} {x : TableStore ι}, (x.wal = (s.tables u).wal ∧
      x.walSynced = (s.tables u).walSynced ∨ x.wal = []) → ∀ table,
        (Function.update s.tables u x table).wal = (s.tables table).wal ∧
          (Function.update s.tables u x table).walSynced = (s.tables table).walSynced ∨
        (Function.update s.tables u x table).wal = [] := by
    intro u x hx table
    by_cases ht : table = u
    · subst ht
      rwa [Function.update_self]
    · rw [Function.update_of_ne ht]
      exact .inl ⟨rfl, rfl⟩
  cases op with
  | flushNonempty u =>
    simp only [runOp] at hs
    split_ifs at hs <;> obtain rfl := Option.some.inj hs
    · exact ⟨rfl, rfl, fun _ => .inl ⟨rfl, rfl⟩, .inl ⟨rfl, rfl⟩⟩
    · exact ⟨rfl, rfl, hset (.inl ⟨rfl, rfl⟩), .inl ⟨rfl, rfl⟩⟩
  | flush u job =>
    obtain ⟨r, -, rfl⟩ := Option.map_eq_some_iff.mp hs
    exact ⟨rfl, rfl, hset (.inl ⟨rfl, rfl⟩), .inl ⟨rfl, rfl⟩⟩
  | compact u job =>
    obtain ⟨r, -, rfl⟩ := Option.map_eq_some_iff.mp hs
    exact ⟨rfl, rfl, hset (.inl ⟨rfl, rfl⟩), .inl ⟨rfl, rfl⟩⟩
  | truncateWal u =>
    obtain rfl := Option.some.inj hs
    exact ⟨rfl, rfl, hset (.inr rfl), .inl ⟨rfl, rfl⟩⟩
  | truncateCommitLog =>
    obtain rfl := Option.some.inj hs
    exact ⟨rfl, rfl, fun _ => .inl ⟨rfl, rfl⟩, .inr rfl⟩

end Engine

section Recovery

variable {ν ι : Type*} [DecidableEq ν] {s : Engine ν ι}
  {P : ν → ValueKey → UInt64 → Option Row → Prop}

theorem Engine.Inv.recovered_eq (h : s.Inv P) (walKept : ν → Nat) (commitKept : Nat) (table : ν) :
    s.recovered walKept commitKept table =
      History.overlay
        (History.ofList (((s.tables table).wal.take (walKept table)).filter
          (tsCommitted s.commitLogPresent (s.commitLog.take commitKept))).reverse)
        (History.ofList (s.tables table).levels.files.entries) := by
  obtain ⟨p, -, hl, -⟩ := h.fine table
  have hordered : ∀ e ∈ (s.tables table).wal.take (walKept table), e.pk.isNaN = false :=
    fun e he => hl.walOrdered e (List.mem_of_mem_take he)
  rw [Engine.recovered, tableHistory, History.ofList_append, loadState,
    ofList_replay mvccLess_decides hordered]

end Recovery

end CoroDB
