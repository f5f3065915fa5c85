import CoroDB.Storage.ReadAgreement
import CoroDB.Storage.ScanCache

/-!
# Readers during a flush

One flush of a table and any number of read calls, interleaved at their lock sections and file
operations.
-/

namespace CoroDB

open Framework

inductive ReadCall where
  | lookup (pk : Value) (s : UInt64)
  | scan (s : UInt64)
  | stream (s : UInt64)
  deriving DecidableEq

/-- What a call returns; a read that throws has failed. -/
inductive Answer where
  | row (row : Option Row)
  | rows (rows : List Row)
  | failed
  deriving DecidableEq

/-- Where the flush is: it moves the memtable out, reads level 0, replaces it by the merge, and then
evicts the cached pages of the old file. -/
inductive FlushPc where
  | start
  | moved (memSnapshot : List MemEntry)
  | merged (memSnapshot l0 : List MemEntry)
  | renamed (old : List MemEntry)
  | done
  deriving DecidableEq

inductive Reader where
  | call (c : ReadCall)
  | lookupLevels (pk : Value) (s : UInt64) (memtable : List MemEntry)
  | scanMiss (s : UInt64)
  | scanLevels (s : UInt64)
  | scanMemtable (s : UInt64) (files : LevelFiles)
  | streamOpen (s : UInt64) (memtable : List MemEntry)
  | streaming (s : UInt64) (memtable : List MemEntry) (files : LevelFiles) (replaced : Bool)
  | returned (c : ReadCall) (a : Answer)

/-- What the machine leaves open: the Bloom filters of the files, what a read of level 0 gives before
the pages of the replaced file are evicted, and what a stream gives whose file was replaced. -/
structure ReadEnv where
  mayContain : LevelFiles → Nat → Value → Bool
  staleL0 : List MemEntry → List MemEntry → Option (List MemEntry)
  replacedStream : List MemEntry → LevelFiles → UInt64 → Answer

structure FlushRun where
  table : TableState
  flush : FlushPc
  readers : List Reader

def streamRows (memtable : List MemEntry) (f : LevelFiles) (s : UInt64) : Option (List Row) :=
  scanVisibleStream memtable f s (sources memtable f).flatten.length

def answer (env : ReadEnv) (memtable : List MemEntry) (f : LevelFiles) : ReadCall → Answer
  | .lookup pk s => .row (lookupVisible (env.mayContain f) memtable f pk s)
  | .scan s => .rows (scanVisible memtable f s)
  | .stream s => (streamRows memtable f s).elim .failed .rows

def LevelFiles.flushed (f : LevelFiles) (memtable : List MemEntry) : LevelFiles :=
  f.write 0 (mergeEntries memtable (f.entriesAt 0))

namespace FlushPc

def replaced : FlushPc → Bool
  | renamed _ => true
  | done => true
  | _ => false

def replaces : FlushPc → Bool
  | merged _ _ => true
  | _ => false

/-- The level files and this copy of the memtable hold all rows together. -/
def Covers (memtable : List MemEntry) : FlushPc → Prop
  | start => True
  | moved memSnapshot => memtable = memSnapshot
  | merged memSnapshot _ => memtable = memSnapshot
  | renamed _ => False
  | done => True

instance (memtable : List MemEntry) (pc : FlushPc) : Decidable (pc.Covers memtable) :=
  match pc with
  | start => .isTrue trivial
  | moved _ => inferInstanceAs (Decidable (_ = _))
  | merged _ _ => inferInstanceAs (Decidable (_ = _))
  | renamed _ => .isFalse id
  | done => .isTrue trivial

end FlushPc

namespace Reader

def holdsLock : Reader → Bool
  | lookupLevels _ _ _ => true
  | scanLevels _ => true
  | scanMemtable _ _ => true
  | _ => false

/-- The call holds the mutex that serialises cache rebuilds. -/
def rebuilds : Reader → Bool
  | scanLevels _ => true
  | scanMemtable _ _ => true
  | _ => false

def hasOpen : Reader → Bool
  | streaming _ _ _ _ => true
  | _ => false

/-- The memtable that goes with the level files which the call reads next. -/
def readsLevels (st : TableState) : Reader → Option (List MemEntry)
  | lookupLevels _ _ memtable => some memtable
  | scanLevels _ => some st.memtable
  | streamOpen _ memtable => some memtable
  | _ => none

end Reader

namespace FlushRun

def viewFiles (env : ReadEnv) (x : FlushRun) : Option LevelFiles :=
  match x.flush with
  | .renamed old => (env.staleL0 old (x.table.files.entriesAt 0)).map (x.table.files.write 0)
  | _ => some x.table.files

def readStep (env : ReadEnv) (x : FlushRun) : Reader → Option (TableState × Reader)
  | .call (.lookup pk s) => some (x.table, .lookupLevels pk s x.table.memtable)
  | .lookupLevels pk s memtable =>
    some (x.table, .returned (.lookup pk s) (match x.viewFiles env with
      | none => .failed
      | some f => answer env memtable f (.lookup pk s)))
  | .call (.scan s) =>
    some (x.table, if x.table.cacheHit s then .returned (.scan s) (.rows x.table.cache.rows)
      else .scanMiss s)
  | .scanMiss s =>
    if x.readers.any Reader.rebuilds then none
    else some (x.table, if x.table.cacheHit s then .returned (.scan s) (.rows x.table.cache.rows)
      else .scanLevels s)
  | .scanLevels s =>
    some (x.table, match x.viewFiles env with
      | none => .returned (.scan s) .failed
      | some f => .scanMemtable s f)
  | .scanMemtable s f =>
    let rows := scanVisible x.table.memtable f s
    some ({ x.table with cache := ⟨true, rows, x.table.writeVersion, s,
        observedMaxCommitTs (considered x.table.memtable f)⟩ }, .returned (.scan s) (.rows rows))
  | .call (.stream s) => some (x.table, .streamOpen s x.table.memtable)
  | .streamOpen s memtable =>
    some (x.table, match x.viewFiles env with
      | none => .returned (.stream s) .failed
      | some f => .streaming s memtable f x.flush.replaced)
  | .streaming s memtable f replaced =>
    if replaced = x.flush.replaced then
      (streamRows memtable f s).map fun rows => (x.table, .returned (.stream s) (.rows rows))
    else some (x.table, .returned (.stream s) (env.replacedStream memtable f s))
  | .returned _ _ => none

def flushStep (x : FlushRun) : Option FlushRun :=
  match x.flush with
  | .start =>
    if x.readers.any Reader.holdsLock then none
    else some { x with table := { x.table with memtable := [], memtableBytes := 0 },
                       flush := .moved x.table.memtable }
  | .moved memSnapshot =>
    some { x with flush := .merged memSnapshot (x.table.files.entriesAt 0) }
  | .merged memSnapshot l0 =>
    some { x with
      table := { x.table with files := x.table.files.write 0 (mergeEntries memSnapshot l0) },
      flush := .renamed (x.table.files.entriesAt 0) }
  | .renamed _ => some { x with flush := .done }
  | .done => none

inductive Action where
  | flush
  | reader (k : Nat)
  deriving DecidableEq

def step (env : ReadEnv) (x : FlushRun) : Action → Option FlushRun
  | .flush => x.flushStep
  | .reader k => (x.readers[k]?).bind fun r => (x.readStep env r).map fun p =>
      { x with table := p.1, readers := x.readers.set k p.2 }

/-- A call reads the level files only together with a copy of the memtable that covers what is
missing in them, and level 0 is not replaced under an open stream. -/
def Safe (x : FlushRun) : Action → Prop
  | .flush => x.flush.replaces = true → ∀ r ∈ x.readers, r.hasOpen = false
  | .reader k => ∀ r ∈ x.readers[k]?, ∀ memtable ∈ r.readsLevels x.table, x.flush.Covers memtable

instance (x : FlushRun) (a : Action) : Decidable (x.Safe a) :=
  match a with
  | .flush => inferInstanceAs (Decidable (_ → ∀ r ∈ x.readers, _))
  | .reader k => inferInstanceAs (Decidable (∀ r ∈ x.readers[k]?, ∀ m ∈ r.readsLevels x.table, _))

end FlushRun

/-- The sources of the readers are sorted, have ordered keys, and agree on the versions they share;
level 0 exists. -/
structure Readable (memtable : List MemEntry) (f : LevelFiles) : Prop where
  l0 : (f.file 0).isSome = true
  sorted : ∀ src ∈ sources memtable f, Sorted src
  coherent : Coherent (sources memtable f).flatten
  ordered : Ordered (sources memtable f).flatten

section Flushed

variable {memtable mem' : List MemEntry} {f f' : LevelFiles} {env : ReadEnv}

theorem Readable.sortedVersions (h : Readable memtable f) :
    ∀ src ∈ sources memtable f, SortedVersions src := fun src hsrc =>
  (sorted_iff fun e he => h.ordered e (List.mem_flatten_of_mem hsrc he)).mp (h.sorted src hsrc)

theorem Readable.sameCells (h : Readable memtable f) :
    SameCells (sources memtable f).flatten (sources memtable f).flatten :=
  (coherent_iff h.ordered).mp h.coherent

theorem answer_congr (h : Readable memtable f) (h' : Readable mem' f')
    (hb : NoFalseNegatives (env.mayContain f) f) (hb' : NoFalseNegatives (env.mayContain f') f')
    (heq : readHistory memtable f = readHistory mem' f') (c : ReadCall) :
    answer env memtable f c = answer env mem' f' c := by
  have hscan : ∀ s, scanVisible memtable f s = scanVisible mem' f' s := fun s =>
    scanVisible_congr (ordered_considered h.ordered) (ordered_considered h'.ordered) fun k => by
      rw [ofList_considered h.sameCells, ofList_considered h'.sameCells, heq]
  cases c with
  | lookup pk s =>
    refine congrArg Answer.row ?_
    by_cases hpk : pk.isNaN = true
    · rw [lookupVisible_of_isNaN _ _ _ hpk, lookupVisible_of_isNaN _ _ _ hpk]
    · have hpk := Bool.not_eq_true _ ▸ hpk
      rw [lookupVisible_eq_view h.ordered h.sortedVersions hb hpk,
        lookupVisible_eq_view h'.ordered h'.sortedVersions hb' hpk, heq]
  | scan s => exact congrArg Answer.rows (hscan s)
  | stream s =>
    rw [answer, answer, streamRows, streamRows,
      scanVisibleStream_eq_scanVisible h.ordered h.sortedVersions h.sameCells,
      scanVisibleStream_eq_scanVisible h'.ordered h'.sortedVersions h'.sameCells, hscan]

theorem streamRows_isSome (h : Readable memtable f) (s : UInt64) :
    streamRows memtable f s = some (scanVisible memtable f s) :=
  scanVisibleStream_eq_scanVisible h.ordered h.sortedVersions h.sameCells

def LevelFiles.deeperFiles (f : LevelFiles) : List (List MemEntry) :=
  (List.range' 1 f.maxLevel).filterMap f.file

theorem sources_eq (memtable : List MemEntry) (hl0 : (f.file 0).isSome = true) :
    sources memtable f = memtable :: f.entriesAt 0 :: f.deeperFiles := by
  obtain ⟨l0, hl0⟩ := Option.isSome_iff_exists.mp hl0
  have hmap : ∀ levels : List Nat,
      (levels.filterMap fun level => (f.file level).map fun es => (level, es)).map Prod.snd =
        levels.filterMap f.file := by
    intro levels
    rw [List.map_filterMap]
    refine List.filterMap_congr fun level _ => ?_
    cases f.file level <;> rfl
  rw [sources, LevelFiles.probedFiles, hmap, LevelFiles.probedLevels, List.range_eq_range',
    List.range'_succ, List.filterMap_cons_some hl0, LevelFiles.entriesAt_of_file hl0]
  rfl

theorem LevelFiles.flushed_l0 (f : LevelFiles) (memtable : List MemEntry) :
    ((f.flushed memtable).file 0).isSome = true := by
  rw [flushed, write_file_self]
  rfl

theorem sources_flushed :
    sources mem' (f.flushed memtable) =
      mem' :: mergeEntries memtable (f.entriesAt 0) :: f.deeperFiles := by
  rw [sources_eq mem' (f.flushed_l0 memtable), LevelFiles.flushed, LevelFiles.entriesAt_write_self,
    LevelFiles.deeperFiles, LevelFiles.maxLevel_write_zero]
  congr 2
  refine List.filterMap_congr fun level hlevel => ?_
  rw [f.write_file_of_ne (by have := List.mem_range'_1.mp hlevel; omega)]

theorem Readable.flushed (h : Readable memtable f) (hmem : mem' = [] ∨ mem' = memtable) :
    Readable mem' (f.flushed memtable) ∧
      readHistory mem' (f.flushed memtable) = readHistory memtable f := by
  have hsrc := sources_eq memtable h.l0
  have hord := h.ordered
  have hsorted := h.sortedVersions
  have hcells := h.sameCells
  rw [hsrc] at hord hsorted hcells
  have hom : Ordered memtable := fun e he => hord e (by simp [he])
  have hol : Ordered (f.entriesAt 0) := fun e he => hord e (by simp [he])
  have hsm := hsorted memtable (by simp)
  have hsl := hsorted (f.entriesAt 0) (by simp)
  have hsub : (sources mem' (f.flushed memtable)).flatten ⊆ (sources memtable f).flatten := by
    rw [sources_flushed, hsrc]
    intro e he
    simp only [List.flatten_cons, List.mem_append] at he ⊢
    rcases he with he | he | he
    · rcases hmem with rfl | rfl
      · simp at he
      · exact .inl he
    · rcases mem_of_mem_priorityMerge he with he | he
      · exact .inl he
      · exact .inr (.inl he)
    · exact .inr (.inr he)
  have hord' := h.ordered.subset hsub
  refine ⟨⟨f.flushed_l0 memtable, fun src hs => ?_, ?_, hord'⟩, ?_⟩
  · refine (sorted_iff fun e he => hord' e (List.mem_flatten_of_mem hs he)).mpr ?_
    rw [sources_flushed] at hs
    simp only [List.mem_cons] at hs
    rcases hs with rfl | rfl | hs
    · rcases hmem with rfl | rfl
      · exact List.Pairwise.nil
      · exact hsm
    · exact mergeEntries_sorted hom hol hsm hsl
    · exact hsorted src (by simp [hs])
  · exact (coherent_iff hord').mpr (h.sameCells.subset hsub)
  · rw [readHistory, readHistory, sources_flushed, hsrc]
    simp only [List.flatten_cons, History.ofList_append,
      ofList_mergeEntries hom hol (.inl ⟨hsm, hsl⟩), History.overlay_assoc]
    rcases hmem with rfl | rfl
    · simp
    · rw [← History.overlay_assoc, History.overlay_self]

/-- A memtable and level files that hold, together, what they held when the flush began. -/
def SameRows (mem₀ : List MemEntry) (f₀ : LevelFiles) (memtable : List MemEntry) (f : LevelFiles) :
    Prop :=
  memtable = mem₀ ∧ f = f₀ ∨ (memtable = [] ∨ memtable = mem₀) ∧ f = f₀.flushed mem₀

theorem SameRows.readable {mem₀ : List MemEntry} {f₀ : LevelFiles} (h : SameRows mem₀ f₀ memtable f)
    (h₀ : Readable mem₀ f₀) :
    Readable memtable f ∧ readHistory memtable f = readHistory mem₀ f₀ := by
  rcases h with ⟨rfl, rfl⟩ | ⟨hmem, rfl⟩
  · exact ⟨h₀, rfl⟩
  · exact h₀.flushed hmem

theorem SameRows.answer_eq {mem₀ : List MemEntry} {f₀ : LevelFiles} (h : SameRows mem₀ f₀ memtable f)
    (h₀ : Readable mem₀ f₀) (hb : NoFalseNegatives (env.mayContain f₀) f₀)
    (hb' : NoFalseNegatives (env.mayContain (f₀.flushed mem₀)) (f₀.flushed mem₀)) (c : ReadCall) :
    answer env memtable f c = answer env mem₀ f₀ c := by
  obtain ⟨hr, heq⟩ := h.readable h₀
  refine answer_congr hr h₀ ?_ hb heq c
  rcases h with ⟨-, rfl⟩ | ⟨-, rfl⟩
  · exact hb
  · exact hb'

theorem SameRows.le_observedMax {mem₀ : List MemEntry} {f₀ : LevelFiles}
    (h : SameRows mem₀ f₀ memtable f) (h₀ : Readable mem₀ f₀) {e : MemEntry}
    (he : e ∈ considered mem₀ f₀) :
    e.commitTs ≤ observedMaxCommitTs (considered memtable f) := by
  obtain ⟨hr, heq⟩ := h.readable h₀
  have hv : History.ofList (considered memtable f) (valueKey e.pk) e.commitTs ≠ none := by
    rw [ofList_considered hr.sameCells, heq, ← ofList_considered h₀.sameCells]
    exact History.ofList_ne_none he
  obtain ⟨c, hc⟩ := Option.ne_none_iff_exists'.mp hv
  obtain ⟨x, hx, -, hts, -⟩ := History.exists_of_ofList hc
  have hts : x.commitTs = e.commitTs := hts
  exact hts ▸ le_observedMaxCommitTs hx

end Flushed

section Invariant

variable (env : ReadEnv) (mem₀ : List MemEntry) (f₀ : LevelFiles)

/-- Where the rows are at each point of the flush. -/
def FlushRun.Place (x : FlushRun) : Prop :=
  match x.flush with
  | .start => x.table.memtable = mem₀ ∧ x.table.files = f₀
  | .moved memSnapshot => memSnapshot = mem₀ ∧ x.table.memtable = [] ∧ x.table.files = f₀
  | .merged memSnapshot l0 =>
    memSnapshot = mem₀ ∧ l0 = f₀.entriesAt 0 ∧ x.table.memtable = [] ∧ x.table.files = f₀
  | .renamed _ => x.table.memtable = [] ∧ x.table.files = f₀.flushed mem₀
  | .done => x.table.memtable = [] ∧ x.table.files = f₀.flushed mem₀

/-- What a call has read so far, under the memtable and the flush of the moment. -/
def Reader.Holds (memtable : List MemEntry) (pc : FlushPc) : Reader → Prop
  | lookupLevels _ _ mem => mem = memtable
  | scanMemtable _ f => SameRows mem₀ f₀ memtable f
  | streamOpen _ mem => mem = memtable ∨ mem = mem₀
  | streaming _ mem f replaced => SameRows mem₀ f₀ mem f ∧ replaced = pc.replaced
  | returned c a => a = answer env mem₀ f₀ c
  | _ => True

/-- A cache of the current version holds the rows that were visible when the flush began. -/
def FlushRun.CacheKept (st : TableState) : Prop :=
  st.cache.valid = true → st.cache.version = st.writeVersion →
    st.cache.rows = scanVisible mem₀ f₀ st.cache.ts ∧
      ∀ e ∈ considered mem₀ f₀, e.commitTs ≤ st.cache.maxCommitTs

structure FlushRun.Inv (x : FlushRun) : Prop where
  place : x.Place mem₀ f₀
  readers : ∀ r ∈ x.readers, r.Holds env mem₀ f₀ x.table.memtable x.flush
  cache : FlushRun.CacheKept mem₀ f₀ x.table

end Invariant

namespace FlushRun

variable {env : ReadEnv} {mem₀ : List MemEntry} {f₀ : LevelFiles} {x y : FlushRun}

theorem Place.view {memtable : List MemEntry} (h : x.Place mem₀ f₀)
    (hmem : memtable = x.table.memtable ∨ memtable = mem₀) (hc : x.flush.Covers memtable) :
    ∃ f, x.viewFiles env = some f ∧ SameRows mem₀ f₀ memtable f := by
  unfold Place at h
  unfold viewFiles
  cases hf : x.flush with
  | start =>
    rw [hf] at h
    refine ⟨_, rfl, .inl ⟨?_, h.2⟩⟩
    exact hmem.elim (fun hm => hm.trans h.1) id
  | moved memSnapshot =>
    rw [hf] at h hc
    exact ⟨_, rfl, .inl ⟨Eq.trans hc h.1, h.2.2⟩⟩
  | merged memSnapshot l0 =>
    rw [hf] at h hc
    exact ⟨_, rfl, .inl ⟨Eq.trans hc h.1, h.2.2.2⟩⟩
  | renamed old =>
    rw [hf] at hc
    exact hc.elim
  | done =>
    rw [hf] at h
    refine ⟨_, rfl, .inr ⟨?_, h.2⟩⟩
    exact hmem.imp_left fun hm => hm.trans h.1

theorem CacheKept.hit {st : TableState} {s : UInt64} (h : CacheKept mem₀ f₀ st)
    (h₀ : Readable mem₀ f₀) (hhit : st.cacheHit s = true) :
    st.cache.rows = scanVisible mem₀ f₀ s := by
  simp only [TableState.cacheHit, Bool.and_eq_true, beq_iff_eq, decide_eq_true_eq] at hhit
  obtain ⟨⟨⟨hvalid, hversion⟩, hts⟩, hmax⟩ := hhit
  obtain ⟨hrows, hbound⟩ := h hvalid hversion
  exact hrows.trans (scanVisible_of_bound (ordered_considered h₀.ordered) hbound hmax hts)

section Steps

variable (h₀ : Readable mem₀ f₀) (hb : NoFalseNegatives (env.mayContain f₀) f₀)
  (hb' : NoFalseNegatives (env.mayContain (f₀.flushed mem₀)) (f₀.flushed mem₀))

include h₀ hb hb'

/-- A step of a call keeps the memtable and the files, and what the call has read stays right. -/
theorem readStep_holds {r r' : Reader} {st : TableState} (hinv : x.Inv env mem₀ f₀)
    (hr : r ∈ x.readers)
    (hcov : ∀ memtable ∈ r.readsLevels x.table, x.flush.Covers memtable)
    (h : x.readStep env r = some (st, r')) :
    r'.Holds env mem₀ f₀ x.table.memtable x.flush ∧ st.memtable = x.table.memtable ∧
      st.files = x.table.files ∧ CacheKept mem₀ f₀ st := by
  have hholds := hinv.readers r hr
  have hkeep : ∀ {r'' : Reader}, some (x.table, r'') = some (st, r') →
      r''.Holds env mem₀ f₀ x.table.memtable x.flush →
      r'.Holds env mem₀ f₀ x.table.memtable x.flush ∧ st.memtable = x.table.memtable ∧
        st.files = x.table.files ∧ CacheKept mem₀ f₀ st := by
    intro r'' heq hr''
    obtain ⟨rfl, rfl⟩ := Prod.mk.inj (Option.some.inj heq)
    exact ⟨hr'', rfl, rfl, hinv.cache⟩
  have hhit : ∀ {s : UInt64} {waiting : Reader}, waiting.Holds env mem₀ f₀ x.table.memtable x.flush →
      (if x.table.cacheHit s then Reader.returned (.scan s) (.rows x.table.cache.rows)
        else waiting).Holds env mem₀ f₀ x.table.memtable x.flush := by
    intro s waiting hw
    split_ifs with hhit
    · exact congrArg Answer.rows (hinv.cache.hit h₀ hhit)
    · exact hw
  cases r with
  | call c =>
    cases c with
    | lookup pk s => exact hkeep h rfl
    | scan s => exact hkeep h (hhit trivial)
    | stream s => exact hkeep h (.inl rfl)
  | lookupLevels pk s mem =>
    obtain ⟨f, hf, hsame⟩ := hinv.place.view (.inl hholds) (hcov mem rfl)
    rw [readStep, hf] at h
    exact hkeep h (hsame.answer_eq h₀ hb hb' _)
  | scanMiss s =>
    by_cases hbusy : x.readers.any Reader.rebuilds = true
    · simp [readStep, hbusy] at h
    · rw [readStep, if_neg hbusy] at h
      exact hkeep h (hhit trivial)
  | scanLevels s =>
    obtain ⟨f, hf, hsame⟩ := hinv.place.view (.inl rfl) (hcov _ rfl)
    rw [readStep, hf] at h
    exact hkeep h hsame
  | scanMemtable s f =>
    obtain ⟨rfl, rfl⟩ := Prod.mk.inj (Option.some.inj h)
    have hrows : scanVisible x.table.memtable f s = scanVisible mem₀ f₀ s :=
      Answer.rows.inj (SameRows.answer_eq hholds h₀ hb hb' (.scan s))
    exact ⟨congrArg Answer.rows hrows, rfl, rfl, fun _ _ =>
      ⟨hrows, fun e he => SameRows.le_observedMax hholds h₀ he⟩⟩
  | streamOpen s mem =>
    obtain ⟨f, hf, hsame⟩ := hinv.place.view hholds (hcov mem rfl)
    rw [readStep, hf] at h
    exact hkeep h ⟨hsame, rfl⟩
  | streaming s mem f replaced =>
    obtain ⟨hsame, hrep⟩ := hholds
    rw [readStep, if_pos hrep, streamRows_isSome (hsame.readable h₀).1] at h
    refine hkeep h ?_
    have := hsame.answer_eq h₀ hb hb' (.stream s)
    rwa [answer, streamRows_isSome (hsame.readable h₀).1] at this
  | returned c a => simp [readStep] at h

end Steps

/-- A step of the flush keeps what the calls have read. -/
theorem flushStep_inv (hinv : x.Inv env mem₀ f₀) (hsafe : x.Safe .flush)
    (h : x.flushStep = some y) : y.Inv env mem₀ f₀ := by
  have hplace := hinv.place
  unfold Place at hplace
  unfold flushStep at h
  cases hf : x.flush with
  | start =>
    simp only [hf] at h hplace
    split_ifs at h with hlock
    obtain rfl := Option.some.inj h
    refine ⟨⟨hplace.1, rfl, hplace.2⟩, fun r hr => ?_, hinv.cache⟩
    have hholds := hinv.readers r hr
    have hfree : r.holdsLock = false := by
      have := List.any_eq_false.mp (Bool.not_eq_true _ ▸ hlock) r hr
      simpa using this
    cases r with
    | lookupLevels pk s mem => simp [Reader.holdsLock] at hfree
    | scanMemtable s f => simp [Reader.holdsLock] at hfree
    | streamOpen s mem => exact .inr (hholds.elim (fun hm => hm.trans hplace.1) id)
    | streaming s mem f replaced => exact ⟨hholds.1, by rw [hholds.2, hf]; rfl⟩
    | returned c a => exact hholds
    | _ => trivial
  | moved memSnapshot =>
    simp only [hf] at h hplace
    obtain rfl := Option.some.inj h
    refine ⟨⟨hplace.1, by rw [hplace.2.2], hplace.2⟩, fun r hr => ?_, hinv.cache⟩
    have hholds := hinv.readers r hr
    rw [hf] at hholds
    cases r <;> exact hholds
  | merged memSnapshot l0 =>
    simp only [hf] at h hplace
    obtain rfl := Option.some.inj h
    obtain ⟨rfl, rfl, hmem, rfl⟩ := hplace
    refine ⟨⟨hmem, rfl⟩, fun r hr => ?_, hinv.cache⟩
    have hholds := hinv.readers r hr
    have hopen := hsafe (by rw [hf]; rfl) r hr
    cases r with
    | streaming s mem f replaced => simp [Reader.hasOpen] at hopen
    | _ => exact hholds
  | renamed old =>
    simp only [hf] at h hplace
    obtain rfl := Option.some.inj h
    refine ⟨hplace, fun r hr => ?_, hinv.cache⟩
    have hholds := hinv.readers r hr
    rw [hf] at hholds
    cases r <;> exact hholds
  | done =>
    simp only [hf] at h
    simp at h

theorem step_inv {a : Action} (h₀ : Readable mem₀ f₀) (hb : NoFalseNegatives (env.mayContain f₀) f₀)
    (hb' : NoFalseNegatives (env.mayContain (f₀.flushed mem₀)) (f₀.flushed mem₀))
    (hinv : x.Inv env mem₀ f₀) (hsafe : x.Safe a) (h : x.step env a = some y) :
    y.Inv env mem₀ f₀ := by
  cases a with
  | flush => exact flushStep_inv hinv hsafe h
  | reader k =>
    obtain ⟨r, hr, h⟩ := Option.bind_eq_some_iff.mp h
    obtain ⟨⟨st, r'⟩, hstep, rfl⟩ := Option.map_eq_some_iff.mp h
    obtain ⟨hholds, hmem, hfiles, hcache⟩ :=
      readStep_holds h₀ hb hb' hinv (List.mem_of_getElem? hr) (hsafe r hr) hstep
    refine ⟨?_, fun r'' hr'' => ?_, hcache⟩
    · have hplace := hinv.place
      unfold Place at hplace ⊢
      rwa [← hmem, ← hfiles] at hplace
    · rw [hmem]
      rcases List.mem_or_eq_of_mem_set hr'' with hr'' | rfl
      · exact hinv.readers r'' hr''
      · exact hholds

/-- In every run that keeps the reads of the level files and the open streams out of the window of
the flush, each call returns what it would have returned before the flush began. -/
theorem answers_kept {as : List Action} (hstart : x.flush = .start)
    (hcalls : ∀ r ∈ x.readers, ∃ c, r = .call c) (hread : Readable x.table.memtable x.table.files)
    (hbloom : NoFalseNegatives (env.mayContain x.table.files) x.table.files)
    (hbloom' : NoFalseNegatives (env.mayContain (x.table.files.flushed x.table.memtable))
      (x.table.files.flushed x.table.memtable))
    (hcache : x.table.cache.valid = true → x.table.cache.version = x.table.writeVersion →
      x.table.CacheFresh)
    (hguard : Guarded (FlushRun.step env) FlushRun.Safe x as) :
    Throughout (FlushRun.step env) (fun y => ∀ c a, .returned c a ∈ y.readers →
      a = answer env x.table.memtable x.table.files c) x as := by
  have hinit : x.Inv env x.table.memtable x.table.files := by
    refine ⟨?_, fun r hr => ?_, fun hv hver => ⟨(hcache hv hver).rows_eq, (hcache hv hver).bound⟩⟩
    · unfold Place
      rw [hstart]
      exact ⟨rfl, rfl⟩
    · obtain ⟨c, rfl⟩ := hcalls r hr
      trivial
  refine (hguard.throughout (fun _ _ _ hs hG h => step_inv hread hbloom hbloom' hs hG h) hinit).mono ?_
  exact fun y hy c a hr => hy.readers _ hr

/-- Filters that skip nothing, reads that are never stale, streams that fail once replaced. -/
def plainEnv : ReadEnv := ⟨fun _ _ _ => true, fun _ new => some new, fun _ _ _ => .failed⟩

def oneRow (calls : List ReadCall) : FlushRun :=
  ⟨{ TableState.created with memtable := [⟨.int 1, ⟨[.int 1]⟩, false, 5⟩] }, .start, calls.map .call⟩

def threeCalls : FlushRun := oneRow [.stream 9, .lookup (.int 1) 9, .scan 9]

theorem answers_kept_around_flush :
    Throughout (FlushRun.step plainEnv) (fun y => ∀ c a, .returned c a ∈ y.readers →
        a = answer plainEnv threeCalls.table.memtable threeCalls.table.files c) threeCalls
      [.reader 0, .flush, .reader 0, .reader 0, .flush, .flush, .flush, .reader 1, .reader 1,
        .reader 2, .reader 2, .reader 2, .reader 2] := by
  have hcalls : ∀ r ∈ threeCalls.readers, ∃ c, r = .call c := by simp [threeCalls, oneRow]
  have hread : Readable threeCalls.table.memtable threeCalls.table.files :=
    ⟨rfl, by decide, by decide, by decide⟩
  have hinvalid : threeCalls.table.cache.valid = false := rfl
  exact answers_kept rfl hcalls hread (fun _ _ _ => rfl) (fun _ _ _ => rfl)
    (fun hv => by simp [hinvalid] at hv) (by decide +kernel)

/-- A scan between the move of the memtable and the replacement of level 0 misses the row, caches
the empty result, and after the flush the cache is served to the next scan. -/
theorem scan_during_flush_misses_row :
    ∃ y, run (FlushRun.step plainEnv) (oneRow [.scan 9, .scan 9])
        [.flush, .reader 0, .reader 0, .reader 0, .reader 0, .flush, .flush, .flush, .reader 1] =
          some y ∧
      y.flush = .done ∧ y.readers.map (fun r => match r with
        | .returned c a => some (c, a)
        | _ => none) = [some (.scan 9, .rows []), some (.scan 9, .rows [])] ∧
      answer plainEnv (oneRow []).table.memtable (oneRow []).table.files (.scan 9) =
        .rows [⟨[.int 1]⟩] :=
  ⟨_, rfl, rfl, by decide, by decide⟩

end FlushRun

end CoroDB
