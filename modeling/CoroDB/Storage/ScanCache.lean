import CoroDB.Framework.Run
import CoroDB.Storage.Readers

/-!
# The scan cache

`scan_visible` keeps its last result and serves it again while no write has happened and the snapshot
covers every version the rebuild observed.
-/

namespace CoroDB

open Framework

structure TableConfig where
  columns : List Column
  memtableLimitBytes : Nat

structure ScanCache where
  valid : Bool
  rows : List Row
  version : UInt64
  ts : UInt64
  maxCommitTs : UInt64

structure TableState where
  memtable : List MemEntry
  memtableBytes : Nat
  files : LevelFiles
  writeVersion : UInt64
  cache : ScanCache

def observedMaxCommitTs (es : List MemEntry) : UInt64 :=
  es.foldl (fun m e => if m < e.commitTs then e.commitTs else m) 0

namespace TableState

def created : TableState where
  memtable := []
  memtableBytes := 0
  files := LevelFiles.fresh
  writeVersion := 0
  cache := ⟨false, [], 0xFFFFFFFFFFFFFFFF, 0, 0⟩

def cacheHit (st : TableState) (s : UInt64) : Bool :=
  st.cache.valid && st.cache.version == st.writeVersion && decide (st.cache.ts ≤ s) &&
    decide (st.cache.maxCommitTs ≤ st.cache.ts)

/-- `scan_visible`: the cached rows on a hit, else a rebuild that replaces the cache. -/
def scanVisible (st : TableState) (s : UInt64) : List Row × TableState :=
  if st.cacheHit s then (st.cache.rows, st)
  else
    let rows := CoroDB.scanVisible st.memtable st.files s
    (rows, { st with
      cache := ⟨true, rows, st.writeVersion, s,
        observedMaxCommitTs (considered st.memtable st.files)⟩ })

def flushMemtable (st : TableState) : TableState :=
  { st with memtable := [], memtableBytes := 0,
            files := st.files.write 0 (mergeEntries st.memtable (st.files.entriesAt 0)) }

def put (st : TableState) (e : MemEntry) (bytes : Nat) : TableState :=
  { st with memtable := mergeEntries [e] st.memtable, memtableBytes := st.memtableBytes + bytes,
            writeVersion := st.writeVersion + 1 }

def appendRow (cfg : TableConfig) (st : TableState) (row : Row) (commitTs : UInt64) : TableState :=
  let st' := st.put ⟨extractKey row cfg.columns, row, false, commitTs⟩ (encodeRow row).length
  if cfg.memtableLimitBytes ≤ st'.memtableBytes then st'.flushMemtable else st'

def deleteRowByKey (st : TableState) (key : Value) (commitTs : UInt64) : TableState :=
  st.put ⟨key, ⟨[]⟩, true, commitTs⟩ 0

def rewriteTable (cfg : TableConfig) (st : TableState) (rows : List Row) : TableState :=
  { st with memtable := [], memtableBytes := 0, writeVersion := st.writeVersion + 1,
            files := LevelFiles.ofLevels
              [some (rows.map fun r => ⟨extractKey r cfg.columns, r, false, 0⟩)] }

end TableState

inductive TableOp where
  | append (row : Row) (commitTs : UInt64)
  | delete (key : Value) (commitTs : UInt64)
  | rewrite (rows : List Row)
  | flush
  | scan (s : UInt64)

def TableState.step (cfg : TableConfig) (st : TableState) : TableOp → Option TableState
  | .append row commitTs => some (st.appendRow cfg row commitTs)
  | .delete key commitTs => some (st.deleteRowByKey key commitTs)
  | .rewrite rows => some (st.rewriteTable cfg rows)
  | .flush => some st.flushMemtable
  | .scan s => some (st.scanVisible s).2

/-- A scan at any snapshot returns what a recomputation without the cache returns. -/
def TableState.Transparent (st : TableState) : Prop :=
  ∀ s, (st.scanVisible s).1 = CoroDB.scanVisible st.memtable st.files s

/-- The entry has an ordered key, and no level file holds its version with another content. -/
def TableState.Accepts (st : TableState) (e : MemEntry) : Prop :=
  e.pk.isNaN = false ∧ ∀ x ∈ st.files.probedEntries, valueEq x.pk e.pk = true →
    x.commitTs = e.commitTs → x.content = e.content

instance (st : TableState) (e : MemEntry) : Decidable (st.Accepts e) :=
  inferInstanceAs (Decidable (_ ∧ ∀ x ∈ st.files.probedEntries, _ → _ → _))

/-- What the steps of a run are asked for: a write must not give another content to a version that
a level file holds, and no key is a `NaN`. -/
def TableOp.Fits (cfg : TableConfig) (st : TableState) : TableOp → Prop
  | .append row commitTs => st.Accepts ⟨extractKey row cfg.columns, row, false, commitTs⟩
  | .delete key commitTs => st.Accepts ⟨key, ⟨[]⟩, true, commitTs⟩
  | .rewrite rows => ∀ r ∈ rows, (extractKey r cfg.columns).isNaN = false
  | .flush => True
  | .scan _ => True

instance TableOp.Fits.decidable (cfg : TableConfig) (st : TableState) (op : TableOp) :
    Decidable (op.Fits cfg st) :=
  match op with
  | .append _ _ => inferInstanceAs (Decidable (st.Accepts _))
  | .delete _ _ => inferInstanceAs (Decidable (st.Accepts _))
  | .rewrite rows => inferInstanceAs (Decidable (∀ r ∈ rows, _ = false))
  | .flush => .isTrue trivial
  | .scan _ => .isTrue trivial

theorem le_observedMaxCommitTs {es : List MemEntry} {e : MemEntry} (he : e ∈ es) :
    e.commitTs ≤ observedMaxCommitTs es := by
  have hinit : ∀ (es : List MemEntry) (m : UInt64),
      m ≤ es.foldl (fun m e => if m < e.commitTs then e.commitTs else m) m ∧
        ∀ e ∈ es, e.commitTs ≤ es.foldl (fun m e => if m < e.commitTs then e.commitTs else m) m := by
    intro es
    induction es with
    | nil => simp
    | cons x es ih =>
      intro m
      rw [List.foldl_cons]
      obtain ⟨hm, hes⟩ := ih (if m < x.commitTs then x.commitTs else m)
      have hmx : m ≤ (if m < x.commitTs then x.commitTs else m) ∧
          x.commitTs ≤ (if m < x.commitTs then x.commitTs else m) := by
        split_ifs with h
        · exact ⟨h.le, le_rfl⟩
        · exact ⟨le_rfl, not_lt.mp h⟩
      refine ⟨hmx.1.trans hm, fun e he => ?_⟩
      rcases List.mem_cons.mp he with rfl | he
      · exact hmx.2.trans hm
      · exact hes e he
  exact (hinit es 0).2 e he

namespace TableState

variable {cfg : TableConfig} {st st' : TableState} {n : Nat}

/-- The keys are ordered and the memtable agrees with the level files. -/
structure Consistent (st : TableState) : Prop where
  ordered : Ordered (considered st.memtable st.files)
  agree : SameCells st.memtable st.files.probedEntries

/-- The cached rows are those of the cached snapshot, and the observed maximum bounds all versions. -/
structure CacheFresh (st : TableState) : Prop where
  rows_eq : st.cache.rows = CoroDB.scanVisible st.memtable st.files st.cache.ts
  bound : ∀ e ∈ considered st.memtable st.files, e.commitTs ≤ st.cache.maxCommitTs

/-- After `n` steps the write version is at most `n` writes ahead of that of a valid cache, and a
cache that it is not ahead of is fresh. -/
structure CacheInv (n : Nat) (st : TableState) : Prop where
  consistent : st.Consistent
  fresh : st.cache.valid = true → ∃ w ≤ n,
    st.writeVersion = st.cache.version + UInt64.ofNat w ∧ (w = 0 → st.CacheFresh)

theorem CacheInv.mono {m : Nat} (h : CacheInv n st) (hnm : n ≤ m) : CacheInv m st :=
  ⟨h.consistent, fun hv =>
    let ⟨w, hw, hwv⟩ := h.fresh hv
    ⟨w, hw.trans hnm, hwv⟩⟩

theorem CacheFresh.rows_of_le {s : UInt64} (h : st.CacheFresh) (hc : st.Consistent)
    (hts : st.cache.ts ≤ s) (hmax : st.cache.maxCommitTs ≤ st.cache.ts) :
    st.cache.rows = CoroDB.scanVisible st.memtable st.files s :=
  h.rows_eq.trans (scanVisible_of_bound hc.ordered h.bound hmax hts)

theorem CacheInv.transparent (hn : n < 2 ^ 64) (h : CacheInv n st) : st.Transparent := by
  intro s
  rw [scanVisible]
  split_ifs with hhit
  · simp only [cacheHit, Bool.and_eq_true, beq_iff_eq, decide_eq_true_eq] at hhit
    obtain ⟨⟨⟨hvalid, hversion⟩, hts⟩, hmax⟩ := hhit
    obtain ⟨w, hw, hwv, hfresh⟩ := h.fresh hvalid
    refine (hfresh ?_).rows_of_le h.consistent hts hmax
    rw [hversion, left_eq_add] at hwv
    have hw0 := congrArg UInt64.toNat hwv
    rwa [UInt64.toNat_ofNat_of_lt' (by simpa using hw.trans_lt hn)] at hw0
  · rfl

theorem CacheInv.scan (h : CacheInv n st) (s : UInt64) : CacheInv n (st.scanVisible s).2 := by
  rw [scanVisible]
  split_ifs
  · exact h
  · exact ⟨⟨h.consistent.ordered, h.consistent.agree⟩, fun _ => ⟨0, Nat.zero_le n, by simp,
      fun _ => ⟨rfl, fun e he => le_observedMaxCommitTs he⟩⟩⟩

theorem CacheInv.write (h : CacheInv n st) (hc : st'.Consistent) (hcache : st'.cache = st.cache)
    (hversion : st'.writeVersion = st.writeVersion + 1) : CacheInv (n + 1) st' := by
  refine ⟨hc, fun hv => ?_⟩
  obtain ⟨w, hw, hwv, -⟩ := h.fresh (hcache ▸ hv)
  refine ⟨w + 1, Nat.succ_le_succ hw, ?_, fun h0 => absurd h0 (Nat.succ_ne_zero w)⟩
  rw [hversion, hcache, hwv, UInt64.ofNat_add, add_assoc]
  rfl

theorem Consistent.put {e : MemEntry} (h : st.Consistent) (he : st.Accepts e) (bytes : Nat) :
    (st.put e bytes).Consistent := by
  have hmem : ∀ x ∈ mergeEntries [e] st.memtable, x = e ∨ x ∈ st.memtable := by
    intro x hx
    simpa using mem_of_mem_priorityMerge hx
  constructor
  · intro x hx
    rcases List.mem_append.mp hx with hx | hx
    · exact h.ordered x (List.mem_append_left _ hx)
    · rcases hmem x hx with rfl | hx
      · exact he.1
      · exact h.ordered x (List.mem_append_right _ hx)
  · intro x hx y hy hk ht
    rcases hmem x hx with rfl | hx
    · have hyo := h.ordered y (List.mem_append_left _ hy)
      exact (he.2 y hy ((valueEq_iff hyo he.1).mpr hk.symm) ht.symm).symm
    · exact h.agree x hx y hy hk ht

theorem CacheInv.put {e : MemEntry} (h : CacheInv n st) (he : st.Accepts e) (bytes : Nat) :
    CacheInv (n + 1) (st.put e bytes) :=
  h.write (h.consistent.put he bytes) rfl rfl

theorem CacheInv.flush (h : CacheInv n st) : CacheInv n st.flushMemtable := by
  have hsub : ∀ e ∈ considered [] (st.files.write 0
      (mergeEntries st.memtable (st.files.entriesAt 0))), e ∈ considered st.memtable st.files :=
    fun e he => mem_considered_flush he
  have hord : Ordered (considered [] (st.files.write 0
      (mergeEntries st.memtable (st.files.entriesAt 0)))) :=
    fun e he => h.consistent.ordered e (hsub e he)
  refine ⟨⟨hord, fun x hx => absurd hx List.not_mem_nil⟩, fun hv => ?_⟩
  obtain ⟨w, hw, hwv, hfresh⟩ := h.fresh hv
  refine ⟨w, hw, hwv, fun hw0 => ⟨?_, fun e he => (hfresh hw0).bound e (hsub e he)⟩⟩
  refine (hfresh hw0).rows_eq.trans (scanVisible_congr h.consistent.ordered hord fun k => ?_)
  exact congrArg (fun H => History.view H k st.cache.ts)
    (ofList_considered_flush h.consistent.ordered h.consistent.agree).symm

theorem rewriteTable_consistent {rows : List Row}
    (h : ∀ r ∈ rows, (extractKey r cfg.columns).isNaN = false) :
    (st.rewriteTable cfg rows).Consistent := by
  refine ⟨fun e he => ?_, fun x hx => absurd hx List.not_mem_nil⟩
  rw [considered, LevelFiles.probedEntries_eq_span] at he
  obtain ⟨level, -, -, he⟩ := LevelFiles.mem_span.mp (by simpa [rewriteTable] using he)
  cases level with
  | zero =>
    obtain ⟨r, hr, rfl⟩ := List.mem_map.mp
      (show e ∈ rows.map fun r => ⟨extractKey r cfg.columns, r, false, 0⟩ from he)
    exact h r hr
  | succ level => simp [LevelFiles.entriesAt, LevelFiles.ofLevels] at he

theorem CacheInv.step {op : TableOp} (h : CacheInv n st) (hop : op.Fits cfg st)
    (hs : st.step cfg op = some st') : CacheInv (n + 1) st' := by
  cases op with
  | append row commitTs =>
    have hput := h.put hop (encodeRow row).length
    obtain rfl := Option.some.inj hs
    rw [appendRow]
    split_ifs
    · exact hput.flush
    · exact hput
  | delete key commitTs =>
    obtain rfl := Option.some.inj hs
    exact h.put hop 0
  | rewrite rows =>
    obtain rfl := Option.some.inj hs
    exact h.write (rewriteTable_consistent hop) rfl rfl
  | flush =>
    obtain rfl := Option.some.inj hs
    exact (CacheInv.flush h).mono (Nat.le_succ n)
  | scan s =>
    obtain rfl := Option.some.inj hs
    exact (h.scan s).mono (Nat.le_succ n)

/-- In a run of fewer than `2 ^ 64` steps whose writes agree with the level files, every scan returns
what a recomputation returns. -/
theorem scanVisible_transparent {ops : List TableOp} (hcache : st.cache.valid = false)
    (hcons : st.Consistent) (hlen : ops.length < 2 ^ 64)
    (hops : Guarded (TableState.step cfg) (fun st op => op.Fits cfg st) st ops) :
    Throughout (TableState.step cfg) Transparent st ops := by
  have hinit : CacheInv 0 st := ⟨hcons, fun hv => by simp [hcache] at hv⟩
  refine hops.throughout_of_count (fun n s a s' hs hG hstep => hs.step hG hstep)
    (fun n s hn hs => hs.transparent hn) hinit ?_
  simpa using hlen

def twoColumns : TableConfig :=
  ⟨[⟨[105], .int64, true, true⟩, ⟨[118], .text, false, false⟩], 1000⟩

theorem scanVisible_transparent_versions :
    Throughout (TableState.step twoColumns) Transparent created
      [.append ⟨[.int 1, .text [97]]⟩ 3, .flush, .append ⟨[.int 1, .text [98]]⟩ 4, .scan 9, .flush,
        .scan 2, .delete (.int 1) 6, .scan 9] :=
  scanVisible_transparent rfl
    ⟨by decide, fun x hx => absurd hx List.not_mem_nil⟩ (by decide) (by decide)

/-- A row is written, flushed and written again with the same timestamp. A scan then returns the
flushed content, and after the next flush the cache still serves it in place of the new one. -/
theorem scanVisible_serves_overwritten :
    ∃ st, run (TableState.step twoColumns) created
        [.append ⟨[.int 1, .text [97]]⟩ 0, .flush, .append ⟨[.int 1, .text [98]]⟩ 0, .scan 9, .flush] =
          some st ∧
      (st.scanVisible 9).1 = [⟨[.int 1, .text [97]]⟩] ∧
      CoroDB.scanVisible st.memtable st.files 9 = [⟨[.int 1, .text [98]]⟩] ∧ ¬ st.Transparent := by
  refine ⟨_, rfl, by decide, by decide, fun h => ?_⟩
  exact absurd (h 9) (by decide)

end TableState

end CoroDB
