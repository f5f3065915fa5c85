import CoroDB.Framework.RecencyCache
import CoroDB.Framework.Run
import CoroDB.Storage.Sstable

/-!
# The cache of decoded level files

`read_sstable` keeps the entries that it has decoded under the path and modification time of the file;
`write_sstable` drops them when it replaces the file.
-/

namespace CoroDB

open Framework

abbrev DecodedCache := RecencyCache Bytes (Int × List MemEntry)

/-- What `read_sstable` finds: whether the file exists, its modification time, and the decoded entries;
none where the time cannot be had, or where the reader returns or throws before the cache. -/
structure SstFileView where
  present : Bool
  mtime : Option Int
  decoded : Option (List MemEntry)

namespace DecodedCache

def hit (c : DecodedCache) (path : Bytes) (view : SstFileView) : Option (List MemEntry) :=
  (c.entries.get? path).bind fun e => if some e.1 = view.mtime then some e.2 else none

def store (limit : Nat) (c : DecodedCache) (path : Bytes) (view : SstFileView) : DecodedCache :=
  match view.mtime, view.decoded with
  | some mtime, some rows => c.put limit path (mtime, rows)
  | _, _ => c

def readSstable (limit : Nat) (c : DecodedCache) (path : Bytes) (view : SstFileView) :
    List MemEntry × DecodedCache :=
  if view.present = false then ([], c)
  else
    match c.hit path view with
    | some rows => (rows, c)
    | none => (view.decoded.getD [], c.store limit path view)

/-- The end of `write_sstable`, with the new file in place. -/
def writeSstable (c : DecodedCache) (path : Bytes) : DecodedCache := ⟨c.entries.erase path, c.lru⟩

end DecodedCache

inductive DecodedCacheCall where
  | read (path : Bytes) (view : SstFileView)
  | write (path : Bytes)

namespace DecodedCache

variable {limit : Nat} {c c' : DecodedCache} {path : Bytes} {view : SstFileView}

def step (limit : Nat) (c : DecodedCache) : DecodedCacheCall → Option DecodedCache
  | .read path view => some (c.readSstable limit path view).2
  | .write path => some (c.writeSstable path)

structure Bounded (limit : Nat) (c : DecodedCache) : Prop where
  tables : c.size ≤ limit + 1
  recency : c.lru.length ≤ limit + 1
  covered : c.Covered

/-- The file of a cached table stays as it is: it is read with the cached modification time, and not
replaced. -/
def Unchanged (c : DecodedCache) : DecodedCacheCall → Prop
  | .read path view => ∀ e ∈ c.entries.get? path, ∀ mtime ∈ view.mtime, mtime = e.1
  | .write path => c.contains path = false

instance Unchanged.decidable (c : DecodedCache) :
    (call : DecodedCacheCall) → Decidable (Unchanged c call)
  | .read path view => inferInstanceAs
      (Decidable (∀ e ∈ c.entries.get? path, ∀ mtime ∈ view.mtime, mtime = e.1))
  | .write path => inferInstanceAs (Decidable (c.contains path = false))

theorem store_cases (limit : Nat) (c : DecodedCache) (path : Bytes) (view : SstFileView) :
    c.store limit path view = c ∨
      ∃ mtime rows, view.mtime = some mtime ∧ c.store limit path view = c.put limit path (mtime, rows) := by
  rw [store]
  split
  · rename_i mtime rows hmtime _
    exact .inr ⟨mtime, rows, hmtime, rfl⟩
  · exact .inl rfl

theorem readSstable_cases (limit : Nat) (c : DecodedCache) (path : Bytes) (view : SstFileView) :
    (c.readSstable limit path view).2 = c ∨
      ∃ mtime rows, view.mtime = some mtime ∧ c.hit path view = none ∧
        (c.readSstable limit path view).2 = c.put limit path (mtime, rows) := by
  rw [readSstable]
  split_ifs with habsent
  · exact .inl rfl
  · cases hhit : c.hit path view with
    | some rows => exact .inl rfl
    | none =>
      rcases store_cases limit c path view with heq | ⟨mtime, rows, hmtime, heq⟩
      · exact .inl heq
      · exact .inr ⟨mtime, rows, hmtime, rfl, heq⟩

theorem covered_step (hpos : 1 ≤ limit) (h : c.Covered ∧ c.size ≤ limit) {call : DecodedCacheCall}
    (hstep : c.step limit call = some c') : c'.Covered ∧ c'.size ≤ limit := by
  cases call with
  | read path view =>
    obtain rfl := Option.some.inj hstep
    rcases readSstable_cases limit c path view with heq | ⟨mtime, rows, -, -, heq⟩
    · rwa [heq]
    · rw [heq]
      exact h.1.put hpos
  | write path =>
    obtain rfl := Option.some.inj hstep
    refine ⟨fun k hk => h.1 k (RecencyCache.contains_erase_iff.mp hk).2, ?_⟩
    exact (List.length_filter_le _ _).trans h.2

theorem listed_step (hpos : 1 ≤ limit) (h : c.Listed ∧ c.size ≤ limit) {call : DecodedCacheCall}
    (hsame : Unchanged c call) (hstep : c.step limit call = some c') :
    c'.Listed ∧ c'.size ≤ limit := by
  refine ⟨?_, (covered_step hpos ⟨h.1.covered, h.2⟩ hstep).2⟩
  cases call with
  | read path view =>
    obtain rfl := Option.some.inj hstep
    rcases readSstable_cases limit c path view with heq | ⟨mtime, rows, hmtime, hhit, heq⟩
    · rw [heq]
      exact h.1
    · have hget : c.entries.get? path = none := by
        cases hget : c.entries.get? path with
        | none => rfl
        | some e => simp [hit, hget, hmtime, hsame e hget mtime hmtime] at hhit
      rw [heq]
      apply h.1.put hpos h.2
      rw [← Bool.not_eq_true]
      intro hroom
      have hcontains := RecencyCache.contains_of_makeRoom hroom
      rw [KeyMap.contains_eq_isSome, hget] at hcontains
      cases hcontains
  | write path =>
    obtain rfl := Option.some.inj hstep
    exact h.1.erase_absent hsame

/-- While the files of cached tables do not change, the cache and its list stay within the limit. -/
theorem bounded_throughout (limit : Nat) (hpos : 1 ≤ limit) (calls : List DecodedCacheCall)
    (hsame : Guarded (step limit) Unchanged RecencyCache.empty calls) :
    Throughout (step limit) (Bounded limit) RecencyCache.empty calls := by
  have hlisted := hsame.throughout (I := fun c => c.Listed ∧ c.size ≤ limit)
    (fun c call c' h hsame hstep => listed_step hpos h hsame hstep)
    ⟨RecencyCache.listed_empty, Nat.zero_le _⟩
  apply hlisted.mono
  rintro c ⟨hlisted, hsize⟩
  have hlength := hlisted.size_eq
  exact ⟨by omega, by omega, hlisted.covered⟩

/-- Two files and a limit of one table. -/
theorem bounded_twoFiles : Throughout (step 1) (Bounded 1) RecencyCache.empty
    [.read [97] ⟨true, some 5, some []⟩, .read [97] ⟨true, some 5, some []⟩, .write [98],
      .read [98] ⟨true, some 6, some []⟩] :=
  bounded_throughout 1 (le_refl 1) _ (by decide)

/-- A file that is replaced after each read is listed once more each time. -/
theorem not_bounded_replaced : ¬ Throughout (step 1) (Bounded 1) RecencyCache.empty
    [.read [97] ⟨true, some 5, some []⟩, .write [97], .read [97] ⟨true, some 6, some []⟩, .write [97],
      .read [97] ⟨true, some 7, some []⟩] := by
  intro h
  have hlast := (((((h.2 _ rfl).2 _ rfl).2 _ rfl).2 _ rfl).2 _ rfl).recency
  exact absurd hlast (by decide)

end DecodedCache

end CoroDB
