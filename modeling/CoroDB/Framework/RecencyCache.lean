import CoroDB.Framework.KeyMap

/-!
# Caches with a recency list

A cache keeps its entries in a map and their keys in a list, the least recently used one first, and
makes room by erasing the keys at the front of the list.
-/

namespace CoroDB.Framework

structure RecencyCache (κ ν : Type) [DecidableEq κ] where
  entries : KeyMap (KeyEq.ofDecidableEq κ) ν
  lru : List κ

namespace RecencyCache

variable {κ ν : Type} [DecidableEq κ] {c : RecencyCache κ ν} {k : κ} {v : ν} {capacity : Nat}

def empty : RecencyCache κ ν := ⟨KeyMap.empty, []⟩

def contains (c : RecencyCache κ ν) (k : κ) : Bool := c.entries.contains k

def size (c : RecencyCache κ ν) : Nat := c.entries.entries.length

def makeRoom (capacity : Nat) (entries : KeyMap (KeyEq.ofDecidableEq κ) ν) :
    List κ → RecencyCache κ ν
  | [] => ⟨entries, []⟩
  | k :: lru =>
    if capacity ≤ entries.entries.length then makeRoom capacity (entries.erase k) lru
    else ⟨entries, k :: lru⟩

/-- Store a value after making room, its key last in the list. -/
def put (capacity : Nat) (k : κ) (v : ν) (c : RecencyCache κ ν) : RecencyCache κ ν :=
  ⟨(makeRoom capacity c.entries c.lru).entries.assign k v,
    (makeRoom capacity c.entries c.lru).lru ++ [k]⟩

def erase (c : RecencyCache κ ν) (k : κ) : RecencyCache κ ν := ⟨c.entries.erase k, c.lru.erase k⟩

def touch (c : RecencyCache κ ν) (k : κ) : RecencyCache κ ν :=
  if k ∈ c.lru then ⟨c.entries, c.lru.erase k ++ [k]⟩ else c

/-- The list holds the keys of the map, each once. -/
structure Listed (c : RecencyCache κ ν) : Prop where
  nodup : c.lru.Nodup
  mem_iff : ∀ k, k ∈ c.lru ↔ c.contains k = true

/-- The list holds the keys of the map, and perhaps more. -/
def Covered (c : RecencyCache κ ν) : Prop := ∀ k, c.contains k = true → k ∈ c.lru

theorem listed_empty : Listed (empty : RecencyCache κ ν) := by
  constructor
  · exact List.nodup_nil
  · simp [empty, contains]

theorem Listed.size_eq (h : Listed c) : c.size = c.lru.length := by
  have hkeys : (c.entries.entries.map Prod.fst).Nodup := by
    rw [List.Nodup, List.pairwise_map]
    apply c.entries.distinct.imp
    intro p q hne heq
    simp [KeyEq.ofDecidableEq, heq] at hne
  have hperm : (c.entries.entries.map Prod.fst).Perm c.lru := by
    rw [List.perm_ext_iff_of_nodup hkeys h.nodup]
    intro k
    rw [h.mem_iff, contains, KeyMap.contains_iff]
    simp
  rw [size, ← hperm.length_eq, List.length_map]

theorem contains_erase_iff {j : κ} {lru : List κ} :
    (⟨c.entries.erase k, lru⟩ : RecencyCache κ ν).contains j = true ↔
      j ≠ k ∧ c.contains j = true := by
  rw [contains, KeyMap.contains_erase, Bool.and_eq_true, Bool.not_eq_true', ← Bool.not_eq_true,
    KeyEq.ofDecidableEq_eq, ne_comm]
  rfl

theorem contains_assign_iff {j : κ} {lru : List κ} :
    (⟨c.entries.assign k v, lru⟩ : RecencyCache κ ν).contains j = true ↔
      j = k ∨ c.contains j = true := by
  rw [contains, KeyMap.contains_assign, Bool.or_eq_true, KeyEq.ofDecidableEq_eq, eq_comm]
  rfl

theorem Listed.erase (h : Listed c) (k : κ) : Listed (c.erase k) := by
  constructor
  · exact h.nodup.erase k
  · intro j
    rw [RecencyCache.erase, contains_erase_iff, h.nodup.mem_erase_iff, h.mem_iff]

theorem Listed.erase_absent (h : Listed c) (hk : c.contains k = false) :
    Listed ⟨c.entries.erase k, c.lru⟩ := by
  refine ⟨h.nodup, fun j => ?_⟩
  rw [contains_erase_iff, h.mem_iff, iff_and_self]
  rintro hj rfl
  exact Bool.false_ne_true (hk.symm.trans hj)

theorem erase_sublist (c : RecencyCache κ ν) (k : κ) : (c.erase k).lru.Sublist c.lru :=
  List.erase_sublist

theorem Listed.touch_eq (h : Listed c) (hk : c.contains k = true) :
    c.touch k = ⟨c.entries, c.lru.erase k ++ [k]⟩ :=
  if_pos ((h.mem_iff k).mpr hk)

theorem Listed.touch (h : Listed c) (hk : c.contains k = true) : Listed (c.touch k) := by
  rw [h.touch_eq hk]
  constructor
  · rw [List.nodup_append]
    refine ⟨h.nodup.erase k, List.nodup_singleton k, ?_⟩
    intro a ha b hb
    rw [List.mem_singleton.mp hb]
    exact (h.nodup.mem_erase_iff.mp ha).1
  · intro j
    change j ∈ c.lru.erase k ++ [k] ↔ c.contains j = true
    rw [List.mem_append, h.nodup.mem_erase_iff, h.mem_iff, List.mem_singleton]
    by_cases hj : j = k
    · simp [hj, hk]
    · simp [hj]

theorem Listed.touch_lru (h : Listed c) (hk : c.contains k = true) :
    (c.touch k).size = c.size ∧ ∃ front, front.Sublist c.lru ∧ (c.touch k).lru = front ++ [k] := by
  rw [h.touch_eq hk]
  exact ⟨rfl, c.lru.erase k, List.erase_sublist, rfl⟩

theorem Covered.makeRoom {entries : KeyMap (KeyEq.ofDecidableEq κ) ν} {lru : List κ}
    (h : Covered ⟨entries, lru⟩) (hpos : 1 ≤ capacity) :
    Covered (makeRoom capacity entries lru) ∧ (makeRoom capacity entries lru).size < capacity := by
  induction lru generalizing entries with
  | nil =>
    have hnil : entries.entries = [] := by
      rw [List.eq_nil_iff_forall_not_mem]
      intro p hp
      have hcontains : entries.contains p.1 = true :=
        KeyMap.contains_of_mem hp (KeyEq.ofDecidableEq_eq.mpr rfl)
      exact List.not_mem_nil (h p.1 hcontains)
    refine ⟨h, ?_⟩
    rw [RecencyCache.makeRoom, size, hnil]
    exact hpos
  | cons k lru ih =>
    rw [RecencyCache.makeRoom]
    split_ifs with hfull
    · apply ih
      intro j hj
      obtain ⟨hne, hj⟩ := contains_erase_iff (c := ⟨entries, k :: lru⟩).mp hj
      exact (List.mem_cons.mp (h j hj)).resolve_left hne
    · exact ⟨h, not_le.mp hfull⟩

theorem Covered.put (h : Covered c) (hpos : 1 ≤ capacity) :
    Covered (c.put capacity k v) ∧ (c.put capacity k v).size ≤ capacity := by
  obtain ⟨hroom, hlt⟩ := h.makeRoom hpos
  constructor
  · intro j hj
    rw [RecencyCache.put, contains_assign_iff] at hj
    rw [RecencyCache.put, List.mem_append, List.mem_singleton]
    exact hj.symm.imp_left (hroom j)
  · exact KeyMap.length_assign_le.trans hlt

theorem contains_of_makeRoom {entries : KeyMap (KeyEq.ofDecidableEq κ) ν} {lru : List κ}
    (h : (makeRoom capacity entries lru).contains k = true) : entries.contains k = true := by
  induction lru generalizing entries with
  | nil => exact h
  | cons j lru ih =>
    rw [makeRoom] at h
    split_ifs at h
    · have herase : (⟨entries.erase j, lru⟩ : RecencyCache κ ν).contains k = true := ih h
      exact (contains_erase_iff (c := ⟨entries, lru⟩).mp herase).2
    · exact h

theorem makeRoom_of_lt (h : c.size < capacity) : makeRoom capacity c.entries c.lru = c := by
  obtain ⟨entries, lru⟩ := c
  cases lru with
  | nil => rfl
  | cons k lru => exact if_neg (not_le.mpr h)

theorem Listed.makeRoom_of_eq (h : Listed c) (hpos : 1 ≤ capacity) (hfull : c.size = capacity) :
    ∃ old rest, c.lru = old :: rest ∧
      makeRoom capacity c.entries c.lru = ⟨c.entries.erase old, rest⟩ := by
  obtain ⟨entries, lru⟩ := c
  cases lru with
  | nil =>
    rw [h.size_eq] at hfull
    simp at hfull
    omega
  | cons old rest =>
    refine ⟨old, rest, rfl, ?_⟩
    have hrest : Listed (⟨entries.erase old, rest⟩ : RecencyCache κ ν) := by
      simpa [RecencyCache.erase] using h.erase old
    have hlt : (⟨entries.erase old, rest⟩ : RecencyCache κ ν).size < capacity := by
      rw [hrest.size_eq, ← hfull, h.size_eq]
      exact Nat.lt_succ_self _
    have hroom := makeRoom_of_lt hlt
    exact (if_pos hfull.ge).trans hroom

theorem Listed.covered (h : Listed c) : Covered c := fun k => (h.mem_iff k).mpr

theorem Listed.makeRoom (h : Listed c) (hpos : 1 ≤ capacity) (hsize : c.size ≤ capacity) :
    Listed (makeRoom capacity c.entries c.lru) := by
  rcases hsize.lt_or_eq with hlt | hfull
  · rw [makeRoom_of_lt hlt]
    exact h
  · obtain ⟨old, rest, hlru, hroom⟩ := h.makeRoom_of_eq hpos hfull
    have herase := h.erase old
    rw [RecencyCache.erase, hlru, List.erase_cons_head] at herase
    rw [hroom]
    exact herase

theorem Listed.put (h : Listed c) (hpos : 1 ≤ capacity) (hsize : c.size ≤ capacity)
    (hk : (RecencyCache.makeRoom capacity c.entries c.lru).contains k = false) :
    Listed (c.put capacity k v) := by
  have hroom := h.makeRoom hpos hsize
  constructor
  · rw [RecencyCache.put, List.nodup_append]
    refine ⟨hroom.nodup, List.nodup_singleton k, ?_⟩
    intro a ha b hb hab
    rw [hab, List.mem_singleton.mp hb, hroom.mem_iff, hk] at ha
    cases ha
  · intro j
    rw [RecencyCache.put, contains_assign_iff, List.mem_append, hroom.mem_iff, List.mem_singleton,
      or_comm]

end RecencyCache

end CoroDB.Framework
