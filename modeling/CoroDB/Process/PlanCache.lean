import CoroDB.Framework.RecencyCache
import CoroDB.Framework.Run
import CoroDB.Storage.Value

/-!
# The plan cache

`PlanCache` keeps plans under their normalized statement, with the fingerprint of the statistics that
they were planned for, and a list of the statements by recency.
-/

namespace CoroDB

open Framework

section Model

variable {π : Type}

structure PlanCacheEntry (π : Type) where
  plan : π
  fingerprint : UInt64

abbrev PlanCache (π : Type) := RecencyCache Bytes (PlanCacheEntry π)

namespace PlanCache

def lookup (c : PlanCache π) (key : Bytes) (statsFingerprint : UInt64) : Option π × PlanCache π :=
  match c.entries.get? key with
  | none => (none, c)
  | some e =>
    if e.fingerprint ≠ statsFingerprint then (none, c.erase key) else (some e.plan, c.touch key)

def insert (maxEntries : Nat) (c : PlanCache π) (key : Bytes) (statsFingerprint : UInt64) (plan : π) :
    PlanCache π :=
  c.put maxEntries key ⟨plan, statsFingerprint⟩

end PlanCache

inductive PlanCacheCall (π : Type) where
  | lookup (key : Bytes) (statsFingerprint : UInt64)
  | insert (key : Bytes) (statsFingerprint : UInt64) (plan : π)
  | invalidateAll

/-- The cache, and when each key was last looked up with success or inserted. -/
structure PlanCacheRun (π : Type) where
  cache : PlanCache π := RecencyCache.empty
  clock : Nat := 0
  lastUse : Bytes → Nat := fun _ => 0

namespace PlanCacheRun

def use (r : PlanCacheRun π) (key : Bytes) (cache : PlanCache π) : PlanCacheRun π :=
  ⟨cache, r.clock + 1, Function.update r.lastUse key r.clock⟩

def step (maxEntries : Nat) (r : PlanCacheRun π) : PlanCacheCall π → Option (PlanCacheRun π)
  | .lookup key fingerprint =>
    if (r.cache.lookup key fingerprint).1.isSome then
      some (r.use key (r.cache.lookup key fingerprint).2)
    else some { r with cache := (r.cache.lookup key fingerprint).2 }
  | .insert key fingerprint plan =>
    some (r.use key (r.cache.insert maxEntries key fingerprint plan))
  | .invalidateAll => some { r with cache := RecencyCache.empty }

def EvictsOldest (maxEntries : Nat) (r : PlanCacheRun π) : Prop :=
  r.cache.size = maxEntries → ∀ key fingerprint plan,
    ∃ old, r.cache.contains old = true ∧
      (∀ k, r.cache.contains k = true → k ≠ old → r.lastUse old < r.lastUse k) ∧
      ∀ k, (r.cache.insert maxEntries key fingerprint plan).contains k = true ↔
        k = key ∨ r.cache.contains k = true ∧ k ≠ old

/-- The list holds each cached key once and nothing else, the capacity is kept, and an insert at
capacity evicts the oldest key. -/
structure Sound (maxEntries : Nat) (r : PlanCacheRun π) : Prop where
  listed : r.cache.Listed
  bounded : r.cache.size ≤ maxEntries
  evictsOldest : r.EvictsOldest maxEntries

def InsertsNew (maxEntries : Nat) (r : PlanCacheRun π) : PlanCacheCall π → Prop
  | .insert key _ _ =>
    r.cache.contains key = true → r.cache.size = maxEntries ∧ r.cache.lru.head? = some key
  | _ => True

instance InsertsNew.decidable (maxEntries : Nat) (r : PlanCacheRun π) :
    (call : PlanCacheCall π) → Decidable (InsertsNew maxEntries r call)
  | .insert key _ _ => inferInstanceAs (Decidable
      (r.cache.contains key = true → r.cache.size = maxEntries ∧ r.cache.lru.head? = some key))
  | .lookup _ _ => .isTrue trivial
  | .invalidateAll => .isTrue trivial

end PlanCacheRun

end Model

section Soundness

namespace PlanCacheRun

variable {π : Type} {r r' : PlanCacheRun π} {maxEntries : Nat} {key : Bytes} {fingerprint : UInt64}
  {plan : π}

structure Inv (maxEntries : Nat) (r : PlanCacheRun π) : Prop where
  listed : r.cache.Listed
  bounded : r.cache.size ≤ maxEntries
  ordered : r.cache.lru.Pairwise fun a b => r.lastUse a < r.lastUse b
  past : ∀ k ∈ r.cache.lru, r.lastUse k < r.clock

theorem Inv.evictsOldest (inv : Inv maxEntries r) (hpos : 1 ≤ maxEntries) :
    r.EvictsOldest maxEntries := by
  intro hfull key fingerprint plan
  obtain ⟨old, rest, hlru, hroom⟩ := inv.listed.makeRoom_of_eq hpos hfull
  refine ⟨old, ?_, ?_, ?_⟩
  · rw [← inv.listed.mem_iff, hlru]
    exact List.mem_cons_self
  · intro k hk hne
    have hordered := inv.ordered
    rw [← inv.listed.mem_iff, hlru] at hk
    rw [hlru, List.pairwise_cons] at hordered
    exact hordered.1 k ((List.mem_cons.mp hk).resolve_left hne)
  · intro k
    rw [PlanCache.insert, RecencyCache.put, RecencyCache.contains_assign_iff, hroom,
      RecencyCache.contains_erase_iff, and_comm]

theorem Inv.sound (inv : Inv maxEntries r) (hpos : 1 ≤ maxEntries) : r.Sound maxEntries :=
  ⟨inv.listed, inv.bounded, inv.evictsOldest hpos⟩

theorem Inv.use {cache : PlanCache π} {front : List Bytes} (inv : Inv maxEntries r)
    (hsub : front.Sublist r.cache.lru) (hlru : cache.lru = front ++ [key]) (hlisted : cache.Listed)
    (hbounded : cache.size ≤ maxEntries) : Inv maxEntries (r.use key cache) := by
  have hkey : ∀ a ∈ front, a ≠ key := by
    have hnodup := hlisted.nodup
    rw [hlru, List.nodup_append] at hnodup
    exact fun a ha => hnodup.2.2 a ha key (List.mem_singleton.mpr rfl)
  have hother : ∀ a ∈ front, (r.use key cache).lastUse a = r.lastUse a :=
    fun a ha => Function.update_of_ne (hkey a ha) _ _
  have hself : (r.use key cache).lastUse key = r.clock := Function.update_self _ _ _
  have hpast : ∀ a ∈ front, r.lastUse a < r.clock := fun a ha => inv.past a (hsub.subset ha)
  refine ⟨hlisted, hbounded, ?_, ?_⟩
  · change cache.lru.Pairwise _
    rw [hlru, List.pairwise_append]
    refine ⟨?_, List.pairwise_singleton _ _, ?_⟩
    · apply (inv.ordered.sublist hsub).imp_of_mem
      intro a b ha hb hab
      rwa [hother a ha, hother b hb]
    · intro a ha b hb
      rw [List.mem_singleton.mp hb, hother a ha, hself]
      exact hpast a ha
  · change ∀ a ∈ cache.lru, _ < r.clock + 1
    intro a ha
    rw [hlru, List.mem_append, List.mem_singleton] at ha
    rcases ha with ha | ha
    · rw [hother a ha]
      exact (hpast a ha).trans (Nat.lt_succ_self _)
    · rw [ha, hself]
      exact Nat.lt_succ_self _

theorem Inv.shrink {cache : PlanCache π} (inv : Inv maxEntries r)
    (hsub : cache.lru.Sublist r.cache.lru) (hlisted : cache.Listed) :
    Inv maxEntries { r with cache } := by
  refine ⟨hlisted, ?_, inv.ordered.sublist hsub, fun a ha => inv.past a (hsub.subset ha)⟩
  rw [hlisted.size_eq]
  exact hsub.length_le.trans (inv.listed.size_eq ▸ inv.bounded)

theorem Inv.lookup (inv : Inv maxEntries r) (hstep : r.step maxEntries (.lookup key fingerprint) = some r') :
    Inv maxEntries r' := by
  rw [step, PlanCache.lookup] at hstep
  cases hget : r.cache.entries.get? key with
  | none =>
    rw [hget] at hstep
    exact Option.some.inj hstep ▸ inv
  | some e =>
    have hcontains : r.cache.contains key = true := by
      rw [RecencyCache.contains, KeyMap.contains_eq_isSome, hget]
      rfl
    rw [hget] at hstep
    by_cases hstale : e.fingerprint ≠ fingerprint
    · simp only [if_pos hstale] at hstep
      exact Option.some.inj hstep ▸ inv.shrink (r.cache.erase_sublist key) (inv.listed.erase key)
    · simp only [if_neg hstale] at hstep
      obtain ⟨hsize, front, hsub, hlru⟩ := inv.listed.touch_lru hcontains
      exact Option.some.inj hstep ▸ inv.use hsub hlru (inv.listed.touch hcontains)
        (hsize.trans_le inv.bounded)

theorem Inv.insert (inv : Inv maxEntries r) (hpos : 1 ≤ maxEntries)
    (hnew : InsertsNew maxEntries r (.insert key fingerprint plan)) :
    Inv maxEntries (r.use key (r.cache.insert maxEntries key fingerprint plan)) := by
  have hfree : (RecencyCache.makeRoom maxEntries r.cache.entries r.cache.lru).contains key = false ∧
      (RecencyCache.makeRoom maxEntries r.cache.entries r.cache.lru).lru.Sublist r.cache.lru := by
    rcases inv.bounded.lt_or_eq with hlt | hfull
    · rw [RecencyCache.makeRoom_of_lt hlt, ← Bool.not_eq_true]
      exact ⟨fun hcontains => hlt.ne (hnew hcontains).1, List.Sublist.refl _⟩
    · obtain ⟨old, rest, hlru, hroom⟩ := inv.listed.makeRoom_of_eq hpos hfull
      rw [hroom, ← Bool.not_eq_true, RecencyCache.contains_erase_iff, hlru]
      refine ⟨?_, List.sublist_cons_self old rest⟩
      rintro ⟨hne, hcontains⟩
      have hhead := (hnew hcontains).2
      rw [hlru, List.head?_cons, Option.some.injEq] at hhead
      exact hne hhead.symm
  exact inv.use hfree.2 rfl (inv.listed.put hpos inv.bounded hfree.1)
    (inv.listed.covered.put hpos).2

theorem Inv.not_listed (inv : Inv maxEntries r) (hpos : 1 ≤ maxEntries)
    (hold : ¬ InsertsNew maxEntries r (.insert key fingerprint plan)) :
    ¬ (r.cache.insert maxEntries key fingerprint plan).Listed := by
  simp only [InsertsNew, Classical.not_imp] at hold
  obtain ⟨hcontains, hnot⟩ := hold
  have hmem : key ∈ (RecencyCache.makeRoom maxEntries r.cache.entries r.cache.lru).lru := by
    have hlist := (inv.listed.mem_iff key).mpr hcontains
    rcases inv.bounded.lt_or_eq with hlt | hfull
    · rwa [RecencyCache.makeRoom_of_lt hlt]
    · obtain ⟨old, rest, hlru, hroom⟩ := inv.listed.makeRoom_of_eq hpos hfull
      rw [hroom]
      rw [hlru, List.mem_cons] at hlist
      rcases hlist with rfl | hlist
      · exact absurd ⟨hfull, by rw [hlru]; rfl⟩ hnot
      · exact hlist
  intro hlisted
  have hnodup := hlisted.nodup
  rw [PlanCache.insert, RecencyCache.put, List.nodup_append] at hnodup
  exact hnodup.2.2 key hmem key (List.mem_singleton.mpr rfl) rfl

theorem Inv.step {call : PlanCacheCall π} (inv : Inv maxEntries r) (hpos : 1 ≤ maxEntries)
    (hnew : InsertsNew maxEntries r call) (hstep : r.step maxEntries call = some r') :
    Inv maxEntries r' := by
  cases call with
  | lookup key fingerprint => exact inv.lookup hstep
  | insert key fingerprint plan => exact Option.some.inj hstep ▸ inv.insert hpos hnew
  | invalidateAll =>
    exact Option.some.inj hstep ▸ inv.shrink (List.nil_sublist _) RecencyCache.listed_empty

theorem run_isSome (maxEntries : Nat) (calls : List (PlanCacheCall π)) (r : PlanCacheRun π) :
    ∃ r', run (step maxEntries) r calls = some r' := by
  induction calls generalizing r with
  | nil => exact ⟨r, rfl⟩
  | cons call calls ih =>
    have hstep : ∃ r₁, r.step maxEntries call = some r₁ := by
      cases call with
      | lookup key fingerprint =>
        rw [PlanCacheRun.step]
        split_ifs <;> exact ⟨_, rfl⟩
      | insert key fingerprint plan => exact ⟨_, rfl⟩
      | invalidateAll => exact ⟨_, rfl⟩
    obtain ⟨r₁, h₁⟩ := hstep
    obtain ⟨r', hr'⟩ := ih r₁
    exact ⟨r', by simp [run, h₁, hr']⟩

/-- The cache is sound in every state of a run exactly if every inserted key is new, or the one that
the insert evicts. -/
theorem sound_throughout_iff (π : Type) (maxEntries : Nat) (hpos : 1 ≤ maxEntries)
    (calls : List (PlanCacheCall π)) :
    Throughout (step maxEntries) (Sound maxEntries) {} calls ↔
      Guarded (step maxEntries) (InsertsNew maxEntries) {} calls := by
  obtain ⟨r', hrun⟩ := run_isSome maxEntries calls {}
  have hstart : Inv maxEntries ({} : PlanCacheRun π) := by
    refine ⟨RecencyCache.listed_empty, Nat.zero_le _, List.Pairwise.nil, ?_⟩
    simp [RecencyCache.empty]
  apply throughout_iff_guarded (I := Inv maxEntries) _ (fun r inv => inv.sound hpos) _ hstart hrun
  · intro r call r' inv hnew hstep
    exact inv.step hpos hnew hstep
  · intro r call r' inv hold hstep hsound
    cases call with
    | lookup key fingerprint => exact hold trivial
    | insert key fingerprint plan =>
      obtain rfl := Option.some.inj hstep
      exact inv.not_listed hpos hold hsound.listed
    | invalidateAll => exact hold trivial

/-- A miss, an insert, a hit and an insert of another key. -/
theorem sound_fourCalls : Throughout (step 1) (Sound 1) {}
    [.lookup [97] 0, .insert [97] 0 (), .lookup [97] 0, .insert [98] 0 ()] :=
  (sound_throughout_iff Unit 1 (le_refl 1) _).mpr (by decide)

/-- A statement that is planned twice is listed twice. -/
theorem not_sound_twice : ¬ Throughout (step 2) (Sound 2) {}
    [.insert [97] 0 (), .insert [97] 0 ()] := by
  intro h
  have hlast := ((h.2 _ rfl).2 _ rfl).listed.nodup
  exact absurd hlast (by decide)

end PlanCacheRun

end Soundness

end CoroDB
