import CoroDB.Framework.Fairness

/-!
# Table locks

A `MultiTableLockGuard` sorts its table names, locks them one after the other, and gives the locks
back in the reverse order.
-/

namespace CoroDB

open Framework

inductive LockMode where
  | shared
  | exclusive
  deriving DecidableEq

/-- A thread without a guard, in the constructor with the tables it holds, the last one first, and those
still to lock, or in the destructor. The constructor has returned when there is nothing left to lock. -/
inductive GuardState (ν : Type) where
  | idle
  | locking (mode : LockMode) (held todo : List ν)
  | unlocking (mode : LockMode) (held : List ν)
  deriving DecidableEq

namespace GuardState

variable {ν : Type}

def held : GuardState ν → List ν
  | idle => []
  | locking _ held _ => held
  | unlocking _ held => held

def todo : GuardState ν → List ν
  | locking _ _ todo => todo
  | _ => []

def mode : GuardState ν → LockMode
  | idle => .shared
  | locking mode _ _ => mode
  | unlocking mode _ => mode

def waitsFor (g : GuardState ν) : Option ν := g.todo.head?

/-- The constructor has returned and the destructor has not begun. -/
def Constructed (g : GuardState ν) : Prop := ∃ mode held, g = locking mode held []

/-- The tables that are held come before those that are still to lock, which are in order. -/
def InOrder [LinearOrder ν] (g : GuardState ν) : Prop :=
  g.todo.Pairwise (· < ·) ∧ ∀ h ∈ g.held, ∀ t ∈ g.todo, h < t

end GuardState

open GuardState

inductive GuardCall (ν : Type) where
  | construct (names : List ν) (mode : LockMode)
  | lock
  | destroy
  | unlock

variable {ν : Type} [LinearOrder ν] {n : Nat}

def GuardCall.apply : GuardCall ν → GuardState ν → Option (GuardState ν)
  | construct names mode, idle =>
    if names.Nodup then some (locking mode [] (names.mergeSort (· ≤ ·))) else none
  | lock, locking mode held (t :: todo) => some (locking mode (t :: held) todo)
  | destroy, locking mode held [] => some (unlocking mode held)
  | unlock, unlocking mode (_ :: held) => some (unlocking mode held)
  | unlock, unlocking _ [] => some idle
  | _, _ => none

/-- The guards that hold a table leave it to another one in this mode. -/
def admits (s : Fin n → GuardState ν) (i : Fin n) (t : ν) : Prop :=
  ∀ j, j ≠ i → t ∈ (s j).held → (s i).mode = .shared ∧ (s j).mode = .shared

instance admits.decidable (s : Fin n → GuardState ν) (i : Fin n) (t : ν) : Decidable (admits s i t) :=
  inferInstanceAs (Decidable (∀ _, _))

/-- One step of a thread; a lock is taken only when its mutex admits it. -/
def guardStep (s : Fin n → GuardState ν) (a : Fin n × GuardCall ν) : Option (Fin n → GuardState ν) :=
  if (s a.1).waitsFor.all fun t => admits s a.1 t then
    (a.2.apply (s a.1)).map (Function.update s a.1)
  else none

/-- Some guards each wait for a table that another one of them holds. -/
def Deadlocked (s : Fin n → GuardState ν) : Prop :=
  ∃ S : Set (Fin n), S.Nonempty ∧ ∀ i ∈ S, ∃ j ∈ S, j ≠ i ∧
    ∃ t, (s i).waitsFor = some t ∧ t ∈ (s j).held

/-- Guards are destroyed and give their locks back, and no mutex starves a guard: one that waits gets its
turn when everyone else gives up the lock again and again. -/
structure FairLocks (b : Behavior (guardStep (ν := ν) (n := n))) : Prop where
  destroys : ∀ i, b.WeaklyFair fun a => a = (i, .destroy) ∨ a = (i, .unlock)
  mutex : ∀ i t k, (∀ j, j ≠ i → ∀ m, k ≤ m → ∃ l, m ≤ l ∧ t ∉ (b.state l j).held) →
    ∃ m, k ≤ m ∧ (b.state m i).waitsFor ≠ some t

section Steps

variable {s s' : Fin n → GuardState ν} {a : Fin n × GuardCall ν} {i j : Fin n} {t : ν}

theorem guardStep_eq_some (h : guardStep s a = some s') :
    ∃ g, a.2.apply (s a.1) = some g ∧ s' = Function.update s a.1 g := by
  rw [guardStep] at h
  split_ifs at h
  obtain ⟨g, hg, rfl⟩ := Option.map_eq_some_iff.mp h
  exact ⟨g, hg, rfl⟩

theorem guardStep_apply (h : guardStep s a = some s') (i : Fin n) :
    (a.1 = i ∧ a.2.apply (s i) = some (s' i)) ∨ (a.1 ≠ i ∧ s' i = s i) := by
  obtain ⟨g, hg, rfl⟩ := guardStep_eq_some h
  by_cases hi : a.1 = i
  · subst hi
    simp [hg]
  · simp [hi, Ne.symm hi]

theorem GuardCall.apply_inOrder {c : GuardCall ν} {g g' : GuardState ν} (hg : g.InOrder)
    (h : c.apply g = some g') : g'.InOrder := by
  cases c <;> rcases g with - | ⟨mode, held, - | ⟨t, todo⟩⟩ | ⟨mode, - | ⟨t, held⟩⟩ <;>
    simp only [apply, Option.some.injEq, reduceCtorEq] at h
  case construct.idle names mode =>
    split_ifs at h with hnodup
    cases h
    refine ⟨?_, by simp [GuardState.held]⟩
    have hsorted : (names.mergeSort (· ≤ ·)).Pairwise fun x y => decide (x ≤ y) = true :=
      List.pairwise_mergeSort (fun a b c => by simpa using le_trans)
        (fun a b => by simpa using le_total a b) names
    have hdistinct : (names.mergeSort (· ≤ ·)).Nodup :=
      (List.mergeSort_perm names _).nodup_iff.mpr hnodup
    exact hsorted.and hdistinct |>.imp fun h => lt_of_le_of_ne (by simpa using h.1) h.2
  case lock.locking.cons =>
    cases h
    obtain ⟨hhead, htail⟩ := List.pairwise_cons.mp hg.1
    refine ⟨htail, fun x hx y hy => ?_⟩
    rcases List.mem_cons.mp hx with rfl | hx
    · exact hhead y hy
    · exact hg.2 x hx y (List.mem_cons_of_mem _ hy)
  all_goals
    cases h
    simp [InOrder, todo]

theorem guardStep_inOrder (hs : ∀ i, (s i).InOrder) (h : guardStep s a = some s') (i : Fin n) :
    (s' i).InOrder := by
  rcases guardStep_apply h i with ⟨-, happly⟩ | ⟨-, hsame⟩
  · exact GuardCall.apply_inOrder (hs i) happly
  · rw [hsame]
    exact hs i

theorem inOrder_idle : (idle : GuardState ν).InOrder := by simp [InOrder, todo]

theorem lt_of_waitsFor {g : GuardState ν} {x : ν} (hg : g.InOrder) (hx : x ∈ g.held)
    (h : g.waitsFor = some t) : x < t :=
  hg.2 x hx t (List.mem_of_head? h)

theorem not_deadlocked (hs : ∀ i, (s i).InOrder) : ¬ Deadlocked s := by
  rintro ⟨S, hne, hwait⟩
  obtain ⟨t, ⟨i, hi, ht⟩, hmax⟩ := Set.exists_max_image {t | ∃ i ∈ S, (s i).waitsFor = some t} id
    ((Set.finite_iUnion fun i => (Set.finite_singleton (s i).waitsFor).preimage
      (Option.some_injective ν).injOn).subset (by
        rintro t ⟨i, -, ht⟩
        exact Set.mem_iUnion.mpr ⟨i, ht.symm⟩))
    (by
      obtain ⟨i, hi⟩ := hne
      obtain ⟨j, -, -, t, ht, -⟩ := hwait i hi
      exact ⟨t, i, hi, ht⟩)
  obtain ⟨j, hj, -, t', ht', hheld⟩ := hwait i hi
  obtain rfl : t' = t := Option.some.inj (ht'.symm.trans ht)
  obtain ⟨-, -, -, u, hu, -⟩ := hwait j hj
  exact absurd (hmax u ⟨j, hj, hu⟩) (not_le.mpr (lt_of_waitsFor (hs j) hheld hu))

end Steps

section Progress

variable {b : Behavior (guardStep (ν := ν) (n := n))} {i : Fin n} {t : ν} {k : ℕ}

/-- From some time on the guard waits for the table without end. -/
def Stuck (b : Behavior (guardStep (ν := ν) (n := n))) (i : Fin n) (t : ν) : Prop :=
  ∃ k, ∀ m, k ≤ m → (b.state m i).waitsFor = some t

theorem behavior_apply (b : Behavior (guardStep (ν := ν) (n := n))) (m : ℕ) (i : Fin n) :
    b.state (m + 1) i = b.state m i ∨ ∃ c : GuardCall ν, c.apply (b.state m i) = some (b.state (m + 1) i) := by
  cases ha : b.action m with
  | none => exact .inl (congrFun (b.idle m ha) i)
  | some a =>
    rcases guardStep_apply (b.acts m a ha) i with ⟨-, happly⟩ | ⟨-, hsame⟩
    · exact .inr ⟨a.2, happly⟩
    · exact .inl hsame

theorem behavior_inOrder (hstart : b.state 0 = fun _ => idle) (m : ℕ) (i : Fin n) :
    (b.state m i).InOrder := by
  refine Behavior.persists (I := fun s => ∀ i, (s i).InOrder) (b := b)
    (fun s a s' hs h i => guardStep_inOrder hs h i) (Nat.zero_le m) ?_ i
  rw [hstart]
  exact fun _ => inOrder_idle

theorem constructed_or_stuck {mode : LockMode} {held todo : List ν}
    (h : b.state k i = locking mode held todo) :
    (∃ m, k ≤ m ∧ (b.state m i).Constructed) ∨ ∃ t, Stuck b i t := by
  induction todo generalizing k held with
  | nil => exact .inl ⟨k, le_rfl, mode, held, h⟩
  | cons t todo ih =>
    rcases b.stays_or_leaves (P := fun s => s i = locking mode held (t :: todo)) h with
      hstay | ⟨m, hkm, hlast, hm⟩
    · exact .inr ⟨t, k, fun m hm => by rw [hstay m hm]; rfl⟩
    · rcases behavior_apply b m i with hsame | ⟨c, happly⟩
      · exact absurd (hsame.trans hlast) hm
      · rw [hlast] at happly
        have hnext : b.state (m + 1) i = locking mode (t :: held) todo := by
          cases c <;> simp only [GuardCall.apply, Option.some.injEq, reduceCtorEq] at happly
          exact happly.symm
        refine (ih hnext).imp_left ?_
        rintro ⟨l, hl, hdone⟩
        exact ⟨l, by omega, hdone⟩

def GuardState.left : GuardState ν → ℕ
  | idle => 0
  | locking _ held _ => held.length + 1
  | unlocking _ held => held.length

theorem GuardCall.apply_leaving {c : GuardCall ν} {g g' : GuardState ν} (htodo : g.todo = [])
    (hheld : t ∈ g.held) (h : c.apply g = some g') :
    t ∉ g'.held ∨ (g'.todo = [] ∧ t ∈ g'.held) ∧ g'.left < g.left := by
  rcases g with - | ⟨mode, held, todo⟩ | ⟨mode, - | ⟨x, held⟩⟩
  · simp [GuardState.held] at hheld
  · obtain rfl : todo = [] := htodo
    cases c <;> simp only [apply, Option.some.injEq, reduceCtorEq] at h
    cases h
    exact .inr ⟨⟨rfl, hheld⟩, Nat.lt_succ_self _⟩
  · simp [GuardState.held] at hheld
  · cases c <;> simp only [apply, Option.some.injEq, reduceCtorEq] at h
    cases h
    by_cases ht : t ∈ held
    · exact .inr ⟨⟨rfl, ht⟩, Nat.lt_succ_self _⟩
    · exact .inl ht

theorem releases (hfair : FairLocks b) (htodo : (b.state k i).todo = [])
    (hheld : t ∈ (b.state k i).held) : ∃ m, k ≤ m ∧ t ∉ (b.state m i).held := by
  refine (hfair.destroys i).reaches (I := fun _ => True)
    (P := fun s => (s i).todo = [] ∧ t ∈ (s i).held) (Q := fun s => t ∉ (s i).held)
    (fun s => (s i).left) (fun _ => trivial) ?_ ?_ ?_ ⟨htodo, hheld⟩
  · rintro s - ⟨htodo, hheld⟩
    rcases hg : s i with - | ⟨mode, held, todo⟩ | ⟨mode, - | ⟨x, held⟩⟩
    · simp [hg, GuardState.held] at hheld
    · obtain rfl : todo = [] := by simpa [hg, GuardState.todo] using htodo
      exact ⟨(i, .destroy), .inl rfl, by simp [guardStep, hg, waitsFor, GuardState.todo, GuardCall.apply]⟩
    · simp [hg, GuardState.held] at hheld
    · exact ⟨(i, .unlock), .inr rfl, by simp [guardStep, hg, waitsFor, GuardState.todo, GuardCall.apply]⟩
  · rintro s a s' - - ⟨htodo, hheld⟩ hstep
    rcases guardStep_apply hstep i with ⟨-, happly⟩ | ⟨-, hsame⟩
    · exact (GuardCall.apply_leaving htodo hheld happly).imp_right (And.imp_right le_of_lt)
    · rw [hsame]
      exact .inr ⟨⟨htodo, hheld⟩, le_rfl⟩
  · rintro s a s' - - ⟨htodo, hheld⟩ hown hstep
    rcases guardStep_apply hstep i with ⟨-, happly⟩ | ⟨hne, -⟩
    · exact GuardCall.apply_leaving htodo hheld happly
    · rcases hown with rfl | rfl <;> exact absurd rfl hne

theorem stuck_of_holds (hstart : b.state 0 = fun _ => idle) (hfair : FairLocks b)
    (h : ∀ m, k ≤ m → t ∈ (b.state m i).held) : ∃ t', Stuck b i t' ∧ t < t' := by
  have hleaves : ∀ m, k ≤ m → (b.state m i).todo ≠ [] := by
    intro m hm htodo
    obtain ⟨l, hl, hfree⟩ := releases hfair htodo (h m hm)
    exact hfree (h l (by omega))
  have hstuck : ∃ t', Stuck b i t' := by
    rcases hg : b.state k i with - | ⟨mode, held, todo⟩ | ⟨mode, held⟩
    · exact absurd (by rw [hg]; rfl) (hleaves k le_rfl)
    · refine (constructed_or_stuck hg).resolve_left ?_
      rintro ⟨m, hm, mode, held, hdone⟩
      exact hleaves m hm (by rw [hdone]; rfl)
    · exact absurd (by rw [hg]; rfl) (hleaves k le_rfl)
  obtain ⟨t', k', hwait⟩ := hstuck
  refine ⟨t', ⟨k', hwait⟩, ?_⟩
  exact lt_of_waitsFor (behavior_inOrder hstart (max k k') i) (h _ (le_max_left _ _))
    (hwait _ (le_max_right _ _))

theorem not_stuck (hstart : b.state 0 = fun _ => idle) (hfair : FairLocks b) : ¬ Stuck b i t := by
  intro hstuck
  have hunique : ∀ i, {t | Stuck b i t}.Subsingleton := by
    rintro i t ⟨k, ht⟩ t' ⟨k', ht'⟩
    exact Option.some.inj ((ht _ (le_max_left k k')).symm.trans (ht' _ (le_max_right k k')))
  obtain ⟨t, ht, hmax⟩ := Set.exists_max_image (⋃ i, {t | Stuck b i t}) id
    (Set.finite_iUnion fun i => (hunique i).finite) ⟨t, Set.mem_iUnion.mpr ⟨i, hstuck⟩⟩
  obtain ⟨i, k, hwait⟩ := Set.mem_iUnion.mp ht
  have hholder : ∃ j m, ∀ l, m ≤ l → t ∈ (b.state l j).held := by
    by_contra! hfree
    obtain ⟨m, hm, hne⟩ := hfair.mutex i t k fun j _ m _ => hfree j m
    exact hne (hwait m hm)
  obtain ⟨j, m, hholds⟩ := hholder
  obtain ⟨t', ht', hlt⟩ := stuck_of_holds hstart hfair hholds
  exact absurd (hmax t' (Set.mem_iUnion.mpr ⟨j, ht'⟩)) (not_le.mpr hlt)

end Progress

variable (ν n) in
/-- Table locks never deadlock, and with fair mutexes every constructor of a guard returns. -/
theorem tableLocks_live :
    (∀ calls : List (Fin n × GuardCall ν), Throughout guardStep (fun s => ¬ Deadlocked s)
      (fun _ => idle) calls) ∧
    ∀ b : Behavior (guardStep (ν := ν) (n := n)), (b.state 0 = fun _ => idle) → FairLocks b →
      ∀ i k mode held todo, b.state k i = locking mode held todo →
        ∃ m, k ≤ m ∧ (b.state m i).Constructed := by
  constructor
  · intro calls
    have hinv : Throughout guardStep (fun s => ∀ i, (s i).InOrder) (fun _ : Fin n => (idle : GuardState ν))
        calls := Throughout.of_invariant (fun s a s' hs h => guardStep_inOrder hs h) fun _ => inOrder_idle
    exact hinv.mono fun s hs => not_deadlocked hs
  · intro b hstart hfair i k mode held todo hlocking
    refine (constructed_or_stuck hlocking).resolve_right ?_
    rintro ⟨t, hstuck⟩
    exact not_stuck hstart hfair hstuck

section Sample

abbrev guardA : Fin 2 := ⟨0, Nat.two_pos⟩

abbrev guardB : Fin 2 := ⟨1, Nat.one_lt_two⟩

def lockTwice : List (Fin 2 × GuardCall ℕ) :=
  [(guardA, .construct [1] .exclusive), (guardB, .construct [1] .exclusive), (guardA, .lock), (guardA, .destroy),
    (guardA, .unlock), (guardA, .unlock), (guardB, .lock), (guardB, .destroy), (guardB, .unlock), (guardB, .unlock)]

theorem run_constructs (calls : List (Fin 2 × GuardCall ℕ)) :
    run guardStep (fun _ => idle)
        ((guardA, .construct [1] .exclusive) :: (guardB, .construct [1] .exclusive) :: calls) =
      run guardStep (fun _ => locking .exclusive [] [1]) calls := by
  have hconstruct : ∀ (s : Fin 2 → GuardState ℕ) (i : Fin 2), s i = idle →
      guardStep s (i, .construct [1] .exclusive) =
        some (Function.update s i (locking .exclusive [] [1])) := by
    intro s i hi
    simp [guardStep, GuardCall.apply, hi, waitsFor, GuardState.todo]
  have hboth : Function.update (Function.update (fun _ => idle) guardA (locking .exclusive [] [1])) guardB
      (locking .exclusive [] [1]) = fun _ : Fin 2 => locking .exclusive [] [1] := by
    decide
  rw [run, hconstruct _ guardA rfl, Option.bind_some, run, hconstruct _ guardB rfl, Option.bind_some, hboth]

theorem run_lockTwice : run guardStep (fun _ => idle) lockTwice = some fun _ => idle := by
  rw [lockTwice, run_constructs]
  decide

def lockedTwice : Behavior (guardStep (ν := ℕ) (n := 2)) :=
  .ofRun (fun _ => idle) lockTwice (Option.isSome_of_mem run_lockTwice)

theorem lockedTwice_fair : FairLocks lockedTwice where
  destroys i := by
    refine Behavior.ofRun_weaklyFair run_lockTwice ?_
    rintro a (rfl | rfl) <;> simp [guardStep, GuardCall.apply]
  mutex i t k _ := by
    refine ⟨max k lockTwice.length, le_max_left _ _, ?_⟩
    rw [lockedTwice, Behavior.ofRun_state run_lockTwice (le_max_right _ _)]
    simp [waitsFor, GuardState.todo]

theorem lockedTwice_waiting :
    lockedTwice.state 3 guardB = locking .exclusive [] [1] ∧
      guardStep (lockedTwice.state 3) (guardB, .lock) = none := by
  have hstate : lockedTwice.state 3 =
      (run guardStep (fun _ => locking .exclusive [] [1]) [(guardA, .lock)]).getD fun _ => idle :=
    congrArg (·.getD fun _ => idle) (run_constructs [(guardA, .lock)])
  rw [hstate]
  decide

/-- The second guard cannot lock the table while the first one holds it, and has it later. -/
theorem lockedTwice_constructed :
    guardStep (lockedTwice.state 3) (guardB, .lock) = none ∧
      ∃ m, 3 ≤ m ∧ (lockedTwice.state m guardB).Constructed :=
  ⟨lockedTwice_waiting.2,
    (tableLocks_live ℕ 2).2 lockedTwice rfl lockedTwice_fair guardB 3 .exclusive [] [1]
      lockedTwice_waiting.1⟩

end Sample

end CoroDB
