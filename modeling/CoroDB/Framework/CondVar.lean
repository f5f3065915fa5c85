import Mathlib

/-!
# Condition variables

Threads are in states of some type, and a notification reaches only those that sleep.
-/

namespace CoroDB.Framework

variable {ι σ : Type*}

section Weigh

variable [Fintype ι]

def weigh (h : σ → ℕ) (f : ι → σ) : ℕ := ∑ i, h (f i)

theorem weigh_update [DecidableEq ι] (h : σ → ℕ) (f : ι → σ) (i : ι) (x : σ) :
    weigh h (Function.update f i x) + h (f i) = weigh h f + h x := by
  have hrest : ∑ j ∈ Finset.univ.erase i, h (Function.update f i x j) =
      ∑ j ∈ Finset.univ.erase i, h (f j) :=
    Finset.sum_congr rfl fun j hj => by rw [Function.update_of_ne (Finset.ne_of_mem_erase hj)]
  rw [weigh, weigh, ← Finset.add_sum_erase _ _ (Finset.mem_univ i),
    ← Finset.add_sum_erase _ (fun j => h (f j)) (Finset.mem_univ i), hrest, Function.update_self]
  omega

theorem weigh_le_add_card {h : σ → ℕ} {f g : ι → σ} (hle : ∀ i, h (g i) ≤ h (f i) + 1) :
    weigh h g ≤ weigh h f + Fintype.card ι := by
  calc weigh h g ≤ ∑ i, (h (f i) + 1) := Finset.sum_le_sum fun i _ => hle i
    _ = weigh h f + Fintype.card ι := by simp [weigh, Finset.sum_add_distrib]

variable [DecidableEq σ]

def census (c : σ) (f : ι → σ) : ℕ := weigh (fun x => if x = c then 1 else 0) f

theorem census_update [DecidableEq ι] (c : σ) (f : ι → σ) (i : ι) (x : σ) :
    census c (Function.update f i x) + (if f i = c then 1 else 0) =
      census c f + if x = c then 1 else 0 :=
  weigh_update _ f i x

theorem census_eq_zero {c : σ} {f : ι → σ} : census c f = 0 ↔ ∀ i, f i ≠ c := by
  simp [census, weigh]

theorem census_pos {c : σ} {f : ι → σ} {i : ι} (h : f i = c) : 0 < census c f :=
  Nat.pos_of_ne_zero fun h₀ => census_eq_zero.mp h₀ i h

end Weigh

section Notify

variable [DecidableEq σ] (asleep awake : σ) (f : ι → σ)

def notifyAll : ι → σ := fun i => if f i = asleep then awake else f i

variable [Fintype ι]

theorem census_asleep_notifyAll (h : awake ≠ asleep) :
    census asleep (notifyAll asleep awake f) = 0 := by
  refine census_eq_zero.mpr fun i => ?_
  rw [notifyAll]
  split_ifs with hi
  · exact h
  · exact hi

theorem census_notifyAll {c : σ} (hs : c ≠ asleep) (ha : c ≠ awake) :
    census c (notifyAll asleep awake f) = census c f := by
  refine Finset.sum_congr rfl fun i _ => ?_
  by_cases hi : f i = asleep <;> simp [notifyAll, hi, hs.symm, ha.symm]

variable [DecidableEq ι]

/-- `notify_one` wakes a thread that sleeps, unless there is none. -/
def notifyOne : Option ι → Option (ι → σ)
  | none => if ∀ i, f i ≠ asleep then some f else none
  | some i => if f i = asleep then some (Function.update f i awake) else none

variable {asleep awake f} {wake : Option ι} {f' : ι → σ}

theorem notifyOne_eq_some (h : notifyOne asleep awake f wake = some f') :
    f' = f ∧ census asleep f = 0 ∨ ∃ i, f i = asleep ∧ f' = Function.update f i awake := by
  cases wake with
  | none =>
    obtain ⟨hnone, hf⟩ := Option.ite_none_right_eq_some.mp h
    exact .inl ⟨(Option.some.inj hf).symm, census_eq_zero.mpr hnone⟩
  | some i =>
    obtain ⟨hi, hf⟩ := Option.ite_none_right_eq_some.mp h
    exact .inr ⟨i, hi, (Option.some.inj hf).symm⟩

theorem exists_notifyOne (asleep awake : σ) (f : ι → σ) :
    ∃ wake, (notifyOne asleep awake f wake).isSome := by
  by_cases h : ∀ i, f i ≠ asleep
  · exact ⟨none, by simp [notifyOne, h]⟩
  · obtain ⟨i, hi⟩ := not_forall_not.mp h
    exact ⟨some i, by simp [notifyOne, hi]⟩

end Notify

end CoroDB.Framework
