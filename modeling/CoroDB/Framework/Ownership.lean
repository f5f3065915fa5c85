import Mathlib

/-!
# Resources held by sequential programs

Threads run programs, each the list of the operations it still has to do.
-/

namespace CoroDB.Framework

variable {α ν ι : Type*}

/-- Which resources the operations use, and which operation opens a resource. -/
class ResourceUse (α : Type*) (ν : outParam Type*) where
  uses : α → ν → Bool
  opens : ν → α

open ResourceUse

variable [ResourceUse α ν]

/-- The program is past the operation that opens the resource and has still to use it. -/
def InUse (r : ν) (program : List α) : Prop :=
  (∃ op ∈ program, uses op r = true) ∧ opens r ∉ program

/-- No operation opens a resource that an earlier one uses. -/
def OpensFirst (program : List α) : Prop :=
  program.Pairwise fun a b => ∀ r, uses a r = true → b ≠ opens r

instance InUse.decidable [DecidableEq α] (r : ν) (program : List α) :
    Decidable (InUse r program) :=
  inferInstanceAs (Decidable (_ ∧ _))

section Programs

variable {r : ν} {op op' : α} {rest : List α}

@[simp] theorem not_inUse_nil (r : ν) : ¬ InUse r ([] : List α) := fun h => by simp [InUse] at h

theorem OpensFirst.inUse_head (h : OpensFirst (op :: rest)) (hu : uses op r = true)
    (ho : op ≠ opens r) : InUse r (op :: rest) := by
  refine ⟨⟨op, List.mem_cons_self, hu⟩, fun hmem => ?_⟩
  rcases List.mem_cons.mp hmem with heq | hmem
  · exact ho heq.symm
  · exact (List.pairwise_cons.mp h).1 _ hmem r hu rfl

theorem inUse_cons_of_not_uses (hu : uses op r = false) (ho : op ≠ opens r) :
    InUse r (op :: rest) ↔ InUse r rest := by
  simp only [InUse, List.mem_cons, exists_eq_or_imp, hu, Bool.false_eq_true, false_or, not_or]
  exact ⟨fun h => ⟨h.1, h.2.2⟩, fun h => ⟨h.1, fun heq => ho heq.symm, h.2⟩⟩

theorem OpensFirst.tail (h : OpensFirst (op :: rest)) : OpensFirst rest := (List.pairwise_cons.mp h).2

theorem OpensFirst.replace_head (h : OpensFirst (op :: rest))
    (hu : ∀ r : ν, uses op' r = true → uses op r = true) : OpensFirst (op' :: rest) := by
  obtain ⟨hhead, htail⟩ := List.pairwise_cons.mp h
  exact List.pairwise_cons.mpr ⟨fun b hb r hr => hhead b hb r (hu r hr), htail⟩

theorem inUse_of_inUse_rest (ho : op ≠ opens r) (h : InUse r rest) : InUse r (op :: rest) := by
  obtain ⟨⟨a, ha, hu⟩, hn⟩ := h
  refine ⟨⟨a, List.mem_cons_of_mem _ ha, hu⟩, fun hmem => ?_⟩
  rcases List.mem_cons.mp hmem with heq | hmem
  · exact ho heq.symm
  · exact hn hmem

end Programs

/-- The program that holds a resource, the empty one when the resource is free. -/
def Owns (programs : ι → List α) (r : ν) (p : List α) : Prop :=
  (p = [] ∧ ∀ i, ¬ InUse r (programs i)) ∨
    ∃ i, programs i = p ∧ InUse r p ∧ ∀ j, j ≠ i → ¬ InUse r (programs j)

section Owners

variable {programs : ι → List α} {r : ν} {p q : List α} {i : ι}

theorem Owns.eq_nil (h : Owns programs r p) (hfree : ∀ i, ¬ InUse r (programs i)) : p = [] := by
  rcases h with ⟨rfl, -⟩ | ⟨i, rfl, hi, -⟩
  · rfl
  · exact absurd hi (hfree i)

theorem Owns.of_inUse (h : Owns programs r p) (hi : InUse r (programs i)) :
    p = programs i ∧ ∀ j, j ≠ i → ¬ InUse r (programs j) := by
  rcases h with ⟨-, hfree⟩ | ⟨j, rfl, hj, hothers⟩
  · exact absurd hi (hfree i)
  · have hij : i = j := by
      by_contra hne
      exact hothers i hne hi
    subst hij
    exact ⟨rfl, hothers⟩

variable [DecidableEq ι]

theorem Owns.update_of_not_inUse (h : Owns programs r p) (hi : ¬ InUse r (programs i))
    (hq : ¬ InUse r q) : Owns (Function.update programs i q) r p := by
  have hupdate : ∀ j, ¬ InUse r (programs j) → ¬ InUse r (Function.update programs i q j) := by
    intro j hj
    by_cases hji : j = i
    · subst hji
      rwa [Function.update_self]
    · rwa [Function.update_of_ne hji]
  rcases h with ⟨rfl, hfree⟩ | ⟨j, rfl, hj, hothers⟩
  · exact .inl ⟨rfl, fun j => hupdate j (hfree j)⟩
  · have hji : j ≠ i := by
      rintro rfl
      exact hi hj
    exact .inr ⟨j, Function.update_of_ne hji _ _, hj, fun k hk => hupdate k (hothers k hk)⟩

theorem owns_update (hothers : ∀ j, j ≠ i → ¬ InUse r (programs j)) (q : List α)
    [Decidable (InUse r q)] :
    Owns (Function.update programs i q) r (if InUse r q then q else []) := by
  have hother : ∀ j, j ≠ i → ¬ InUse r (Function.update programs i q j) := by
    intro j hj
    rw [Function.update_of_ne hj]
    exact hothers j hj
  split_ifs with hq
  · exact .inr ⟨i, Function.update_self _ _ _, hq, hother⟩
  · refine .inl ⟨rfl, fun j => ?_⟩
    by_cases hj : j = i
    · subst hj
      rwa [Function.update_self]
    · exact hother j hj

end Owners

end CoroDB.Framework
