import CoroDB.Framework.Run

/-!
# Interleaved threads

Threads with local states take steps on a shared state, one at a time and in any order.
-/

namespace CoroDB.Framework

/-- A shared state and the local state of every thread. -/
structure Threads (ι σ θ : Type*) where
  shared : σ
  locals : ι → θ

namespace Threads

variable {ι σ θ : Type*} [DecidableEq ι]

def step (act : ι → σ → θ → Option (σ × θ)) (s : Threads ι σ θ) (i : ι) : Option (Threads ι σ θ) :=
  (act i s.shared (s.locals i)).map fun p => ⟨p.1, Function.update s.locals i p.2⟩

variable {act : ι → σ → θ → Option (σ × θ)} {s s' : Threads ι σ θ} {i : ι} {as : List ι}

theorem step_eq_some (h : step act s i = some s') :
    ∃ x l, act i s.shared (s.locals i) = some (x, l) ∧
      s' = ⟨x, Function.update s.locals i l⟩ := by
  obtain ⟨⟨x, l⟩, hact, rfl⟩ := Option.map_eq_some_iff.mp h
  exact ⟨x, l, hact, rfl⟩

theorem step_of_act {x : σ} {l : θ} (h : act i s.shared (s.locals i) = some (x, l)) :
    step act s i = some ⟨x, Function.update s.locals i l⟩ := by
  rw [step, h]
  rfl

/-- The shared state satisfies `A`, and every thread its assertion `L`. -/
def Annotated (A : σ → Prop) (L : ι → σ → θ → Prop) (s : Threads ι σ θ) : Prop :=
  A s.shared ∧ ∀ i, L i s.shared (s.locals i)

theorem annotated_step {A : σ → Prop} {L : ι → σ → θ → Prop} {G : Threads ι σ θ → ι → Prop}
    (hown : ∀ s i x l, Annotated A L s → G s i → act i s.shared (s.locals i) = some (x, l) →
      A x ∧ L i x l)
    (hframe : ∀ s i j x l, Annotated A L s → G s i → act i s.shared (s.locals i) = some (x, l) →
      j ≠ i → L j x (s.locals j))
    (hs : Annotated A L s) (hG : G s i) (h : step act s i = some s') : Annotated A L s' := by
  obtain ⟨x, l, hact, rfl⟩ := step_eq_some h
  obtain ⟨hA, hL⟩ := hown s i x l hs hG hact
  refine ⟨hA, fun j => ?_⟩
  by_cases hj : j = i
  · subst hj
    simpa using hL
  · simpa [hj] using hframe s i j x l hs hG hact hj

end Threads

end CoroDB.Framework
