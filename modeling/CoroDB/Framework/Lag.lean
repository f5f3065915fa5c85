import CoroDB.Framework.Run

/-!
# A copy that lags behind

A copy of a state receives the changes of the original through a queue.
-/

namespace CoroDB.Framework

variable {σ ρ : Type*} (apply : σ → ρ → σ) (Ok : σ → ρ → Prop)

def Lags (copy : σ) : List ρ → σ → Prop
  | [], original => copy = original
  | r :: queue, original => Ok copy r ∧ Lags (apply copy r) queue original

variable {apply Ok} {copy original : σ} {queue : List ρ} {r : ρ}

theorem Lags.append (h : Lags apply Ok copy queue original) (hr : Ok original r) :
    Lags apply Ok copy (queue ++ [r]) (apply original r) := by
  induction queue generalizing copy with
  | nil =>
    obtain rfl : copy = original := h
    exact ⟨hr, rfl⟩
  | cons r' queue ih => exact ⟨h.1, ih h.2⟩

end CoroDB.Framework
