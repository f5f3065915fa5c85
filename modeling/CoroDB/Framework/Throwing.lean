import Mathlib

/-!
# Loops that may throw

Maps and folds of a list whose body may fail: an element that fails ends the loop with its error.
-/

namespace CoroDB.Framework

variable {α β σ ε : Type}

theorem bind_eq_ok {x : Except ε α} {f : α → Except ε β} {b : β}
    (h : (do f (← x)) = .ok b) : ∃ a, x = .ok a ∧ f a = .ok b := by
  cases x with
  | error e => cases h
  | ok a => exact ⟨a, rfl, h⟩

section Map

variable {f g : α → Except ε β} {l : List α} {bs : List β}

theorem mapM_congr (h : ∀ a ∈ l, f a = g a) : l.mapM f = l.mapM g := by
  induction l with
  | nil => rfl
  | cons a l ih =>
    obtain ⟨ha, hl⟩ := List.forall_mem_cons.mp h
    rw [List.mapM_cons, List.mapM_cons, ha, ih hl]

theorem mapM_eq_ok {g : α → β} (h : ∀ a ∈ l, f a = .ok (g a)) : l.mapM f = .ok (l.map g) := by
  induction l with
  | nil => rfl
  | cons a l ih =>
    obtain ⟨ha, hl⟩ := List.forall_mem_cons.mp h
    rw [List.mapM_cons, ha, ih hl]
    rfl

theorem mapM_ok_mono (hfg : ∀ a b, f a = .ok b → g a = .ok b) (h : l.mapM f = .ok bs) :
    l.mapM g = .ok bs := by
  induction l generalizing bs with
  | nil => exact h
  | cons a l ih =>
    rw [List.mapM_cons] at h ⊢
    obtain ⟨b, hb, h⟩ := bind_eq_ok h
    obtain ⟨rest, hrest, h⟩ := bind_eq_ok h
    rw [hfg a b hb, ih hrest]
    exact h

end Map

section Fold

variable {f g : σ → α → Except ε σ} {l : List α} {s : σ}

theorem foldlM_congr (h : ∀ a ∈ l, ∀ s, f s a = g s a) : l.foldlM f s = l.foldlM g s := by
  induction l generalizing s with
  | nil => rfl
  | cons a l ih =>
    obtain ⟨ha, hl⟩ := List.forall_mem_cons.mp h
    rw [List.foldlM_cons, List.foldlM_cons, ha]
    apply bind_congr
    intro s'
    exact ih hl

theorem foldlM_eq_ok {g : σ → α → σ} (I : σ → Prop) (hI : ∀ a ∈ l, ∀ s, I s → I (g s a))
    (h : ∀ a ∈ l, ∀ s, I s → f s a = .ok (g s a)) (hs : I s) :
    l.foldlM f s = .ok (l.foldl g s) := by
  induction l generalizing s with
  | nil => rfl
  | cons a l ih =>
    obtain ⟨ha, hl⟩ := List.forall_mem_cons.mp h
    obtain ⟨hIa, hIl⟩ := List.forall_mem_cons.mp hI
    rw [List.foldlM_cons, ha s hs, List.foldl_cons, ← ih hIl hl (hIa s hs)]
    rfl

end Fold

end CoroDB.Framework
