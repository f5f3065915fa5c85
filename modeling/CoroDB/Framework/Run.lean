import Mathlib

/-!
# Runs of a guarded machine

A machine takes actions one after the other, and an action may be impossible in a state.
-/

namespace CoroDB.Framework

variable {σ α : Type*} (step : σ → α → Option σ)

def run (s : σ) : List α → Option σ
  | [] => some s
  | a :: as => (step s a).bind fun s' => run s' as

def Guarded (G : σ → α → Prop) (s : σ) : List α → Prop
  | [] => True
  | a :: as => G s a ∧ ∀ s', step s a = some s' → Guarded G s' as

def Throughout (P : σ → Prop) (s : σ) : List α → Prop
  | [] => P s
  | a :: as => P s ∧ ∀ s', step s a = some s' → Throughout P s' as

instance Guarded.decidable (G : σ → α → Prop) [∀ s a, Decidable (G s a)] :
    (s : σ) → (as : List α) → Decidable (Guarded step G s as)
  | _, [] => .isTrue trivial
  | s, a :: as =>
    match h : step s a with
    | none => decidable_of_iff (G s a)
        ⟨fun g => ⟨g, fun s' hs' => by simp [h] at hs'⟩, fun g => g.1⟩
    | some s' =>
      have := Guarded.decidable G s' as
      decidable_of_iff (G s a ∧ Guarded step G s' as)
        ⟨fun g => ⟨g.1, fun t ht => Option.some.inj (h.symm.trans ht) ▸ g.2⟩,
          fun g => ⟨g.1, g.2 s' h⟩⟩

variable {step} {G : σ → α → Prop} {P I : σ → Prop} {s t : σ} {as : List α}

theorem run_cons {a : α} (h : run step s (a :: as) = some t) :
    ∃ s', step s a = some s' ∧ run step s' as = some t :=
  Option.bind_eq_some_iff.mp h

theorem run_append {bs : List α} (h : run step s (as ++ bs) = some t) :
    ∃ s', run step s as = some s' ∧ run step s' bs = some t := by
  induction as generalizing s with
  | nil => exact ⟨s, rfl, h⟩
  | cons a as ih =>
    obtain ⟨s₁, h₁, h⟩ := run_cons h
    obtain ⟨s', hs', h⟩ := ih h
    exact ⟨s', by simp [run, h₁, hs'], h⟩

theorem run_concat {a : α} {u : σ} (h : run step s as = some t) (ha : step t a = some u) :
    run step s (as ++ [a]) = some u := by
  induction as generalizing s with
  | nil =>
    rw [run, Option.some.injEq] at h
    simp [run, h, ha]
  | cons b as ih =>
    obtain ⟨s', hb, h⟩ := run_cons h
    simp [run, hb, ih h]

theorem run_invariant (hstep : ∀ s a s', I s → step s a = some s' → I s') (hs : I s)
    (hrun : run step s as = some t) : I t := by
  induction as generalizing s with
  | nil => exact Option.some.inj hrun ▸ hs
  | cons a as ih =>
    obtain ⟨s', hs', hrun⟩ := run_cons hrun
    exact ih (hstep s a s' hs hs') hrun

theorem Throughout.mono {Q : σ → Prop} (hPQ : ∀ s, P s → Q s) (h : Throughout step P s as) :
    Throughout step Q s as := by
  induction as generalizing s with
  | nil => exact hPQ s h
  | cons a as ih => exact ⟨hPQ s h.1, fun s' hs' => ih (h.2 s' hs')⟩

theorem Throughout.head (h : Throughout step P s as) : P s := by
  cases as with
  | nil => exact h
  | cons a as => exact h.1

theorem Throughout.last (h : Throughout step P s as) (hrun : run step s as = some t) : P t := by
  induction as generalizing s with
  | nil => exact Option.some.inj hrun ▸ h
  | cons a as ih =>
    obtain ⟨s', hs', hrun⟩ := run_cons hrun
    exact ih (h.2 s' hs') hrun

theorem Throughout.of_invariant (hstep : ∀ s a s', I s → step s a = some s' → I s') (hs : I s) :
    Throughout step I s as := by
  induction as generalizing s with
  | nil => exact hs
  | cons a as ih => exact ⟨hs, fun s' hs' => ih (hstep s a s' hs hs')⟩

theorem Guarded.throughout (hstep : ∀ s a s', I s → G s a → step s a = some s' → I s')
    (h : Guarded step G s as) (hs : I s) : Throughout step I s as := by
  induction as generalizing s with
  | nil => exact hs
  | cons a as ih =>
    exact ⟨hs, fun s' hs' => ih (h.2 s' hs') (hstep s a s' hs h.1 hs')⟩

theorem Guarded.throughout_beside {Q : σ → Prop} (h : Guarded step G s as)
    (hQ : Throughout step Q s as)
    (hstep : ∀ s a s', I s → Q s' → G s a → step s a = some s' → I s') (hs : I s) :
    Throughout step I s as := by
  induction as generalizing s with
  | nil => exact hs
  | cons a as ih =>
    exact ⟨hs, fun s' hs' => ih (h.2 s' hs') (hQ.2 s' hs')
      (hstep s a s' hs (hQ.2 s' hs').head h.1 hs')⟩

theorem Guarded.append {bs : List α} (h : Guarded step G s (as ++ bs))
    (hrun : run step s as = some t) : Guarded step G t bs := by
  induction as generalizing s with
  | nil => exact Option.some.inj hrun ▸ h
  | cons a as ih =>
    obtain ⟨s', hs', hrun⟩ := run_cons hrun
    exact ih (h.2 s' hs') hrun

theorem Guarded.left {bs : List α} (h : Guarded step G s (as ++ bs)) : Guarded step G s as := by
  induction as generalizing s with
  | nil => trivial
  | cons a as ih => exact ⟨h.1, fun s' hs' => ih (h.2 s' hs')⟩

theorem Guarded.of_invariant (hstep : ∀ s a s', I s → G s a → step s a = some s' → I s')
    (hG : ∀ s, ∀ a ∈ as, I s → G s a) (hs : I s) : Guarded step G s as := by
  induction as generalizing s with
  | nil => trivial
  | cons a as ih =>
    have ha : G s a := hG s a List.mem_cons_self hs
    refine ⟨ha, fun s' hs' => ?_⟩
    exact ih (fun t b hb => hG t b (List.mem_cons_of_mem _ hb)) (hstep s a s' hs ha hs')

theorem Guarded.throughout_of_count {J : Nat → σ → Prop} {N n : Nat}
    (hstep : ∀ n s a s', J n s → G s a → step s a = some s' → J (n + 1) s')
    (hP : ∀ n s, n < N → J n s → P s) (h : Guarded step G s as) (hs : J n s)
    (hbound : n + as.length < N) : Throughout step P s as := by
  induction as generalizing s n with
  | nil => exact hP n s (by simpa using hbound) hs
  | cons a as ih =>
    rw [List.length_cons] at hbound
    exact ⟨hP n s (by omega) hs,
      fun s' hs' => ih (h.2 s' hs') (hstep n s a s' hs h.1 hs') (by omega)⟩

theorem throughout_iff_guarded_of_rest {J : List α → σ → Prop}
    (hstep : ∀ a as s s', J (a :: as) s → G s a → step s a = some s' → J as s')
    (hJP : ∀ as s, J as s → P s)
    (hbreak : ∀ a as s s', J (a :: as) s → ¬ G s a → step s a = some s' → ¬ P s')
    (hs : J as s) (hrun : run step s as = some t) :
    Throughout step P s as ↔ Guarded step G s as := by
  induction as generalizing s with
  | nil => exact ⟨fun _ => trivial, fun _ => hJP _ s hs⟩
  | cons a as ih =>
    obtain ⟨s₁, h₁, hrun⟩ := run_cons hrun
    have hnext : ∀ s', step s a = some s' → s' = s₁ :=
      fun s' hs' => Option.some.inj (hs'.symm.trans h₁)
    constructor
    · intro h
      have hG : G s a := by
        by_contra hG
        exact hbreak a as s s₁ hs hG h₁ (h.2 s₁ h₁).head
      refine ⟨hG, fun s' hs' => ?_⟩
      rw [hnext s' hs']
      exact (ih (hstep a as s s₁ hs hG h₁) hrun).mp (h.2 s₁ h₁)
    · intro h
      refine ⟨hJP _ s hs, fun s' hs' => ?_⟩
      rw [hnext s' hs']
      exact (ih (hstep a as s s₁ hs h.1 h₁) hrun).mpr (h.2 s₁ h₁)

theorem throughout_iff_guarded (hstep : ∀ s a s', I s → G s a → step s a = some s' → I s')
    (hIP : ∀ s, I s → P s) (hbreak : ∀ s a s', I s → ¬ G s a → step s a = some s' → ¬ P s')
    (hs : I s) (hrun : run step s as = some t) :
    Throughout step P s as ↔ Guarded step G s as :=
  throughout_iff_guarded_of_rest (J := fun _ => I) (fun a _ s s' => hstep s a s') (fun _ => hIP)
    (fun a _ s s' => hbreak s a s') hs hrun

section Attempt

variable {ε : Type*}

/-- The error that ends the loop, and the state that the rounds before it have reached. -/
def attempt (round : σ → α → Except ε σ) (s : σ) : List α → Option ε × σ
  | [] => (none, s)
  | a :: as =>
    match round s a with
    | .ok s' => attempt round s' as
    | .error e => (some e, s)

end Attempt

end CoroDB.Framework
