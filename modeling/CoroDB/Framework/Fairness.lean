import CoroDB.Framework.Run

/-!
# Fair behaviours

A behaviour is an infinite run of a machine, in which a step may also do nothing.
-/

namespace CoroDB.Framework

variable {σ α : Type*} {step : σ → α → Option σ}

structure Behavior (step : σ → α → Option σ) where
  state : ℕ → σ
  action : ℕ → Option α
  idle : ∀ n, action n = none → state (n + 1) = state n
  acts : ∀ n a, action n = some a → step (state n) a = some (state (n + 1))

namespace Behavior

variable {b : Behavior step}

/-- Once one of the actions is possible in every later state, one of them is taken. -/
def WeaklyFair (b : Behavior step) (own : α → Prop) : Prop :=
  ∀ n, (∀ m, n ≤ m → ∃ a, own a ∧ (step (b.state m) a).isSome) →
    ∃ m a, n ≤ m ∧ own a ∧ b.action m = some a

theorem persists {I : σ → Prop} (hstep : ∀ s a s', I s → step s a = some s' → I s') {n m : ℕ}
    (hnm : n ≤ m) (hn : I (b.state n)) : I (b.state m) := by
  induction m, hnm using Nat.le_induction with
  | base => exact hn
  | succ m hnm ih =>
    cases ha : b.action m with
    | none => exact b.idle m ha ▸ ih
    | some a => exact hstep _ a _ ih (b.acts m a ha)

theorem guarded {I : σ → Prop} {G : σ → α → Prop}
    (hstep : ∀ s a s', I s → G s a → step s a = some s' → I s') (h₀ : I (b.state 0))
    (hG : ∀ n a, b.action n = some a → G (b.state n) a) (n : ℕ) : I (b.state n) := by
  induction n with
  | zero => exact h₀
  | succ n ih =>
    cases ha : b.action n with
    | none => exact b.idle n ha ▸ ih
    | some a => exact hstep _ a _ ih (hG n a ha) (b.acts n a ha)

theorem invariant {I H : σ → Prop} (hstep : ∀ s a s', I s → H s → step s a = some s' → I s')
    (h₀ : I (b.state 0)) (hH : ∀ n, H (b.state n)) (n : ℕ) : I (b.state n) :=
  b.guarded (G := fun s _ => H s) hstep h₀ (fun n _ _ => hH n) n

theorem stays_or_leaves {P : σ → Prop} {n : ℕ} (h : P (b.state n)) :
    (∀ m, n ≤ m → P (b.state m)) ∨ ∃ m, n ≤ m ∧ P (b.state m) ∧ ¬ P (b.state (m + 1)) := by
  by_contra! hnot
  obtain ⟨⟨m, hm, hP⟩, hkeep⟩ := hnot
  exact hP (Nat.le_induction h (fun m hm ih => hkeep m hm ih) m hm)

theorem WeaklyFair.reaches {own : α → Prop} (hfair : b.WeaklyFair own) {I P Q : σ → Prop}
    (rank : σ → ℕ) (hI : ∀ n, I (b.state n))
    (henabled : ∀ s, I s → P s → ∃ a, own a ∧ (step s a).isSome)
    (hkeep : ∀ s a s', I s → I s' → P s → step s a = some s' → Q s' ∨ (P s' ∧ rank s' ≤ rank s))
    (hnear : ∀ s a s', I s → I s' → P s → own a → step s a = some s' →
      Q s' ∨ (P s' ∧ rank s' < rank s))
    {n : ℕ} (hn : P (b.state n)) : ∃ m, n ≤ m ∧ Q (b.state m) := by
  induction hr : rank (b.state n) using Nat.strong_induction_on generalizing n with
  | _ r ih =>
  by_contra hnever
  have hstay : ∀ m, n ≤ m → P (b.state m) ∧ rank (b.state m) ≤ r := by
    intro m hnm
    induction m, hnm using Nat.le_induction with
    | base => exact ⟨hn, hr.le⟩
    | succ m hnm ihm =>
      cases ha : b.action m with
      | none => exact b.idle m ha ▸ ihm
      | some a =>
        rcases hkeep _ a _ (hI m) (hI (m + 1)) ihm.1 (b.acts m a ha) with hq | ⟨hp, hle⟩
        · exact absurd ⟨m + 1, by omega, hq⟩ hnever
        · exact ⟨hp, hle.trans ihm.2⟩
  obtain ⟨m, a, hnm, hown, ha⟩ := hfair n fun m hnm => henabled _ (hI m) (hstay m hnm).1
  rcases hnear _ a _ (hI m) (hI (m + 1)) (hstay m hnm).1 hown (b.acts m a ha) with hq | ⟨hp, hlt⟩
  · exact hnever ⟨m + 1, by omega, hq⟩
  · obtain ⟨k, hk, hq⟩ := ih _ (lt_of_lt_of_le hlt (hstay m hnm).2) hp rfl
    exact hnever ⟨k, by omega, hq⟩

theorem settles {I : σ → Prop} (rank : σ → ℕ)
    (hstep : ∀ s a s', I s → step s a = some s' → I s' ∧ rank s' < rank s) {n : ℕ}
    (hn : I (b.state n)) : ∃ m, n ≤ m ∧ ∀ k, m ≤ k → b.state k = b.state m ∧ b.action k = none := by
  induction hr : rank (b.state n) using Nat.strong_induction_on generalizing n with
  | _ r ih =>
  subst hr
  by_cases hrest : ∀ k, n ≤ k → b.action k = none
  · refine ⟨n, le_rfl, fun k hk => ⟨?_, hrest k hk⟩⟩
    induction k, hk using Nat.le_induction with
    | base => rfl
    | succ k hk ihk => rw [b.idle k (hrest k hk), ihk]
  · push Not at hrest
    obtain ⟨k, hk, ha⟩ := hrest
    obtain ⟨a, ha⟩ := Option.ne_none_iff_exists'.mp ha
    have hkept : I (b.state k) ∧ rank (b.state k) ≤ rank (b.state n) :=
      b.persists (I := fun s => I s ∧ rank s ≤ rank (b.state n))
        (fun s a s' h hs => ⟨(hstep s a s' h.1 hs).1, ((hstep s a s' h.1 hs).2.le.trans h.2)⟩) hk
        ⟨hn, le_rfl⟩
    obtain ⟨hI, hlt⟩ := hstep _ a _ hkept.1 (b.acts k a ha)
    obtain ⟨m, hm, h⟩ := ih _ (lt_of_lt_of_le hlt hkept.2) hI rfl
    exact ⟨m, by omega, h⟩

theorem WeaklyFair.disabled {own : α → Prop} (hfair : b.WeaklyFair own) {m : ℕ}
    (hrest : ∀ k, m ≤ k → b.state k = b.state m ∧ b.action k = none) {a : α} (ha : own a) :
    step (b.state m) a = none := by
  by_contra hsome
  obtain ⟨k, a', hk, -, ha'⟩ := hfair m fun k hk =>
    ⟨a, ha, by rw [(hrest k hk).1]; exact Option.isSome_iff_ne_none.mpr hsome⟩
  rw [(hrest k hk).2] at ha'
  cases ha'

end Behavior

/-- A finite run, continued by doing nothing. -/
def Behavior.ofRun (s : σ) (as : List α) (h : (run step s as).isSome) : Behavior step where
  state n := (run step s (as.take n)).getD s
  action n := as[n]?
  idle n hn := by
    have hlen : as.length ≤ n := List.getElem?_eq_none_iff.mp hn
    rw [List.take_of_length_le hlen, List.take_of_length_le (by omega)]
  acts n a hn := by
    obtain ⟨t, ht⟩ := Option.isSome_iff_exists.mp h
    rw [← List.take_append_drop (n + 1) as] at ht
    obtain ⟨s₂, hs₂, -⟩ := run_append ht
    have hs₂' := hs₂
    rw [List.take_add_one, hn] at hs₂'
    obtain ⟨s₁, hs₁, hstep⟩ := run_append hs₂'
    obtain ⟨s₃, hstep, hs₃⟩ := run_cons hstep
    rw [hs₁, hs₂, Option.getD_some, Option.getD_some, hstep]
    exact hs₃

namespace Behavior

variable {s t : σ} {as : List α} {h : (run step s as).isSome}

theorem ofRun_state (ht : run step s as = some t) {n : ℕ} (hn : as.length ≤ n) :
    (ofRun s as h).state n = t := by
  change (run step s (as.take n)).getD s = t
  rw [List.take_of_length_le hn, ht]
  rfl

theorem ofRun_weaklyFair (ht : run step s as = some t) {own : α → Prop}
    (hlast : ∀ a, own a → step t a = none) : (ofRun s as h).WeaklyFair own := by
  intro n henabled
  obtain ⟨a, ha, hsome⟩ := henabled (max n as.length) (le_max_left _ _)
  rw [ofRun_state ht (le_max_right _ _), hlast a ha] at hsome
  cases hsome

end Behavior

end CoroDB.Framework
