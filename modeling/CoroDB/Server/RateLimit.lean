import CoroDB.Framework.Run

/-!
# The rate limit of a connection

`on_message` keeps a token bucket in the session: a statement refills it for the time since the last
refill and takes a token, or is refused.
-/

namespace CoroDB

open Framework

structure RateBucket where
  rateTokens : Nat := 0
  rateLastRefillNs : Nat := 0
  deriving DecidableEq, Repr

namespace RateBucket

def secondNs : Nat := 1000000000

/-- The tokens for a time span; the product is one of `uint64_t`. -/
def gained (rate elapsed : Nat) : Nat := elapsed * rate % 2 ^ 64 / secondNs

def refill (rate : Nat) (s : RateBucket) (now : Nat) : RateBucket :=
  if s.rateLastRefillNs ≠ 0 ∧ s.rateLastRefillNs < now then
    if 0 < gained rate (now - s.rateLastRefillNs) then
      ⟨min rate ((s.rateTokens + gained rate (now - s.rateLastRefillNs)) % 2 ^ 64) % 2 ^ 32, now⟩
    else s
  else ⟨rate, now⟩

def spend (s : RateBucket) : Bool × RateBucket :=
  if s.rateTokens = 0 then (false, s) else (true, { s with rateTokens := s.rateTokens - 1 })

def tryAcquire (rate : Nat) (s : RateBucket) (now : Nat) : Bool × RateBucket := (s.refill rate now).spend

def step (rate : Nat) (s : RateBucket) (now : Nat) : Option RateBucket := some (s.tryAcquire rate now).2

def admitted (rate : Nat) (s : RateBucket) : List Nat → List Nat
  | [] => []
  | now :: times =>
    if (s.tryAcquire rate now).1 then now :: admitted rate (s.tryAcquire rate now).2 times
    else admitted rate (s.tryAcquire rate now).2 times

/-- The statement does not come at the time of the last refill. -/
def OffRefill (s : RateBucket) (now : Nat) : Prop := now ≠ s.rateLastRefillNs

instance OffRefill.decidable (s : RateBucket) (now : Nat) : Decidable (OffRefill s now) :=
  inferInstanceAs (Decidable (now ≠ s.rateLastRefillNs))

section Bucket

variable {rate now : Nat} {s : RateBucket} {times : List Nat}

theorem length_admitted_cons (rate : Nat) (s : RateBucket) (now : Nat) (times : List Nat) :
    ∃ c, c + (s.tryAcquire rate now).2.rateTokens = (s.refill rate now).rateTokens ∧
      (s.tryAcquire rate now).2.rateLastRefillNs = (s.refill rate now).rateLastRefillNs ∧
      (admitted rate s (now :: times)).length =
        c + (admitted rate (s.tryAcquire rate now).2 times).length := by
  by_cases hzero : (s.refill rate now).rateTokens = 0
  · have hacquire : s.tryAcquire rate now = (false, s.refill rate now) := if_pos hzero
    exact ⟨0, by simp [hacquire], by simp [hacquire], by simp [admitted, hacquire]⟩
  · have hacquire : s.tryAcquire rate now =
        (true, ⟨(s.refill rate now).rateTokens - 1, (s.refill rate now).rateLastRefillNs⟩) :=
      if_neg hzero
    refine ⟨1, ?_, by simp [hacquire], by simp [admitted, hacquire, Nat.add_comm]⟩
    rw [hacquire]
    exact Nat.add_sub_of_le (Nat.pos_of_ne_zero hzero)

theorem refill_of_first (h : ¬ (s.rateLastRefillNs ≠ 0 ∧ s.rateLastRefillNs < now)) :
    s.refill rate now = ⟨rate, now⟩ := if_neg h

theorem refill_cases (rate : Nat) (h0 : s.rateLastRefillNs ≠ 0) (hlt : s.rateLastRefillNs < now) :
    (gained rate (now - s.rateLastRefillNs) = 0 ∧ s.refill rate now = s) ∨
      ((s.refill rate now).rateLastRefillNs = now ∧ (s.refill rate now).rateTokens ≤ rate ∧
        (s.refill rate now).rateTokens ≤
          s.rateTokens + gained rate (now - s.rateLastRefillNs)) := by
  rw [refill, if_pos ⟨h0, hlt⟩]
  split_ifs with hgained
  · refine .inr ⟨rfl, ?_, ?_⟩
    · exact (Nat.mod_le _ _).trans (min_le_left _ _)
    · exact (Nat.mod_le _ _).trans ((min_le_right _ _).trans (Nat.mod_le _ _))
  · exact .inl ⟨Nat.eq_zero_of_not_pos hgained, rfl⟩

theorem refill_tokens_le (now : Nat) (htokens : s.rateTokens ≤ rate) :
    (s.refill rate now).rateTokens ≤ rate := by
  by_cases h : s.rateLastRefillNs ≠ 0 ∧ s.rateLastRefillNs < now
  · rcases refill_cases rate h.1 h.2 with ⟨-, heq⟩ | ⟨-, hle, -⟩
    · rwa [heq]
    · exact hle
  · rw [refill_of_first h]

theorem worth_add_le (rest : Nat) {u t : Nat} (hu : u ≤ now) (ht : now ≤ t) {g : Nat}
    (hg : g * secondNs ≤ rest + (now - u) * rate) :
    g + (t - now) * rate / secondNs ≤ (rest + (t - u) * rate) / secondNs := by
  have hsum : (t - u) * rate = (now - u) * rate + (t - now) * rate := by
    rw [← Nat.add_mul]
    congr 1
    omega
  rw [Nat.le_div_iff_mul_le (by decide), Nat.add_mul, hsum, ← Nat.add_assoc]
  exact Nat.add_le_add hg (Nat.div_mul_le_self _ _)

theorem gained_mul_le (rate elapsed : Nat) :
    gained rate elapsed * secondNs ≤ elapsed * rate % 2 ^ 64 := by
  rw [gained]
  exact Nat.div_mul_le_self _ _

/-- From a bucket on, the statements up to a time are at most its tokens and what the time is worth. -/
theorem length_admitted_le {t : Nat} (h0 : s.rateLastRefillNs ≠ 0)
    (htimes : ∀ u ∈ times, s.rateLastRefillNs ≤ u ∧ u ≤ t) (hsorted : times.Pairwise (· ≤ ·))
    (hoff : Guarded (step rate) OffRefill s times) :
    (admitted rate s times).length ≤
      s.rateTokens + (t - s.rateLastRefillNs) * rate / secondNs := by
  induction times generalizing s with
  | nil => exact Nat.zero_le _
  | cons now times ih =>
    obtain ⟨hle, hnow⟩ := htimes now List.mem_cons_self
    have hlt : s.rateLastRefillNs < now := lt_of_le_of_ne hle (Ne.symm hoff.1)
    obtain ⟨hfirst, hsorted⟩ := List.pairwise_cons.mp hsorted
    obtain ⟨c, hc, hlast, hlength⟩ := length_admitted_cons rate s now times
    rw [hlength]
    rcases refill_cases rate h0 hlt with ⟨-, heq⟩ | ⟨hrefill, -, htokens⟩
    · rw [heq] at hc hlast
      have hrest := ih (by rwa [hlast]) (fun u hu => by
        rw [hlast]
        exact htimes u (List.mem_cons_of_mem _ hu)) hsorted (hoff.2 _ rfl)
      rw [hlast] at hrest
      omega
    · rw [hrefill] at hlast
      have hrest := ih (by rw [hlast]; omega) (fun u hu => by
        rw [hlast]
        exact ⟨hfirst u hu, (htimes u (List.mem_cons_of_mem _ hu)).2⟩) hsorted (hoff.2 _ rfl)
      rw [hlast] at hrest
      have hgained : gained rate (now - s.rateLastRefillNs) * secondNs ≤
          0 + (now - s.rateLastRefillNs) * rate := by
        rw [Nat.zero_add]
        exact (gained_mul_le rate _).trans (Nat.mod_le _ _)
      have hworth := worth_add_le 0 hle hnow hgained
      rw [Nat.zero_add] at hworth
      omega

theorem length_admitted_le_succ {u t : Nat} (h0 : s.rateLastRefillNs ≠ 0) (hu : s.rateLastRefillNs ≤ u)
    (hpart : (u - s.rateLastRefillNs) * rate % 2 ^ 64 < secondNs)
    (htimes : ∀ v ∈ times, u ≤ v ∧ v ≤ t) (hsorted : times.Pairwise (· ≤ ·))
    (hoff : Guarded (step rate) OffRefill s times) :
    (admitted rate s times).length ≤ s.rateTokens + 1 + (t - u) * rate / secondNs := by
  induction times generalizing s with
  | nil => exact Nat.zero_le _
  | cons now times ih =>
    obtain ⟨hle, hnow⟩ := htimes now List.mem_cons_self
    have hlt : s.rateLastRefillNs < now := lt_of_le_of_ne (hu.trans hle) (Ne.symm hoff.1)
    obtain ⟨hfirst, hsorted⟩ := List.pairwise_cons.mp hsorted
    obtain ⟨c, hc, hlast, hlength⟩ := length_admitted_cons rate s now times
    rw [hlength]
    rcases refill_cases rate h0 hlt with ⟨-, heq⟩ | ⟨hrefill, -, htokens⟩
    · rw [heq] at hc hlast
      have hrest := ih (by rwa [hlast]) (by rwa [hlast]) (by rwa [hlast])
        (fun v hv => htimes v (List.mem_cons_of_mem _ hv)) hsorted (hoff.2 _ rfl)
      omega
    · rw [hrefill] at hlast
      have hrest := length_admitted_le (t := t) (by rw [hlast]; omega) (fun v hv => by
        rw [hlast]
        exact ⟨hfirst v hv, (htimes v (List.mem_cons_of_mem _ hv)).2⟩) hsorted (hoff.2 _ rfl)
      rw [hlast] at hrest
      have hsplit : now - s.rateLastRefillNs = (u - s.rateLastRefillNs) + (now - u) := by omega
      have hgained : gained rate (now - s.rateLastRefillNs) * secondNs ≤
          (secondNs - 1) + (now - u) * rate := by
        apply (gained_mul_le rate _).trans
        rw [hsplit, Nat.add_mul, Nat.add_mod]
        exact (Nat.mod_le _ _).trans (Nat.add_le_add (Nat.le_pred_of_lt hpart) (Nat.mod_le _ _))
      have hworth := worth_add_le (secondNs - 1) hle hnow hgained
      have hround : (secondNs - 1 + (t - u) * rate) / secondNs ≤ (t - u) * rate / secondNs + 1 := by
        rw [← Nat.add_div_left _ (by decide : 0 < secondNs)]
        exact Nat.div_le_div_right (Nat.add_le_add_right (Nat.sub_le _ _) _)
      omega

/-- The statements of a window, from the bucket that was left before it. -/
theorem length_admitted_window_le {t₁ t₂ : Nat} (htokens : s.rateTokens ≤ rate)
    (hlast : ∀ v ∈ times, s.rateLastRefillNs < v) (htimes : ∀ v ∈ times, t₁ ≤ v ∧ v ≤ t₂)
    (hsorted : times.Pairwise (· ≤ ·)) (hoff : Guarded (step rate) OffRefill s times) :
    (admitted rate s times).length ≤ rate + 1 + (t₂ - t₁) * rate / secondNs := by
  cases times with
  | nil => exact Nat.zero_le _
  | cons now times =>
    have hlt := hlast now List.mem_cons_self
    obtain ⟨hle, hnow⟩ := htimes now List.mem_cons_self
    have hshort : (t₂ - now) * rate / secondNs ≤ (t₂ - t₁) * rate / secondNs :=
      Nat.div_le_div_right (Nat.mul_le_mul_right _ (by omega))
    by_cases hidle : s.rateLastRefillNs ≠ 0 ∧ gained rate (now - s.rateLastRefillNs) = 0
    · have hpart : (now - s.rateLastRefillNs) * rate % 2 ^ 64 < secondNs :=
        (Nat.div_eq_zero_iff_lt (by decide)).mp hidle.2
      have hfrom : ∀ v ∈ now :: times, now ≤ v ∧ v ≤ t₂ := by
        intro v hv
        refine ⟨?_, (htimes v hv).2⟩
        rcases List.mem_cons.mp hv with rfl | hv
        · exact le_refl _
        · exact (List.pairwise_cons.mp hsorted).1 v hv
      have hbound := length_admitted_le_succ hidle.1 hlt.le hpart hfrom hsorted hoff
      omega
    · obtain ⟨c, hc, hafter, hlength⟩ := length_admitted_cons rate s now times
      have hrefill : (s.refill rate now).rateLastRefillNs = now := by
        by_cases h0 : s.rateLastRefillNs ≠ 0
        · rcases refill_cases rate h0 hlt with ⟨hzero, -⟩ | ⟨hrefill, -⟩
          · exact absurd ⟨h0, hzero⟩ hidle
          · exact hrefill
        · rw [refill_of_first (fun h => h0 h.1)]
      have hfull := refill_tokens_le now htokens
      rw [hrefill] at hafter
      have hrest := length_admitted_le (t := t₂) (by rw [hafter]; omega) (fun v hv => by
        rw [hafter]
        exact ⟨(List.pairwise_cons.mp hsorted).1 v hv, (htimes v (List.mem_cons_of_mem _ hv)).2⟩)
        (List.pairwise_cons.mp hsorted).2 (hoff.2 _ rfl)
      rw [hafter] at hrest
      omega

theorem admitted_append (rate : Nat) (s : RateBucket) (front rest : List Nat) :
    ∃ s', run (step rate) s front = some s' ∧
      admitted rate s (front ++ rest) = admitted rate s front ++ admitted rate s' rest := by
  induction front generalizing s with
  | nil => exact ⟨s, rfl, rfl⟩
  | cons now front ih =>
    obtain ⟨s', hrun, happend⟩ := ih (s.tryAcquire rate now).2
    refine ⟨s', hrun, ?_⟩
    rw [List.cons_append, admitted, admitted, happend]
    split_ifs <;> rfl

theorem admitted_sublist (rate : Nat) (s : RateBucket) : (admitted rate s times).Sublist times := by
  induction times generalizing s with
  | nil => exact List.Sublist.slnil
  | cons now times ih =>
    rw [admitted]
    split_ifs
    · exact (ih _).cons_cons now
    · exact (ih _).cons now

theorem run_bucket {s' : RateBucket} (htokens : s.rateTokens ≤ rate)
    (hrun : run (step rate) s times = some s') :
    s'.rateTokens ≤ rate ∧
      (s'.rateLastRefillNs = s.rateLastRefillNs ∨ s'.rateLastRefillNs ∈ times) := by
  induction times generalizing s with
  | nil => exact Option.some.inj hrun ▸ ⟨htokens, .inl rfl⟩
  | cons now times ih =>
    obtain ⟨c, hc, hlast, -⟩ := length_admitted_cons rate s now []
    have hfull := refill_tokens_le now htokens
    obtain ⟨hle, hrefilled⟩ := ih (s := (s.tryAcquire rate now).2) (by omega) hrun
    refine ⟨hle, ?_⟩
    rcases hrefilled with heq | hmem
    · have hrefill : (s.refill rate now).rateLastRefillNs = s.rateLastRefillNs ∨
          (s.refill rate now).rateLastRefillNs = now := by
        rw [refill]
        split_ifs <;> simp
      rw [heq, hlast]
      apply hrefill.imp_right
      intro hnow
      rw [hnow]
      exact List.mem_cons_self
    · exact .inr (List.mem_cons_of_mem now hmem)

theorem exists_split (hsorted : times.Pairwise (· ≤ ·)) (P : Nat → Prop) [DecidablePred P]
    (hdown : ∀ a b, a ≤ b → P b → P a) :
    ∃ front rest, times = front ++ rest ∧ (∀ t ∈ front, P t) ∧ ∀ t ∈ rest, ¬ P t := by
  induction times with
  | nil => exact ⟨[], [], rfl, by simp, by simp⟩
  | cons now times ih =>
    obtain ⟨hfirst, hsorted⟩ := List.pairwise_cons.mp hsorted
    by_cases hnow : P now
    · obtain ⟨front, rest, rfl, hfront, hrest⟩ := ih hsorted
      exact ⟨now :: front, rest, rfl, List.forall_mem_cons.mpr ⟨hnow, hfront⟩, hrest⟩
    · refine ⟨[], now :: times, rfl, by simp, List.forall_mem_cons.mpr ⟨hnow, ?_⟩⟩
      exact fun t ht hPt => hnow (hdown now t (hfirst t ht) hPt)

end Bucket

/-- A session whose statements never come at the very time of the last refill has at most one
statement more admitted in a window than a full bucket and the time of the window are worth. -/
theorem admitted_window_le (rate : Nat) (times : List Nat) (t₁ t₂ : Nat)
    (hsorted : times.Pairwise (· ≤ ·)) (hpos : ∀ t ∈ times, 0 < t)
    (hoff : Guarded (step rate) OffRefill {} times) :
    ((admitted rate {} times).filter fun t => t₁ ≤ t ∧ t ≤ t₂).length ≤
      rate + 1 + (t₂ - t₁) * rate / secondNs := by
  obtain ⟨before, rest, rfl, hbefore, hrest⟩ :=
    exists_split hsorted (· < t₁) fun a b hab hb => hab.trans_lt hb
  obtain ⟨-, hsortedRest, -⟩ := List.pairwise_append.mp hsorted
  obtain ⟨window, after, rfl, hwindow, hafter⟩ :=
    exists_split hsortedRest (· ≤ t₂) fun a b hab hb => hab.trans hb
  obtain ⟨s, hrun, hsplit⟩ := admitted_append rate {} before (window ++ after)
  obtain ⟨s', -, hsplit'⟩ := admitted_append rate s window after
  have hcount : (admitted rate {} (before ++ (window ++ after))).filter
      (fun t => t₁ ≤ t ∧ t ≤ t₂) = admitted rate s window := by
    rw [hsplit, hsplit', List.filter_append, List.filter_append, List.filter_eq_nil_iff.mpr,
      List.filter_eq_self.mpr, List.filter_eq_nil_iff.mpr, List.nil_append, List.append_nil]
    · intro t ht
      have hgt := hafter t ((admitted_sublist rate s').subset ht)
      simp only [decide_eq_true_eq]
      omega
    · intro t ht
      have hmem := (admitted_sublist rate s).subset ht
      have hle := hwindow t hmem
      have hge := hrest t (List.mem_append_left _ hmem)
      simp only [decide_eq_true_eq]
      omega
    · intro t ht
      have hlt := hbefore t ((admitted_sublist rate {}).subset ht)
      simp only [decide_eq_true_eq]
      omega
  rw [hcount]
  obtain ⟨htokens, hlast⟩ := run_bucket (Nat.zero_le rate) hrun
  have hwindowPos : ∀ v ∈ window, 0 < v := fun v hv => hpos v (by simp [hv])
  apply length_admitted_window_le htokens
  · intro v hv
    have hge := hrest v (List.mem_append_left _ hv)
    have hv := hwindowPos v hv
    rcases hlast with hzero | hmem
    · rw [hzero]
      exact hv
    · have hlt := hbefore _ hmem
      omega
  · intro v hv
    exact ⟨not_lt.mp (hrest v (List.mem_append_left _ hv)), hwindow v hv⟩
  · exact (List.pairwise_append.mp hsortedRest).1
  · exact (hoff.append hrun).left

/-- Three statements a fifth of a second apart, with one statement a second. -/
theorem admitted_threeStatements :
    ((admitted 1 {} [1, 200000001, 400000001]).filter fun t => 1 ≤ t ∧ t ≤ 400000001).length ≤
      1 + 1 + (400000001 - 1) * 1 / secondNs :=
  admitted_window_le 1 [1, 200000001, 400000001] 1 400000001 (by decide) (by decide) (by decide)

/-- Statements at one time all find a full bucket. -/
theorem admitted_sameTime :
    ((admitted 1 {} [1, 1, 1]).filter fun t => 1 ≤ t ∧ t ≤ 1).length = 3 ∧
      1 + 1 + (1 - 1) * 1 / secondNs = 2 := by
  decide

end RateBucket

end CoroDB
