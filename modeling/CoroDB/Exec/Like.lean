import CoroDB.Exec.Predicate

/-!
# LIKE

The loop of `match_like` remembers the last `%` it has passed and goes back to it when a byte does not
match.
-/

namespace CoroDB

/-- The language of a pattern: `%` is any sequence of bytes, `_` one byte, another byte itself. -/
inductive Like : Bytes → Bytes → Prop
  | done : Like [] []
  | underscore (c : UInt8) {t p : Bytes} (h : Like t p) : Like (c :: t) (0x5f :: p)
  | byte {b : UInt8} {t p : Bytes} (hany : b ≠ 0x5f) (hstar : b ≠ 0x25) (h : Like t p) :
    Like (b :: t) (b :: p)
  | percent (w : Bytes) {t p : Bytes} (h : Like t p) : Like (w ++ t) (0x25 :: p)

/-- The same where a `%` at a `%` of the text is this byte. -/
inductive Pinned : Bytes → Bytes → Prop
  | done : Pinned [] []
  | underscore (c : UInt8) {t p : Bytes} (h : Pinned t p) : Pinned (c :: t) (0x5f :: p)
  | byte {b : UInt8} {t p : Bytes} (hany : b ≠ 0x5f) (h : Pinned t p) : Pinned (b :: t) (b :: p)
  | percent (w : Bytes) {t p : Bytes} (hhead : (w ++ t).head? ≠ some 0x25) (h : Pinned t p) :
    Pinned (w ++ t) (0x25 :: p)

/-- The rounds of the two loops of `match_like`. -/
def likeRounds (t p : Bytes) (star : Option (Bytes × Bytes)) : Nat :=
  match t with
  | [] => (p.takeWhile (· == 0x25)).length
  | c :: t' =>
    match p with
    | b :: p' =>
      if b = 0x5f ∨ b = c then likeRounds t' p' star + 1
      else if b = 0x25 then likeRounds (c :: t') p' (some (p', c :: t')) + 1
      else
        match star with
        | some (after, _ :: rest) => likeRounds rest after (some (after, rest)) + 1
        | _ => 1
    | [] =>
      match star with
      | some (after, _ :: rest) => likeRounds rest after (some (after, rest)) + 1
      | _ => 1
termination_by (max t.length (star.elim 0 fun s => s.2.length), t.length + p.length)
decreasing_by all_goals simp [Prod.lex_def] <;> omega

theorem Pinned.like {t p : Bytes} (h : Pinned t p) : Like t p := by
  induction h with
  | done => exact .done
  | underscore c _ ih => exact .underscore c ih
  | @byte b t p hany _ ih =>
    by_cases hstar : b = 0x25
    · subst hstar
      exact .percent [0x25] ih
    · exact .byte hany hstar ih
  | percent w _ _ ih => exact .percent w ih

section Decided

variable {t p : Bytes} {b c : UInt8}

theorem pinned_nil_iff : Pinned [] p ↔ p.all (· == 0x25) = true := by
  induction p with
  | nil => simp [Pinned.done]
  | cons b p ih =>
    rw [List.all_cons, Bool.and_eq_true, ← ih, beq_iff_eq]
    constructor
    · intro h
      generalize ht : ([] : Bytes) = t at h
      cases h with
      | underscore => cases ht
      | byte => cases ht
      | percent w hhead h =>
        obtain ⟨rfl, rfl⟩ := List.append_eq_nil_iff.mp ht.symm
        exact ⟨rfl, h⟩
    · rintro ⟨rfl, h⟩
      exact .percent [] (by simp) h

theorem not_pinned_nil : ¬Pinned (c :: t) [] := by
  intro h
  generalize ht : c :: t = t' at h
  cases h
  cases ht

theorem pinned_cons_iff (h : b = 0x5f ∨ b = c) : Pinned (c :: t) (b :: p) ↔ Pinned t p := by
  constructor
  · intro hp
    generalize ht : c :: t = t' at hp
    cases hp with
    | underscore c' hp =>
      obtain ⟨rfl, rfl⟩ := List.cons.inj ht
      exact hp
    | byte _ hp =>
      obtain ⟨rfl, rfl⟩ := List.cons.inj ht
      exact hp
    | percent w hhead hp =>
      rw [← ht, List.head?_cons] at hhead
      rcases h with h | h
      · cases h
      · exact absurd (congrArg some h.symm) hhead
  · intro hp
    by_cases hany : b = 0x5f
    · subst hany
      exact .underscore c hp
    · obtain rfl : b = c := h.resolve_left hany
      exact .byte hany hp

theorem pinned_percent (h : Pinned t (0x25 :: p)) : ∃ u, u <:+ t ∧ Pinned u p := by
  cases h with
  | @byte b t p _ h => exact ⟨t, List.suffix_cons _ t, h⟩
  | percent w _ h => exact ⟨_, List.suffix_append w _, h⟩

theorem pinned_percent_iff (hc : c ≠ 0x25) :
    Pinned (c :: t) (0x25 :: p) ↔ ∃ u, u <:+ c :: t ∧ Pinned u p := by
  refine ⟨pinned_percent, ?_⟩
  rintro ⟨u, ⟨w, hw⟩, h⟩
  rw [← hw]
  apply Pinned.percent w _ h
  rw [hw]
  simpa using hc

theorem not_pinned_cons (h : ¬(b = 0x5f ∨ b = c)) (hstar : b ≠ 0x25) : ¬Pinned (c :: t) (b :: p) := by
  intro hp
  generalize ht : c :: t = t' at hp
  cases hp with
  | underscore => exact h (.inl rfl)
  | byte => exact h (.inr (List.cons.inj ht).1.symm)
  | percent => exact hstar rfl

end Decided

section Loop

variable {t p s after : Bytes}

/-- The bytes of the pattern since the last `%` have been taken as they stand. -/
def InStepWith (s after t p : Bytes) : Prop :=
  ∃ w v, s = w ++ t ∧ after = v ++ p ∧ List.Forall₂ (fun b c => b = 0x5f ∨ b = c) v w

theorem InStepWith.refl (t p : Bytes) : InStepWith t p t p := ⟨[], [], rfl, rfl, .nil⟩

theorem InStepWith.next {b c : UInt8} (h : InStepWith s after (c :: t) (b :: p))
    (hbc : b = 0x5f ∨ b = c) : InStepWith s after t p := by
  obtain ⟨w, v, rfl, rfl, hwv⟩ := h
  refine ⟨w ++ [c], v ++ [b], by simp, by simp, ?_⟩
  exact List.rel_append hwv (.cons hbc .nil)

theorem InStepWith.pinned_iff (h : InStepWith s after t p) : Pinned s after ↔ Pinned t p := by
  obtain ⟨w, v, rfl, rfl, hwv⟩ := h
  induction hwv with
  | nil => rfl
  | cons hbc _ ih => exact (pinned_cons_iff hbc).trans ih

theorem InStepWith.exists_suffix (h : InStepWith s after t p) {u : Bytes} (hu : u <:+ s)
    (hp : Pinned u after) : ∃ x, x <:+ t ∧ Pinned x p := by
  obtain ⟨w, v, rfl, rfl, hwv⟩ := h
  induction hwv generalizing u with
  | nil => exact ⟨u, hu, hp⟩
  | @cons b c v w hbc _ ih =>
    rcases List.suffix_cons_iff.mp hu with rfl | hu
    · exact ih (List.suffix_refl _) ((pinned_cons_iff hbc).mp hp)
    · obtain ⟨u', hu', hp'⟩ : ∃ u', u' <:+ u ∧ Pinned u' (v ++ p) := by
        generalize hq : b :: v ++ p = q at hp
        cases hp with
        | done => cases hq
        | underscore c hp =>
          obtain ⟨-, rfl⟩ := List.cons.inj hq
          exact ⟨_, List.suffix_cons _ _, hp⟩
        | byte _ hp =>
          obtain ⟨-, rfl⟩ := List.cons.inj hq
          exact ⟨_, List.suffix_cons _ _, hp⟩
        | percent w _ hp =>
          obtain ⟨-, rfl⟩ := List.cons.inj hq
          exact ⟨_, List.suffix_append w _, hp⟩
      exact ih (hu'.trans hu) hp'

/-- The loop has come from its last `%`, if there was one. -/
def LoopState (t p : Bytes) : Option (Bytes × Bytes) → Prop
  | none => True
  | some (after, s) => InStepWith s after t p

/-- What the loop has still to find out. -/
def StillMatches (t p : Bytes) : Option (Bytes × Bytes) → Prop
  | none => Pinned t p
  | some (after, s) => ∃ u, u <:+ s ∧ Pinned u after

variable {b c x : UInt8} {rest : Bytes} {star : Option (Bytes × Bytes)}

theorem stillMatches_nil_iff (h : LoopState [] p star) : StillMatches [] p star ↔ Pinned [] p := by
  cases star with
  | none => rfl
  | some star =>
    obtain ⟨after, s⟩ := star
    constructor
    · rintro ⟨u, hu, hp⟩
      obtain ⟨u', hu', hp'⟩ := InStepWith.exists_suffix h hu hp
      rwa [List.suffix_nil.mp hu'] at hp'
    · intro hp
      exact ⟨s, List.suffix_refl s, (InStepWith.pinned_iff h).mpr hp⟩

theorem stillMatches_next_iff (hbc : b = 0x5f ∨ b = c) :
    StillMatches (c :: t) (b :: p) star ↔ StillMatches t p star := by
  cases star with
  | none => exact pinned_cons_iff hbc
  | some star => rfl

theorem LoopState.next (hbc : b = 0x5f ∨ b = c) (h : LoopState (c :: t) (b :: p) star) :
    LoopState t p star := by
  cases star with
  | none => trivial
  | some star => exact InStepWith.next h hbc

theorem stillMatches_percent_iff (hc : c ≠ 0x25) (h : LoopState (c :: t) (0x25 :: p) star) :
    StillMatches (c :: t) (0x25 :: p) star ↔ StillMatches (c :: t) p (some (p, c :: t)) := by
  cases star with
  | none => exact pinned_percent_iff hc
  | some star =>
    obtain ⟨after, s⟩ := star
    constructor
    · rintro ⟨u, hu, hp⟩
      obtain ⟨u', hu', hp'⟩ := InStepWith.exists_suffix h hu hp
      obtain ⟨y, hy, hpy⟩ := pinned_percent hp'
      exact ⟨y, hy.trans hu', hpy⟩
    · intro hp
      exact ⟨s, List.suffix_refl s, (InStepWith.pinned_iff h).mpr ((pinned_percent_iff hc).mpr hp)⟩

theorem stillMatches_back_iff (h : LoopState t p (some (after, x :: rest))) (hnot : ¬Pinned t p) :
    StillMatches t p (some (after, x :: rest)) ↔ StillMatches rest after (some (after, rest)) := by
  constructor
  · rintro ⟨u, hu, hp⟩
    rcases List.suffix_cons_iff.mp hu with rfl | hu
    · exact absurd ((InStepWith.pinned_iff h).mp hp) hnot
    · exact ⟨u, hu, hp⟩
  · rintro ⟨u, hu, hp⟩
    exact ⟨u, hu.trans (List.suffix_cons x rest), hp⟩

theorem not_stillMatches (h : LoopState (c :: t) p star) (hnot : ¬Pinned (c :: t) p)
    (hstar : ∀ after x rest, star = some (after, x :: rest) → False) :
    ¬StillMatches (c :: t) p star := by
  cases star with
  | none => exact hnot
  | some star =>
    obtain ⟨after, s⟩ := star
    cases s with
    | nil =>
      obtain ⟨w, v, hs, -⟩ := h
      simp at hs
    | cons x rest => exact (hstar after x rest rfl).elim

theorem matchLike_iff_stillMatches (t p : Bytes) (star : Option (Bytes × Bytes)) (h : LoopState t p star) :
    matchLike t p star = true ↔ StillMatches t p star := by
  fun_induction matchLike t p star with
  | case1 p star => rw [stillMatches_nil_iff h, pinned_nil_iff]
  | case2 star c t b p hbc ih => rw [stillMatches_next_iff hbc, ih (h.next hbc)]
  | case3 star c t p hne ih =>
    have hc : c ≠ 0x25 := fun hc => hne (.inr hc.symm)
    rw [stillMatches_percent_iff hc h, ih (InStepWith.refl _ _)]
  | case4 c t b p hne hstar after x rest ih =>
    rw [stillMatches_back_iff h (not_pinned_cons hne hstar), ih (InStepWith.refl _ _)]
  | case5 star c t b p hne hstar hnone =>
    simp [not_stillMatches h (not_pinned_cons hne hstar) hnone]
  | case6 c t after x rest ih =>
    rw [stillMatches_back_iff h not_pinned_nil, ih (InStepWith.refl _ _)]
  | case7 star c t hnone => simp [not_stillMatches h not_pinned_nil hnone]

theorem matchLike_iff_pinned (t p : Bytes) : matchLike t p none = true ↔ Pinned t p :=
  matchLike_iff_stillMatches t p none trivial

end Loop

section Rounds

def startsLeft (t : Bytes) (star : Option (Bytes × Bytes)) : Nat :=
  star.elim t.length fun s => s.2.length

theorem length_le_startsLeft {t : Bytes} {star : Option (Bytes × Bytes)}
    (h : ∀ s ∈ star, t.length ≤ s.2.length) : t.length ≤ startsLeft t star := by
  cases star with
  | none => exact le_rfl
  | some s => exact h s rfl

/-- Between two returns to a `%` the loop goes on in the pattern, and each return uses up a byte of the
text. -/
theorem likeRounds_le (m : Nat) (t p : Bytes) (star : Option (Bytes × Bytes)) (hp : p.length ≤ m)
    (hafter : ∀ s ∈ star, s.1.length ≤ m) (ht : ∀ s ∈ star, t.length ≤ s.2.length) :
    likeRounds t p star ≤ p.length + startsLeft t star * (m + 1) := by
  fun_induction likeRounds t p star with
  | case1 p star =>
    have hle := (List.takeWhile_sublist (l := p) (· == 0x25)).length_le
    omega
  | case2 star c t b p hbc ih =>
    have hstarts : startsLeft t star ≤ startsLeft (c :: t) star := by
      cases star with
      | none => exact Nat.le_succ _
      | some s => exact le_rfl
    have hrest := ih (Nat.le_of_succ_le hp) hafter fun s hs => Nat.le_of_succ_le (ht s hs)
    have hmul := Nat.mul_le_mul_right (m + 1) hstarts
    simp only [List.length_cons]
    omega
  | case3 star c t p hne ih =>
    have hp' : p.length ≤ m := Nat.le_of_succ_le hp
    have hrest : likeRounds (c :: t) p (some (p, c :: t)) ≤ p.length + (c :: t).length * (m + 1) :=
      ih hp' (by simpa using hp') (by simp)
    have hmul := Nat.mul_le_mul_right (m + 1) (length_le_startsLeft ht)
    simp only [List.length_cons] at hrest hmul ⊢
    omega
  | case4 c t b p hne hnot after x rest ih =>
    have hm : after.length ≤ m := hafter _ rfl
    have hrest : likeRounds rest after (some (after, rest)) ≤ after.length + rest.length * (m + 1) :=
      ih hm (by simpa using hm) (by simp)
    have hstarts : startsLeft (c :: t) (some (after, x :: rest)) = rest.length + 1 := rfl
    rw [hstarts, Nat.succ_mul]
    omega
  | case5 star c t b p hne hnot hnone =>
    simp only [List.length_cons]
    omega
  | case6 c t after x rest ih =>
    have hm : after.length ≤ m := hafter _ rfl
    have hrest : likeRounds rest after (some (after, rest)) ≤ after.length + rest.length * (m + 1) :=
      ih hm (by simpa using hm) (by simp)
    have hstarts : startsLeft (c :: t) (some (after, x :: rest)) = rest.length + 1 := rfl
    rw [hstarts, Nat.succ_mul]
    omega
  | case7 star c t hnone =>
    have hmul := Nat.mul_le_mul_right (m + 1) (length_le_startsLeft ht)
    simp only [List.length_cons, List.length_nil] at hmul ⊢
    have hone : (m + 1) ≤ (t.length + 1) * (m + 1) := Nat.le_mul_of_pos_left _ (Nat.succ_pos _)
    omega

end Rounds

/-- The loop decides the language of the pattern, in a number of rounds that is polynomial. -/
structure LikeExact (t p : Bytes) : Prop where
  decides : matchLike t p none = true ↔ Like t p
  rounds : likeRounds t p none ≤ p.length + t.length * (p.length + 1)

theorem likeExact_iff (t p : Bytes) : LikeExact t p ↔ (Like t p → Pinned t p) := by
  constructor
  · intro h hlike
    exact (matchLike_iff_pinned t p).mp (h.decides.mpr hlike)
  · intro h
    refine ⟨(matchLike_iff_pinned t p).trans ⟨Pinned.like, h⟩, ?_⟩
    exact likeRounds_le p.length t p none le_rfl (by simp) (by simp)

/-- The text `%a` is in the language of the pattern `%`, whose `%` the loop takes for the first byte. -/
theorem matchLike_misses_percent :
    matchLike [0x25, 0x61] [0x25] none = false ∧ Like [0x25, 0x61] [0x25] := by
  constructor
  · simp [matchLike]
  · exact .percent [0x25, 0x61] .done

end CoroDB
