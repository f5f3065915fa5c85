import Mathlib

/-!
# Framed record logs

A log is a sequence of self-delimiting records.
-/

namespace CoroDB.Framework

/-- Records with a byte form that can be split off the front of a log. `Fits` are the records the
form can hold. -/
structure Framing (ρ β : Type*) where
  encode : ρ → List β
  decode : List β → Option (ρ × List β)
  Fits : ρ → Prop
  decode_encode : ∀ r rest, Fits r → decode (encode r ++ rest) = some (r, rest)
  of_decode : ∀ bs r rest, decode bs = some (r, rest) → Fits r ∧ bs = encode r ++ rest
  encode_ne_nil : ∀ r, encode r ≠ []

namespace Framing

variable {ρ β : Type*} (F : Framing ρ β)

def encodeAll (rs : List ρ) : List β := rs.flatMap F.encode

@[simp] theorem encodeAll_nil : F.encodeAll [] = [] := rfl

@[simp] theorem encodeAll_cons (r : ρ) (rs : List ρ) :
    F.encodeAll (r :: rs) = F.encode r ++ F.encodeAll rs := rfl

theorem encodeAll_append (rs ss : List ρ) :
    F.encodeAll (rs ++ ss) = F.encodeAll rs ++ F.encodeAll ss := List.flatMap_append

/-- The records at the front of a log, up to the first bytes that are none. -/
def readFuel : Nat → List β → List ρ
  | 0, _ => []
  | fuel + 1, bs =>
    match F.decode bs with
    | none => []
    | some (r, rest) => r :: readFuel fuel rest

/-- A record has at least one byte, so a log holds no more records than bytes. -/
def readAll (bs : List β) : List ρ := F.readFuel bs.length bs

variable {F}

theorem decode_nil : F.decode [] = none := by
  cases h : F.decode [] with
  | none => rfl
  | some p =>
    have := (F.of_decode [] p.1 p.2 h).2
    simp [F.encode_ne_nil] at this

theorem decode_eq_none_iff {bs : List β} :
    F.decode bs = none ↔ ∀ r, F.Fits r → ¬ F.encode r <+: bs := by
  constructor
  · rintro h r hr ⟨rest, rfl⟩
    simp [F.decode_encode r rest hr] at h
  · intro h
    cases hd : F.decode bs with
    | none => rfl
    | some p =>
      obtain ⟨hfits, heq⟩ := F.of_decode bs p.1 p.2 hd
      exact absurd ⟨p.2, heq.symm⟩ (h p.1 hfits)

theorem readFuel_eq_iff {fuel : Nat} {bs : List β} {rs : List ρ} (hfuel : bs.length ≤ fuel) :
    F.readFuel fuel bs = rs ↔
      (∀ r ∈ rs, F.Fits r) ∧ ∃ rest, bs = F.encodeAll rs ++ rest ∧ F.decode rest = none := by
  induction fuel generalizing bs rs with
  | zero =>
    obtain rfl := List.length_eq_zero_iff.mp (Nat.le_zero.mp hfuel)
    constructor
    · rintro rfl
      exact ⟨by simp [readFuel], [], rfl, decode_nil⟩
    · rintro ⟨-, rest, heq, -⟩
      cases rs with
      | nil => rfl
      | cons r rs => simp [F.encode_ne_nil] at heq
  | succ fuel ih =>
    rw [readFuel]
    cases hd : F.decode bs with
    | none =>
      constructor
      · rintro rfl
        exact ⟨by simp, bs, rfl, hd⟩
      · rintro ⟨hfits, rest, rfl, -⟩
        cases rs with
        | nil => rfl
        | cons r rs =>
          rw [encodeAll_cons, List.append_assoc,
            F.decode_encode r _ (hfits r List.mem_cons_self)] at hd
          simp at hd
    | some p =>
      obtain ⟨r, rest⟩ := p
      obtain ⟨hfits, rfl⟩ := F.of_decode bs r rest hd
      have hlen : rest.length ≤ fuel := by
        have := List.length_pos_iff.mpr (F.encode_ne_nil r)
        simp only [List.length_append] at hfuel
        omega
      constructor
      · rintro rfl
        obtain ⟨hall, tail, heq, htail⟩ := (ih hlen).mp rfl
        refine ⟨?_, tail, by rw [encodeAll_cons, List.append_assoc, ← heq], htail⟩
        exact fun x hx => (List.mem_cons.mp hx).elim (fun h => h ▸ hfits) (hall x)
      · rintro ⟨hall, tail, heq, htail⟩
        cases rs with
        | nil => simp_all
        | cons r' rs =>
          have hr' := F.decode_encode r' (F.encodeAll rs ++ tail) (hall r' List.mem_cons_self)
          rw [← List.append_assoc, ← encodeAll_cons, ← heq, hd, Option.some.injEq,
            Prod.mk.injEq] at hr'
          change r :: F.readFuel fuel rest = r' :: rs
          rw [hr'.1, (ih hlen).mpr ⟨fun x hx => hall x (List.mem_cons_of_mem _ hx), tail, hr'.2,
            htail⟩]

theorem readAll_eq_iff {bs : List β} {rs : List ρ} :
    F.readAll bs = rs ↔
      (∀ r ∈ rs, F.Fits r) ∧ ∃ rest, bs = F.encodeAll rs ++ rest ∧ F.decode rest = none :=
  readFuel_eq_iff le_rfl

theorem readAll_of_none {bs : List β} (h : F.decode bs = none) : F.readAll bs = [] :=
  readAll_eq_iff.mpr ⟨by simp, bs, rfl, h⟩

theorem readAll_of_some {bs rest : List β} {r : ρ} (h : F.decode bs = some (r, rest)) :
    F.readAll bs = r :: F.readAll rest := by
  obtain ⟨hfits, hbs⟩ := F.of_decode bs r rest h
  obtain ⟨hall, tail, hrest, htail⟩ := readAll_eq_iff.mp (rfl : F.readAll rest = F.readAll rest)
  apply readAll_eq_iff.mpr
  refine ⟨?_, tail, ?_, htail⟩
  · intro x hx
    rcases List.mem_cons.mp hx with rfl | hx
    · exact hfits
    · exact hall x hx
  · rw [encodeAll_cons, List.append_assoc, ← hrest, hbs]

section Torn

variable (F)

/-- The records whose form lies wholly in the first `n` bytes of their log. -/
def wholeIn : Nat → List ρ → List ρ
  | _, [] => []
  | n, r :: rs =>
    if (F.encode r).length ≤ n then r :: wholeIn (n - (F.encode r).length) rs else []

/-- The bytes of a record that a cut behind `n` bytes leaves behind. -/
def torn (n : Nat) (rs : List ρ) : List β :=
  ((F.encodeAll rs).take n).drop (F.encodeAll (F.wholeIn n rs)).length

variable {F}

theorem encodeAll_wholeIn (n : Nat) (rs : List ρ) :
    F.encodeAll (F.wholeIn n rs) <+: (F.encodeAll rs).take n := by
  induction rs generalizing n with
  | nil => simp [wholeIn]
  | cons r rs ih =>
    rw [wholeIn]
    split
    · rename_i h
      rw [encodeAll_cons, encodeAll_cons, List.take_append, List.take_of_length_le h]
      exact (List.prefix_append_right_inj _).mpr (ih _)
    · exact List.nil_prefix

theorem take_encodeAll (n : Nat) (rs : List ρ) :
    (F.encodeAll rs).take n = F.encodeAll (F.wholeIn n rs) ++ F.torn n rs := by
  obtain ⟨t, ht⟩ := encodeAll_wholeIn (F := F) n rs
  rw [torn, ← ht, List.drop_left]

theorem readAll_resume_iff (n : Nat) (rs rs₂ : List ρ) :
    F.readAll ((F.encodeAll rs).take n ++ F.encodeAll rs₂) = F.wholeIn n rs ++ rs₂ ↔
      (∀ r ∈ F.wholeIn n rs ++ rs₂, F.Fits r) ∧
        ∃ rest, F.torn n rs ++ F.encodeAll rs₂ = F.encodeAll rs₂ ++ rest ∧
          ∀ r, F.Fits r → ¬ F.encode r <+: rest := by
  rw [readAll_eq_iff, take_encodeAll, encodeAll_append]
  simp only [List.append_assoc, List.append_cancel_left_eq, decode_eq_none_iff]

theorem decode_of_prefix {r : ρ} {bs tail : List β} (hr : F.Fits r)
    (h : F.encode r = bs ++ tail) (htail : tail ≠ []) : F.decode bs = none := by
  rw [decode_eq_none_iff]
  rintro r' hr' ⟨rest, rfl⟩
  have hd := F.decode_encode r [] hr
  rw [List.append_nil, h, List.append_assoc, F.decode_encode r' _ hr'] at hd
  have := (Prod.mk.inj (Option.some.inj hd)).2
  exact htail (List.append_eq_nil_iff.mp this).2

theorem decode_torn {rs : List ρ} (hfits : ∀ r ∈ rs, F.Fits r) (n : Nat) :
    F.decode (F.torn n rs) = none := by
  induction rs generalizing n with
  | nil => simp [torn, wholeIn, decode_nil]
  | cons r rs ih =>
    rw [torn, wholeIn]
    split
    · rename_i h
      rw [encodeAll_cons, encodeAll_cons, List.take_append, List.take_of_length_le h,
        List.length_append, List.drop_append, List.drop_of_length_le (by omega), List.nil_append,
        Nat.add_sub_cancel_left]
      exact ih (fun x hx => hfits x (List.mem_cons_of_mem _ hx)) _
    · rename_i h
      rw [encodeAll_nil, List.length_nil, List.drop_zero, encodeAll_cons,
        List.take_append_of_le_length (by omega)]
      refine decode_of_prefix (hfits r List.mem_cons_self) (List.take_append_drop n _).symm ?_
      rw [Ne, List.drop_eq_nil_iff]
      omega

theorem wholeIn_isPrefix (n : Nat) (rs : List ρ) : F.wholeIn n rs <+: rs := by
  induction rs generalizing n with
  | nil => simp [wholeIn]
  | cons r rs ih =>
    rw [wholeIn]
    split
    · exact (List.prefix_cons_inj r).mpr (ih _)
    · exact List.nil_prefix

theorem lt_length_wholeIn {rs : List ρ} {i n : Nat} (hi : i < rs.length) :
    i < (F.wholeIn n rs).length ↔ (F.encodeAll (rs.take (i + 1))).length ≤ n := by
  induction rs generalizing i n with
  | nil => simp at hi
  | cons r rs ih =>
    rw [wholeIn, List.take_succ_cons, encodeAll_cons, List.length_append]
    split_ifs with hr
    · cases i with
      | zero => simpa using hr
      | succ i =>
        rw [List.length_cons, Nat.add_lt_add_iff_right, ih (Nat.lt_of_succ_lt_succ hi)]
        omega
    · rw [List.length_nil]
      omega

theorem readAll_take {rs : List ρ} (hfits : ∀ r ∈ rs, F.Fits r) (n : Nat) :
    F.readAll ((F.encodeAll rs).take n) = F.wholeIn n rs :=
  readAll_eq_iff.mpr ⟨fun r hr => hfits r ((wholeIn_isPrefix n rs).subset hr), F.torn n rs,
    take_encodeAll n rs, decode_torn hfits n⟩

end Torn

end Framing

end CoroDB.Framework
