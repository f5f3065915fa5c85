import Mathlib

/-!
# Prefix-free codes

A code in which no code word is a front part of another one: code words that are written one after
the other can be taken apart in one way only.
-/

namespace CoroDB.Framework

variable {α β : Type*} {Fits : α → Prop} {encode : α → List β}

/-- No code word is a proper front part of another one. -/
def PrefixFree (Fits : α → Prop) (encode : α → List β) : Prop :=
  ∀ a b, Fits a → Fits b → encode a <+: encode b → a = b

theorem PrefixFree.of_decode {ε : Type*} (decode : List β → Except ε (α × List β))
    (h : ∀ a rest, Fits a → decode (encode a ++ rest) = .ok (a, rest)) :
    PrefixFree Fits encode := by
  rintro a b ha hb ⟨rest, hrest⟩
  have hdecode := h b [] hb
  rw [List.append_nil, ← hrest, h a rest ha] at hdecode
  injection hdecode with hpair
  exact congrArg Prod.fst hpair

theorem PrefixFree.of_comp {γ : Type*} {recode : List β → List γ}
    (hmono : ∀ {x y}, x <+: y → recode x <+: recode y)
    (h : PrefixFree Fits fun a => recode (encode a)) : PrefixFree Fits encode :=
  fun a b ha hb hab => h a b ha hb (hmono hab)

theorem PrefixFree.eq_of_append_eq (h : PrefixFree Fits encode) {a b : α} {as bs : List β}
    (ha : Fits a) (hb : Fits b) (heq : encode a ++ as = encode b ++ bs) : a = b := by
  have hpre : encode a <+: encode b ++ bs := ⟨as, heq⟩
  rcases List.prefix_or_prefix_of_prefix hpre (List.prefix_append _ bs) with hab | hba
  · exact h a b ha hb hab
  · exact (h b a hb ha hba).symm

theorem PrefixFree.flatMap_inj (h : PrefixFree Fits encode) (hne : ∀ a, encode a ≠ [])
    {as bs : List α} (has : ∀ a ∈ as, Fits a) (hbs : ∀ b ∈ bs, Fits b)
    (heq : as.flatMap encode = bs.flatMap encode) : as = bs := by
  induction as generalizing bs with
  | nil =>
    cases bs with
    | nil => rfl
    | cons b bs => simp [hne] at heq
  | cons a as ih =>
    cases bs with
    | nil => simp [hne] at heq
    | cons b bs =>
      rw [List.flatMap_cons, List.flatMap_cons] at heq
      obtain rfl := h.eq_of_append_eq (has a List.mem_cons_self) (hbs b List.mem_cons_self) heq
      rw [ih (fun x hx => has x (List.mem_cons_of_mem a hx))
        (fun x hx => hbs x (List.mem_cons_of_mem a hx)) (List.append_cancel_left heq)]

end CoroDB.Framework
