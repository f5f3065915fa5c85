import Mathlib

/-!
# Checksums that a single change alters

A checksum that runs over its input one symbol at a time, where each round is injective in the
state and in the symbol, gives two inputs that differ in one symbol different results.
-/

namespace CoroDB.Framework

variable {σ β : Type*} {round : σ → β → σ}

theorem foldl_injective (hstate : ∀ b, Function.Injective fun s => round s b) (bs : List β) :
    Function.Injective fun s => bs.foldl round s := by
  induction bs with
  | nil => exact Function.injective_id
  | cons b bs ih => exact ih.comp (hstate b)

theorem foldl_set_ne (hstate : ∀ b, Function.Injective fun s => round s b)
    (hsymbol : ∀ s, Function.Injective (round s)) (s : σ) {bs : List β} {i : Nat} {b : β}
    (hi : i < bs.length) (hb : b ≠ bs[i]) : (bs.set i b).foldl round s ≠ bs.foldl round s := by
  induction bs generalizing s i with
  | nil => simp at hi
  | cons c bs ih =>
    cases i with
    | zero =>
      intro heq
      exact hb (hsymbol s (foldl_injective hstate bs heq))
    | succ i => exact ih (round s c) (Nat.lt_of_succ_lt_succ hi) hb

end CoroDB.Framework
