import Mathlib

/-!
# Streams that arrive in pieces

A stream arrives as a list of pieces, and a read gives at most what is left of the first piece; an
empty piece is the end.
-/

namespace CoroDB.Framework

variable {β : Type*}

def arrived : List (List β) → List β
  | [] => []
  | c :: cs => if c.isEmpty then [] else c ++ arrived cs

def readExact : List (List β) → Nat → Option (List β × List (List β))
  | cs, 0 => some ([], cs)
  | [], _ + 1 => none
  | c :: cs, n + 1 =>
    if c.isEmpty then none
    else if c.length ≤ n + 1 then
      (readExact cs (n + 1 - c.length)).map fun r => (c ++ r.1, r.2)
    else some (c.take (n + 1), c.drop (n + 1) :: cs)

theorem readExact_of_le {cs : List (List β)} {n : Nat} (h : n ≤ (arrived cs).length) :
    ∃ cs', readExact cs n = some ((arrived cs).take n, cs') ∧
      arrived cs' = (arrived cs).drop n := by
  induction cs generalizing n with
  | nil =>
    obtain rfl : n = 0 := by simpa [arrived] using h
    exact ⟨[], by simp [readExact, arrived]⟩
  | cons c cs ih =>
    cases n with
    | zero => exact ⟨c :: cs, by simp [readExact]⟩
    | succ n =>
      cases hc : c.isEmpty with
      | true => simp [arrived, hc] at h
      | false =>
        simp only [arrived, hc, Bool.false_eq_true, if_false, List.length_append] at h
        by_cases hle : c.length ≤ n + 1
        · obtain ⟨cs', hread, hrest⟩ := ih (n := n + 1 - c.length) (by omega)
          refine ⟨cs', ?_, ?_⟩
          · simp only [readExact, arrived, hc, Bool.false_eq_true, if_false, if_pos hle, hread,
              Option.map_some, List.take_append, List.take_of_length_le hle]
          · simp only [arrived, hc, Bool.false_eq_true, if_false, hrest, List.drop_append,
              List.drop_of_length_le hle, List.nil_append]
        · have hlt : n + 1 < c.length := not_le.mp hle
          have hrest : (c.drop (n + 1)).isEmpty = false := by
            rw [List.isEmpty_eq_false_iff, ← List.length_pos_iff, List.length_drop]
            omega
          refine ⟨c.drop (n + 1) :: cs, ?_, ?_⟩
          · simp only [readExact, arrived, hc, Bool.false_eq_true, if_false, if_neg hle,
              List.take_append_of_le_length hlt.le]
          · simp only [arrived, hc, hrest, Bool.false_eq_true, if_false,
              List.drop_append_of_le_length hlt.le]

theorem readExact_of_lt {cs : List (List β)} {n : Nat} (h : (arrived cs).length < n) :
    readExact cs n = none := by
  induction cs generalizing n with
  | nil =>
    cases n with
    | zero => cases h
    | succ n => rfl
  | cons c cs ih =>
    cases n with
    | zero => cases h
    | succ n =>
      cases hc : c.isEmpty with
      | true => simp [readExact, hc]
      | false =>
        simp only [arrived, hc, Bool.false_eq_true, if_false, List.length_append] at h
        have hread := ih (n := n + 1 - c.length) (by omega)
        simp [readExact, hc, hread, show c.length ≤ n + 1 by omega]

end CoroDB.Framework
