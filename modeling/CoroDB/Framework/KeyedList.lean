import CoroDB.Framework.KeyMap

/-!
# Lists of keyed rows

A loop over keys that looks every key up in a list of keyed rows finds the rows whose key is one of
them, each once.
-/

namespace CoroDB.Framework

variable {κ α β : Type*}

section Distinct

variable (E : KeyEq κ)

def KeyEq.dedup (keys : List κ) : List κ :=
  keys.foldl (fun out k => if out.any (E.eq · k) then out else out ++ [k]) []

theorem KeyEq.dedup_eq_nil (keys : List κ) : E.dedup keys = [] ↔ keys = [] := by
  have hkeep : ∀ (ks out : List κ), out ≠ [] →
      ks.foldl (fun out k => if out.any (E.eq · k) then out else out ++ [k]) out ≠ [] := by
    intro ks
    induction ks with
    | nil => exact fun _ => id
    | cons k ks ih => exact fun out hout => ih _ (by dsimp only; split_ifs <;> simp [hout])
  cases keys with
  | nil => simp [dedup]
  | cons k ks => simpa [dedup] using hkeep ks [k] (by simp)

end Distinct

end CoroDB.Framework
