import Mathlib

/-!
# Ordered multimaps

A multimap keeps its entries in the order of their keys, equal keys in the order in which they came.
The bounds of a key are positions in it.
-/

namespace CoroDB.Framework.Multimap

variable {κ β α : Type*}

section Operations

variable (less : κ → κ → Bool) (l : List (κ × β)) (k : κ)

/-- A new entry comes after those with an equal key. -/
def emplace (v : β) : List (κ × β) :=
  (l.takeWhile fun e => !less k e.1) ++ (k, v) :: l.dropWhile fun e => !less k e.1

def lowerBound : Nat := (l.takeWhile fun e => less e.1 k).length

def upperBound : Nat := (l.takeWhile fun e => !less k e.1).length

end Operations

def slice (l : List (κ × β)) (first last : Nat) : List (κ × β) := (l.drop first).take (last - first)

section Order

variable [LinearOrder α] {less : κ → κ → Bool} {rank : κ → α} {l : List (κ × β)} {k : κ}

theorem mem_emplace {v : β} {e : κ × β} : e ∈ emplace less l k v ↔ e = (k, v) ∨ e ∈ l := by
  have hl : e ∈ l ↔ e ∈ (l.takeWhile fun e => !less k e.1) ∨ e ∈ l.dropWhile fun e => !less k e.1 := by
    rw [← List.mem_append, List.takeWhile_append_dropWhile]
  rw [emplace, List.mem_append, List.mem_cons, hl]
  tauto

end Order

end CoroDB.Framework.Multimap
