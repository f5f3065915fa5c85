import Mathlib

/-!
# Scans over a byte stream

A reader takes items off the front of its input until it finds none.
-/

namespace CoroDB.Framework

variable {α β ρ : Type*}

/-- The items that `next` takes off the front of the input, at most `fuel` of them. -/
def scan (next : List β → Option (α × List β)) : Nat → List β → List α
  | 0, _ => []
  | fuel + 1, bs =>
    match next bs with
    | none => []
    | some (a, rest) => a :: scan next fuel rest

variable {next : List β → Option (α × List β)}

theorem scan_flatMap_append {encode : ρ → List β} {item : ρ → α} {rs : List ρ} {fuel : Nat}
    (hnext : ∀ r ∈ rs, ∀ rest, next (encode r ++ rest) = some (item r, rest))
    (hfuel : rs.length ≤ fuel) (rest : List β) :
    scan next fuel (rs.flatMap encode ++ rest) =
      rs.map item ++ scan next (fuel - rs.length) rest := by
  induction rs generalizing fuel with
  | nil => simp
  | cons r rs ih =>
    obtain ⟨fuel, rfl⟩ : ∃ n, fuel = n + 1 := ⟨fuel - 1, by simp at hfuel; omega⟩
    have hrs : rs.length ≤ fuel := by simpa using hfuel
    rw [List.flatMap_cons, List.append_assoc, scan, hnext r List.mem_cons_self]
    simp only [List.map_cons, List.cons_append, List.length_cons, Nat.add_sub_add_right]
    rw [ih (fun r' hr' => hnext r' (List.mem_cons_of_mem r hr')) hrs]

theorem replicate_mul_eq_flatMap (width count : Nat) (b : β) :
    List.replicate (width * count) b =
      (List.range count).flatMap fun _ => List.replicate width b := by
  induction count with
  | zero => rfl
  | succ count ih =>
    rw [List.range_succ, List.flatMap_append, ← ih, Nat.mul_succ, List.replicate_add]
    simp

theorem flatten_blocks (width count : Nat) (b : β) (bs : List β) (h : bs.length ≤ count * width) :
    ((List.range count).map fun i =>
        (bs.drop (i * width)).take width ++
          List.replicate (width - ((bs.drop (i * width)).take width).length) b).flatten =
      bs ++ List.replicate (count * width - bs.length) b := by
  induction count generalizing bs with
  | zero =>
    have hnil : bs = [] := List.length_eq_zero_iff.mp (by omega)
    simp [hnil]
  | succ count ih =>
    have hrest : (bs.drop width).length ≤ count * width := by
      rw [List.length_drop, Nat.succ_mul] at *
      omega
    have hshift : ∀ i, bs.drop ((i + 1) * width) = (bs.drop width).drop (i * width) := by
      intro i
      rw [List.drop_drop, Nat.succ_mul, Nat.add_comm]
    rw [List.range_succ_eq_map, List.map_cons, List.map_map, List.flatten_cons]
    simp only [Function.comp_def, Nat.succ_eq_add_one, hshift, Nat.zero_mul, List.drop_zero]
    rw [ih _ hrest]
    by_cases hshort : bs.length ≤ width
    · rw [List.take_of_length_le hshort, List.drop_of_length_le hshort, List.nil_append,
        List.append_assoc, ← List.replicate_add]
      congr 2
      rw [List.length_nil, Nat.succ_mul]
      omega
    · have hfull : (bs.take width).length = width := by
        rw [List.length_take]
        omega
      rw [hfull, Nat.sub_self, List.replicate_zero, List.append_nil, ← List.append_assoc,
        List.take_append_drop]
      congr 2
      rw [List.length_drop, Nat.succ_mul]
      omega

theorem take_drop_flatten {width : Nat} {blocks : List (List β)}
    (h : ∀ b ∈ blocks, b.length = width) {i : Nat} (hi : i < blocks.length) (rest : List β) :
    ((blocks.flatten ++ rest).drop (i * width)).take width = blocks[i] := by
  induction blocks generalizing i with
  | nil => simp at hi
  | cons b blocks ih =>
    have hb : b.length = width := h b List.mem_cons_self
    rw [List.flatten_cons, List.append_assoc]
    cases i with
    | zero => simp [← hb]
    | succ i =>
      rw [Nat.succ_mul, Nat.add_comm, ← List.drop_drop, List.drop_left' hb]
      exact ih (fun b' hb' => h b' (List.mem_cons_of_mem b hb')) (by simpa using hi)

end CoroDB.Framework
