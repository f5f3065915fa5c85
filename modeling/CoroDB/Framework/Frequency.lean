import CoroDB.Framework.KeyMap

/-!
# Frequencies and equal-height cuts

A sample is summed up by how often its values occur and by cuts of the sorted sample into parts of
equal size, whose positions are computed in words.
-/

namespace CoroDB.Framework

section Tally

variable {κ : Type} {E : KeyEq κ} {xs : List κ} {p : κ × Nat}

def KeyMap.bump (m : KeyMap E Nat) (k : κ) : KeyMap E Nat := m.assign k ((m.get? k).getD 0 + 1)

def tally (E : KeyEq κ) (xs : List κ) : KeyMap E Nat := xs.foldl KeyMap.bump KeyMap.empty

theorem foldl_bump_get? (m : KeyMap E Nat) (k : κ) :
    ((xs.foldl KeyMap.bump m).get? k).getD 0 = (m.get? k).getD 0 + xs.countP fun x => E.eq x k := by
  induction xs generalizing m with
  | nil => rfl
  | cons x xs ih =>
    rw [List.foldl_cons, ih, KeyMap.bump, KeyMap.get?_assign]
    cases hx : E.eq x k with
    | false => simp [hx]
    | true =>
      simp [hx, KeyMap.get?_congr hx]
      omega

theorem foldl_bump_keys (m : KeyMap E Nat) (hp : p ∈ (xs.foldl KeyMap.bump m).entries) :
    p.1 ∈ xs ∨ ∃ w, (p.1, w) ∈ m.entries := by
  induction xs generalizing m with
  | nil => exact .inr ⟨p.2, hp⟩
  | cons x xs ih =>
    rcases ih _ hp with hp | ⟨w, hw⟩
    · exact .inl (List.mem_cons_of_mem x hp)
    · rcases KeyMap.mem_assign.mp hw with ⟨-, ⟨hkey, -⟩ | ⟨-, hkey⟩⟩ | ⟨hkey, -⟩
      · exact .inl (List.mem_cons.mpr (.inl hkey))
      · exact .inr hkey
      · exact .inr ⟨w, hkey⟩

theorem mem_of_mem_tally (hp : p ∈ (tally E xs).entries) : p.1 ∈ xs := by
  rcases foldl_bump_keys _ hp with hp | ⟨w, hw⟩
  · exact hp
  · cases hw

theorem count_of_mem_tally (hp : p ∈ (tally E xs).entries) (hself : E.eq p.1 p.1 = true) :
    p.2 = xs.countP fun x => E.eq x p.1 := by
  have hget : ((tally E xs).get? p.1).getD 0 = _ := foldl_bump_get? KeyMap.empty p.1
  rw [KeyMap.get?_of_mem hp hself] at hget
  simpa using hget

end Tally

section Cuts

/-- The distances of consecutive positions differ by at most one, the last distance aside. -/
def EvenlySpaced (ps : List Nat) : Prop :=
  ∀ i j, i + 2 < ps.length → j + 2 < ps.length →
    (ps.getD (i + 1) 0 - ps.getD i 0 : ℤ) ≤ ps.getD (j + 1) 0 - ps.getD j 0 + 1

/-- The start of part `b` of `m` parts of `n` elements, with the product taken modulo `W`. -/
def cut (W m n b : Nat) : Nat := b * n % W / m

variable {W m n b c : Nat}

theorem cut_lt (hb : b < m) (hn : 0 < n) : cut W m n b < n := by
  apply Nat.div_lt_of_lt_mul
  exact (Nat.mod_le _ _).trans_lt (Nat.mul_lt_mul_of_pos_right hb hn)

theorem cut_eq (hb : b < m) (h : (m - 1) * n < W) : cut W m n b = b * n / m := by
  have hle : b * n ≤ (m - 1) * n := Nat.mul_le_mul_right n (by omega)
  rw [cut, Nat.mod_eq_of_lt (hle.trans_lt h)]

theorem cut_mono (hc : c < m) (h : (m - 1) * n < W) (hbc : b ≤ c) : cut W m n b ≤ cut W m n c := by
  rw [cut_eq (hbc.trans_lt hc) h, cut_eq hc h]
  exact Nat.div_le_div_right (Nat.mul_le_mul_right n hbc)

theorem cut_gap (hb : b + 1 < m) (h : (m - 1) * n < W) :
    cut W m n b + n / m ≤ cut W m n (b + 1) ∧ cut W m n (b + 1) ≤ cut W m n b + n / m + 1 := by
  rw [cut_eq hb h, cut_eq (by omega) h, Nat.add_one_mul, Nat.add_div (by omega)]
  split_ifs <;> omega

theorem exists_cut_le (hn : n < W) (h : W ≤ (m - 1) * n) :
    ∃ b, 1 ≤ b ∧ b + 1 < m ∧ cut W m n (b + 1) ≤ cut W m n b := by
  have hex : ∃ b, W ≤ b * n := ⟨m - 1, h⟩
  have hfirst := Nat.find_spec hex
  have hle : Nat.find hex ≤ m - 1 := Nat.find_min' hex h
  obtain ⟨b, hb⟩ : ∃ b, Nat.find hex = b + 1 := by
    apply Nat.exists_eq_succ_of_ne_zero
    intro h0
    rw [h0] at hfirst
    omega
  have hlast : b * n < W := not_le.mp (Nat.find_min hex (by omega))
  rw [hb, Nat.add_one_mul] at hfirst
  refine ⟨b, ?_, by omega, ?_⟩
  · by_contra h0
    obtain rfl : b = 0 := by omega
    omega
  · rw [cut, cut, Nat.add_one_mul, Nat.mod_eq_sub_mod hfirst, Nat.mod_eq_of_lt (by omega),
      Nat.mod_eq_of_lt hlast]
    exact Nat.div_le_div_right (by omega)

def cuts (W m n : Nat) : List Nat := (List.range m).map (cut W m n) ++ [n - 1]

theorem length_cuts : (cuts W m n).length = m + 1 := by
  simp [cuts]

theorem getD_cuts (hb : b < m) : (cuts W m n).getD b 0 = cut W m n b := by
  simp [cuts, List.getD_eq_getElem?_getD, List.getElem?_append_left, hb]

theorem evenlySpaced_cuts_iff (hm : 0 < m) (hparts : 2 * m ≤ n) (hn : n < W) :
    EvenlySpaced (cuts W m n) ↔ (m - 1) * n < W := by
  constructor
  · intro heven
    by_contra h
    obtain ⟨b, h1, hb, hle⟩ := exists_cut_le hn (not_lt.mp h)
    have hgap := heven 0 b (by rw [length_cuts]; omega) (by rw [length_cuts]; omega)
    rw [getD_cuts (by omega), getD_cuts (by omega), getD_cuts hb, getD_cuts (by omega)] at hgap
    have hzero : cut W m n 0 = 0 := by simp [cut]
    have hone : cut W m n (0 + 1) = n / m := by simp [cut, Nat.mod_eq_of_lt hn]
    have htwo : 2 ≤ n / m := (Nat.le_div_iff_mul_le hm).mpr hparts
    omega
  · intro h i j hi hj
    rw [length_cuts] at hi hj
    rw [getD_cuts (by omega), getD_cuts (by omega), getD_cuts (by omega), getD_cuts (by omega)]
    have hgap := cut_gap (b := i) (by omega) h
    have hgap' := cut_gap (b := j) (by omega) h
    omega

theorem pairwise_cuts (hn : 0 < n) (h : (m - 1) * n < W) : (cuts W m n).Pairwise (· ≤ ·) := by
  rw [cuts, List.pairwise_append, List.pairwise_map]
  refine ⟨?_, List.pairwise_singleton _ _, ?_⟩
  · apply List.Pairwise.imp_of_mem _ (List.pairwise_lt_range (n := m))
    intro b c hb hc hbc
    exact cut_mono (List.mem_range.mp hc) h hbc.le
  · intro p hp q hq
    obtain ⟨b, hb, rfl⟩ := List.mem_map.mp hp
    rw [List.mem_singleton.mp hq]
    have hlt := cut_lt (W := W) (List.mem_range.mp hb) hn
    omega

theorem lt_of_mem_cuts (hn : 0 < n) (hb : b ∈ cuts W m n) : b < n := by
  rcases List.mem_append.mp hb with hb | hb
  · obtain ⟨c, hc, rfl⟩ := List.mem_map.mp hb
    exact cut_lt (List.mem_range.mp hc) hn
  · rw [List.mem_singleton.mp hb]
    omega

end Cuts

end CoroDB.Framework
