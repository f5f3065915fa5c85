import CoroDB.Framework.VersionList

/-!
# Searching sorted version lists

Binary search for the first entry of a key, the newest version of a key in one sorted list, and the
newest version over several lists.
-/

namespace CoroDB.Framework

section Bound

variable {α : Type*} (before : α → Bool)

/-- The halving loop over the first `len` elements. -/
def lowerBoundIn : Nat → List α → Nat → List α
  | 0, es, _ => es
  | fuel + 1, es, len =>
    if len = 0 then es
    else match es.drop (len / 2) with
      | [] => es
      | m :: rest =>
        if before m then lowerBoundIn fuel rest (len - len / 2 - 1)
        else lowerBoundIn fuel es (len / 2)

/-- The elements from the partition point of `before` on. -/
def lowerBound (es : List α) : List α := lowerBoundIn before es.length es es.length

variable {before}

theorem lowerBoundIn_append {fuel len : Nat} {xs ys : List α} (hx : ∀ x ∈ xs, before x = true)
    (hy : ∀ y ∈ ys, before y = false) (hfuel : len ≤ fuel) (hxs : xs.length ≤ len)
    (hlen : len ≤ (xs ++ ys).length) : lowerBoundIn before fuel (xs ++ ys) len = ys := by
  induction fuel generalizing xs len with
  | zero =>
    obtain rfl : xs = [] := List.length_eq_zero_iff.mp (by omega)
    rfl
  | succ fuel ih =>
    rw [lowerBoundIn]
    split_ifs with h0
    · obtain rfl : xs = [] := List.length_eq_zero_iff.mp (by omega)
      rfl
    · by_cases hhalf : len / 2 < xs.length
      · have hdrop : (xs ++ ys).drop (len / 2) =
            xs[len / 2] :: (xs.drop (len / 2 + 1) ++ ys) := by
          rw [List.drop_append_of_le_length hhalf.le, List.drop_eq_getElem_cons hhalf]
          rfl
        rw [hdrop]
        simp only [hx _ (List.getElem_mem hhalf), if_true]
        refine ih (fun x h => hx x (List.mem_of_mem_drop h)) (by omega) ?_ ?_
        · rw [List.length_drop]
          omega
        · rw [List.length_append] at hlen
          rw [List.length_append, List.length_drop]
          omega
      · cases hdrop : (xs ++ ys).drop (len / 2) with
        | nil => exact absurd (List.drop_eq_nil_iff.mp hdrop) (by omega)
        | cons m rest =>
          have hm : m ∈ ys := by
            have hmem : m ∈ (xs ++ ys).drop (len / 2) := by simp [hdrop]
            rw [List.drop_append, List.drop_eq_nil_of_le (not_lt.mp hhalf)] at hmem
            exact List.mem_of_mem_drop hmem
          simp only [hy m hm, Bool.false_eq_true, if_false]
          exact ih hx (by omega) (not_lt.mp hhalf) (by omega)

theorem lowerBound_append {xs ys : List α} (hx : ∀ x ∈ xs, before x = true)
    (hy : ∀ y ∈ ys, before y = false) : lowerBound before (xs ++ ys) = ys :=
  lowerBoundIn_append hx hy le_rfl (by simp) le_rfl

end Bound

section Argmax

variable {α β : Type*} [LinearOrder β] (f : α → β)

private theorem argmax_append (xs ys : List α) :
    (xs ++ ys).argmax f = ((xs.argmax f).toList ++ (ys.argmax f).toList).argmax f := by
  induction xs with
  | nil => cases h : ys.argmax f <;> simp [h]
  | cons x xs ih =>
    rw [List.cons_append, List.argmax_cons, ih, List.argmax_cons]
    cases hx : xs.argmax f with
    | none => cases hy : ys.argmax f <;> simp [List.argmax_cons]
    | some a =>
      cases hy : ys.argmax f with
      | none => by_cases h : f x < f a <;> simp [h]
      | some b =>
        by_cases h : f x < f a
        · by_cases h' : f a < f b
          · simp [List.argmax_cons, h, h', h.trans h']
          · simp [List.argmax_cons, h, h']
        · by_cases h' : f a < f b
          · simp [List.argmax_cons, h, h']
          · simp [List.argmax_cons, h, h', not_lt.mpr ((not_lt.mp h').trans (not_lt.mp h))]

private theorem argmax_flatMap_argmax (ls : List (List α)) :
    (ls.flatMap fun l => (l.argmax f).toList).argmax f = ls.flatten.argmax f := by
  induction ls with
  | nil => rfl
  | cons l ls ih =>
    rw [List.flatMap_cons, List.flatten_cons, argmax_append, ih, argmax_append f l]
    cases l.argmax f <;> rfl

end Argmax

section Sources

open Versioned

variable {ε κ τ ρ : Type*} [Versioned ε κ τ ρ] [LinearOrder τ]
variable {p before : ε → Bool} {k : κ} {es : List ε}

theorem newestIn_flatten (p : ε → Bool) (s : τ) (ls : List (List ε)) :
    (ls.flatMap fun l => (newestIn p s l).toList).argmax ts = newestIn p s ls.flatten := by
  have h := argmax_flatMap_argmax (ts : ε → τ)
    (ls.map (List.filter fun e => p e && decide (ts e ≤ s)))
  rw [List.flatMap_map] at h
  rw [newestIn, List.filter_flatten, ← h]
  rfl

theorem newestIn_eq_none {s : τ} (h : ∀ e ∈ es, p e = false) : newestIn p s es = none := by
  rw [newestIn, List.argmax_eq_none, List.filter_eq_nil_iff]
  intro e he
  simp [h e he]

variable [LinearOrder κ]

theorem SortedVersions.key_le {e : ε} (hs : SortedVersions (e :: es)) {x : ε} (hx : x ∈ es) :
    key e ≤ key x := by
  rcases (List.pairwise_cons.mp hs).1 x hx with h | h
  · exact h.le
  · exact h.1.le

theorem takeWhile_eq_filter (hp : ∀ e ∈ es, (p e = true ↔ key e = k)) (hs : SortedVersions es)
    (hk : ∀ e ∈ es, k ≤ key e) : es.takeWhile p = es.filter p := by
  induction es with
  | nil => rfl
  | cons e es ih =>
    have hmem : ∀ x ∈ es, x ∈ e :: es := fun x hx => List.mem_cons_of_mem e hx
    have hpe := hp e List.mem_cons_self
    by_cases he : key e = k
    · rw [List.takeWhile_cons_of_pos (hpe.mpr he), List.filter_cons_of_pos (hpe.mpr he),
        ih (fun x hx => hp x (hmem x hx)) (List.pairwise_cons.mp hs).2 fun x hx => hk x (hmem x hx)]
    · have hlt : k < key e := lt_of_le_of_ne (hk e List.mem_cons_self) (Ne.symm he)
      rw [List.takeWhile_cons_of_neg (mt hpe.mp he), List.filter_cons_of_neg (mt hpe.mp he), eq_comm,
        List.filter_eq_nil_iff]
      intro x hx hpx
      exact absurd ((hp x (hmem x hx)).mp hpx) (hlt.trans_le (hs.key_le hx)).ne'

theorem dropWhile_eq_filter (hp : ∀ e ∈ es, (p e = true ↔ key e = k)) (hs : SortedVersions es)
    (hk : ∀ e ∈ es, k ≤ key e) : es.dropWhile p = es.filter fun e => !p e := by
  induction es with
  | nil => rfl
  | cons e es ih =>
    have hmem : ∀ x ∈ es, x ∈ e :: es := fun x hx => List.mem_cons_of_mem e hx
    have hpe := hp e List.mem_cons_self
    by_cases he : key e = k
    · rw [List.dropWhile_cons_of_pos (hpe.mpr he), List.filter_cons_of_neg (by simp [hpe.mpr he]),
        ih (fun x hx => hp x (hmem x hx)) (List.pairwise_cons.mp hs).2 fun x hx => hk x (hmem x hx)]
    · have hlt : k < key e := lt_of_le_of_ne (hk e List.mem_cons_self) (Ne.symm he)
      rw [List.dropWhile_cons_of_neg (mt hpe.mp he), eq_comm, List.filter_eq_self]
      intro x hx
      have hne : ¬ p x = true := by
        rw [hp x hx]
        rcases List.mem_cons.mp hx with rfl | hx
        · exact he
        · exact (hlt.trans_le (hs.key_le hx)).ne'
      simpa using hne

theorem takeWhile_dropWhile_eq_filter (hb : ∀ e ∈ es, (before e = true ↔ key e < k))
    (hp : ∀ e ∈ es, (p e = true ↔ key e = k)) (hs : SortedVersions es) :
    (es.dropWhile before).takeWhile p = es.filter p := by
  induction es with
  | nil => rfl
  | cons e es ih =>
    have hmem : ∀ x ∈ es, x ∈ e :: es := fun x hx => List.mem_cons_of_mem e hx
    have hbe := hb e List.mem_cons_self
    by_cases he : key e < k
    · rw [List.dropWhile_cons_of_pos (hbe.mpr he),
        ih (fun x hx => hb x (hmem x hx)) (fun x hx => hp x (hmem x hx)) (List.pairwise_cons.mp hs).2,
        List.filter_cons_of_neg fun h => he.ne ((hp e List.mem_cons_self).mp h)]
    · rw [List.dropWhile_cons_of_neg (mt hbe.mp he)]
      refine takeWhile_eq_filter hp hs fun x hx => ?_
      rcases List.mem_cons.mp hx with rfl | hx
      · exact not_lt.mp he
      · exact (not_lt.mp he).trans (hs.key_le hx)

theorem lowerBound_eq_dropWhile (hb : ∀ e ∈ es, (before e = true ↔ key e < k))
    (hs : SortedVersions es) : lowerBound before es = es.dropWhile before := by
  conv_lhs => rw [← List.takeWhile_append_dropWhile (p := before) (l := es)]
  refine lowerBound_append (fun x hx => List.mem_takeWhile_imp hx) ?_
  induction es with
  | nil => simp
  | cons e es ih =>
    have hbe := hb e List.mem_cons_self
    by_cases he : key e < k
    · rw [List.dropWhile_cons_of_pos (hbe.mpr he)]
      exact ih (fun x hx => hb x (List.mem_cons_of_mem e hx)) (List.pairwise_cons.mp hs).2
    · rw [List.dropWhile_cons_of_neg (mt hbe.mp he)]
      intro y hy
      rw [← Bool.not_eq_true, hb y hy, not_lt]
      rcases List.mem_cons.mp hy with rfl | hy
      · exact not_lt.mp he
      · exact (not_lt.mp he).trans (hs.key_le hy)

theorem find?_filter_eq_newestIn (hp : ∀ e ∈ es, (p e = true ↔ key e = k)) (hs : SortedVersions es)
    (s : τ) : (es.filter p).find? (fun e => decide (ts e ≤ s)) = newestIn p s es := by
  induction es with
  | nil => rfl
  | cons e es ih =>
    have ih := ih (fun x hx => hp x (List.mem_cons_of_mem e hx)) (List.pairwise_cons.mp hs).2
    by_cases hpe : p e = true
    · by_cases hts : ts e ≤ s
      · have hmax : ∀ x ∈ es, p x = true → ts x < ts e := by
          intro x hx hpx
          rcases (List.pairwise_cons.mp hs).1 x hx with h | h
          · exact absurd (((hp e List.mem_cons_self).mp hpe).trans
              ((hp x (List.mem_cons_of_mem e hx)).mp hpx).symm) h.ne
          · exact h.2
        rw [List.filter_cons_of_pos hpe, List.find?_cons_of_pos (by simpa using hts), newestIn,
          List.filter_cons_of_pos (by simp [hpe, hts]), List.argmax_cons]
        cases hn : (es.filter fun e => p e && decide (ts e ≤ s)).argmax ts with
        | none => rfl
        | some c =>
          have hc := List.mem_filter.mp (List.argmax_mem (Option.mem_def.mpr hn))
          have hlt := hmax c hc.1 (by simpa using (Bool.and_eq_true_iff.mp hc.2).1)
          simp [not_lt.mpr hlt.le]
      · rw [List.filter_cons_of_pos hpe, List.find?_cons_of_neg (by simpa using hts), ih, newestIn,
          newestIn, List.filter_cons_of_neg (by simp [hts])]
    · rw [List.filter_cons_of_neg hpe, ih, newestIn, newestIn,
        List.filter_cons_of_neg (by simp [hpe])]

theorem exists_of_view {s : τ} {r : ρ} (hv : History.view (History.ofList es) k s = some r) :
    ∃ e ∈ es, key e = k ∧ cell e = some r := by
  rcases History.ofList_founded es k s with hnone | ⟨t, c, hn⟩
  · simp [History.view_eq_none hnone] at hv
  · obtain ⟨e, he, hk, -, hc, -⟩ := exists_of_isNewest hn
    exact ⟨e, he, hk, hc.trans ((History.view_eq hn).symm.trans hv)⟩

theorem ofList_eq_of_mem_iff {fs : List ε} (hc : SameCells es es) (h : ∀ e, e ∈ es ↔ e ∈ fs) :
    History.ofList es = History.ofList fs := by
  have hcf : SameCells fs fs := hc.subset fun e he => (h e).mpr he
  funext k t
  cases hk : History.ofList es k t with
  | none =>
    rw [History.ofList_eq_none] at hk
    exact (History.ofList_eq_none.mpr fun e he => hk e ((h e).mpr he)).symm
  | some c =>
    obtain ⟨e, he, rfl, rfl, rfl⟩ := History.exists_of_ofList hk
    exact (ofList_of_mem hcf ((h e).mp he)).symm

theorem isNewest_concat {s t : τ} {c : Option ρ} {e : ε}
    (hn : History.IsNewest (History.ofList es) k s t c)
    (he : key e = k → ts e ≤ s → ts e ≤ t) :
    History.IsNewest (History.ofList (es ++ [e])) k s t c := by
  refine ⟨by rw [History.ofList_append, History.overlay, hn.1]; rfl, hn.2.1, ?_⟩
  intro t' ht' hv
  by_cases h : History.ofList es k t' = none
  · rw [History.ofList_append, History.overlay, h, Option.none_or, History.ofList_cons] at hv
    by_cases hkt : key e = k ∧ ts e = t'
    · exact hkt.2 ▸ he hkt.1 (hkt.2.trans_le ht')
    · exact absurd (if_neg hkt) hv
  · exact hn.2.2 t' ht' h

theorem isNewest_concat_self {s : τ} {e : ε} (hs : ts e ≤ s)
    (h : ∀ x ∈ es, key x = key e → ts x ≤ s → ts x < ts e) :
    History.IsNewest (History.ofList (es ++ [e])) (key e) s (ts e) (cell e) := by
  have hnone : History.ofList es (key e) (ts e) = none :=
    History.ofList_eq_none.mpr fun x hx hk ht => absurd (h x hx hk (ht.trans_le hs)) ht.not_lt
  refine ⟨?_, hs, fun t ht hv => ?_⟩
  · rw [History.ofList_append, History.overlay, hnone, Option.none_or, History.ofList_cons,
      if_pos ⟨rfl, rfl⟩]
  · obtain ⟨c, hc⟩ := Option.ne_none_iff_exists'.mp hv
    obtain ⟨x, hx, hk, rfl, -⟩ := History.exists_of_ofList hc
    rcases List.mem_append.mp hx with hx | hx
    · exact (h x hx hk ht).le
    · rw [List.mem_singleton.mp hx]

end Sources

/-- The visible values of a history that `P` keeps, in key order. -/
structure History.Listing {κ τ ρ : Type*} [LinearOrder κ] [LinearOrder τ] (H : History κ τ ρ)
    (s : τ) (P : ρ → Prop) (rows : List (κ × ρ)) : Prop where
  ascending : rows.Pairwise fun a b => a.1 < b.1
  mem_iff : ∀ k r, (k, r) ∈ rows ↔ H.view k s = some r ∧ P r

theorem History.Listing.unique {κ τ ρ : Type*} [LinearOrder κ] [LinearOrder τ] {H : History κ τ ρ}
    {s : τ} {P : ρ → Prop} {xs ys : List (κ × ρ)} (hx : Listing H s P xs) (hy : Listing H s P ys) :
    xs = ys := by
  have hanti : Std.Antisymm fun a b : κ × ρ => a.1 < b.1 := ⟨fun a b h h' => absurd h h'.asymm⟩
  have hirr : Std.Irrefl fun a b : κ × ρ => a.1 < b.1 := ⟨fun a => lt_irrefl a.1⟩
  exact hx.ascending.eq_of_mem_iff hy.ascending fun a =>
    (hx.mem_iff a.1 a.2).trans (hy.mem_iff a.1 a.2).symm

theorem History.Listing.nil {κ τ ρ : Type*} [LinearOrder κ] [LinearOrder τ] (s : τ) (P : ρ → Prop) :
    Listing (empty : History κ τ ρ) s P [] :=
  ⟨List.Pairwise.nil, fun k r => by simp [view_eq_none (fun t _ => rfl : ∀ t, t ≤ s → empty k t = none)]⟩

theorem History.Listing.cons {κ τ ρ : Type*} [LinearOrder κ] [LinearOrder τ] {H K : History κ τ ρ}
    {s : τ} {P : ρ → Prop} {rows : List (κ × ρ)} {k : κ} {o : Option ρ} (hK : Listing K s P rows)
    (ho : ∀ r, o = some r ↔ H.view k s = some r ∧ P r) (hk : K.view k s = none)
    (hlt : ∀ k', K.view k' s ≠ none → k < k') (hsame : ∀ k', k' ≠ k → H.view k' s = K.view k' s) :
    Listing H s P (o.toList.map (k, ·) ++ rows) := by
  constructor
  · rw [List.pairwise_append]
    refine ⟨by cases o <;> simp, hK.ascending, ?_⟩
    intro a ha b hb
    obtain ⟨r, -, rfl⟩ := List.mem_map.mp ha
    exact hlt b.1 (by simp [((hK.mem_iff b.1 b.2).mp hb).1])
  · intro k' r
    by_cases hkk : k' = k
    · subst hkk
      have hnot : (k', r) ∉ rows := by
        rw [hK.mem_iff, hk]
        simp
      rw [← ho r]
      simp [hnot]
    · rw [hsame k' hkk, ← hK.mem_iff k' r]
      simp [Ne.symm hkk]

end CoroDB.Framework
