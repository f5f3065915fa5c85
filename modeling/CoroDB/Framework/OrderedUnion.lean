import CoroDB.Framework.VersionList

/-!
# Merges as ordered unions

A comparator and a notion of equal keys.
-/

namespace CoroDB.Framework

variable {α : Type*} (less : α → α → Bool) (same : α → α → Prop)

/-- An asymmetric comparator that elements with equal keys cannot be told apart by. -/
structure KeyOrder : Prop where
  equiv : Equivalence same
  asymm : ∀ a b, less a b = true → less b a = false
  congr_left : ∀ a b c, same a b → less a c = less b c
  congr_right : ∀ a b c, same a b → less c a = less c b

/-- On the elements of a list the comparator is transitive and decides between different keys. -/
structure StrictOn (es : List α) : Prop where
  trans : ∀ a ∈ es, ∀ b ∈ es, ∀ c ∈ es, less a b = true → less b c = true → less a c = true
  ties : ∀ a ∈ es, ∀ b ∈ es, less a b = false → less b a = false → same a b

def StrictlySorted (es : List α) : Prop := es.Pairwise fun a b => less a b = true

/-- The sorted union of two lists in which the first one wins. -/
structure IsOrderedUnion (xs ys merged : List α) : Prop where
  sorted : StrictlySorted less merged
  subset : ∀ m ∈ merged, m ∈ xs ∨ m ∈ ys
  covers : ∀ y ∈ ys, ∃ m ∈ merged, same m y
  newer : ∀ x ∈ xs, x ∈ merged ∧ ∀ m ∈ merged, same m x → m = x

variable {less same} {xs ys es fs : List α}

theorem StrictOn.subset (h : StrictOn less same fs) (hsub : es ⊆ fs) : StrictOn less same es where
  trans a ha b hb c hc := h.trans a (hsub ha) b (hsub hb) c (hsub hc)
  ties a ha b hb := h.ties a (hsub ha) b (hsub hb)

section Sorted

theorem KeyOrder.irrefl (h : KeyOrder less same) (a : α) : less a a = false := by
  by_contra haa
  rw [Bool.not_eq_false] at haa
  have hfalse := h.asymm a a haa
  rw [haa] at hfalse
  cases hfalse

theorem StrictlySorted.decides (hs : StrictlySorted less es) {a b : α} (ha : a ∈ es) (hb : b ∈ es)
    (hne : a ≠ b) : less a b = true ∨ less b a = true := by
  obtain ⟨i, hi, rfl⟩ := List.getElem_of_mem ha
  obtain ⟨j, hj, rfl⟩ := List.getElem_of_mem hb
  rcases Nat.lt_trichotomy i j with hij | rfl | hji
  · exact Or.inl (List.pairwise_iff_getElem.mp hs i j hi hj hij)
  · exact absurd rfl hne
  · exact Or.inr (List.pairwise_iff_getElem.mp hs j i hj hi hji)

theorem StrictlySorted.trans (h : KeyOrder less same) (hs : StrictlySorted less es) {a b c : α}
    (ha : a ∈ es) (hb : b ∈ es) (hc : c ∈ es) (hab : less a b = true) (hbc : less b c = true) :
    less a c = true := by
  have hidx : ∀ {i j : Nat} (hi : i < es.length) (hj : j < es.length),
      less es[i] es[j] = true → i < j := by
    intro i j hi hj hlt
    rcases Nat.lt_trichotomy i j with hij | rfl | hji
    · exact hij
    · rw [h.irrefl] at hlt
      cases hlt
    · rw [h.asymm _ _ (List.pairwise_iff_getElem.mp hs j i hj hi hji)] at hlt
      cases hlt
  obtain ⟨i, hi, rfl⟩ := List.getElem_of_mem ha
  obtain ⟨j, hj, rfl⟩ := List.getElem_of_mem hb
  obtain ⟨k, hk, rfl⟩ := List.getElem_of_mem hc
  exact List.pairwise_iff_getElem.mp hs i k hi hk ((hidx hi hj hab).trans (hidx hj hk hbc))

end Sorted

section Merge

theorem strictlySorted_priorityMerge (h : KeyOrder less same) (hx : StrictlySorted less xs)
    (hy : StrictlySorted less ys) (hstrict : StrictOn less same (xs ++ ys)) :
    StrictlySorted less (priorityMerge less xs ys) := by
  induction xs, ys using priorityMerge_induction less with
  | left ys => exact hy
  | right xs =>
    rw [priorityMerge_nil_right]
    exact hx
  | emitLeft x xs y ys hxy ih =>
    obtain ⟨hxs, hx'⟩ := List.pairwise_cons.mp hx
    obtain ⟨hys, -⟩ := List.pairwise_cons.mp hy
    rw [priorityMerge_cons_cons, if_pos hxy]
    apply List.pairwise_cons.mpr
    refine ⟨?_, ih hx' hy (hstrict.subset (List.subset_cons_self _ _))⟩
    intro m hm
    rcases mem_of_mem_priorityMerge hm with hm | hm
    · exact hxs m hm
    · rcases List.mem_cons.mp hm with rfl | hm
      · exact hxy
      · exact hstrict.trans x (by simp) y (by simp) m (by simp [hm]) hxy (hys m hm)
  | emitRight x xs y ys hxy hyx ih =>
    obtain ⟨hxs, -⟩ := List.pairwise_cons.mp hx
    obtain ⟨hys, hy'⟩ := List.pairwise_cons.mp hy
    rw [priorityMerge_cons_cons, if_neg (by simp [hxy]), if_pos hyx]
    apply List.pairwise_cons.mpr
    have hrest : (x :: xs) ++ ys ⊆ (x :: xs) ++ y :: ys :=
      ((List.Sublist.refl (x :: xs)).append (List.sublist_cons_self y ys)).subset
    refine ⟨?_, ih hx hy' (hstrict.subset hrest)⟩
    intro m hm
    rcases mem_of_mem_priorityMerge hm with hm | hm
    · rcases List.mem_cons.mp hm with rfl | hm
      · exact hyx
      · exact hstrict.trans y (by simp) x (by simp) m (by simp [hm]) hyx (hxs m hm)
    · exact hys m hm
  | tie x xs y ys hxy hyx ih =>
    obtain ⟨hxs, hx'⟩ := List.pairwise_cons.mp hx
    obtain ⟨hys, hy'⟩ := List.pairwise_cons.mp hy
    have hsame : same x y := hstrict.ties x (by simp) y (by simp) hxy hyx
    rw [priorityMerge_cons_cons, if_neg (by simp [hxy]), if_neg (by simp [hyx])]
    apply List.pairwise_cons.mpr
    have hrest : xs ++ ys ⊆ (x :: xs) ++ y :: ys :=
      ((List.sublist_cons_self x xs).append (List.sublist_cons_self y ys)).subset
    refine ⟨?_, ih hx' hy' (hstrict.subset hrest)⟩
    intro m hm
    rcases mem_of_mem_priorityMerge hm with hm | hm
    · exact hxs m hm
    · rw [h.congr_left x y m hsame]
      exact hys m hm

theorem isOrderedUnion_priorityMerge (h : KeyOrder less same) (hx : StrictlySorted less xs)
    (hy : StrictlySorted less ys) (hstrict : StrictOn less same (xs ++ ys)) :
    IsOrderedUnion less same xs ys (priorityMerge less xs ys) := by
  have hs := strictlySorted_priorityMerge h hx hy hstrict
  refine ⟨hs, fun m hm => mem_of_mem_priorityMerge hm, ?_, ?_⟩
  · intro y hy
    rcases mem_priorityMerge_right xs hy with hm | ⟨x, hx, hxy, hyx⟩
    · exact ⟨y, hm, h.equiv.refl y⟩
    · exact ⟨x, mem_priorityMerge_left ys hx, hstrict.ties x (by simp [hx]) y (by simp [hy]) hxy hyx⟩
  · intro x hx
    refine ⟨mem_priorityMerge_left ys hx, ?_⟩
    intro m hm hsame
    by_contra hne
    rcases hs.decides hm (mem_priorityMerge_left ys hx) hne with hlt | hlt
    · rw [h.congr_left m x x hsame, h.irrefl] at hlt
      cases hlt
    · rw [h.congr_right m x x hsame, h.irrefl] at hlt
      cases hlt

theorem IsOrderedUnion.strictOn {merged : List α} (h : KeyOrder less same)
    (hunion : IsOrderedUnion less same xs ys merged) : StrictOn less same (xs ++ ys) := by
  have hrep : ∀ a ∈ xs ++ ys, ∃ m ∈ merged, same m a := by
    intro a ha
    rcases List.mem_append.mp ha with ha | ha
    · exact ⟨a, (hunion.newer a ha).1, h.equiv.refl a⟩
    · exact hunion.covers a ha
  have hless : ∀ {a b m n : α}, same m a → same n b → less a b = less m n := by
    intro a b m n hm hn
    rw [← h.congr_left m a b hm, ← h.congr_right n b m hn]
  constructor
  · intro a ha b hb c hc hab hbc
    obtain ⟨m, hm, hma⟩ := hrep a ha
    obtain ⟨n, hn, hnb⟩ := hrep b hb
    obtain ⟨p, hp, hpc⟩ := hrep c hc
    rw [hless hma hnb] at hab
    rw [hless hnb hpc] at hbc
    rw [hless hma hpc]
    exact hunion.sorted.trans h hm hn hp hab hbc
  · intro a ha b hb hab hba
    obtain ⟨m, hm, hma⟩ := hrep a ha
    obtain ⟨n, hn, hnb⟩ := hrep b hb
    rw [hless hma hnb] at hab
    rw [hless hnb hma] at hba
    have heq : m = n := by
      by_contra hne
      rcases hunion.sorted.decides hm hn hne with hlt | hlt
      · rw [hab] at hlt
        cases hlt
      · rw [hba] at hlt
        cases hlt
    subst heq
    exact h.equiv.trans (h.equiv.symm hma) hnb

theorem isOrderedUnion_priorityMerge_iff (h : KeyOrder less same) (hx : StrictlySorted less xs)
    (hy : StrictlySorted less ys) :
    IsOrderedUnion less same xs ys (priorityMerge less xs ys) ↔ StrictOn less same (xs ++ ys) :=
  ⟨fun hunion => hunion.strictOn h, isOrderedUnion_priorityMerge h hx hy⟩

end Merge

end CoroDB.Framework
