import CoroDB.Framework.VersionList
import CoroDB.Storage.Sstable

/-!
# Multi-version entry lists

`MVCCKeyCompare`, the two-stream merge that flush and compaction share, and the version pass that
compaction runs on a merged list.
-/

namespace CoroDB

open Framework

instance : Versioned MemEntry ValueKey UInt64 Row where
  key e := valueKey e.pk
  ts e := e.commitTs
  cell e := e.content

/-- The histories of a table: `ValueLess` keys, commit timestamps, rows. -/
abbrev TableHistory := History ValueKey UInt64 Row

theorem content_eq_none {e : MemEntry} : e.content = none ↔ e.tombstone = true := by
  cases h : e.tombstone <;> simp [MemEntry.content, h]

def mvccLess (a b : MemEntry) : Bool :=
  if valueLess a.pk b.pk then true
  else if valueLess b.pk a.pk then false
  else decide (b.commitTs < a.commitTs)

/-- The keys of the entries are ordered by `ValueLess`, which no `NaN` is. -/
def Ordered (es : List MemEntry) : Prop := ∀ e ∈ es, e.pk.isNaN = false

instance (es : List MemEntry) : Decidable (Ordered es) :=
  inferInstanceAs (Decidable (∀ e ∈ es, e.pk.isNaN = false))

theorem Ordered.append {es fs : List MemEntry} (he : Ordered es) (hf : Ordered fs) :
    Ordered (es ++ fs) :=
  fun e h => (List.mem_append.mp h).elim (he e) (hf e)

theorem Ordered.subset {es fs : List MemEntry} (hf : Ordered fs) (h : es ⊆ fs) : Ordered es :=
  fun e he => hf e (h he)

theorem mvccLess_decides :
    Decides mvccLess (fun e : MemEntry => e.pk.isNaN = false) := by
  intro a b ha hb
  have hab := valueLess_iff ha hb
  have hba := valueLess_iff hb ha
  simp only [mvccLess, VersionLt, Versioned.key, Versioned.ts]
  by_cases h : valueKey a.pk < valueKey b.pk
  · simp [hab.mpr h, h]
  · rw [if_neg (mt hab.mp h)]
    by_cases h' : valueKey b.pk < valueKey a.pk
    · simp [hba.mpr h', h'.not_gt, h'.ne']
    · have heq : valueKey a.pk = valueKey b.pk := le_antisymm (not_lt.mp h') (not_lt.mp h)
      simp [mt hba.mp h', heq]

/-- An entry list in the order of `MVCCKeyCompare`, without repeated versions. -/
def Sorted (es : List MemEntry) : Prop := es.Pairwise fun a b => mvccLess a b = true

instance (es : List MemEntry) : Decidable (Sorted es) :=
  inferInstanceAs (Decidable (es.Pairwise fun a b => mvccLess a b = true))

theorem sorted_iff {es : List MemEntry} (ho : Ordered es) : Sorted es ↔ SortedVersions es :=
  List.Pairwise.iff_of_mem fun {a b} ha hb => mvccLess_decides a b (ho a ha) (ho b hb)

def Coherent (es : List MemEntry) : Prop :=
  ∀ a ∈ es, ∀ b ∈ es, valueEq a.pk b.pk = true → a.commitTs = b.commitTs → a.content = b.content

instance (es : List MemEntry) : Decidable (Coherent es) :=
  inferInstanceAs (Decidable (∀ a ∈ es, ∀ b ∈ es, valueEq a.pk b.pk = true →
    a.commitTs = b.commitTs → a.content = b.content))

theorem coherent_iff {es : List MemEntry} (ho : Ordered es) : Coherent es ↔ SameCells es es :=
  forall₂_congr fun a ha => forall₂_congr fun b hb => by
    rw [valueEq_iff (ho a ha) (ho b hb)]
    rfl

/-- The merge of two sorted entry streams; the first stream wins a tie. -/
def mergeEntries (xs ys : List MemEntry) : List MemEntry := priorityMerge mvccLess xs ys

section Merge

variable {xs ys : List MemEntry}

theorem mergeEntries_ordered (hx : Ordered xs) (hy : Ordered ys) : Ordered (mergeEntries xs ys) :=
  fun e he => (mem_of_mem_priorityMerge he).elim (hx e) (hy e)

theorem mergeEntries_sorted (hx : Ordered xs) (hy : Ordered ys) (hsx : SortedVersions xs)
    (hsy : SortedVersions ys) : SortedVersions (mergeEntries xs ys) :=
  sortedVersions_priorityMerge mvccLess_decides hsx hsy hx hy

theorem carries_mergeEntries_left (xs ys : List MemEntry) : Carries xs (mergeEntries xs ys) :=
  carries_priorityMerge_left xs ys

theorem carries_mergeEntries_right (hx : Ordered xs) (hy : Ordered ys) :
    Carries ys (mergeEntries xs ys) :=
  carries_priorityMerge_right mvccLess_decides hx hy

theorem ofList_mergeEntries (hx : Ordered xs) (hy : Ordered ys)
    (h : SortedVersions xs ∧ SortedVersions ys ∨ SameCells xs ys) :
    History.ofList (mergeEntries xs ys) =
      History.overlay (History.ofList xs) (History.ofList ys) :=
  ofList_priorityMerge mvccLess_decides hx hy h

end Merge

/-- What the version pass keeps of the entries of one key: all of them when none is at or below
the horizon, else those down to the first such one, the anchor; nothing when the anchor is a
tombstone and comes first. -/
def gcSegment (gcHorizon : UInt64) (segment : List MemEntry) : List MemEntry :=
  let newer := segment.takeWhile fun e => decide (gcHorizon < e.commitTs)
  match segment.dropWhile fun e => decide (gcHorizon < e.commitTs) with
  | [] => segment
  | anchor :: _ => if anchor.tombstone && newer.isEmpty then [] else newer ++ [anchor]

def samePk (e x : MemEntry) : Bool := valueEq x.pk e.pk

theorem samePk_iff {e x : MemEntry} (he : e.pk.isNaN = false) (hx : x.pk.isNaN = false) :
    samePk e x = true ↔ valueKey x.pk = valueKey e.pk :=
  valueEq_iff hx he

theorem samePk_self {e : MemEntry} (he : e.pk.isNaN = false) : samePk e e = true :=
  (samePk_iff he he).mpr rfl

/-- The pass over a merged list, one segment of equal keys in each round. -/
def gcLoop (gcHorizon : UInt64) : Nat → List MemEntry → Option (List MemEntry)
  | _, [] => some []
  | 0, _ :: _ => none
  | fuel + 1, e :: es =>
    let segment := (e :: es).takeWhile (samePk e)
    let rest := (e :: es).dropWhile (samePk e)
    (gcLoop gcHorizon fuel rest).map (gcSegment gcHorizon segment ++ ·)

/-- The pass, skipped at horizon zero. A list has at most as many segments as entries, and a
round that finds none is repeated for ever. -/
def gcPass (gcHorizon : UInt64) (merged : List MemEntry) : Option (List MemEntry) :=
  if 0 < gcHorizon then gcLoop gcHorizon merged.length merged else some merged

section Segment

variable {gcHorizon : UInt64} {segment : List MemEntry}

theorem ofList_gcSegment {k : ValueKey} (hkey : ∀ e ∈ segment, valueKey e.pk = k)
    (hs : SortedVersions segment) :
    History.ofList (gcSegment gcHorizon segment) =
      History.gc gcHorizon (History.ofList segment) := by
  have hsplit := List.takeWhile_append_dropWhile
    (p := fun e : MemEntry => decide (gcHorizon < e.commitTs)) (l := segment)
  have hnewer : ∀ e ∈ segment.takeWhile fun e => decide (gcHorizon < e.commitTs),
      gcHorizon < e.commitTs := fun e he => by simpa using List.mem_takeWhile_imp he
  unfold gcSegment
  cases hold : segment.dropWhile fun e => decide (gcHorizon < e.commitTs) with
  | nil =>
    rw [hold, List.append_nil] at hsplit
    rw [hsplit] at hnewer
    funext k' t
    refine (History.gc_of_forall_none ?_ t).symm
    exact fun t' ht' => History.ofList_eq_none.mpr fun e he _ hts =>
      absurd (hnewer e he) (not_lt.mpr (hts.trans_le ht'))
  | cons anchor older =>
    rw [hold] at hsplit
    have hanchor : anchor.commitTs ≤ gcHorizon := by
      have := List.head?_dropWhile_not (fun e : MemEntry => decide (gcHorizon < e.commitTs)) segment
      simpa [hold] using this
    rw [← hsplit] at hkey hs
    have holder : ∀ e ∈ older, e.commitTs < anchor.commitTs := by
      intro e he
      rcases (List.pairwise_cons.mp (List.pairwise_append.mp hs).2.1).1 e he with hlt | hlt
      · exact absurd ((hkey anchor (by simp)).trans (hkey e (by simp [he])).symm) hlt.ne
      · exact hlt.2
    have hgc := gc_ofList_anchor (ε := MemEntry) hkey hnewer hanchor holder
    rw [hsplit] at hgc
    have hcond : (anchor.tombstone &&
        (segment.takeWhile fun e => decide (gcHorizon < e.commitTs)).isEmpty) = true ↔
        Versioned.cell anchor = none ∧
          segment.takeWhile (fun e => decide (gcHorizon < e.commitTs)) = [] := by
      simp [Versioned.cell, content_eq_none]
    rw [hgc]
    by_cases hd : Versioned.cell anchor = none ∧
        segment.takeWhile (fun e => decide (gcHorizon < e.commitTs)) = []
    · rw [if_pos hd]
      simp only [if_pos (hcond.mpr hd)]
      rfl
    · rw [if_neg hd]
      simp only [if_neg (mt hcond.mp hd)]

theorem gcSegment_sublist : (gcSegment gcHorizon segment).Sublist segment := by
  have hsplit := List.takeWhile_append_dropWhile
    (p := fun e : MemEntry => decide (gcHorizon < e.commitTs)) (l := segment)
  unfold gcSegment
  cases hold : segment.dropWhile fun e => decide (gcHorizon < e.commitTs) with
  | nil => exact List.Sublist.refl _
  | cons anchor older =>
    rw [hold] at hsplit
    change List.Sublist (if _ then _ else _) _
    split
    · exact List.nil_sublist _
    · conv_rhs => rw [← hsplit]
      exact (List.Sublist.refl _).append (List.singleton_sublist.mpr List.mem_cons_self)

end Segment

section Loop

variable {gcHorizon : UInt64} {es out : List MemEntry}

theorem gcLoop_sublist {fuel : Nat} (h : gcLoop gcHorizon fuel es = some out) :
    out.Sublist es := by
  induction fuel generalizing es out with
  | zero =>
    cases es with
    | nil => simp_all [gcLoop]
    | cons e es => simp [gcLoop] at h
  | succ fuel ih =>
    cases es with
    | nil => simp_all [gcLoop]
    | cons e es =>
      obtain ⟨rest, hrest, rfl⟩ := Option.map_eq_some_iff.mp h
      conv_rhs => rw [← List.takeWhile_append_dropWhile
        (p := samePk e) (l := e :: es)]
      exact gcSegment_sublist.append (ih hrest)

theorem gcLoop_of_isNaN (h : ∃ e ∈ es, e.pk.isNaN = true) (fuel : Nat) :
    gcLoop gcHorizon fuel es = none := by
  induction fuel generalizing es with
  | zero =>
    cases es with
    | nil => simp at h
    | cons e es => rfl
  | succ fuel ih =>
    cases es with
    | nil => simp at h
    | cons e es =>
      obtain ⟨x, hx, hnan⟩ := h
      refine Option.map_eq_none_iff.mpr (ih ⟨x, ?_, hnan⟩)
      rw [← List.takeWhile_append_dropWhile
        (p := samePk e) (l := e :: es)] at hx
      refine (List.mem_append.mp hx).resolve_left fun hmem => ?_
      have := List.mem_takeWhile_imp hmem
      simp [samePk, valueEq_of_isNaN hnan e.pk] at this

theorem segment_split {e : MemEntry} (ho : Ordered (e :: es)) (hs : SortedVersions (e :: es)) :
    (∀ x ∈ (e :: es).takeWhile (samePk e), valueKey x.pk = valueKey e.pk) ∧
      ∀ x ∈ (e :: es).dropWhile (samePk e), valueKey x.pk ≠ valueKey e.pk := by
  have hsplit := List.takeWhile_append_dropWhile
    (p := samePk e) (l := e :: es)
  have hmem : e ∈ (e :: es).takeWhile (samePk e) := by
    rw [List.takeWhile_cons_of_pos (samePk_self (ho e List.mem_cons_self))]
    exact List.mem_cons_self
  have hhead := List.head?_dropWhile_not (samePk e) (e :: es)
  constructor
  · intro x hx
    exact (samePk_iff (ho e List.mem_cons_self) (ho x (List.takeWhile_subset _ hx))).mp
      (List.mem_takeWhile_imp hx)
  · rw [← hsplit] at hs
    obtain ⟨-, hsrest, hcross⟩ := List.pairwise_append.mp hs
    cases hrest : (e :: es).dropWhile (samePk e) with
    | nil => simp
    | cons y ys =>
      rw [hrest] at hhead hsrest hcross hsplit
      have hy : y ∈ e :: es := by
        rw [← hsplit]
        simp
      have hne : valueKey y.pk ≠ valueKey e.pk := fun hk => by
        simp [(samePk_iff (ho e List.mem_cons_self) (ho y hy)).mpr hk] at hhead
      have hlt : valueKey e.pk < valueKey y.pk :=
        (hcross e hmem y List.mem_cons_self).resolve_right fun h => hne h.1.symm
      intro x hx
      rcases List.mem_cons.mp hx with rfl | hx
      · exact hne
      · rcases (List.pairwise_cons.mp hsrest).1 x hx with h | h
        · exact (hlt.trans h).ne'
        · exact (hlt.trans_eq h.1).ne'

theorem gcLoop_refines (gcHorizon : UInt64) {fuel : Nat} (ho : Ordered es) (hs : SortedVersions es)
    (hfuel : es.length ≤ fuel) :
    ∃ out, gcLoop gcHorizon fuel es = some out ∧
      History.ofList out = History.gc gcHorizon (History.ofList es) := by
  induction fuel generalizing es with
  | zero =>
    obtain rfl : es = [] := List.length_eq_zero_iff.mp (Nat.le_zero.mp hfuel)
    exact ⟨[], rfl, funext fun k => funext fun t =>
      (History.gc_of_forall_none (fun _ _ => rfl) t).symm⟩
  | succ fuel ih =>
    cases es with
    | nil =>
      exact ⟨[], rfl, funext fun k => funext fun t =>
        (History.gc_of_forall_none (fun _ _ => rfl) t).symm⟩
    | cons e es =>
      have hsplit := List.takeWhile_append_dropWhile
        (p := samePk e) (l := e :: es)
      obtain ⟨hseg, hrest⟩ := segment_split ho hs
      set segment := (e :: es).takeWhile (samePk e) with hsegment
      set rest := (e :: es).dropWhile (samePk e) with hrestdef
      have hlen : rest.length ≤ fuel := by
        rw [hrestdef, List.dropWhile_cons_of_pos (samePk_self (ho e List.mem_cons_self))]
        exact (List.dropWhile_sublist (samePk e)).length_le.trans (Nat.le_of_succ_le_succ hfuel)
      have hss := hs
      rw [← hsplit] at hss
      obtain ⟨hs1, hs2, -⟩ := List.pairwise_append.mp hss
      obtain ⟨out, hout, hgc⟩ := ih (ho.subset (List.dropWhile_subset _)) hs2 hlen
      refine ⟨gcSegment gcHorizon segment ++ out, by rw [gcLoop, hout]; rfl, ?_⟩
      have hes : History.ofList (e :: es) =
          History.overlay (History.ofList segment) (History.ofList rest) := by
        rw [← History.ofList_append, hsplit]
      rw [History.ofList_append, ofList_gcSegment hseg hs1, hgc, hes]
      refine (History.gc_overlay_of_disjoint (fun k => ?_) gcHorizon).symm
      by_cases hk : k = valueKey e.pk
      · exact .inr fun t => History.ofList_eq_none.mpr fun x hx hkx =>
          absurd (hkx.trans hk) (hrest x hx)
      · exact .inl fun t => History.ofList_eq_none.mpr fun x hx hkx =>
          absurd (hkx.symm.trans (hseg x hx)) hk

theorem gcPass_zero (merged : List MemEntry) : gcPass 0 merged = some merged :=
  if_neg (lt_irrefl 0)

theorem gcPass_sublist (h : gcPass gcHorizon es = some out) : out.Sublist es := by
  rw [gcPass] at h
  split_ifs at h
  · exact gcLoop_sublist h
  · rw [Option.some.inj h]

theorem gcPass_refines (gcHorizon : UInt64) (ho : Ordered es) (hs : SortedVersions es) :
    ∃ out, gcPass gcHorizon es = some out ∧ out.Sublist es ∧
      History.ofList out =
        if 0 < gcHorizon then History.gc gcHorizon (History.ofList es) else History.ofList es := by
  by_cases h : 0 < gcHorizon
  · obtain ⟨out, hout, hgc⟩ := gcLoop_refines gcHorizon ho hs le_rfl
    exact ⟨out, by rw [gcPass, if_pos h, hout], gcLoop_sublist hout, by rw [if_pos h, hgc]⟩
  · exact ⟨es, by rw [gcPass, if_neg h], List.Sublist.refl es, by rw [if_neg h]⟩

end Loop

end CoroDB
