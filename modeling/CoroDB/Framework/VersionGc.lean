import CoroDB.Framework.History

/-!
# Version garbage collection

Below a horizon only the newest version of a key can still be read by a snapshot at or above the
horizon.
-/

namespace CoroDB.Framework.History

variable {κ τ ρ : Type*} [LinearOrder τ]

/-- The pass removes the key: its newest version at or below `h` is a deletion, and it is alone. -/
def Drops (H : History κ τ ρ) (h : τ) (k : κ) : Prop :=
  (∃ t, IsNewest H k h t none) ∧ ∀ t, h < t → H k t = none

def Keeps (H : History κ τ ρ) (h : τ) (k : κ) (t : τ) : Prop :=
  ¬ Drops H h k ∧ (h < t ∨ ∃ c, IsNewest H k h t c)

open Classical in
noncomputable def gc (h : τ) (H : History κ τ ρ) : History κ τ ρ :=
  fun k t => if Keeps H h k t then H k t else none

theorem gc_of_keeps {H : History κ τ ρ} {h t : τ} {k : κ} (hk : Keeps H h k t) :
    gc h H k t = H k t := by
  simp [gc, hk]

theorem gc_of_not_keeps {H : History κ τ ρ} {h t : τ} {k : κ} (hk : ¬ Keeps H h k t) :
    gc h H k t = none := by
  simp [gc, hk]

theorem gc_eq_some {H : History κ τ ρ} {h t : τ} {k : κ} {c : Option ρ}
    (hc : gc h H k t = some c) : H k t = some c ∧ Keeps H h k t := by
  by_cases hk : Keeps H h k t
  · exact ⟨(gc_of_keeps hk).symm.trans hc, hk⟩
  · simp [gc_of_not_keeps hk] at hc

theorem gc_of_drops {H : History κ τ ρ} {h : τ} {k : κ} (hd : Drops H h k) (t : τ) :
    gc h H k t = none :=
  gc_of_not_keeps fun hk => hk.1 hd

theorem gc_of_forall_none {H : History κ τ ρ} {h : τ} {k : κ} (hn : ∀ t, t ≤ h → H k t = none)
    (t : τ) : gc h H k t = H k t := by
  rcases lt_or_ge h t with hlt | hle
  · refine gc_of_keeps ⟨?_, .inl hlt⟩
    rintro ⟨⟨a, ha⟩, -⟩
    exact absurd (hn a ha.2.1) (by simp [ha.1])
  · rw [hn t hle]
    by_contra hv
    obtain ⟨c, hc⟩ := Option.ne_none_iff_exists'.mp hv
    exact absurd (hn t hle) (by simp [(gc_eq_some hc).1])

theorem gc_of_isNewest {H : History κ τ ρ} {h a : τ} {k : κ} {c : Option ρ}
    (ha : IsNewest H k h a c) (hd : ¬ Drops H h k) (t : τ) :
    gc h H k t = if h < t ∨ t = a then H k t else none := by
  split
  · rename_i ht
    refine gc_of_keeps ⟨hd, ht.imp_right ?_⟩
    rintro rfl
    exact ⟨c, ha⟩
  · rename_i ht
    refine gc_of_not_keeps fun hk => ht (hk.2.imp_right ?_)
    rintro ⟨c', hc'⟩
    exact (hc'.unique ha).1

theorem gc_of_not_superseded {H : History κ τ ρ} {h t : τ} {k : κ} {r : ρ}
    (hr : H k t = some (some r)) (hlater : ∀ u, t < u → u ≤ h → H k u = none) :
    gc h H k t = some (some r) := by
  rw [← hr]
  rcases lt_or_ge h t with hlt | hle
  · refine gc_of_keeps ⟨fun hd => ?_, .inl hlt⟩
    simp [hd.2 t hlt] at hr
  · have hnewest : IsNewest H k h t (some r) := by
      refine ⟨hr, hle, fun u hu hv => ?_⟩
      by_contra hlt
      exact hv (hlater u (not_le.mp hlt) hu)
    refine gc_of_keeps ⟨?_, .inr ⟨_, hnewest⟩⟩
    rintro ⟨⟨u, hu⟩, -⟩
    simpa using (hu.unique hnewest).2

theorem gc_congr {H K : History κ τ ρ} {k : κ} (hk : H k = K k) (h t : τ) :
    gc h H k t = gc h K k t := by
  have hiff : Keeps H h k t ↔ Keeps K h k t := by
    simp only [Keeps, Drops, IsNewest, hk]
  by_cases hK : Keeps K h k t
  · rw [gc_of_keeps (hiff.mpr hK), gc_of_keeps hK, hk]
  · rw [gc_of_not_keeps (mt hiff.mp hK), gc_of_not_keeps hK]

theorem gc_overlay_of_disjoint {H K : History κ τ ρ}
    (hdis : ∀ k, (∀ t, H k t = none) ∨ ∀ t, K k t = none) (h : τ) :
    gc h (overlay H K) = overlay (gc h H) (gc h K) := by
  funext k t
  rcases hdis k with hH | hK
  · have hk : overlay H K k = K k := funext fun u => by simp [overlay, hH u]
    rw [gc_congr hk, overlay_apply, gc_of_forall_none (fun u _ => hH u), hH t, Option.none_or]
  · have hk : overlay H K k = H k := funext fun u => by simp [overlay, hK u]
    rw [gc_congr hk, overlay_apply, gc_of_forall_none (H := K) (fun u _ => hK u), hK t,
      Option.or_none]

theorem gc_unique {H : History κ τ ρ} {h t u : τ} {k : κ} {c d : Option ρ}
    (ht : gc h H k t = some c) (hu : gc h H k u = some d) (hth : t ≤ h) (huh : u ≤ h) : t = u := by
  obtain ⟨c', hc'⟩ := (gc_eq_some ht).2.2.resolve_left (not_lt.mpr hth)
  obtain ⟨d', hd'⟩ := (gc_eq_some hu).2.2.resolve_left (not_lt.mpr huh)
  exact (hc'.unique hd').1

theorem gc_deletion {H : History κ τ ρ} {h t : τ} {k : κ} (ht : gc h H k t = some none)
    (hth : t ≤ h) : ∃ u, h < u ∧ gc h H k u ≠ none := by
  obtain ⟨hcell, hkept, hwhy⟩ := gc_eq_some ht
  obtain ⟨c, hnewest⟩ := hwhy.resolve_left (not_lt.mpr hth)
  have hdeleted : IsNewest H k h t none := by
    rwa [Option.some.inj (hnewest.1.symm.trans hcell)] at hnewest
  have habove : ∃ u, h < u ∧ H k u ≠ none := by
    by_contra hnone
    push Not at hnone
    exact hkept ⟨⟨t, hdeleted⟩, hnone⟩
  obtain ⟨u, hu, hv⟩ := habove
  refine ⟨u, hu, ?_⟩
  rwa [gc_of_keeps ⟨hkept, Or.inl hu⟩]

section Layer

variable {K H J : History κ τ ρ} {h s : τ} {k : κ}

theorem gc_le (K H J : History κ τ ρ) (h : τ) {t : τ}
    (hv : overlay K (overlay (gc h H) J) k t ≠ none) :
    overlay K (overlay H J) k t ≠ none := by
  contrapose! hv
  simp only [overlay_eq_none] at hv ⊢
  refine ⟨hv.1, ?_, hv.2.2⟩
  by_cases hk : Keeps H h k t
  · rw [gc_of_keeps hk, hv.2.1]
  · exact gc_of_not_keeps hk

theorem IsNewest.gc {t : τ} {c : Option ρ} (hn : IsNewest (overlay K (overlay H J)) k s t c)
    (hd : ¬ Drops H h k) (hs : h ≤ s) : IsNewest (overlay K (overlay (gc h H) J)) k s t c := by
  obtain ⟨hc, ht, hmax⟩ := hn
  refine ⟨?_, ht, fun t' ht' hv => hmax t' ht' (gc_le K H J h hv)⟩
  cases hK : K k t with
  | some c' => simpa [overlay, hK] using hc
  | none =>
    cases hH : H k t with
    | none =>
      have hg : History.gc h H k t = none := by
        by_contra hv
        obtain ⟨c', hc'⟩ := Option.ne_none_iff_exists'.mp hv
        simp [(gc_eq_some hc').1] at hH
      simpa [overlay, hK, hH, hg] using hc
    | some c' =>
      have hk : Keeps H h k t := by
        refine ⟨hd, ?_⟩
        rcases lt_or_ge h t with hlt | hle
        · exact .inl hlt
        · refine .inr ⟨c', hH, hle, ?_⟩
          intro t' ht' hv
          apply hmax t' (ht'.trans hs)
          simp [overlay_eq_none, hv]
      simpa [overlay, hK, gc_of_keeps hk, hH] using hc

theorem view_gc_of_not_drops (hF : Founded (overlay K (overlay H J))) (hd : ¬ Drops H h k)
    (hs : h ≤ s) :
    view (overlay K (overlay (gc h H) J)) k s = view (overlay K (overlay H J)) k s := by
  rcases hF k s with hn | ⟨t, c, hn⟩
  · rw [view_eq_none hn, view_eq_none]
    intro t ht
    by_contra hv
    exact gc_le K H J h hv (hn t ht)
  · rw [view_eq hn, view_eq (hn.gc hd hs)]

theorem view_gc_of_drops (hd : Drops H h k) :
    view (overlay K (overlay (gc h H) J)) k s = view (overlay K J) k s := by
  apply view_congr
  intro t _
  simp [overlay, gc_of_drops hd]

theorem Drops.newest_of_lt {a t : τ} {c : Option ρ} (hd : Drops H h k)
    (ha : IsNewest H k h a none) (hn : IsNewest (overlay K J) k s t c) (hlt : a < t) :
    IsNewest (overlay K (overlay H J)) k s t c := by
  have habove : ∀ t', a < t' → H k t' = none := by
    intro t' ht'
    rcases lt_or_ge h t' with hlt' | hle
    · exact hd.2 t' hlt'
    · by_contra hv
      exact absurd (ha.2.2 t' hle hv) (not_le.mpr ht')
  refine ⟨?_, hn.2.1, ?_⟩
  · simpa [overlay, habove t hlt] using hn.1
  · intro t' ht' hv
    rcases lt_or_ge a t' with hlt' | hle
    · apply hn.2.2 t' ht'
      simpa [overlay, habove t' hlt'] using hv
    · exact hle.trans hlt.le

theorem Drops.newest_self {a : τ} (hd : Drops H h k) (ha : IsNewest H k h a none) (hs : h ≤ s)
    (hK : K k a = none) (hbelow : ∀ t, t ≤ s → overlay K J k t ≠ none → t ≤ a) :
    IsNewest (overlay K (overlay H J)) k s a none := by
  refine ⟨by simp [overlay, hK, ha.1], ha.2.1.trans hs, ?_⟩
  intro t' ht' hv
  by_cases hH : H k t' = none
  · exact hbelow t' ht' (by simpa [overlay, hH] using hv)
  · rcases lt_or_ge h t' with hlt | hle
    · exact absurd (hd.2 t' hlt) hH
    · exact ha.2.2 t' hle hH

theorem view_of_drops (hF : Founded (overlay K J)) (hd : Drops H h k) (hs : h ≤ s)
    (hmask : view (overlay K J) k h ≠ none → view (overlay K (overlay H J)) k h ≠ none) :
    view (overlay K J) k s = view (overlay K (overlay H J)) k s := by
  obtain ⟨a, ha⟩ := hd.1
  have hother : ∀ t c, IsNewest (overlay K J) k s t c → t ≤ a → K k a = none → c = none := by
    intro t c hn hta hK
    have hself : IsNewest (overlay K (overlay H J)) k h a none :=
      hd.newest_self ha le_rfl hK fun t' ht' hv => (hn.2.2 t' (ht'.trans hs) hv).trans hta
    by_contra hc
    apply hmask
    · rwa [view_eq (hn.lower (hta.trans ha.2.1) hs)]
    · exact view_eq hself
  rcases hF k s with hnone | ⟨t, c, hn⟩
  · have hK : K k a = none := (overlay_eq_none.mp (hnone a (ha.2.1.trans hs))).1
    rw [view_eq_none hnone, view_eq (hd.newest_self ha hs hK ?_)]
    intro t ht hv
    exact absurd (hnone t ht) hv
  · rcases lt_or_ge a t with hlt | hle
    · rw [view_eq hn, view_eq (hd.newest_of_lt ha hn hlt)]
    · by_cases hK : K k a = none
      · have hself := hd.newest_self ha hs hK fun t' ht' hv => (hn.2.2 t' ht' hv).trans hle
        rw [view_eq hn, view_eq hself, hother t c hn hle hK]
      · have hav : overlay K J k a ≠ none := fun hv => hK (overlay_eq_none.mp hv).1
        have hta : t = a := le_antisymm hle (hn.2.2 a (ha.2.1.trans hs) hav)
        subst hta
        rw [view_eq hn]
        refine (view_eq (t := t) ⟨?_, hn.2.1, ?_⟩).symm
        · obtain ⟨c', hc'⟩ := Option.ne_none_iff_exists'.mp hK
          have hc : c' = c := by simpa [overlay, hc'] using hn.1
          simp [overlay, hc', hc]
        · intro t' ht' hv
          by_cases hH : H k t' = none
          · exact hn.2.2 t' ht' (by simpa [overlay, hH] using hv)
          · rcases lt_or_ge h t' with hlt' | hle'
            · exact absurd (hd.2 t' hlt') hH
            · exact ha.2.2 t' hle' hH

theorem view_gc_iff (hF : Founded (overlay K (overlay H J))) (hF' : Founded (overlay K J)) :
    (∀ s, h ≤ s → view (overlay K (overlay (gc h H) J)) k s = view (overlay K (overlay H J)) k s) ↔
      (Drops H h k → view (overlay K J) k h ≠ none →
        view (overlay K (overlay H J)) k h ≠ none) := by
  constructor
  · intro hall hd hv
    rwa [← hall h le_rfl, view_gc_of_drops hd]
  · intro hmask s hs
    by_cases hd : Drops H h k
    · rw [view_gc_of_drops hd]
      exact view_of_drops hF' hd hs (hmask hd)
    · exact view_gc_of_not_drops hF hd hs

theorem view_gc (hF : Founded H) (hs : h ≤ s) : view (gc h H) k s = view H k s := by
  have hempty : view (empty : History κ τ ρ) k h = none := view_eq_none fun _ _ => rfl
  have hfounded : Founded (empty : History κ τ ρ) := fun _ _ => Or.inl fun _ _ => rfl
  have hiff := view_gc_iff (K := empty) (J := empty) (h := h) (k := k) (H := H)
  simp only [empty_overlay, overlay_empty] at hiff
  exact (hiff hF hfounded).mpr (fun _ hv => absurd hempty hv) s hs

end Layer

end CoroDB.Framework.History
