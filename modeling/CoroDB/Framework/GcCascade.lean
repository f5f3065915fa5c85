import CoroDB.Framework.VersionGc

/-!
# Cascades of the version pass

A cascade merges one layer after the other into an accumulated layer and runs the version pass after
every merge.
-/

namespace CoroDB.Framework.History

variable {κ τ ρ : Type*}

def overlays (Ls : List (History κ τ ρ)) : History κ τ ρ := Ls.foldr overlay empty

@[simp] theorem overlays_nil : overlays ([] : List (History κ τ ρ)) = empty := rfl

@[simp] theorem overlays_cons (L : History κ τ ρ) (Ls : List (History κ τ ρ)) :
    overlays (L :: Ls) = overlay L (overlays Ls) := rfl

theorem overlays_append (Ls Ms : List (History κ τ ρ)) :
    overlays (Ls ++ Ms) = overlay (overlays Ls) (overlays Ms) := by
  induction Ls with
  | nil => simp
  | cons L Ls ih => simp [ih, overlay_assoc]

variable [LinearOrder τ]

noncomputable def cascadeGc (h : τ) (H : History κ τ ρ) : List (History κ τ ρ) → History κ τ ρ
  | [] => H
  | L :: Ls => cascadeGc h (gc h (overlay H L)) Ls

theorem cascadeGc_concat (h : τ) (H L : History κ τ ρ) (Ls : List (History κ τ ρ)) :
    cascadeGc h H (Ls ++ [L]) = gc h (overlay (cascadeGc h H Ls) L) := by
  induction Ls generalizing H with
  | nil => rfl
  | cons M Ls ih => exact ih _

theorem Founded.empty : Founded (empty : History κ τ ρ) := fun _ _ => .inl fun _ _ => rfl

theorem Founded.overlays {Ls : List (History κ τ ρ)} (h : ∀ L ∈ Ls, Founded L) :
    Founded (overlays Ls) := by
  induction Ls with
  | nil => exact Founded.empty
  | cons L Ls ih =>
    exact (h L List.mem_cons_self).overlay (ih fun M hM => h M (List.mem_cons_of_mem _ hM))

section Pass

variable {A B K P : History κ τ ρ} {h : τ} {k : κ}

theorem Founded.gc (hA : Founded A) : Founded (gc h A) := by
  intro k s
  by_cases hd : Drops A h k
  · exact .inl fun t _ => gc_of_drops hd t
  · rcases le_total h s with hs | hs
    · rcases hA k s with hn | ⟨t, c, hn⟩
      · left
        intro t ht
        by_contra hv
        obtain ⟨c, hc⟩ := Option.ne_none_iff_exists'.mp hv
        exact absurd (hn t ht) (by simp [(gc_eq_some hc).1])
      · have := IsNewest.gc (K := History.empty) (J := History.empty) (by simpa using hn) hd hs
        exact .inr ⟨t, c, by simpa using this⟩
    · rcases hA k h with hn | ⟨a, c, ha⟩
      · exact .inl fun t ht => by rw [gc_of_forall_none hn, hn t (ht.trans hs)]
      · have hgc := gc_of_isNewest ha hd
        by_cases has : a ≤ s
        · refine .inr ⟨a, c, by rw [hgc, if_pos (.inr rfl), ha.1], has, fun t ht hv => ?_⟩
          rw [hgc] at hv
          by_contra hne
          rw [if_neg] at hv
          · exact hv rfl
          · rintro (hlt | rfl)
            · exact absurd (ht.trans hs) (not_le.mpr hlt)
            · exact hne le_rfl
        · refine .inl fun t ht => ?_
          rw [hgc, if_neg]
          rintro (hlt | rfl)
          · exact absurd (ht.trans hs) (not_le.mpr hlt)
          · exact has ht

theorem drops_congr (hk : A k = B k) : Drops A h k ↔ Drops B h k := by
  simp only [Drops, IsNewest, hk]

theorem drops_overlay (hA : Drops A h k) (hB : Drops B h k) : Drops (overlay A B) h k := by
  obtain ⟨⟨a, ha⟩, hA'⟩ := hA
  obtain ⟨⟨b, hb⟩, hB'⟩ := hB
  refine ⟨?_, fun t ht => by simp [overlay_eq_none, hA' t ht, hB' t ht]⟩
  have hle : ∀ t, t ≤ h → overlay A B k t ≠ none → t ≤ max a b := by
    intro t ht hv
    by_cases hn : A k t = none
    · exact (hb.2.2 t ht (by simpa [overlay, hn] using hv)).trans (le_max_right a b)
    · exact (ha.2.2 t ht hn).trans (le_max_left a b)
  rcases le_total b a with hba | hab
  · exact ⟨a, by simp [overlay, ha.1], ha.2.1, fun t ht hv => max_eq_left hba ▸ hle t ht hv⟩
  · refine ⟨b, ?_, hb.2.1, fun t ht hv => max_eq_right hab ▸ hle t ht hv⟩
    cases hAb : A k b with
    | none => simp [overlay, hAb, hb.1]
    | some c =>
      have : b = a := le_antisymm (ha.2.2 b hb.2.1 (by simp [hAb])) hab
      simp [overlay, this, ha.1]

theorem drops_of_gc_overlay (hF : Founded (overlay A B)) (hd : Drops (overlay (gc h A) B) h k) :
    Drops (overlay A B) h k := by
  by_cases hA : Drops A h k
  · refine drops_overlay hA ((drops_congr ?_).mp hd)
    funext t
    simp [overlay, gc_of_drops hA]
  · obtain ⟨⟨a, ha⟩, habove⟩ := hd
    constructor
    · rcases hF k h with hn | ⟨t, c, hn⟩
      · refine absurd (gc_le empty A B h ?_) (by simpa using hn a ha.2.1)
        simp [ha.1]
      · have := IsNewest.gc (K := empty) (by simpa using hn) hA le_rfl
        obtain ⟨rfl, rfl⟩ := ha.unique (by simpa using this)
        exact ⟨a, hn⟩
    · intro t ht
      have := habove t ht
      simpa [overlay, gc_of_keeps (H := A) ⟨hA, .inl ht⟩] using this

theorem drops_gc_overlay_or (hd : Drops (overlay A B) h k) :
    Drops (overlay (gc h A) B) h k ∨ Drops A h k ∧ ∀ t, ¬ IsNewest B k h t none := by
  by_cases hA : Drops A h k
  · have hB : overlay (gc h A) B k = B k := funext fun t => by simp [overlay, gc_of_drops hA]
    by_cases hdB : Drops B h k
    · exact .inl ((drops_congr hB).mpr hdB)
    · refine .inr ⟨hA, fun t ht => hdB ⟨⟨t, ht⟩, fun u hu => ?_⟩⟩
      exact (overlay_eq_none.mp (hd.2 u hu)).2
  · obtain ⟨⟨a, ha⟩, habove⟩ := hd
    refine .inl ⟨⟨a, ?_⟩, fun t ht => ?_⟩
    · simpa using IsNewest.gc (K := empty) (by simpa using ha) hA le_rfl
    · simpa [overlay, gc_of_keeps (H := A) ⟨hA, .inl ht⟩] using habove t ht

theorem view_overlay_ne_none (hB : Founded B) (hKP : Founded (overlay K P))
    (hnb : ∀ t, ¬ IsNewest B k h t none) (hv : view (overlay K P) k h ≠ none) :
    view (overlay K (overlay B P)) k h ≠ none := by
  rcases hB k h with hnone | ⟨b, d, hb⟩
  · have : view (overlay K (overlay B P)) k h = view (overlay K P) k h :=
      view_congr fun t ht => by simp [overlay, hnone t ht]
    rwa [this]
  · have hd : d ≠ none := fun hd => hnb b (hd ▸ hb)
    rcases hKP k h with hnone | ⟨t, c, hn⟩
    · exact absurd (view_eq_none hnone) hv
    · have hc : c ≠ none := view_eq hn ▸ hv
      have hbound : ∀ u, u ≤ h → overlay K (overlay B P) k u ≠ none → u ≤ max t b := by
        intro u hu hov
        by_cases hBu : B k u = none
        · exact (hn.2.2 u hu (by simpa [overlay, hBu] using hov)).trans (le_max_left t b)
        · exact (hb.2.2 u hu hBu).trans (le_max_right t b)
      rcases lt_or_ge t b with hlt | hle
      · have hKb : K k b = none := by
          by_contra hK
          exact absurd (hn.2.2 b hb.2.1 fun h0 => hK (overlay_eq_none.mp h0).1) (not_le.mpr hlt)
        rwa [view_eq (t := b) (c := d) ⟨by simp [overlay, hKb, hb.1], hb.2.1,
          fun u hu hov => max_eq_right hlt.le ▸ hbound u hu hov⟩]
      · have hmax : ∀ u, u ≤ h → overlay K (overlay B P) k u ≠ none → u ≤ t :=
          fun u hu hov => max_eq_left hle ▸ hbound u hu hov
        cases hK : K k t with
        | some c' =>
          have hc' : c' = c := by simpa [overlay, hK] using hn.1
          rwa [view_eq (t := t) (c := c) ⟨by simp [overlay, hK, hc'], hn.2.1, hmax⟩]
        | none =>
          cases hBt : B k t with
          | none =>
            rwa [view_eq (t := t) (c := c)
              ⟨by simpa [overlay, hK, hBt] using hn.1, hn.2.1, hmax⟩]
          | some d' =>
            have hbt : t = b := le_antisymm (hb.2.2 t hn.2.1 (by simp [hBt])) hle
            subst hbt
            have hd' : d' = d := Option.some.inj (hBt.symm.trans hb.1)
            rwa [view_eq (t := t) (c := d)
              ⟨by simp [overlay, hK, hBt, hd'], hn.2.1, hmax⟩]

end Pass

/-- Every pass of the cascade keeps the reads of `k`: no merged part of the layers `Ls` under `H`
ends in a lone deletion of `k` that hides a value of the layers around it. -/
def CascadeSafe (K J : History κ τ ρ) (h : τ) (H : History κ τ ρ) (Ls : List (History κ τ ρ))
    (k : κ) : Prop :=
  ∀ pre post, Ls = pre ++ post → pre ≠ [] → Drops (overlay H (overlays pre)) h k →
    view (overlay K (overlay (overlays post) J)) k h ≠ none →
      view (overlay K (overlay H (overlay (overlays Ls) J))) k h ≠ none

theorem CascadeSafe.of_view {K J : History κ τ ρ} {h : τ} {H : History κ τ ρ}
    {Ls : List (History κ τ ρ)} {k : κ}
    (hv : view (overlay K (overlay H (overlay (overlays Ls) J))) k h ≠ none) :
    CascadeSafe K J h H Ls k :=
  fun _ _ _ _ _ _ => hv

section Cascade

variable {K J : History κ τ ρ} {h : τ} {k : κ}

theorem cascadeSafe_cons {H L : History κ τ ρ} {Ls : List (History κ τ ρ)}
    (hK : Founded K) (hJ : Founded J) (hH : Founded H) (hL : Founded L)
    (hLs : ∀ M ∈ Ls, Founded M) :
    CascadeSafe K J h H (L :: Ls) k ↔
      (∀ s, h ≤ s → view (overlay K (overlay (gc h (overlay H L)) (overlay (overlays Ls) J))) k s =
        view (overlay K (overlay H (overlay (overlays (L :: Ls)) J))) k s) ∧
      CascadeSafe K J h (gc h (overlay H L)) Ls k := by
  have hA := hH.overlay hL
  have hP := (Founded.overlays hLs).overlay hJ
  have hassoc : overlay H (overlay (overlays (L :: Ls)) J) =
      overlay (overlay H L) (overlay (overlays Ls) J) := by
    simp [overlay_assoc]
  have hstep := view_gc_iff (k := k) (h := h) (hK.overlay (hA.overlay hP)) (hK.overlay hP)
  rw [hassoc, hstep]
  constructor
  · intro hsafe
    have hfirst := hsafe [L] Ls rfl (by simp)
    rw [hassoc, overlays_cons, overlays_nil, overlay_empty] at hfirst
    refine ⟨hfirst, ?_⟩
    rintro pre post rfl hpre hd hv
    rw [hstep.mpr hfirst h le_rfl]
    have hFpre := Founded.overlays fun M hM => hLs M (List.mem_append_left _ hM)
    have hrest := hsafe (L :: pre) post rfl (by simp)
    rw [hassoc, overlays_cons, ← overlay_assoc] at hrest
    exact hrest (drops_of_gc_overlay (hA.overlay hFpre) hd) hv
  · rintro ⟨hfirst, hsafe⟩ pre post hsplit hpre hd hv
    rw [hassoc]
    obtain ⟨pre, rfl⟩ : ∃ pre', pre = L :: pre' := by
      cases pre with
      | nil => exact absurd rfl hpre
      | cons M pre => exact ⟨pre, by rw [(List.cons.inj hsplit).1]⟩
    obtain rfl : Ls = pre ++ post := (List.cons.inj hsplit).2
    rw [overlays_cons, ← overlay_assoc] at hd
    by_cases hnil : pre = []
    · subst hnil
      exact hfirst (by simpa using hd) (by simpa using hv)
    · have hFpre := Founded.overlays fun M hM => hLs M (List.mem_append_left _ hM)
      have hFpost := Founded.overlays fun M hM => hLs M (List.mem_append_right _ hM)
      rcases drops_gc_overlay_or hd with hd | ⟨hdA, hnb⟩
      · rw [← hstep.mpr hfirst h le_rfl]
        exact hsafe pre post rfl hnil hd hv
      · apply hfirst hdA
        have := view_overlay_ne_none hFpre (hK.overlay (hFpost.overlay hJ)) hnb hv
        rwa [overlays_append, overlay_assoc]

theorem view_cascadeGc_iff {H : History κ τ ρ} {Ls : List (History κ τ ρ)} (hK : Founded K)
    (hJ : Founded J) (hH : Founded H) (hLs : ∀ M ∈ Ls, Founded M) :
    (∀ s, h ≤ s → view (overlay K (overlay (cascadeGc h H Ls) J)) k s =
      view (overlay K (overlay H (overlay (overlays Ls) J))) k s) ↔ CascadeSafe K J h H Ls k := by
  induction Ls generalizing H with
  | nil =>
    refine iff_of_true (fun s _ => by simp [cascadeGc]) ?_
    intro pre post hsplit hpre
    exact absurd (List.append_eq_nil_iff.mp hsplit.symm).1 hpre
  | cons L Ls ih =>
    have hL := hLs L List.mem_cons_self
    have hLs' : ∀ M ∈ Ls, Founded M := fun M hM => hLs M (List.mem_cons_of_mem _ hM)
    have ih := ih (H := gc h (overlay H L)) (hH.overlay hL).gc hLs'
    rw [cascadeSafe_cons hK hJ hH hL hLs', ← ih]
    constructor
    · intro htotal
      have hstep : ∀ s, h ≤ s →
          view (overlay K (overlay (gc h (overlay H L)) (overlay (overlays Ls) J))) k s =
            view (overlay K (overlay H (overlay (overlays (L :: Ls)) J))) k s := by
        by_cases hv : view (overlay K (overlay (gc h (overlay H L))
            (overlay (overlays Ls) J))) k h = none
        · have hP := (Founded.overlays hLs').overlay hJ
          have hassoc : overlay H (overlay (overlays (L :: Ls)) J) =
              overlay (overlay H L) (overlay (overlays Ls) J) := by
            simp [overlay_assoc]
          rw [hassoc]
          refine (view_gc_iff (hK.overlay ((hH.overlay hL).overlay hP)) (hK.overlay hP)).mpr ?_
          intro hd hne
          exact absurd (view_gc_of_drops hd ▸ hv) hne
        · exact fun s hs => (ih.mpr (CascadeSafe.of_view hv) s hs).symm.trans (htotal s hs)
      exact ⟨hstep, fun s hs => (htotal s hs).trans (hstep s hs).symm⟩
    · rintro ⟨hstep, hrest⟩ s hs
      exact (hrest s hs).trans (hstep s hs)

end Cascade

end CoroDB.Framework.History
