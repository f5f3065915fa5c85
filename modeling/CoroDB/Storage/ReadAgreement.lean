import CoroDB.Storage.Readers

/-!
# The streaming scan and the agreement of the read paths

`scan_visible_stream` merges the sources lazily: it finds the least key among their heads and consumes
all versions of it.
-/

namespace CoroDB

open Framework

section Stream

def lesserHead (least : Option MemEntry) (src : List MemEntry) : Option MemEntry :=
  match src, least with
  | [], least => least
  | e :: _, none => some e
  | e :: _, some b => if mvccLess e b then some e else some b

def minHead (srcs : List (List MemEntry)) : Option MemEntry := srcs.foldl lesserHead none

/-- Take the newest of the heads with the key off its source, the first on a tie. -/
def takeNewest (pk : Value) : List (List MemEntry) → Option (MemEntry × List (List MemEntry))
  | [] => none
  | [] :: srcs => (takeNewest pk srcs).map fun p => (p.1, [] :: p.2)
  | (e :: es) :: srcs =>
    match takeNewest pk srcs with
    | none => if valueEq e.pk pk then some (e, es :: srcs) else none
    | some (x, srcs') =>
      if valueEq e.pk pk && !decide (e.commitTs < x.commitTs) then some (e, es :: srcs)
      else some (x, (e :: es) :: srcs')

/-- Consume the versions of a key from the newest down, and choose the first up to the snapshot.
Every round takes one entry off, so as many rounds as entries are enough. -/
def consumeKey (pk : Value) (s : UInt64) : Nat → Option MemEntry → List (List MemEntry) →
    Option MemEntry × List (List MemEntry)
  | 0, chosen, srcs => (chosen, srcs)
  | fuel + 1, chosen, srcs =>
    match takeNewest pk srcs with
    | none => (chosen, srcs)
    | some (e, srcs') =>
      consumeKey pk s fuel (chosen.or (if e.commitTs ≤ s then some e else none)) srcs'

/-- The rows of the stream; no result when the rounds are not enough. -/
def streamLoop (s : UInt64) (fuel : Nat) (srcs : List (List MemEntry)) : Option (List Row) :=
  match minHead srcs with
  | none => some []
  | some e =>
    match fuel with
    | 0 => none
    | fuel + 1 =>
      let (chosen, srcs') := consumeKey e.pk s srcs.flatten.length none srcs
      (streamLoop s fuel srcs').map ((chosen.bind visibleRow).toList ++ ·)

def scanVisibleStream (memtable : List MemEntry) (f : LevelFiles) (s : UInt64) (fuel : Nat) :
    Option (List Row) :=
  streamLoop s fuel (sources memtable f)

end Stream

section Heads

variable {srcs : List (List MemEntry)}

theorem lesserHead_eq_none {least : Option MemEntry} {src : List MemEntry} :
    lesserHead least src = none ↔ least = none ∧ src = [] := by
  cases src <;> cases least <;> simp only [lesserHead]
  · simp
  · simp
  · simp
  · split_ifs <;> simp

theorem foldl_lesserHead_eq_none {least : Option MemEntry} :
    srcs.foldl lesserHead least = none ↔ least = none ∧ ∀ src ∈ srcs, src = [] := by
  induction srcs generalizing least with
  | nil => simp
  | cons src srcs ih => simp [ih, lesserHead_eq_none, and_assoc]

theorem minHead_eq_none : minHead srcs = none ↔ ∀ src ∈ srcs, src = [] := by
  simp [minHead, foldl_lesserHead_eq_none]

theorem lesserHead_spec {least : Option MemEntry} {src : List MemEntry} {e : MemEntry}
    (hl : ∀ b ∈ least, b.pk.isNaN = false) (hs : Ordered src) (h : lesserHead least src = some e) :
    (least = some e ∨ src.head? = some e) ∧
      ∀ x, least = some x ∨ src.head? = some x → valueKey e.pk ≤ valueKey x.pk := by
  cases src with
  | nil =>
    rw [lesserHead] at h
    simp [h]
  | cons a src =>
    cases least with
    | none =>
      obtain rfl : a = e := by simpa [lesserHead] using h
      simp
    | some b =>
      have hlt := mvccLess_decides a b (hs a List.mem_cons_self) (hl b rfl)
      rw [lesserHead] at h
      split_ifs at h with hab
      · obtain rfl := Option.some.inj h
        refine ⟨.inr rfl, ?_⟩
        rintro x (hx | hx) <;> obtain rfl := Option.some.inj hx
        · exact (hlt.mp hab).elim le_of_lt fun h => h.1.le
        · exact le_rfl
      · obtain rfl := Option.some.inj h
        refine ⟨.inl rfl, ?_⟩
        rintro x (hx | hx) <;> obtain rfl := Option.some.inj hx
        · exact le_rfl
        · exact not_lt.mp fun hlt' => hab (hlt.mpr (.inl hlt'))

theorem foldl_lesserHead_spec {least : Option MemEntry} {e : MemEntry}
    (hl : ∀ b ∈ least, b.pk.isNaN = false) (ho : ∀ src ∈ srcs, Ordered src)
    (h : srcs.foldl lesserHead least = some e) :
    (least = some e ∨ ∃ src ∈ srcs, src.head? = some e) ∧
      ∀ x, (least = some x ∨ ∃ src ∈ srcs, src.head? = some x) →
        valueKey e.pk ≤ valueKey x.pk := by
  induction srcs generalizing least with
  | nil =>
    obtain rfl : least = some e := h
    simp
  | cons src srcs ih =>
    have hsrc := ho src List.mem_cons_self
    have hl' : ∀ b ∈ lesserHead least src, b.pk.isNaN = false := by
      intro b hb
      rcases (lesserHead_spec hl hsrc hb).1 with h | h
      · exact hl b h
      · exact hsrc b (List.mem_of_head? h)
    obtain ⟨hmem, hmin⟩ := ih hl' (fun t ht => ho t (List.mem_cons_of_mem src ht)) h
    constructor
    · rcases hmem with hmem | ⟨t, ht, hh⟩
      · rcases (lesserHead_spec hl hsrc hmem).1 with h | h
        · exact .inl h
        · exact .inr ⟨src, List.mem_cons_self, h⟩
      · exact .inr ⟨t, List.mem_cons_of_mem src ht, hh⟩
    · have hhead : ∀ x, least = some x ∨ src.head? = some x → valueKey e.pk ≤ valueKey x.pk := by
        intro x hx
        cases hb : lesserHead least src with
        | none =>
          obtain ⟨rfl, rfl⟩ := lesserHead_eq_none.mp hb
          simp at hx
        | some b => exact (hmin b (.inl hb)).trans ((lesserHead_spec hl hsrc hb).2 x hx)
      rintro x (hx | ⟨t, ht, hh⟩)
      · exact hhead x (.inl hx)
      · rcases List.mem_cons.mp ht with rfl | ht
        · exact hhead x (.inr hh)
        · exact hmin x (.inr ⟨t, ht, hh⟩)

theorem minHead_le {e : MemEntry} (ho : Ordered srcs.flatten)
    (hs : ∀ src ∈ srcs, SortedVersions src) (h : minHead srcs = some e) :
    e ∈ srcs.flatten ∧ ∀ x ∈ srcs.flatten, valueKey e.pk ≤ valueKey x.pk := by
  have hord : ∀ src ∈ srcs, Ordered src :=
    fun src hsrc x hx => ho x (List.mem_flatten_of_mem hsrc hx)
  obtain ⟨hmem, hmin⟩ := foldl_lesserHead_spec (by simp) hord h
  constructor
  · obtain ⟨src, hsrc, hh⟩ := hmem.resolve_left (by simp)
    exact List.mem_flatten_of_mem hsrc (List.mem_of_head? hh)
  · intro x hx
    obtain ⟨src, hsrc, hx⟩ := List.mem_flatten.mp hx
    cases src with
    | nil => simp at hx
    | cons a src =>
      refine (hmin a (.inr ⟨a :: src, hsrc, rfl⟩)).trans ?_
      rcases List.mem_cons.mp hx with rfl | hx
      · exact le_rfl
      · exact (hs _ hsrc).key_le hx

end Heads

section Consume

variable {pk : Value} {s : UInt64} {srcs : List (List MemEntry)}

theorem takeNewest_eq_none (h : takeNewest pk srcs = none) :
    ∀ src ∈ srcs, ∀ e, src.head? = some e → valueEq e.pk pk = false := by
  induction srcs with
  | nil => simp
  | cons src srcs ih =>
    cases src with
    | nil =>
      rw [takeNewest, Option.map_eq_none_iff] at h
      simpa using ih h
    | cons a src =>
      rw [takeNewest] at h
      cases hn : takeNewest pk srcs with
      | none =>
        rw [hn] at h
        have ha : valueEq a.pk pk = false := by simpa using h
        intro t ht e he
        rcases List.mem_cons.mp ht with rfl | ht
        · rwa [← Option.some.inj he]
        · exact ih hn t ht e he
      | some p =>
        rw [hn] at h
        simp only at h
        split_ifs at h

/-- What is taken is the newest head of the key, and only that. -/
theorem takeNewest_eq_some {e : MemEntry} {srcs' : List (List MemEntry)}
    (h : takeNewest pk srcs = some (e, srcs')) :
    valueEq e.pk pk = true ∧
      (∃ left es right, srcs = left ++ (e :: es) :: right ∧ srcs' = left ++ es :: right) ∧
      ∀ src ∈ srcs, ∀ x, src.head? = some x → valueEq x.pk pk = true →
        x.commitTs ≤ e.commitTs := by
  induction srcs generalizing e srcs' with
  | nil => simp [takeNewest] at h
  | cons src srcs ih =>
    cases src with
    | nil =>
      rw [takeNewest] at h
      obtain ⟨⟨x, rest⟩, hp, heq⟩ := Option.map_eq_some_iff.mp h
      obtain ⟨rfl, rfl⟩ := Prod.mk.inj heq
      obtain ⟨hpk, ⟨left, es, right, rfl, rfl⟩, hmax⟩ := ih hp
      exact ⟨hpk, ⟨[] :: left, es, right, rfl, rfl⟩, by simpa using hmax⟩
    | cons a src =>
      rw [takeNewest] at h
      cases hn : takeNewest pk srcs with
      | none =>
        have hnone := takeNewest_eq_none hn
        simp only [hn] at h
        split_ifs at h with ha
        obtain ⟨rfl, rfl⟩ := Prod.mk.inj (Option.some.inj h)
        refine ⟨ha, ⟨[], src, srcs, rfl, rfl⟩, ?_⟩
        intro t ht x hx hxpk
        rcases List.mem_cons.mp ht with rfl | ht
        · rw [Option.some.inj hx]
        · simp [hnone t ht x hx] at hxpk
      | some p =>
        obtain ⟨y, rest⟩ := p
        obtain ⟨hpk, ⟨left, es, right, hsrcs, hrest⟩, hmax⟩ := ih hn
        simp only [hn] at h
        split_ifs at h with ha
        · obtain ⟨rfl, rfl⟩ := Prod.mk.inj (Option.some.inj h)
          obtain ⟨hapk, hle⟩ := Bool.and_eq_true_iff.mp ha
          have hya : y.commitTs ≤ a.commitTs := by simpa using hle
          refine ⟨hapk, ⟨[], src, srcs, rfl, rfl⟩, ?_⟩
          intro t ht x hx hxpk
          rcases List.mem_cons.mp ht with rfl | ht
          · rw [Option.some.inj hx]
          · exact (hmax t ht x hx hxpk).trans hya
        · obtain ⟨rfl, rfl⟩ := Prod.mk.inj (Option.some.inj h)
          refine ⟨hpk, ⟨(a :: src) :: left, es, right, by rw [hsrcs]; rfl, by rw [hrest]; rfl⟩, ?_⟩
          intro t ht x hx hxpk
          rcases List.mem_cons.mp ht with rfl | ht
          · obtain rfl := Option.some.inj hx
            have : a.commitTs < y.commitTs := by simpa [hxpk] using ha
            exact this.le
          · exact hmax t ht x hx hxpk

def leading (pk : Value) (srcs : List (List MemEntry)) : List MemEntry :=
  srcs.flatMap (List.takeWhile fun e => valueEq e.pk pk)

def trailing (pk : Value) (srcs : List (List MemEntry)) : List (List MemEntry) :=
  srcs.map (List.dropWhile fun e => valueEq e.pk pk)

theorem leading_trailing_of_no_head
    (h : ∀ src ∈ srcs, ∀ e, src.head? = some e → valueEq e.pk pk = false) :
    leading pk srcs = [] ∧ trailing pk srcs = srcs := by
  have hsrc : ∀ src ∈ srcs, (src.takeWhile fun e => valueEq e.pk pk) = [] ∧
      (src.dropWhile fun e => valueEq e.pk pk) = src := by
    intro src hmem
    cases src with
    | nil => simp
    | cons a src => simp [h _ hmem a rfl]
  constructor
  · rw [leading, List.flatMap_eq_nil_iff]
    exact fun src hmem => (hsrc src hmem).1
  · rw [trailing]
    exact (List.map_congr_left fun src hmem => (hsrc src hmem).2).trans (List.map_id srcs)

theorem trailing_of_take {e : MemEntry} {left right : List (List MemEntry)} {es : List MemEntry}
    (he : valueEq e.pk pk = true) :
    trailing pk (left ++ (e :: es) :: right) = trailing pk (left ++ es :: right) := by
  simp [trailing, he]

theorem mem_leading_of_take {e : MemEntry} (he : valueEq e.pk pk = true) (es : List MemEntry)
    (left right : List (List MemEntry)) (x : MemEntry) :
    x ∈ leading pk (left ++ (e :: es) :: right) ↔ x = e ∨ x ∈ leading pk (left ++ es :: right) := by
  simp only [leading, List.flatMap_append, List.flatMap_cons, List.takeWhile_cons, he, if_true,
    List.mem_append, List.mem_cons]
  tauto

/-- The entry chosen of some is their newest up to the snapshot. -/
def IsChosen (s : UInt64) (es : List MemEntry) : Option MemEntry → Prop
  | none => ∀ x ∈ es, s < x.commitTs
  | some e => e ∈ es ∧ e.commitTs ≤ s ∧ ∀ x ∈ es, x.commitTs ≤ s → x.commitTs ≤ e.commitTs

/-- The entries of the key at the front of every source come from the newest down. -/
def Descending (pk : Value) (srcs : List (List MemEntry)) : Prop :=
  ∀ src ∈ srcs, (src.takeWhile fun e => valueEq e.pk pk).Pairwise
    fun a b => b.commitTs < a.commitTs

theorem Descending.of_take {e : MemEntry} {left right : List (List MemEntry)} {es : List MemEntry}
    (he : valueEq e.pk pk = true) (h : Descending pk (left ++ (e :: es) :: right)) :
    Descending pk (left ++ es :: right) := by
  intro src hsrc
  rcases List.mem_append.mp hsrc with hsrc | hsrc
  · exact h src (List.mem_append_left _ hsrc)
  · rcases List.mem_cons.mp hsrc with rfl | hsrc
    · have := h (e :: src) (by simp)
      simp only [List.takeWhile_cons, he, if_true] at this
      exact (List.pairwise_cons.mp this).2
    · exact h src (List.mem_append_right _ (List.mem_cons_of_mem _ hsrc))

theorem Descending.le_of_heads {e : MemEntry} (h : Descending pk srcs)
    (hmax : ∀ src ∈ srcs, ∀ x, src.head? = some x → valueEq x.pk pk = true →
      x.commitTs ≤ e.commitTs) :
    ∀ x ∈ leading pk srcs, x.commitTs ≤ e.commitTs := by
  intro x hx
  obtain ⟨src, hsrc, hx⟩ := List.mem_flatMap.mp hx
  cases src with
  | nil => simp at hx
  | cons a src =>
    have hdesc := h _ hsrc
    by_cases ha : valueEq a.pk pk = true
    · have hle := hmax _ hsrc a rfl ha
      simp only [List.takeWhile_cons, ha, if_true] at hx hdesc
      rcases List.mem_cons.mp hx with rfl | hx
      · exact hle
      · exact ((List.pairwise_cons.mp hdesc).1 x hx).le.trans hle
    · simp [ha] at hx

theorem flatten_length_of_take {e : MemEntry} {left right : List (List MemEntry)}
    {es : List MemEntry} :
    (left ++ (e :: es) :: right).flatten.length = (left ++ es :: right).flatten.length + 1 := by
  simp only [List.flatten_append, List.flatten_cons, List.length_append, List.length_cons]
  omega

theorem consumeKey_snd {fuel : Nat} (hfuel : srcs.flatten.length ≤ fuel) (chosen : Option MemEntry) :
    (consumeKey pk s fuel chosen srcs).2 = trailing pk srcs := by
  induction fuel generalizing srcs chosen with
  | zero =>
    have hnil : ∀ src ∈ srcs, src = [] :=
      List.flatten_eq_nil_iff.mp (List.length_eq_zero_iff.mp (Nat.le_zero.mp hfuel))
    refine (leading_trailing_of_no_head fun src hsrc e he => ?_).2.symm
    simp [hnil src hsrc] at he
  | succ fuel ih =>
    rw [consumeKey]
    cases hn : takeNewest pk srcs with
    | none => exact (leading_trailing_of_no_head (takeNewest_eq_none hn)).2.symm
    | some p =>
      obtain ⟨e, srcs'⟩ := p
      obtain ⟨he, ⟨left, es, right, rfl, rfl⟩, -⟩ := takeNewest_eq_some hn
      rw [flatten_length_of_take] at hfuel
      exact (ih (Nat.le_of_succ_le_succ hfuel) _).trans (trailing_of_take he).symm

theorem consumeKey_some (e : MemEntry) (fuel : Nat) :
    (consumeKey pk s fuel (some e) srcs).1 = some e := by
  induction fuel generalizing srcs with
  | zero => rfl
  | succ fuel ih =>
    rw [consumeKey]
    cases takeNewest pk srcs with
    | none => rfl
    | some p => exact ih

theorem consumeKey_isChosen {fuel : Nat} (hfuel : srcs.flatten.length ≤ fuel)
    (hd : Descending pk srcs) :
    IsChosen s (leading pk srcs) (consumeKey pk s fuel none srcs).1 := by
  induction fuel generalizing srcs with
  | zero =>
    have hnil : srcs.flatten = [] := List.length_eq_zero_iff.mp (Nat.le_zero.mp hfuel)
    intro x hx
    obtain ⟨src, hsrc, hx⟩ := List.mem_flatMap.mp hx
    rw [List.flatten_eq_nil_iff.mp hnil src hsrc] at hx
    simp at hx
  | succ fuel ih =>
    rw [consumeKey]
    cases hn : takeNewest pk srcs with
    | none =>
      rw [(leading_trailing_of_no_head (takeNewest_eq_none hn)).1]
      exact fun x hx => absurd hx List.not_mem_nil
    | some p =>
      obtain ⟨e, srcs'⟩ := p
      obtain ⟨he, ⟨left, es, right, rfl, rfl⟩, hmax⟩ := takeNewest_eq_some hn
      have hmem := mem_leading_of_take he es left right
      have hle := hd.le_of_heads hmax
      rw [flatten_length_of_take] at hfuel
      simp only [Option.none_or]
      split_ifs with hes
      · rw [consumeKey_some]
        exact ⟨(hmem e).mpr (.inl rfl), hes, fun x hx _ => hle x hx⟩
      · have hrest := ih (Nat.le_of_succ_le_succ hfuel) (hd.of_take he)
        cases hc : (consumeKey pk s fuel none (left ++ es :: right)).1 with
        | none =>
          rw [hc] at hrest
          intro x hx
          rcases (hmem x).mp hx with rfl | hx
          · exact not_le.mp hes
          · exact hrest x hx
        | some c =>
          rw [hc] at hrest
          refine ⟨(hmem c).mpr (.inr hrest.1), hrest.2.1, fun x hx hxs => ?_⟩
          rcases (hmem x).mp hx with rfl | hx
          · exact absurd hxs hes
          · exact hrest.2.2 x hx hxs

end Consume

section Loop

variable {s : UInt64} {srcs : List (List MemEntry)} {e : MemEntry}

theorem streamLoop_of_none {fuel : Nat} (h : minHead srcs = none) :
    streamLoop s fuel srcs = some [] := by
  rw [streamLoop, h]

theorem streamLoop_zero (h : minHead srcs = some e) : streamLoop s 0 srcs = none := by
  rw [streamLoop, h]

theorem streamLoop_succ {fuel : Nat} (h : minHead srcs = some e) :
    streamLoop s (fuel + 1) srcs =
      (streamLoop s fuel (trailing e.pk srcs)).map
        (((consumeKey e.pk s srcs.flatten.length none srcs).1.bind visibleRow).toList ++ ·) := by
  rw [streamLoop, h]
  simp only [consumeKey_snd le_rfl]

theorem streamLoop_of_isNaN (h : ∃ x ∈ srcs.flatten, x.pk.isNaN = true) (fuel : Nat) :
    streamLoop s fuel srcs = none := by
  induction fuel generalizing srcs with
  | zero =>
    cases hm : minHead srcs with
    | some e => exact streamLoop_zero hm
    | none =>
      obtain ⟨x, hx, -⟩ := h
      rw [List.flatten_eq_nil_iff.mpr (minHead_eq_none.mp hm)] at hx
      simp at hx
  | succ fuel ih =>
    obtain ⟨x, hx, hnan⟩ := h
    cases hm : minHead srcs with
    | none =>
      rw [List.flatten_eq_nil_iff.mpr (minHead_eq_none.mp hm)] at hx
      simp at hx
    | some e =>
      rw [streamLoop_succ hm, Option.map_eq_none_iff]
      refine ih ⟨x, ?_, hnan⟩
      obtain ⟨src, hsrc, hx⟩ := List.mem_flatten.mp hx
      refine List.mem_flatten_of_mem (List.mem_map_of_mem hsrc) ?_
      rw [← List.takeWhile_append_dropWhile (p := fun y => valueEq y.pk e.pk) (l := src)] at hx
      refine (List.mem_append.mp hx).resolve_left fun hmem => ?_
      have := List.mem_takeWhile_imp hmem
      simp [valueEq_of_isNaN hnan e.pk] at this

section Ordered

variable (ho : Ordered srcs.flatten) (hs : ∀ src ∈ srcs, SortedVersions src)
  (hm : minHead srcs = some e)

include ho hs hm

private theorem samePk_of_minHead : ∀ src ∈ srcs,
    (∀ x ∈ src, (valueEq x.pk e.pk = true ↔ Versioned.key x = valueKey e.pk)) ∧
      ∀ x ∈ src, valueKey e.pk ≤ Versioned.key x := by
  obtain ⟨hmem, hmin⟩ := minHead_le ho hs hm
  intro src hsrc
  exact ⟨fun x hx => valueEq_iff (ho x (List.mem_flatten_of_mem hsrc hx)) (ho e hmem),
    fun x hx => hmin x (List.mem_flatten_of_mem hsrc hx)⟩

theorem leading_eq_filter :
    leading e.pk srcs = srcs.flatten.filter fun x => valueEq x.pk e.pk := by
  rw [List.filter_flatten, leading, List.flatMap_def]
  refine congrArg List.flatten (List.map_congr_left fun src hsrc => ?_)
  obtain ⟨hp, hk⟩ := samePk_of_minHead ho hs hm src hsrc
  exact takeWhile_eq_filter hp (hs src hsrc) hk

theorem trailing_eq_filter :
    (trailing e.pk srcs).flatten = srcs.flatten.filter fun x => !valueEq x.pk e.pk := by
  rw [List.filter_flatten, trailing]
  refine congrArg List.flatten (List.map_congr_left fun src hsrc => ?_)
  obtain ⟨hp, hk⟩ := samePk_of_minHead ho hs hm src hsrc
  exact dropWhile_eq_filter hp (hs src hsrc) hk

theorem descending_of_sorted : Descending e.pk srcs := by
  intro src hsrc
  obtain ⟨hp, -⟩ := samePk_of_minHead ho hs hm src hsrc
  have hsub := List.takeWhile_sublist (l := src) fun x => valueEq x.pk e.pk
  refine ((hs src hsrc).sublist hsub).imp_of_mem fun {a b} ha hb hab => ?_
  have hsame : ∀ x ∈ src.takeWhile (fun x => valueEq x.pk e.pk), valueEq x.pk e.pk = true :=
    fun x hx => List.mem_takeWhile_imp (p := fun x : MemEntry => valueEq x.pk e.pk) hx
  have hka := (hp a (hsub.subset ha)).mp (hsame a ha)
  have hkb := (hp b (hsub.subset hb)).mp (hsame b hb)
  exact (hab.resolve_left fun h => h.ne (hka.trans hkb.symm)).2

theorem chosen_eq_view (hc : SameCells srcs.flatten srcs.flatten) (r : Row) :
    (consumeKey e.pk s srcs.flatten.length none srcs).1.bind visibleRow = some r ↔
      History.view (History.ofList srcs.flatten) (valueKey e.pk) s = some r ∧ r.values ≠ [] := by
  have hch := consumeKey_isChosen (s := s) le_rfl (descending_of_sorted ho hs hm)
  have hmem := (minHead_le ho hs hm).1
  rw [leading_eq_filter ho hs hm] at hch
  have hsame : ∀ x ∈ srcs.flatten, valueKey x.pk = valueKey e.pk →
      x ∈ srcs.flatten.filter fun x => valueEq x.pk e.pk :=
    fun x hx hk => List.mem_filter.mpr ⟨hx, (valueEq_iff (ho x hx) (ho e hmem)).mpr hk⟩
  cases hcons : (consumeKey e.pk s srcs.flatten.length none srcs).1 with
  | none =>
    rw [hcons] at hch
    have hview : History.view (History.ofList srcs.flatten) (valueKey e.pk) s = none :=
      History.view_eq_none fun t ht => History.ofList_eq_none.mpr fun x hx hk hts =>
        absurd (hch x (hsame x hx hk)) (not_lt.mpr (hts.trans_le ht))
    simp [hview]
  | some c =>
    rw [hcons] at hch
    obtain ⟨hcmem, hcs, hcmax⟩ := hch
    obtain ⟨hcf, hceq⟩ := List.mem_filter.mp hcmem
    have hk : valueKey c.pk = valueKey e.pk := (valueEq_iff (ho c hcf) (ho e hmem)).mp hceq
    have hn := isNewest_of_mem hc hcf hcs fun x hx hkx hxs =>
      hcmax x (hsame x hx (hkx.trans hk)) hxs
    have hview : History.view (History.ofList srcs.flatten) (valueKey e.pk) s = c.content :=
      hk ▸ History.view_eq hn
    rw [hview]
    exact visibleRow_eq_some

end Ordered

private theorem streamLoop_listing_of_none {fuel : Nat} (hm : minHead srcs = none) :
    ∃ rows, streamLoop s fuel srcs = some (rows.map Prod.snd) ∧
      History.Listing (History.ofList srcs.flatten) s (fun r : Row => r.values ≠ []) rows := by
  refine ⟨[], streamLoop_of_none hm, ?_⟩
  rw [List.flatten_eq_nil_iff.mpr (minHead_eq_none.mp hm)]
  exact History.Listing.nil s _

/-- The stream ends within one round for each entry, and lists what the sources show. -/
theorem streamLoop_listing {fuel : Nat} (ho : Ordered srcs.flatten)
    (hs : ∀ src ∈ srcs, SortedVersions src) (hc : SameCells srcs.flatten srcs.flatten)
    (hfuel : srcs.flatten.length ≤ fuel) :
    ∃ rows, streamLoop s fuel srcs = some (rows.map Prod.snd) ∧
      History.Listing (History.ofList srcs.flatten) s (fun r : Row => r.values ≠ []) rows := by
  induction fuel generalizing srcs with
  | zero =>
    have hnil : srcs.flatten = [] := List.length_eq_zero_iff.mp (Nat.le_zero.mp hfuel)
    exact streamLoop_listing_of_none (minHead_eq_none.mpr (List.flatten_eq_nil_iff.mp hnil))
  | succ fuel ih =>
    cases hm : minHead srcs with
    | none => exact streamLoop_listing_of_none hm
    | some e =>
      obtain ⟨hmem, hmin⟩ := minHead_le ho hs hm
      have hrest := trailing_eq_filter ho hs hm
      have hsub : (trailing e.pk srcs).flatten ⊆ srcs.flatten := by
        rw [hrest]
        exact List.filter_subset_self _
      have hne : ∀ x ∈ (trailing e.pk srcs).flatten, valueKey x.pk ≠ valueKey e.pk := by
        intro x hx hk
        rw [hrest, List.mem_filter] at hx
        simp [(valueEq_iff (ho x hx.1) (ho e hmem)).mpr hk] at hx
      have hlen : (trailing e.pk srcs).flatten.length < srcs.flatten.length := by
        rw [hrest, List.length_filter_lt_length_iff_exists]
        exact ⟨e, hmem, by simp [(valueEq_iff (ho e hmem) (ho e hmem)).mpr rfl]⟩
      obtain ⟨rows, hrows, hlist⟩ := ih (ho.subset hsub)
        (fun src hsrc => by
          obtain ⟨t, ht, rfl⟩ := List.mem_map.mp hsrc
          exact (hs t ht).sublist (List.dropWhile_sublist _))
        (hc.subset hsub) (by omega)
      refine ⟨_, ?_, hlist.cons (chosen_eq_view ho hs hm hc) ?_ ?_ ?_⟩
      · rw [streamLoop_succ hm, hrows, Option.map_some, List.map_append, List.map_map]
        simp [Function.comp_def]
      · exact History.view_eq_none fun t _ =>
          History.ofList_eq_none.mpr fun x hx hk => absurd hk (hne x hx)
      · intro k hk
        by_contra hle
        refine hk (History.view_eq_none fun t _ => History.ofList_eq_none.mpr fun x hx hkx => ?_)
        have hxk := hmin x (hsub hx)
        exact absurd (le_antisymm (hkx.le.trans (not_lt.mp hle)) hxk) (hne x hx)
      · intro k hk
        refine History.view_congr fun t _ => ?_
        rw [hrest]
        refine (History.ofList_filter_of_version fun x hx hkx _ => ?_).symm
        have : ¬ valueEq x.pk e.pk = true := by
          rw [valueEq_iff (ho x hx) (ho e hmem)]
          exact fun h => hk (hkx.symm.trans h)
        simpa using this

end Loop

/-- The three read paths give one answer at the snapshot: the stream ends with the rows of the scan,
each is the row of an entry of its key, no key has two, and a lookup finds the row of its key. -/
def ReadPathsAgree (mayContain : Nat → Value → Bool) (memtable : List MemEntry) (f : LevelFiles)
    (s : UInt64) : Prop :=
  ∃ (fuel : Nat) (rows : List (Value × Row)),
    scanVisibleStream memtable f s fuel = some (rows.map Prod.snd) ∧
      scanVisible memtable f s = rows.map Prod.snd ∧
      (∀ p ∈ rows, ∃ e ∈ (sources memtable f).flatten,
        valueEq e.pk p.1 = true ∧ e.content = some p.2) ∧
      rows.Pairwise (fun a b => valueEq a.1 b.1 = false) ∧
      ∀ pk, lookupVisible mayContain memtable f pk s =
        (rows.find? fun p => valueEq p.1 pk).map Prod.snd

/-- Every row without values is hidden at the snapshot by a newer version of its key. -/
def EmptyRowsHidden (es : List MemEntry) (s : UInt64) : Prop :=
  ∀ e ∈ es, e.tombstone = false → e.row.values = [] → e.commitTs ≤ s →
    ∃ e' ∈ es, valueEq e'.pk e.pk = true ∧ e.commitTs < e'.commitTs ∧ e'.commitTs ≤ s

instance (es : List MemEntry) (s : UInt64) : Decidable (EmptyRowsHidden es s) :=
  inferInstanceAs (Decidable (∀ e ∈ es, e.tombstone = false → e.row.values = [] → e.commitTs ≤ s →
    ∃ e' ∈ es, valueEq e'.pk e.pk = true ∧ e.commitTs < e'.commitTs ∧ e'.commitTs ≤ s))

section Agreement

variable {mayContain : Nat → Value → Bool} {memtable : List MemEntry} {f : LevelFiles} {s : UInt64}

theorem emptyRowsHidden_iff {es : List MemEntry} (ho : Ordered es) (hc : SameCells es es) :
    EmptyRowsHidden es s ↔ ∀ k r, History.view (History.ofList es) k s = some r → r.values ≠ [] := by
  constructor
  · intro h k r hv hr
    rcases History.ofList_founded es k s with hnone | ⟨t, c, hn⟩
    · simp [History.view_eq_none hnone] at hv
    · rw [History.view_eq hn] at hv
      subst hv
      obtain ⟨e, he, rfl, rfl, hcell, hes, hmax⟩ := exists_of_isNewest hn
      have htomb : e.tombstone = false := by
        rw [← Bool.not_eq_true, ← content_eq_none]
        exact fun h' => by simp [Versioned.cell, h'] at hcell
      have hrow : e.row = r := by simpa [Versioned.cell, MemEntry.content, htomb] using hcell
      obtain ⟨e', he', hk, hlt, hle⟩ := h e he htomb (hrow ▸ hr) hes
      exact absurd (hmax e' he' ((valueEq_iff (ho e' he') (ho e he)).mp hk) hle) (not_le.mpr hlt)
  · intro h e he htomb hr hes
    by_contra hnot
    have hmax : ∀ e' ∈ es, valueKey e'.pk = valueKey e.pk → e'.commitTs ≤ s →
        e'.commitTs ≤ e.commitTs := fun e' he' hk hle => not_lt.mp fun hlt =>
      hnot ⟨e', he', (valueEq_iff (ho e' he') (ho e he)).mpr hk, hlt, hle⟩
    have hview := History.view_eq (isNewest_of_mem hc he hes hmax)
    exact h _ e.row (by rw [hview]; simp [Versioned.cell, MemEntry.content, htomb]) hr

theorem ofList_considered (hc : SameCells (sources memtable f).flatten (sources memtable f).flatten) :
    History.ofList (considered memtable f) = readHistory memtable f :=
  (ofList_eq_of_mem_iff hc mem_sources_flatten).symm

theorem ordered_considered (ho : Ordered (sources memtable f).flatten) :
    Ordered (considered memtable f) :=
  fun e he => ho e ((mem_sources_flatten e).mpr he)

theorem keyedRows_scanBest_mem (ho : Ordered (sources memtable f).flatten) {p : Value × Row}
    (hp : p ∈ keyedRows (scanBest memtable f s)) :
    p.1.isNaN = false ∧ ∃ e ∈ (sources memtable f).flatten,
      valueEq e.pk p.1 = true ∧ e.content = some p.2 := by
  have hbest := scanBest_bestOf (ordered_considered ho) s
  obtain ⟨b, hb, hmap⟩ := List.mem_filterMap.mp hp
  obtain ⟨r, hr, rfl⟩ := Option.map_eq_some_iff.mp hmap
  obtain ⟨e, he, hk, -, hcell, -⟩ := exists_of_isNewest (hbest.newest b hb)
  have hmem := (mem_sources_flatten e).mpr he
  exact ⟨hbest.ordered b hb, e, hmem, (valueEq_iff (ho e hmem) (hbest.ordered b hb)).mpr hk,
    hcell.trans (visibleRow_eq_some.mp hr).1⟩

theorem scanVisibleStream_eq_scanVisible (ho : Ordered (sources memtable f).flatten)
    (hs : ∀ src ∈ sources memtable f, SortedVersions src)
    (hc : SameCells (sources memtable f).flatten (sources memtable f).flatten) :
    scanVisibleStream memtable f s (sources memtable f).flatten.length =
      some (scanVisible memtable f s) := by
  obtain ⟨rows, hrows, hlist⟩ := streamLoop_listing (s := s) ho hs hc le_rfl
  have hscan := scanVisible_listing (ordered_considered ho) s
  rw [ofList_considered hc] at hscan
  rw [scanVisibleStream, hrows, hlist.unique hscan, List.map_map, scanVisible, ← keyedRows_map_snd]
  rfl

theorem find?_of_listing {H : TableHistory} {rows : List (Value × Row)} {pk : Value}
    (hl : History.Listing H s (fun r : Row => r.values ≠ []) (rows.map fun p => (valueKey p.1, p.2)))
    (hn : ∀ p ∈ rows, p.1.isNaN = false) (hpk : pk.isNaN = false)
    (he : ∀ r, History.view H (valueKey pk) s = some r → r.values ≠ []) :
    (rows.find? fun p => valueEq p.1 pk).map Prod.snd = History.view H (valueKey pk) s := by
  cases hf : rows.find? fun p => valueEq p.1 pk with
  | some p =>
    have hmem := List.mem_of_find?_eq_some hf
    have heq : valueEq p.1 pk = true := by simpa using List.find?_some hf
    have hk := (valueEq_iff (hn p hmem) hpk).mp heq
    rw [← hk, ((hl.mem_iff _ _).mp (List.mem_map_of_mem hmem)).1]
    rfl
  | none =>
    cases hv : History.view H (valueKey pk) s with
    | none => rfl
    | some r =>
      obtain ⟨p, hp, heq⟩ := List.mem_map.mp ((hl.mem_iff _ _).mpr ⟨hv, he r hv⟩)
      have := List.find?_eq_none.mp hf p hp
      exact absurd ((valueEq_iff (hn p hp) hpk).mpr (Prod.mk.inj heq).1) this

/-- The read paths agree exactly when no key is a `NaN` and no row without values is the newest
visible version of its key. -/
theorem readPathsAgree_iff (hs : ∀ src ∈ sources memtable f, Sorted src)
    (hc : Coherent (sources memtable f).flatten) (hb : NoFalseNegatives mayContain f) :
    ReadPathsAgree mayContain memtable f s ↔
      Ordered (sources memtable f).flatten ∧ EmptyRowsHidden (sources memtable f).flatten s := by
  have hsorted : Ordered (sources memtable f).flatten →
      ∀ src ∈ sources memtable f, SortedVersions src := fun ho src hsrc =>
    (sorted_iff fun e he => ho e (List.mem_flatten_of_mem hsrc he)).mp (hs src hsrc)
  constructor
  · rintro ⟨fuel, rows, hstream, hscan, -, -, hlookup⟩
    have ho : Ordered (sources memtable f).flatten := by
      intro e he
      rw [← Bool.not_eq_true]
      intro hnan
      rw [scanVisibleStream, streamLoop_of_isNaN ⟨e, he, hnan⟩] at hstream
      simp at hstream
    have hcells := (coherent_iff ho).mp hc
    refine ⟨ho, (emptyRowsHidden_iff ho hcells).mpr fun k r hv hempty => ?_⟩
    obtain ⟨e, he, rfl, -⟩ := exists_of_view hv
    have hfound := hlookup e.pk
    rw [lookupVisible_eq_view ho (hsorted ho) hb (ho e he)] at hfound
    obtain ⟨p, hp, hrow⟩ := Option.map_eq_some_iff.mp (hfound.symm.trans hv)
    have hmem : r ∈ scanVisible memtable f s := by
      rw [hscan, ← hrow]
      exact List.mem_map_of_mem (List.mem_of_find?_eq_some hp)
    obtain ⟨b, -, hb'⟩ := List.mem_filterMap.mp hmem
    exact (visibleRow_eq_some.mp hb').2 hempty
  · rintro ⟨ho, hempty⟩
    have hcells := (coherent_iff ho).mp hc
    have hlist := scanVisible_listing (ordered_considered ho) s
    rw [ofList_considered hcells] at hlist
    have hrows := fun p hp => keyedRows_scanBest_mem (s := s) (p := p) ho hp
    refine ⟨_, keyedRows (scanBest memtable f s),
      scanVisibleStream_eq_scanVisible ho (hsorted ho) hcells |>.trans ?_,
      (keyedRows_map_snd _).symm, fun p hp => (hrows p hp).2, ?_, fun pk => ?_⟩
    · rw [keyedRows_map_snd]
      rfl
    · refine (List.pairwise_map.mp hlist.ascending).imp_of_mem fun {a b} ha hb hab => ?_
      rw [← Bool.not_eq_true, valueEq_iff (hrows a ha).1 (hrows b hb).1]
      exact hab.ne
    · by_cases hpk : pk.isNaN = true
      · rw [lookupVisible_of_isNaN _ _ _ hpk]
        simp [valueEq_of_isNaN hpk]
      · have hpk := Bool.not_eq_true _ ▸ hpk
        rw [lookupVisible_eq_view ho (hsorted ho) hb hpk]
        exact (find?_of_listing hlist (fun p hp => (hrows p hp).1) hpk
          ((emptyRowsHidden_iff ho hcells).mp hempty _)).symm

theorem readPathsAgree_versions :
    ReadPathsAgree (fun _ _ => true) [⟨.int 1, ⟨[.int 1, .text [104]]⟩, false, 7⟩]
      (LevelFiles.ofLevels [some [⟨.int 1, ⟨[.int 1, .text [97]]⟩, false, 3⟩, ⟨.int 2, ⟨[]⟩, true, 4⟩],
        some [⟨.int 2, ⟨[.int 2, .text [98]]⟩, false, 2⟩]]) 9 :=
  (readPathsAgree_iff (by decide) (by decide) fun _ _ _ => rfl).mpr ⟨by decide, by decide⟩

end Agreement

/-- A row whose key is a `NaN`. -/
def nanRow : MemEntry :=
  ⟨.double ⟨0x7FF8000000000000⟩, ⟨[.double ⟨0x7FF8000000000000⟩]⟩, false, 5⟩

def emptyRow : MemEntry := ⟨.null, ⟨[]⟩, false, 5⟩

/-- A `NaN` key in the memtable keeps the stream from ending, and a row without values is found by a
lookup and by no scan. -/
theorem readPaths_disagree :
    (Sorted [nanRow] ∧ Coherent [nanRow] ∧
        (∀ fuel, scanVisibleStream [nanRow] LevelFiles.fresh 9 fuel = none) ∧
        ∀ mayContain, ¬ ReadPathsAgree mayContain [nanRow] LevelFiles.fresh 9) ∧
      Sorted [emptyRow] ∧ Coherent [emptyRow] ∧
        scanVisible [emptyRow] LevelFiles.fresh 9 = [] ∧
        scanVisibleStream [emptyRow] LevelFiles.fresh 9 1 = some [] ∧
        lookupVisible (fun _ _ => true) [emptyRow] LevelFiles.fresh .null 9 = some ⟨[]⟩ ∧
        ¬ ReadPathsAgree (fun _ _ => true) [emptyRow] LevelFiles.fresh 9 := by
  have hnan : ∀ fuel, scanVisibleStream [nanRow] LevelFiles.fresh 9 fuel = none :=
    streamLoop_of_isNaN ⟨nanRow, by decide, by decide⟩
  refine ⟨⟨by decide, by decide, hnan, ?_⟩, by decide, by decide, by decide, by decide, by decide, ?_⟩
  · rintro mayContain ⟨fuel, rows, hstream, -⟩
    rw [hnan] at hstream
    simp at hstream
  · rintro ⟨fuel, rows, -, hscan, -, -, hlookup⟩
    have hrows : rows = [] := List.map_eq_nil_iff.mp (hscan.symm.trans (by decide))
    have hfound := hlookup .null
    rw [hrows] at hfound
    exact absurd hfound (by decide)

end CoroDB
