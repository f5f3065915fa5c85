import CoroDB.Framework.Throwing

/-!
# Outer joins

A join gives the pairs of rows that hit each other, and may pad the rows of either side that hit
nothing.
-/

namespace CoroDB.Framework

variable {α β γ ε : Type}

section Loop

/-- The candidates of one left row: the pairs that pass the test, and the marks of their right rows. -/
def probe (test : β → Except ε Bool) (pair : β → γ) :
    List (β × Nat) → (Nat → Bool) → Except ε (List γ × (Nat → Bool))
  | [], marks => return ([], marks)
  | (r, i) :: rs, marks => do
    if ← test r then
      let (out, marks) ← probe test pair rs (Function.update marks i true)
      return (pair r :: out, marks)
    else probe test pair rs marks

variable (candidates : α → Except ε (List (β × Nat))) (test : α → β → Except ε Bool)
  (pair : α → β → γ) (padLeft : α → List γ) (padRight : β → List γ)

def joinRows : List α → (Nat → Bool) → Except ε (List γ × (Nat → Bool))
  | [], marks => return ([], marks)
  | l :: ls, marks => do
    let (out, marks) ← probe (test l) (pair l) (← candidates l) marks
    let (rest, marks) ← joinRows ls marks
    return ((if out.isEmpty then padLeft l else out) ++ rest, marks)

def joinLoop (left : List α) (right : List β) : Except ε (List γ) := do
  let (out, marks) ← joinRows candidates test pair padLeft left fun _ => false
  return out ++ (right.zipIdx.filter fun r => !marks r.2).flatMap fun r => padRight r.1

end Loop

section Result

variable (hit : α → β → Bool) (pair : α → β → γ) (padLeft : α → List γ) (padRight : β → List γ)
  (left : List α) (right : List β)

def matched : List γ := left.flatMap fun l => (right.filter (hit l)).map (pair l)

def leftOnly : List γ := (left.filter fun l => !right.any (hit l)).flatMap padLeft

def rightOnly : List γ := (right.filter fun r => !left.any (hit · r)).flatMap padRight

def joined : List γ :=
  matched hit pair left right ++ leftOnly hit padLeft left right ++ rightOnly hit padRight left right

end Result

section Spec

theorem probe_eq {test : β → Except ε Bool} {hit : β → Bool} (pair : β → γ) {rs : List (β × Nat)}
    (marks : Nat → Bool) (htest : ∀ r ∈ rs, test r.1 = .ok (hit r.1)) :
    probe test pair rs marks = .ok ((rs.filter fun r => hit r.1).map fun r => pair r.1,
      fun i => marks i || rs.any fun r => hit r.1 && r.2 == i) := by
  induction rs generalizing marks with
  | nil => simp [probe, pure, Except.pure]
  | cons r rs ih =>
    have hrest : ∀ r ∈ rs, test r.1 = .ok (hit r.1) :=
      fun r hr => htest r (List.mem_cons_of_mem _ hr)
    rw [probe, htest r List.mem_cons_self]
    cases hr : hit r.1 with
    | false => simp [bind, Except.bind, ih marks hrest, hr]
    | true =>
      simp only [bind, Except.bind, ih _ hrest, hr, pure, Except.pure, List.filter_cons, if_true,
        List.map_cons, List.any_cons, Bool.true_and]
      congr 2
      funext i
      by_cases hi : i = r.2
      · simp [hi]
      · have hne : (r.2 == i) = false := by simpa using Ne.symm hi
        simp [hi, hne]

theorem probe_error {test : β → Except ε Bool} (pair : β → γ) {rs : List (β × Nat)}
    (marks : Nat → Bool) {r : β × Nat} (hr : r ∈ rs) {e : ε} (he : test r.1 = .error e) :
    ∃ e, probe test pair rs marks = .error e := by
  induction rs generalizing marks with
  | nil => cases hr
  | cons r' rs ih =>
    rw [probe]
    cases htest : test r'.1 with
    | error e => exact ⟨e, rfl⟩
    | ok b =>
      have hrest : r ∈ rs := by
        rcases List.mem_cons.mp hr with rfl | hr
        · exact absurd (htest.symm.trans he) (by simp)
        · exact hr
      cases b with
      | false => exact ih marks hrest
      | true =>
        obtain ⟨e, he⟩ := ih (Function.update marks r'.2 true) hrest
        exact ⟨e, by simp [bind, Except.bind, he]⟩

variable {candidates : α → Except ε (List (β × Nat))} {test : α → β → Except ε Bool}
  {hit : α → β → Bool} (pair : α → β → γ) (padLeft : α → List γ) (padRight : β → List γ)
  {left : List α} {right : List β}

/-- The candidates of a left row are the right rows that it may hit, and what they hit. -/
structure Probes (candidates : α → Except ε (List (β × Nat))) (test : α → β → Except ε Bool)
    (hit : α → β → Bool) (left : List α) (right : List β) : Prop where
  candidates : ∀ l ∈ left, ∃ may : β → Bool,
    candidates l = .ok (right.zipIdx.filter fun r => may r.1) ∧
      ∀ r ∈ right, (may r = true → test l r = .ok (hit l r)) ∧ (may r = false → hit l r = false)

theorem filter_candidates (may hits : β → Bool) (h : ∀ r ∈ right, may r = false → hits r = false) :
    (right.zipIdx.filter fun r => may r.1).filter (fun r => hits r.1) =
      right.zipIdx.filter fun r => hits r.1 := by
  rw [List.filter_filter]
  apply List.filter_congr
  intro r hr
  cases hmay : may r.1 with
  | true => simp
  | false => simp [h r.1 (List.fst_mem_of_mem_zipIdx hr) hmay]

theorem map_fst_filter_zipIdx (right : List β) (hits : β → Bool) (f : β → γ) :
    ((right.zipIdx.filter fun r => hits r.1).map fun r => f r.1) = (right.filter hits).map f := by
  have hright : right.filter hits = (right.zipIdx.map Prod.fst).filter hits := by
    rw [List.zipIdx_map_fst]
  rw [hright, List.filter_map, List.map_map]
  rfl

theorem joinRows_eq (h : Probes candidates test hit left right) (marks : Nat → Bool) :
    joinRows candidates test pair padLeft left marks =
      .ok (left.flatMap fun l =>
          if right.any (hit l) then (right.filter (hit l)).map (pair l) else padLeft l,
        fun i => marks i || left.any fun l => right.zipIdx.any fun r => hit l r.1 && r.2 == i) := by
  induction left generalizing marks with
  | nil => simp [joinRows, pure, Except.pure]
  | cons l ls ih =>
    obtain ⟨may, hcandidates, hmay⟩ := h.candidates l List.mem_cons_self
    have hls : Probes candidates test hit ls right :=
      ⟨fun l hl => h.candidates l (List.mem_cons_of_mem _ hl)⟩
    have htest : ∀ r ∈ right.zipIdx.filter fun r => may r.1, test l r.1 = .ok (hit l r.1) := by
      intro r hr
      obtain ⟨hr, hm⟩ := List.mem_filter.mp hr
      exact (hmay r.1 (List.fst_mem_of_mem_zipIdx hr)).1 hm
    have hfilter := filter_candidates may (hit l) fun r hr => (hmay r hr).2
    have hany : ∀ i, ((right.zipIdx.filter fun r => may r.1).any fun r => hit l r.1 && r.2 == i) =
        right.zipIdx.any fun r => hit l r.1 && r.2 == i := by
      intro i
      rw [← List.any_filter, hfilter, List.any_filter]
    have hempty : ((right.filter (hit l)).map (pair l)).isEmpty = !right.any (hit l) := by
      rw [List.isEmpty_map, Bool.eq_iff_iff]
      simp [List.filter_eq_nil_iff]
    simp only [joinRows, hcandidates, bind, Except.bind, probe_eq (pair l) marks htest, hfilter,
      map_fst_filter_zipIdx, ih hls, hany, hempty, pure, Except.pure]
    simp only [List.flatMap_cons, List.any_cons, Bool.or_assoc]
    cases right.any (hit l) <;> rfl

theorem filter_unmarked (hit : α → β → Bool) (left : List α) (right : List β) :
    ((right.zipIdx.filter fun p =>
        !left.any fun l => right.zipIdx.any fun r => hit l r.1 && r.2 == p.2).flatMap
      fun p => padRight p.1) = rightOnly hit padRight left right := by
  have hmark : ∀ p ∈ right.zipIdx,
      (left.any fun l => right.zipIdx.any fun r => hit l r.1 && r.2 == p.2) =
        left.any (hit · p.1) := by
    intro p hp
    rw [Bool.eq_iff_iff, List.any_eq_true, List.any_eq_true]
    apply exists_congr
    intro l
    rw [and_congr_right_iff, List.any_eq_true]
    intro _
    constructor
    · rintro ⟨r, hr, hit⟩
      rw [Bool.and_eq_true, beq_iff_eq] at hit
      obtain rfl : r = p := by
        rw [List.mem_zipIdx_iff_getElem?] at hr hp
        rw [hit.2, hp] at hr
        exact Prod.ext (Option.some.inj hr).symm hit.2
      exact hit.1
    · intro hit
      exact ⟨p, hp, by simp [hit]⟩
  have hfilter : (right.zipIdx.filter fun p =>
      !left.any fun l => right.zipIdx.any fun r => hit l r.1 && r.2 == p.2) =
        right.zipIdx.filter fun p => !left.any (hit · p.1) := by
    apply List.filter_congr
    intro p hp
    rw [hmark p hp]
  have hfst := map_fst_filter_zipIdx right (fun r => !left.any (hit · r)) id
  rw [hfilter, rightOnly, ← List.map_id (right.filter _), ← hfst, List.flatMap_map]
  rfl

theorem flatMap_padLeft_perm (hit : α → β → Bool) (left : List α) (right : List β) :
    (left.flatMap fun l =>
        if right.any (hit l) then (right.filter (hit l)).map (pair l) else padLeft l).Perm
      (matched hit pair left right ++ leftOnly hit padLeft left right) := by
  induction left with
  | nil => exact List.Perm.refl _
  | cons l ls ih =>
    rw [List.flatMap_cons, matched, List.flatMap_cons, leftOnly, List.filter_cons]
    cases hany : right.any (hit l) with
    | true =>
      simp only [if_true, Bool.not_true, Bool.false_eq_true, if_false, List.append_assoc]
      exact ih.append_left _
    | false =>
      have hnone : right.filter (hit l) = [] := by
        rw [List.filter_eq_nil_iff]
        simpa using hany
      simp only [Bool.false_eq_true, if_false, Bool.not_false, if_true, hnone, List.map_nil,
        List.nil_append, List.flatMap_cons]
      refine (ih.append_left _).trans ?_
      rw [← List.append_assoc, ← List.append_assoc]
      exact List.perm_append_comm.append_right _

theorem joinLoop_perm (h : Probes candidates test hit left right) :
    ∃ out, joinLoop candidates test pair padLeft padRight left right = .ok out ∧
      out.Perm (joined hit pair padLeft padRight left right) := by
  refine ⟨_, ?_, (flatMap_padLeft_perm pair padLeft hit left right).append_right _⟩
  simp only [joinLoop, joinRows_eq pair padLeft h, bind, Except.bind, pure, Except.pure,
    Bool.false_or, filter_unmarked padRight hit left right]

theorem joinLoop_error {l : α} (hl : l ∈ left)
    (h : (∃ e, candidates l = .error e) ∨
      ∃ rs, candidates l = .ok rs ∧ ∃ r ∈ rs, ∃ e, test l r.1 = .error e) :
    ∃ e, joinLoop candidates test pair padLeft padRight left right = .error e := by
  have hrows : ∀ marks, ∃ e, joinRows candidates test pair padLeft left marks = .error e := by
    induction left with
    | nil => cases hl
    | cons l' ls ih =>
      intro marks
      rw [joinRows]
      rcases List.mem_cons.mp hl with rfl | hl
      · rcases h with ⟨e, he⟩ | ⟨rs, hrs, r, hr, e, he⟩
        · exact ⟨e, by simp [bind, Except.bind, he]⟩
        · obtain ⟨e, he⟩ := probe_error (pair l) marks hr he
          exact ⟨e, by simp [bind, Except.bind, hrs, he]⟩
      · cases hc : candidates l' with
        | error e => exact ⟨e, rfl⟩
        | ok rs =>
          cases hp : probe (test l') (pair l') rs marks with
          | error e => exact ⟨e, by simp [bind, Except.bind, hp]⟩
          | ok p =>
            obtain ⟨e, he⟩ := ih hl p.2
            exact ⟨e, by simp [bind, Except.bind, hp, he]⟩
  obtain ⟨e, he⟩ := hrows fun _ => false
  exact ⟨e, by simp [joinLoop, bind, Except.bind, he]⟩

end Spec

section Laws

variable {hit hit' : α → β → Bool} {pair : α → β → γ} {padLeft : α → List γ} {padRight : β → List γ}
  {left : List α} {right : List β}

theorem mem_matched {c : γ} : c ∈ matched hit pair left right ↔
    ∃ l ∈ left, ∃ r ∈ right, hit l r = true ∧ pair l r = c := by
  simp only [matched, List.mem_flatMap, List.mem_map, List.mem_filter, and_assoc]

theorem matched_eq_flatMap (hit : α → β → Bool) (pair : α → β → γ) (left : List α) (right : List β) :
    matched hit pair left right =
      left.flatMap fun l => right.flatMap fun r => if hit l r then [pair l r] else [] := by
  have hrow : ∀ l, (right.filter (hit l)).map (pair l) =
      right.flatMap fun r => if hit l r then [pair l r] else [] := by
    intro l
    induction right with
    | nil => rfl
    | cons r rs ih => cases h : hit l r <;> simp [h, ih]
  simp only [matched, hrow]

theorem matched_swap (hit : α → β → Bool) (pair : α → β → γ) (left : List α) (right : List β) :
    (matched hit pair left right).Perm
      (matched (fun r l => hit l r) (fun r l => pair l r) right left) := by
  rw [matched_eq_flatMap, matched_eq_flatMap, ← Multiset.coe_eq_coe]
  simp only [← Multiset.coe_bind]
  exact Multiset.bind_bind _ _

theorem matched_congr (h : ∀ l ∈ left, ∀ r ∈ right, hit l r = hit' l r) :
    matched hit pair left right = matched hit' pair left right := by
  apply List.flatMap_congr
  intro l hl
  rw [List.filter_congr (h l hl)]

theorem matched_perm_iff (hinj : ∀ l ∈ left, ∀ r ∈ right, ∀ l' ∈ left, ∀ r' ∈ right,
      pair l r = pair l' r' → l = l' ∧ r = r') :
    (matched hit pair left right).Perm (matched hit' pair left right) ↔
      ∀ l ∈ left, ∀ r ∈ right, hit l r = hit' l r := by
  have hmem : ∀ {hit : α → β → Bool} {l r}, l ∈ left → r ∈ right →
      (pair l r ∈ matched hit pair left right ↔ hit l r = true) := by
    intro hit l r hl hr
    rw [mem_matched]
    constructor
    · rintro ⟨l', hl', r', hr', hhit, hpair⟩
      obtain ⟨rfl, rfl⟩ := hinj l' hl' r' hr' l hl r hr hpair
      exact hhit
    · exact fun hhit => ⟨l, hl, r, hr, hhit, rfl⟩
  constructor
  · intro hperm l hl r hr
    rw [Bool.eq_iff_iff, ← hmem hl hr, ← hmem hl hr]
    exact hperm.mem_iff
  · intro hsame
    rw [matched_congr hsame]

theorem any_congr_of_mem {p q : α → Bool} (h : ∀ l ∈ left, p l = q l) : left.any p = left.any q := by
  rw [Bool.eq_iff_iff, List.any_eq_true, List.any_eq_true]
  apply exists_congr
  intro l
  rw [and_congr_right_iff]
  intro hl
  rw [h l hl]

theorem joined_congr (h : ∀ l ∈ left, ∀ r ∈ right, hit l r = hit' l r) :
    joined hit pair padLeft padRight left right = joined hit' pair padLeft padRight left right := by
  have hleft : leftOnly hit padLeft left right = leftOnly hit' padLeft left right := by
    rw [leftOnly, leftOnly, List.filter_congr]
    intro l hl
    rw [any_congr_of_mem (h l hl)]
  have hright : rightOnly hit padRight left right = rightOnly hit' padRight left right := by
    rw [rightOnly, rightOnly, List.filter_congr]
    intro r hr
    rw [any_congr_of_mem fun l hl => h l hl r hr]
  rw [joined, joined, matched_congr h, hleft, hright]

section Mirror

variable {δ : Type} {swap : γ → δ} {hit' : β → α → Bool} {pair' : β → α → δ} {padLeft' : β → List δ}
  {padRight' : α → List δ}

theorem joined_mirror (hhit : ∀ l ∈ left, ∀ r ∈ right, hit' r l = hit l r)
    (hpair : ∀ l ∈ left, ∀ r ∈ right, swap (pair l r) = pair' r l)
    (hleft : ∀ l ∈ left, (padLeft l).map swap = padRight' l)
    (hright : ∀ r ∈ right, (padRight r).map swap = padLeft' r) :
    ((joined hit pair padLeft padRight left right).map swap).Perm
      (joined hit' pair' padLeft' padRight' right left) := by
  have hmatched : ((matched hit pair left right).map swap).Perm (matched hit' pair' right left) := by
    refine ((matched_swap hit pair left right).map swap).trans (List.Perm.of_eq ?_)
    rw [matched, List.map_flatMap]
    apply List.flatMap_congr
    intro r hr
    rw [List.map_map, List.filter_congr fun l hl => (hhit l hl r hr).symm]
    apply List.map_congr_left
    intro l hl
    exact hpair l (List.mem_of_mem_filter hl) r hr
  have honlyLeft : (leftOnly hit padLeft left right).map swap = rightOnly hit' padRight' right left := by
    rw [leftOnly, rightOnly, List.map_flatMap,
      List.filter_congr fun l hl => congrArg _ (any_congr_of_mem fun r hr => (hhit l hl r hr).symm)]
    apply List.flatMap_congr
    intro l hl
    exact hleft l (List.mem_of_mem_filter hl)
  have honlyRight : (rightOnly hit padRight left right).map swap = leftOnly hit' padLeft' right left := by
    rw [leftOnly, rightOnly, List.map_flatMap,
      List.filter_congr fun r hr => congrArg _ (any_congr_of_mem fun l hl => (hhit l hl r hr).symm)]
    apply List.flatMap_congr
    intro r hr
    exact hright r (List.mem_of_mem_filter hr)
  rw [joined, joined, List.map_append, List.map_append, honlyLeft, honlyRight, List.append_assoc,
    List.append_assoc]
  exact hmatched.append List.perm_append_comm

end Mirror

end Laws

end CoroDB.Framework
