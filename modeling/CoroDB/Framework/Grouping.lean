import CoroDB.Framework.KeyMap
import CoroDB.Framework.Throwing

/-!
# Grouping

Rows are grouped by key with a state per group: `hashGroups` keeps all groups in a table,
`streamGroups` keeps the group of the last row and gives it out when another key comes.
-/

namespace CoroDB.Framework

open scoped List

variable {κ ρ σ γ ε : Type}

section Loops

variable (E : KeyEq κ) (key : ρ → Except ε κ) (init : σ) (update : σ → ρ → Except ε σ)

def hashGroups : List ρ → KeyMap E σ → Except ε (KeyMap E σ)
  | [], groups => return groups
  | r :: rs, groups => do
    let k ← key r
    let s ← update ((groups.get? k).getD init) r
    hashGroups rs (groups.assign k s)

variable (emit : κ → σ → Except ε (List γ))

def emitGroups : List (κ × σ) → Except ε (List γ)
  | [] => return []
  | g :: gs => do return (← emit g.1 g.2) ++ (← emitGroups gs)

/-- The loop with the key of the last row and the state of its group. -/
def streamGroups : List ρ → Option (κ × σ) → Except ε (List γ)
  | [], none => return []
  | [], some (k, s) => emit k s
  | r :: rs, current => do
    let k ← key r
    match current with
    | none => streamGroups rs (some (k, ← update init r))
    | some (k', s) =>
      if E.eq k' k then streamGroups rs (some (k, ← update s r))
      else
        let out ← emit k' s
        return out ++ (← streamGroups rs (some (k, ← update init r)))

end Loops

section Runs

variable {E : KeyEq κ} {k : ρ → κ}

/-- Between two rows of a group there are only rows of that group. -/
def Contiguous (E : KeyEq κ) (k : ρ → κ) (rows : List ρ) : Prop :=
  ∀ x z y, [x, z, y] <+ rows → E.eq (k x) (k y) = true → E.eq (k x) (k z) = true

@[elab_as_elim]
theorem runs_induction {motive : List ρ → Prop} (rows : List ρ) (nil : motive [])
    (run : ∀ r run more, (∀ x ∈ run, E.eq (k r) (k x) = true) →
      (∀ x ∈ more.head?, E.eq (k r) (k x) = false) → motive more → motive (r :: run ++ more)) :
    motive rows := by
  induction hn : rows.length using Nat.strong_induction_on generalizing rows with
  | _ n ih =>
    cases rows with
    | nil => exact nil
    | cons r rs =>
      have hsplit : r :: rs = r :: rs.takeWhile (fun x => E.eq (k r) (k x)) ++
          rs.dropWhile fun x => E.eq (k r) (k x) := by simp
      rw [hsplit]
      apply run
      · intro x hx
        exact List.mem_takeWhile_imp (p := fun x => E.eq (k r) (k x)) hx
      · intro x hx
        have hdrop := List.head?_dropWhile_not (fun x => E.eq (k r) (k x)) rs
        rw [Option.mem_def.mp hx] at hdrop
        simpa using hdrop
      · apply ih _ _ _ rfl
        have hle := (List.dropWhile_sublist (l := rs) fun x => E.eq (k r) (k x)).length_le
        simp only [List.length_cons] at hn
        omega

theorem Contiguous.ne_of_mem {r : ρ} {run more : List ρ} (h : Contiguous E k (r :: run ++ more))
    (hmore : ∀ x ∈ more.head?, E.eq (k r) (k x) = false) :
    ∀ x ∈ more, E.eq (k r) (k x) = false := by
  cases more with
  | nil => simp
  | cons z more =>
    have hz : E.eq (k r) (k z) = false := hmore z rfl
    intro x hx
    rcases List.mem_cons.mp hx with rfl | hx
    · exact hz
    · rw [← Bool.not_eq_true] at hz ⊢
      intro hrx
      apply hz (h r z x _ hrx)
      have hzx : [z, x] <+ z :: more := by simpa using hx
      exact List.Sublist.cons_cons r (hzx.trans (List.sublist_append_right run (z :: more)))

theorem Contiguous.of_append {first more : List ρ} (h : Contiguous E k (first ++ more)) :
    Contiguous E k more :=
  fun x z y hxy => h x z y (hxy.trans (List.sublist_append_right first more))

theorem Contiguous.append {r : ρ} {run more : List ρ} (h : Contiguous E k more)
    (hrun : ∀ x ∈ run, E.eq (k r) (k x) = true) (hmore : ∀ x ∈ more, E.eq (k r) (k x) = false) :
    Contiguous E k (r :: run ++ more) := by
  have hsame : ∀ x ∈ r :: run, ∀ j, E.eq (k x) j = E.eq (k r) j := by
    intro x hx j
    rcases List.mem_cons.mp hx with rfl | hx
    · rfl
    · exact (E.eq_left (hrun x hx)).symm
  intro x z y hxy heq
  obtain ⟨first, last, hsplit, hfirst, hlast⟩ := List.sublist_append_iff.mp hxy
  by_cases hx : x ∈ r :: run
  · rw [hsame x hx] at heq ⊢
    cases last with
    | nil =>
      rw [List.append_nil] at hsplit
      rw [← hsplit] at hfirst
      rcases List.cons_sublist_cons'.mp hfirst with hfirst | ⟨-, hfirst⟩
      · exact hrun z (hfirst.mem (by simp))
      · exact hrun z (hfirst.mem (by simp))
    | cons w last =>
      have hy : y ∈ more := by
        have hgetLast := congrArg List.getLast? hsplit
        rw [List.getLast?_append_cons] at hgetLast
        exact hlast.mem (List.mem_of_getLast? hgetLast.symm)
      rw [hmore y hy] at heq
      cases heq
  · cases first with
    | nil => exact h x z y (hsplit ▸ hlast) heq
    | cons w first =>
      obtain rfl : x = w := (List.cons.inj hsplit).1
      exact absurd (hfirst.mem List.mem_cons_self) hx

end Runs

namespace KeyMap

variable {E : KeyEq κ} {m n : KeyMap E σ} {k j : κ} {v w : σ}

theorem entries_assign_new (h : m.contains k = false) :
    (m.assign k v).entries = m.entries ++ [(k, v)] := by
  rw [assign, dif_pos h]

theorem entries_assign_old (h : m.contains k = true) :
    (m.assign k v).entries = m.entries.map fun p => (p.1, if E.eq p.1 k then v else p.2) := by
  rw [assign, dif_neg (by simp [h])]

theorem length_assign : (m.assign k v).entries.length =
    m.entries.length + if m.contains k then 0 else 1 := by
  cases h : m.contains k with
  | false => simp [entries_assign_new h]
  | true => simp [entries_assign_old h]

theorem assign_assign (h : E.eq k j = true) : (m.assign k v).assign j w = m.assign k w := by
  have hk : E.eq k k = true := E.trans h (E.symm h)
  have hcontains : (m.assign k v).contains j = true := by rw [contains_assign, h, Bool.true_or]
  apply KeyMap.ext
  rw [entries_assign_old hcontains]
  cases hm : m.contains k with
  | false =>
    have hne : ∀ p ∈ m.entries, E.eq p.1 j = false := by
      intro p hp
      rw [← E.eq_right h]
      simpa using List.any_eq_false.mp hm p hp
    rw [entries_assign_new hm, entries_assign_new hm, List.map_append]
    congr 1
    · calc m.entries.map _ = m.entries.map id := by
            apply List.map_congr_left
            intro p hp
            simp [hne p hp]
        _ = m.entries := List.map_id _
    · simp [h]
  | true =>
    rw [entries_assign_old hm, entries_assign_old hm, List.map_map]
    apply List.map_congr_left
    intro p _
    simp only [Function.comp_apply, ← E.eq_right h]
    split_ifs <;> rfl

theorem contains_perm (h : m.entries.Perm n.entries) : m.contains k = n.contains k :=
  h.any_eq

theorem get?_perm (h : m.entries.Perm n.entries) : m.get? k = n.get? k := by
  ext v
  simp only [get?_eq_some_iff, h.mem_iff]

theorem assign_perm (h : m.entries.Perm n.entries) :
    (m.assign k v).entries.Perm (n.assign k v).entries := by
  cases hm : m.contains k with
  | false =>
    rw [entries_assign_new hm, entries_assign_new ((contains_perm h).symm.trans hm)]
    exact h.append_right _
  | true =>
    rw [entries_assign_old hm, entries_assign_old ((contains_perm h).symm.trans hm)]
    exact h.map _

theorem assign_comm (h : E.eq k j = false) :
    ((m.assign k v).assign j w).entries.Perm ((m.assign j w).assign k v).entries := by
  have h' : E.eq j k = false := E.comm.trans h
  have hj : (m.assign k v).contains j = m.contains j := by rw [contains_assign, h, Bool.false_or]
  have hk : (m.assign j w).contains k = m.contains k := by rw [contains_assign, h', Bool.false_or]
  cases hmk : m.contains k with
  | false =>
    rw [hmk] at hk
    cases hmj : m.contains j with
    | false =>
      rw [hmj] at hj
      rw [entries_assign_new hj, entries_assign_new hk, entries_assign_new hmk, entries_assign_new hmj,
        List.append_assoc, List.append_assoc]
      exact List.perm_append_comm.append_left _
    | true =>
      rw [hmj] at hj
      rw [entries_assign_old hj, entries_assign_new hk, entries_assign_new hmk, entries_assign_old hmj]
      simp [h]
  | true =>
    rw [hmk] at hk
    cases hmj : m.contains j with
    | false =>
      rw [hmj] at hj
      rw [entries_assign_new hj, entries_assign_old hk, entries_assign_old hmk, entries_assign_new hmj]
      simp [h']
    | true =>
      rw [hmj] at hj
      rw [entries_assign_old hj, entries_assign_old hk, entries_assign_old hmk, entries_assign_old hmj,
        List.map_map, List.map_map]
      apply List.Perm.of_eq
      apply List.map_congr_left
      intro p _
      cases hpk : E.eq p.1 k with
      | false => simp [hpk]
      | true =>
        have hpj : E.eq p.1 j = false := (E.eq_left hpk).trans h
        simp [hpk, hpj]

end KeyMap

section Spec

variable {E : KeyEq κ} {key : ρ → Except ε κ} {k : ρ → κ} {init : σ}
  {update : σ → ρ → Except ε σ} {emit : κ → σ → Except ε (List γ)}

theorem hashGroups_cons {r : ρ} {rs : List ρ} {m : KeyMap E σ} (hr : key r = .ok (k r)) :
    hashGroups E key init update (r :: rs) m = (do
      hashGroups E key init update rs
        (m.assign (k r) (← update ((m.get? (k r)).getD init) r))) := by
  rw [hashGroups, hr]
  rfl

theorem exists_key_of_hashGroups {rows : List ρ} {m m' : KeyMap E σ}
    (h : hashGroups E key init update rows m = .ok m') : ∀ r ∈ rows, ∃ j, key r = .ok j := by
  induction rows generalizing m with
  | nil => simp
  | cons r rs ih =>
    obtain ⟨j, hj, h⟩ := bind_eq_ok h
    obtain ⟨s, -, h⟩ := bind_eq_ok h
    exact List.forall_mem_cons.mpr ⟨⟨j, hj⟩, ih h⟩

theorem length_emitGroups (hone : ∀ j s out, emit j s = .ok out → out.length = 1)
    {groups : List (κ × σ)} {out : List γ} (h : emitGroups emit groups = .ok out) :
    out.length = groups.length := by
  induction groups generalizing out with
  | nil =>
    obtain rfl : [] = out := Except.ok.inj h
    rfl
  | cons g gs ih =>
    obtain ⟨first, hfirst, h⟩ := bind_eq_ok h
    obtain ⟨rest, hrest, h⟩ := bind_eq_ok h
    obtain rfl : first ++ rest = out := Except.ok.inj h
    rw [List.length_append, hone _ _ _ hfirst, ih hrest, List.length_cons, Nat.add_comm]

theorem hashGroups_run {j : κ} {run more : List ρ} (hkey : ∀ r ∈ run, key r = .ok (k r))
    (hrun : ∀ x ∈ run, E.eq j (k x) = true) (m : KeyMap E σ) (s : σ) :
    hashGroups E key init update (run ++ more) (m.assign j s) = (do
      hashGroups E key init update more (m.assign j (← run.foldlM update s))) := by
  induction run generalizing s with
  | nil => rfl
  | cons x run ih =>
    obtain ⟨hx, hrun⟩ := List.forall_mem_cons.mp hrun
    obtain ⟨hkx, hkey⟩ := List.forall_mem_cons.mp hkey
    rw [List.cons_append, hashGroups_cons hkx, KeyMap.get?_assign, if_pos hx, Option.getD_some,
      List.foldlM_cons]
    cases update s x with
    | error e => rfl
    | ok s' =>
      simp only [bind, Except.bind, KeyMap.assign_assign hx]
      exact ih hkey hrun s'

theorem streamGroups_run {j : κ} {run more : List ρ} (hkey : ∀ r ∈ run ++ more, key r = .ok (k r))
    (hrun : ∀ x ∈ run, E.eq j (k x) = true) (hmore : ∀ x ∈ more.head?, E.eq j (k x) = false) (s : σ) :
    streamGroups E key init update emit (run ++ more) (some (j, s)) = (do
      let s ← run.foldlM update s
      let out ← emit ((run.map k).getLastD j) s
      return out ++ (← streamGroups E key init update emit more none)) := by
  induction run generalizing j s with
  | nil =>
    cases more with
    | nil =>
      simp only [List.nil_append, streamGroups, List.foldlM_nil, List.map_nil, List.getLastD_nil, bind,
        Except.bind, pure, Except.pure]
      cases emit j s <;> simp
    | cons z more =>
      have hz : E.eq j (k z) = false := hmore z rfl
      simp only [List.nil_append, streamGroups, hkey z (by simp), hz, List.foldlM_nil, List.map_nil,
        List.getLastD_nil, bind, Except.bind, pure, Except.pure, Bool.false_eq_true, if_false]
      cases update init z <;> rfl
  | cons x run ih =>
    obtain ⟨hx, hrun⟩ := List.forall_mem_cons.mp hrun
    rw [List.cons_append, streamGroups, hkey x (by simp), List.foldlM_cons]
    simp only [bind, Except.bind, hx, if_true, List.map_cons, List.getLastD_cons]
    cases update s x with
    | error e => rfl
    | ok s' =>
      apply ih (fun r hr => hkey r (List.mem_cons_of_mem x hr))
      · exact fun y hy => E.trans (E.symm hx) (hrun y hy)
      · intro z hz
        rw [← E.eq_left hx]
        exact hmore z hz

section FirstRun

variable {r : ρ} {run more : List ρ} (hkey : ∀ x ∈ r :: run ++ more, key x = .ok (k x))
  (hrun : ∀ x ∈ run, E.eq (k r) (k x) = true)
include hkey hrun

theorem hashGroups_cons_run (m : KeyMap E σ) :
    hashGroups E key init update (r :: run ++ more) m = (do
      let s ← (r :: run).foldlM update ((m.get? (k r)).getD init)
      hashGroups E key init update more (m.assign (k r) s)) := by
  rw [List.cons_append, hashGroups_cons (hkey r (by simp)), List.foldlM_cons]
  cases update ((m.get? (k r)).getD init) r with
  | error e => rfl
  | ok s => exact hashGroups_run (fun x hx => hkey x (by simp [hx])) hrun m s

theorem streamGroups_cons_run (hmore : ∀ x ∈ more.head?, E.eq (k r) (k x) = false) :
    streamGroups E key init update emit (r :: run ++ more) none = (do
      let s ← (r :: run).foldlM update init
      let out ← emit ((run.map k).getLastD (k r)) s
      return out ++ (← streamGroups E key init update emit more none)) := by
  rw [List.cons_append, streamGroups, hkey r (by simp), List.foldlM_cons]
  simp only [bind, Except.bind]
  cases update init r with
  | error e => rfl
  | ok s => exact streamGroups_run (fun x hx => hkey x (List.mem_cons_of_mem r hx)) hrun hmore s

end FirstRun

section OneGroup

variable {r : ρ} {run : List ρ} (hkey : ∀ x ∈ r :: run, key x = .ok (k x))
  (hrun : ∀ x ∈ run, E.eq (k r) (k x) = true)
include hkey hrun

theorem emitGroups_of_oneGroup :
    (do emitGroups emit (← hashGroups E key init update (r :: run) .empty).entries) = (do
      emit (k r) (← (r :: run).foldlM update init)) := by
  have hhash : hashGroups E key init update (r :: run ++ []) .empty = (do
      return KeyMap.empty.assign (k r) (← (r :: run).foldlM update init)) :=
    hashGroups_cons_run (by simpa using hkey) hrun .empty
  rw [List.append_nil] at hhash
  rw [hhash]
  simp only [bind_assoc, pure_bind, KeyMap.entries_assign_new KeyMap.contains_empty,
    KeyMap.entries_empty, List.nil_append, emitGroups, List.append_nil, bind_pure]

theorem streamGroups_of_oneGroup :
    streamGroups E key init update emit (r :: run) none = (do
      emit ((run.map k).getLastD (k r)) (← (r :: run).foldlM update init)) := by
  have hstream : streamGroups E key init update emit (r :: run ++ []) none = _ :=
    streamGroups_cons_run (by simpa using hkey) hrun (by simp)
  rw [List.append_nil] at hstream
  rw [hstream]
  simp only [streamGroups, pure_bind, List.append_nil, bind_pure]

end OneGroup

theorem streamGroups_of_contiguous (emit : κ → σ → Except ε (List γ)) {rows : List ρ}
    {m m' : KeyMap E σ} (hkey : ∀ r ∈ rows, key r = .ok (k r))
    (hemit : ∀ x ∈ rows, ∀ y ∈ rows, E.eq (k x) (k y) = true → emit (k x) = emit (k y))
    (hcontiguous : Contiguous E k rows) (hnew : ∀ r ∈ rows, m.contains (k r) = false)
    (h : hashGroups E key init update rows m = .ok m') :
    ∃ groups, m'.entries = m.entries ++ groups ∧
      streamGroups E key init update emit rows none = emitGroups emit groups := by
  induction rows using runs_induction (E := E) (k := k) generalizing m with
  | nil =>
    obtain rfl : m = m' := Except.ok.inj h
    exact ⟨[], by simp, rfl⟩
  | run r run more hrun hmore ih =>
    have hr : m.contains (k r) = false := hnew r (by simp)
    have hne := hcontiguous.ne_of_mem hmore
    rw [hashGroups_cons_run hkey hrun, KeyMap.get?_eq_none_iff.mpr hr] at h
    rw [streamGroups_cons_run hkey hrun hmore]
    cases hs : (r :: run).foldlM update init with
    | error e => simp [hs, bind, Except.bind] at h
    | ok s =>
      simp only [Option.getD_none, hs, bind, Except.bind] at h
      have hnew' : ∀ x ∈ more, (m.assign (k r) s).contains (k x) = false := by
        intro x hx
        rw [KeyMap.contains_assign, hne x hx, hnew x (List.mem_append_right _ hx), Bool.or_false]
      obtain ⟨groups, hentries, hstream⟩ := ih (fun x hx => hkey x (List.mem_append_right _ hx))
        (fun x hx y hy => hemit x (List.mem_append_right _ hx) y (List.mem_append_right _ hy))
        hcontiguous.of_append hnew' h
      have hlast : emit ((run.map k).getLastD (k r)) = emit (k r) := by
        rcases List.mem_cons.mp (List.getLastD_mem_cons (l := run.map k) (a := k r)) with hlast | hlast
        · rw [hlast]
        · obtain ⟨x, hx, hxk⟩ := List.mem_map.mp hlast
          rw [← hxk, hemit r (by simp) x (by simp [hx]) (hrun x hx)]
      refine ⟨(k r, s) :: groups, ?_, ?_⟩
      · rw [hentries, KeyMap.entries_assign_new hr, List.append_assoc]
        rfl
      · rw [hlast, hstream]
        rfl

theorem length_le_streamGroups (hone : ∀ j s out, emit j s = .ok out → out.length = 1) {rows : List ρ}
    {m m' : KeyMap E σ} {out : List γ} (hkey : ∀ r ∈ rows, key r = .ok (k r))
    (h : hashGroups E key init update rows m = .ok m')
    (hout : streamGroups E key init update emit rows none = .ok out) :
    m'.entries.length ≤ m.entries.length + out.length ∧
      (m'.entries.length = m.entries.length + out.length →
        Contiguous E k rows ∧ ∀ r ∈ rows, m.contains (k r) = false) := by
  induction rows using runs_induction (E := E) (k := k) generalizing m out with
  | nil =>
    obtain rfl : m = m' := Except.ok.inj h
    obtain rfl : [] = out := Except.ok.inj hout
    exact ⟨le_rfl, fun _ => ⟨fun x z y hxy => by simp at hxy, by simp⟩⟩
  | run r run more hrun hmore ih =>
    rw [hashGroups_cons_run hkey hrun] at h
    rw [streamGroups_cons_run hkey hrun hmore] at hout
    obtain ⟨s, -, h⟩ := bind_eq_ok h
    obtain ⟨s', -, hout⟩ := bind_eq_ok hout
    obtain ⟨first, hfirst, hout⟩ := bind_eq_ok hout
    obtain ⟨rest, hrest, hout⟩ := bind_eq_ok hout
    obtain rfl : first ++ rest = out := Except.ok.inj hout
    have hlen := KeyMap.length_assign (m := m) (k := k r) (v := s)
    obtain ⟨hle, heq⟩ := ih (fun x hx => hkey x (List.mem_append_right _ hx)) h hrest
    rw [List.length_append, hone _ _ _ hfirst]
    refine ⟨by split_ifs at hlen <;> omega, fun hall => ?_⟩
    have hr : m.contains (k r) = false := by
      rw [← Bool.not_eq_true]
      intro hr
      rw [hr, if_pos rfl] at hlen
      omega
    rw [hr] at hlen
    obtain ⟨hcontiguous, hnew⟩ := heq (by simp at hlen; omega)
    have hmore' : ∀ x ∈ more, E.eq (k r) (k x) = false ∧ m.contains (k x) = false := by
      intro x hx
      have hx := hnew x hx
      rwa [KeyMap.contains_assign, Bool.or_eq_false_iff] at hx
    refine ⟨hcontiguous.append hrun fun x hx => (hmore' x hx).1, ?_⟩
    intro x hx
    rcases List.mem_append.mp hx with hx | hx
    · rcases List.mem_cons.mp hx with rfl | hx
      · exact hr
      · rw [← KeyMap.contains_congr (hrun x hx)]
        exact hr
    · exact (hmore' x hx).2

end Spec

section Order

variable {E : KeyEq κ} {k : ρ → κ}

/-- A row has passed others only of different groups, as in a stable sort. -/
inductive Shuffled (E : KeyEq κ) (k : ρ → κ) : List ρ → List ρ → Prop
  | nil : Shuffled E k [] []
  | cons (x : ρ) {l l' : List ρ} (h : Shuffled E k l l') : Shuffled E k (x :: l) (x :: l')
  | swap (x y : ρ) (l : List ρ) (h : E.eq (k x) (k y) = false) :
    Shuffled E k (x :: y :: l) (y :: x :: l)
  | trans {l l' l'' : List ρ} (h : Shuffled E k l l') (h' : Shuffled E k l' l'') : Shuffled E k l l''

variable {key : ρ → Except ε κ} {init : σ} {update : σ → ρ → Except ε σ}
  {emit : κ → σ → Except ε (List γ)}

theorem hashGroups_congr {rows : List ρ} (hkey : ∀ r ∈ rows, key r = .ok (k r)) {m n m' : KeyMap E σ}
    (hmn : m.entries.Perm n.entries) (hm : hashGroups E key init update rows m = .ok m') :
    ∃ n', hashGroups E key init update rows n = .ok n' ∧ m'.entries.Perm n'.entries := by
  induction rows generalizing m n with
  | nil =>
    obtain rfl : m = m' := Except.ok.inj hm
    exact ⟨n, rfl, hmn⟩
  | cons r rs ih =>
    obtain ⟨hr, hkey⟩ := List.forall_mem_cons.mp hkey
    rw [hashGroups_cons hr] at hm
    obtain ⟨s, hs, hm⟩ := bind_eq_ok hm
    rw [hashGroups_cons hr, ← KeyMap.get?_perm hmn, hs]
    exact ih hkey (KeyMap.assign_perm hmn) hm

theorem emitGroups_perm {groups groups' : List (κ × σ)} (h : groups.Perm groups') {out : List γ}
    (hout : emitGroups emit groups = .ok out) :
    ∃ out', emitGroups emit groups' = .ok out' ∧ out.Perm out' := by
  induction h generalizing out with
  | nil => exact ⟨out, hout, List.Perm.refl _⟩
  | cons g _ ih =>
    obtain ⟨first, hfirst, hout⟩ := bind_eq_ok hout
    obtain ⟨rest, hrest, hout⟩ := bind_eq_ok hout
    obtain ⟨rest', hrest', hperm⟩ := ih hrest
    obtain rfl : first ++ rest = out := Except.ok.inj hout
    refine ⟨first ++ rest', ?_, hperm.append_left first⟩
    rw [emitGroups, hfirst, hrest']
    rfl
  | swap g g' l =>
    obtain ⟨first, hfirst, hout⟩ := bind_eq_ok hout
    obtain ⟨rest, hrest, hout⟩ := bind_eq_ok hout
    obtain rfl : first ++ rest = out := Except.ok.inj hout
    obtain ⟨second, hsecond, hrest⟩ := bind_eq_ok hrest
    obtain ⟨last, hlast, hrest⟩ := bind_eq_ok hrest
    obtain rfl : second ++ last = rest := Except.ok.inj hrest
    refine ⟨second ++ (first ++ last), ?_, List.perm_append_comm_assoc first second last⟩
    simp only [emitGroups, hfirst, hsecond, hlast, bind, Except.bind, pure, Except.pure]
  | trans _ _ ih ih' =>
    obtain ⟨out', hout', hperm⟩ := ih hout
    obtain ⟨out'', hout'', hperm'⟩ := ih' hout'
    exact ⟨out'', hout'', hperm.trans hperm'⟩

namespace Shuffled

variable {rows rows' : List ρ}

theorem refl (rows : List ρ) : Shuffled E k rows rows := by
  induction rows with
  | nil => exact .nil
  | cons r rows ih => exact .cons r ih

theorem symm (h : Shuffled E k rows rows') : Shuffled E k rows' rows := by
  induction h with
  | nil => exact .nil
  | cons x _ ih => exact .cons x ih
  | swap x y l h => exact .swap y x l (E.comm.trans h)
  | trans _ _ ih ih' => exact .trans ih' ih

theorem perm (h : Shuffled E k rows rows') : rows.Perm rows' := by
  induction h with
  | nil => exact .nil
  | cons x _ ih => exact .cons x ih
  | swap x y l _ => exact .swap y x l
  | trans _ _ ih ih' => exact .trans ih ih'

theorem hashGroups_perm (h : Shuffled E k rows rows') (hkey : ∀ r ∈ rows, key r = .ok (k r))
    {m n m' : KeyMap E σ} (hmn : m.entries.Perm n.entries)
    (hm : hashGroups E key init update rows m = .ok m') :
    ∃ n', hashGroups E key init update rows' n = .ok n' ∧ m'.entries.Perm n'.entries := by
  induction h generalizing m n m' with
  | nil =>
    obtain rfl : m = m' := Except.ok.inj hm
    exact ⟨n, rfl, hmn⟩
  | cons x h ih =>
    obtain ⟨hx, hkey⟩ := List.forall_mem_cons.mp hkey
    rw [hashGroups_cons hx] at hm
    obtain ⟨s, hs, hm⟩ := bind_eq_ok hm
    rw [hashGroups_cons hx, ← KeyMap.get?_perm hmn, hs]
    exact ih hkey (KeyMap.assign_perm hmn) hm
  | swap x y l hxy =>
    obtain ⟨hx, hy, hkey⟩ : key x = .ok (k x) ∧ key y = .ok (k y) ∧ ∀ r ∈ l, key r = .ok (k r) := by
      simpa using hkey
    have hyx : E.eq (k y) (k x) = false := E.comm.trans hxy
    rw [hashGroups_cons hx] at hm
    obtain ⟨s, hs, hm⟩ := bind_eq_ok hm
    rw [hashGroups_cons hy, KeyMap.get?_assign, hxy] at hm
    obtain ⟨t, ht, hm⟩ := bind_eq_ok hm
    simp only [Bool.false_eq_true, if_false] at ht
    have hassign : ((m.assign (k x) s).assign (k y) t).entries.Perm
        ((n.assign (k y) t).assign (k x) s).entries :=
      (KeyMap.assign_comm hxy).trans (KeyMap.assign_perm (KeyMap.assign_perm hmn))
    obtain ⟨n', hn', hperm⟩ := hashGroups_congr hkey hassign hm
    refine ⟨n', ?_, hperm⟩
    rw [hashGroups_cons hy, ← KeyMap.get?_perm hmn, ht]
    change hashGroups E key init update (x :: l) (n.assign (k y) t) = .ok n'
    rw [hashGroups_cons hx, KeyMap.get?_assign, hyx, ← KeyMap.get?_perm hmn]
    simp only [Bool.false_eq_true, if_false, hs]
    exact hn'
  | trans h h' ih ih' =>
    obtain ⟨n', hn', hperm⟩ := ih hkey hmn hm
    obtain ⟨n'', hn'', hperm'⟩ := ih' (fun r hr => hkey r (h.perm.mem_iff.mpr hr)) (List.Perm.refl _) hn'
    exact ⟨n'', hn'', hperm.trans hperm'⟩

end Shuffled

end Order

end CoroDB.Framework
