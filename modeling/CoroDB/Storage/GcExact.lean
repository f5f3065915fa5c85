import CoroDB.Framework.VersionGc
import CoroDB.Storage.MergeOrder

/-!
# What the version pass keeps

The pass over a list with all versions of its keys changes no read at or above the horizon, and of
the versions at or below the horizon it keeps at most one for each key, none when that is a deletion
without a newer version.
-/

namespace CoroDB

open Framework

def listOutcome (es : List MemEntry) (pk : Value) (s : UInt64) : Option Row :=
  (newestIn (fun e => valueEq e.pk pk) s es).bind MemEntry.content

def versionsUpTo (es : List MemEntry) (pk : Value) (ts : UInt64) : List MemEntry :=
  es.filter fun e => valueEq e.pk pk && decide (e.commitTs ≤ ts)

/-- The output of the pass: a part of the input that reads the same at or above the horizon, with at
most one version of a key at or below it, and no deletion there without a newer version. -/
structure GcExact (gcHorizon : UInt64) (es out : List MemEntry) : Prop where
  sublist : out.Sublist es
  outcome : ∀ pk s, gcHorizon ≤ s → listOutcome out pk s = listOutcome es pk s
  one : ∀ pk, (versionsUpTo out pk gcHorizon).length ≤ 1
  newer : ∀ e ∈ out, e.commitTs ≤ gcHorizon → e.tombstone = true →
    ∃ x ∈ out, valueEq x.pk e.pk = true ∧ gcHorizon < x.commitTs

section Outcome

theorem listOutcome_eq_view {es : List MemEntry} (ho : Ordered es) {pk : Value}
    (hpk : pk.isNaN = false) (s : UInt64) :
    listOutcome es pk s = History.view (History.ofList es) (valueKey pk) s :=
  newestIn_view s fun e he => valueEq_iff (ho e he) hpk

theorem listOutcome_of_isNaN (es : List MemEntry) {pk : Value} (hpk : pk.isNaN = true)
    (s : UInt64) : listOutcome es pk s = none := by
  simp [listOutcome, newestIn, valueEq_of_isNaN hpk]

end Outcome

section Exact

variable {gcHorizon : UInt64} {es out : List MemEntry}

/-- A sorted list whose history is the pass over the history of another one is its exact output. -/
theorem gcExact_of_history (ho : Ordered es) (hs : SortedVersions es) (hsub : out.Sublist es)
    (hgc : History.ofList out = History.gc gcHorizon (History.ofList es)) :
    GcExact gcHorizon es out := by
  have hoOut : Ordered out := ho.subset hsub.subset
  have hsOut : SortedVersions out := List.Pairwise.sublist hsub hs
  have hcell : ∀ e ∈ out, History.gc gcHorizon (History.ofList es) (valueKey e.pk) e.commitTs =
      some e.content := by
    intro e he
    rw [← hgc]
    exact ofList_of_mem hsOut.sameCells he
  refine ⟨hsub, ?_, ?_, ?_⟩
  · intro pk s hh
    cases hpk : pk.isNaN with
    | true => rw [listOutcome_of_isNaN out hpk, listOutcome_of_isNaN es hpk]
    | false =>
      rw [listOutcome_eq_view hoOut hpk, listOutcome_eq_view ho hpk, hgc,
        History.view_gc (History.ofList_founded es) hh]
  · intro pk
    by_contra hlen
    obtain ⟨a, b, rest, hv⟩ : ∃ a b rest, versionsUpTo out pk gcHorizon = a :: b :: rest := by
      cases hv : versionsUpTo out pk gcHorizon with
      | nil => simp [hv] at hlen
      | cons a rest =>
        cases rest with
        | nil => simp [hv] at hlen
        | cons b rest => exact ⟨a, b, rest, rfl⟩
    have hmem : ∀ e ∈ a :: b :: rest, e ∈ out ∧ valueEq e.pk pk = true ∧
        e.commitTs ≤ gcHorizon := by
      rw [← hv]
      intro e he
      simpa [versionsUpTo] using he
    obtain ⟨ha, hapk, hats⟩ := hmem a (by simp)
    obtain ⟨hb, hbpk, hbts⟩ := hmem b (by simp)
    have hpk := (not_isNaN_of_valueEq hapk).2
    have hkey : valueKey a.pk = valueKey b.pk :=
      ((valueEq_iff (hoOut a ha) hpk).mp hapk).trans ((valueEq_iff (hoOut b hb) hpk).mp hbpk).symm
    have hcella := hcell a ha
    rw [hkey] at hcella
    have hts := History.gc_unique hcella (hcell b hb) hats hbts
    have hfilter : SortedVersions (versionsUpTo out pk gcHorizon) := List.Pairwise.filter _ hsOut
    rw [hv] at hfilter
    exact ((List.pairwise_cons.mp hfilter).1 b (by simp)).ne ⟨hkey, hts⟩
  · intro e he hts htomb
    have hdeleted := hcell e he
    rw [content_eq_none.mpr htomb] at hdeleted
    obtain ⟨u, hu, hv⟩ := History.gc_deletion hdeleted hts
    rw [← hgc] at hv
    obtain ⟨c, hc⟩ := Option.ne_none_iff_exists'.mp hv
    obtain ⟨x, hx, hkey, rfl, -⟩ := History.exists_of_ofList hc
    exact ⟨x, hx, (valueEq_iff (hoOut x hx) (hoOut e he)).mpr hkey, hu⟩

/-- The pass over a sorted list ends with its exact output just when no key is a `NaN`. -/
theorem gcLoop_exact_iff (gcHorizon : UInt64) {es : List MemEntry} (hs : Sorted es) :
    (∃ fuel out, gcLoop gcHorizon fuel es = some out ∧ GcExact gcHorizon es out) ↔ Ordered es := by
  constructor
  · rintro ⟨fuel, out, hout, -⟩
    by_contra hnan
    have hex : ∃ e ∈ es, e.pk.isNaN = true := by
      simpa [Ordered] using hnan
    rw [gcLoop_of_isNaN hex] at hout
    cases hout
  · intro ho
    have hsv := (sorted_iff ho).mp hs
    obtain ⟨out, hout, hgc⟩ := gcLoop_refines gcHorizon ho hsv le_rfl
    exact ⟨es.length, out, hout, gcExact_of_history ho hsv (gcLoop_sublist hout) hgc⟩

/-- A row with an older version below the horizon, and a deleted row. -/
theorem gcLoop_exact_two_rows :
    ∃ fuel out, gcLoop 4 fuel [⟨.int 1, ⟨[.int 1]⟩, false, 5⟩, ⟨.int 1, ⟨[.int 1]⟩, false, 3⟩,
        ⟨.int 1, ⟨[.int 1]⟩, false, 2⟩, ⟨.int 2, ⟨[]⟩, true, 4⟩] = some out ∧
      GcExact 4 [⟨.int 1, ⟨[.int 1]⟩, false, 5⟩, ⟨.int 1, ⟨[.int 1]⟩, false, 3⟩,
        ⟨.int 1, ⟨[.int 1]⟩, false, 2⟩, ⟨.int 2, ⟨[]⟩, true, 4⟩] out :=
  (gcLoop_exact_iff 4 (by decide)).mpr (by decide)

/-- One entry with a `NaN` key: no number of rounds is enough. -/
theorem gcLoop_never_ends :
    let nan : MemEntry := ⟨.double ⟨0x7FF8000000000000⟩, ⟨[]⟩, false, 5⟩
    Sorted [nan] ∧ ∀ fuel, gcLoop 4 fuel [nan] = none := by
  intro nan
  refine ⟨List.pairwise_singleton _ nan, ?_⟩
  intro fuel
  exact gcLoop_of_isNaN ⟨nan, List.mem_singleton.mpr rfl, by decide⟩ fuel

end Exact

end CoroDB
