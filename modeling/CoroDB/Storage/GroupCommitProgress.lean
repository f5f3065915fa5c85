import CoroDB.Framework.Fairness
import CoroDB.Storage.GroupCommit

/-!
# Progress of group commit

A leader whose sync throws leaves its caller count behind and does not advance the epoch.
-/

namespace CoroDB

open Framework

namespace GroupCommit

variable {ν ι : Type*} [DecidableEq ν] [DecidableEq ι]

def Throws (s : GroupCommit ν ι) : SyncAction ν ι → Prop
  | .visit i false =>
    ∃ w x todo, s.calls i = .leading w (x :: todo) ∧ (s.writers x).needsGroupSync = true
  | _ => False

/-- The action is a step of a call of the thread. -/
def Advances (i : ι) : SyncAction ν ι → Prop
  | .visit j _ | .finish j | .wake j => j = i
  | _ => False

def Led (s : GroupCommit ν ι) : Prop := ∃ i w todo, s.calls i = .leading w todo

/-- Two calls of the current epoch are both counted, and a second count belongs to a follower. -/
structure Tallied (s : GroupCommit ν ι) : Prop where
  two_le : ∀ i j w x, s.Member i w → s.Member j x → i ≠ j → 2 ≤ s.pendingCount
  follower : 2 ≤ s.pendingCount → ∃ i w, s.calls i = .waiting w s.currentEpoch

/-- An infinite run of the committer, with the writers in the given order. -/
abbrev SyncBehavior (order : List ν) (ι : Type*) [DecidableEq ι] : Type _ :=
  Behavior (step (ι := ι) order)

section Steps

variable {order : List ν} {s s' : GroupCommit ν ι} {a : SyncAction ν ι}

theorem finish_not_member (hg : s.Grouped) {i : ι} (h : step order s (.finish i) = some s')
    (j : ι) (x : ν) : ¬ s'.Member j x := by
  cases callStep h with
  | finish i w hi hcalls hepoch hpending =>
    rintro (⟨todo, hj⟩ | hj)
    · rw [hcalls] at hj
      split at hj
      · cases hj
      · next hji => exact hji (hg.unique j i x w todo [] hj hi)
    · rw [hcalls] at hj
      split at hj
      · cases hj
      · have := hg.epoch_le j x _ hj
        omega

theorem member_of_step (hg : s.Grouped) (h : step order s a = some s')
    (ha : ∀ i w, a ≠ .requestSync i w) {j : ι} {x : ν} (hj : s'.Member j x) : s.Member j x := by
  cases callStep h with
  | append i w hi hcalls hepoch hpending => simpa only [Member, hcalls, hepoch] using hj
  | lead i w => exact absurd rfl (ha i w)
  | join i w => exact absurd rfl (ha i w)
  | visit i w z rest succeeds hi hworks hcalls hepoch hpending =>
    by_cases hji : j = i
    · subst hji
      obtain rfl : w = x := by simpa [Member, hcalls] using hj
      exact .inl ⟨_, hi⟩
    · exact member_of_ne hcalls hepoch hji hj
  | throw i w z rest hi hfails hcalls hepoch hpending =>
    by_cases hji : j = i
    · simp [Member, hcalls, hji] at hj
    · exact member_of_ne hcalls hepoch hji hj
  | finish i w hi hcalls hepoch hpending => exact absurd hj (finish_not_member hg h j x)
  | wake i w epoch hi hlt hcalls hepoch hpending =>
    by_cases hji : j = i
    · simp [Member, hcalls, hji] at hj
    · exact member_of_ne hcalls hepoch hji hj

theorem waiting_step (h : step order s a = some s') {j : ι} {x : ν}
    (hj : s.calls j = .waiting x s.currentEpoch) : s'.calls j = .waiting x s.currentEpoch := by
  cases callStep h <;> grind

theorem Tallied.step (hg : s.Grouped) (hs : s.Tallied) (h : step order s a = some s') :
    s'.Tallied := by
  have hnone : s.pendingCount = 0 → ∀ i w, ¬ s.Member i w := fun h i w hi => hg.pending i w hi h
  constructor
  · intro j k x y hj hk hjk
    have hold : (∀ i w, a ≠ .requestSync i w) → 2 ≤ s.pendingCount := fun ha =>
      hs.two_le j k x y (member_of_step hg h ha hj) (member_of_step hg h ha hk) hjk
    cases callStep h with
    | lead i w hi hzero hcalls hepoch hpending =>
      by_cases hji : j = i
      · have hki : k ≠ i := fun hki => hjk (hji.trans hki.symm)
        exact absurd (member_of_ne hcalls hepoch hki hk) (hnone hzero k y)
      · exact absurd (member_of_ne hcalls hepoch hji hj) (hnone hzero j x)
    | join i w hi hzero hcalls hepoch hpending => omega
    | finish i w hi hcalls hepoch hpending => exact absurd hj (finish_not_member hg h j x)
    | append | visit | throw | wake =>
      rename_i hpending
      rw [hpending]
      exact hold (by simp)
  · intro htwo
    have hold : 2 ≤ s.pendingCount → s'.currentEpoch = s.currentEpoch →
        ∃ i w, s'.calls i = .waiting w s'.currentEpoch := by
      intro htwo hepoch
      obtain ⟨j, x, hj⟩ := hs.follower htwo
      exact ⟨j, x, hepoch ▸ waiting_step h hj⟩
    cases callStep h with
    | lead i w hi hzero hcalls hepoch hpending => omega
    | join i w hi hzero hcalls hepoch hpending => exact ⟨i, w, by simp [hcalls, hepoch]⟩
    | finish i w hi hcalls hepoch hpending => omega
    | append | visit | throw | wake =>
      rename_i hepoch hpending
      exact hold (hpending ▸ htwo) hepoch

omit [DecidableEq ν] [DecidableEq ι] in
theorem Throws.led (ht : s.Throws a) : s.Led := by
  cases a with
  | visit i succeeds =>
    cases succeeds with
    | true => exact absurd ht id
    | false =>
      obtain ⟨w, x, todo, hi, -⟩ := ht
      exact ⟨i, w, _, hi⟩
  | _ => exact absurd ht id

/-- The count is not zero and nobody leads: no later caller leads either. -/
def Wedged (s : GroupCommit ν ι) : Prop := s.pendingCount ≠ 0 ∧ ¬ s.Led

theorem Throws.wedged (hg : s.Grouped) (ht : s.Throws a) (h : step order s a = some s') :
    s'.Wedged ∧ s'.currentEpoch = s.currentEpoch := by
  cases callStep h with
  | visit i w x todo succeeds hi hworks hcalls hepoch hpending =>
    cases succeeds with
    | true => exact absurd ht id
    | false =>
      obtain ⟨w', x', todo', hi', hneeds⟩ := ht
      obtain ⟨-, hxs⟩ := SyncCall.leading.inj (hi.symm.trans hi')
      obtain ⟨rfl, -⟩ := List.cons.inj hxs
      exact absurd ⟨hneeds, rfl⟩ hworks
  | throw i w x todo hi hfails hcalls hepoch hpending =>
    refine ⟨⟨hpending ▸ hg.pending i w (.inl ⟨_, hi⟩), ?_⟩, hepoch⟩
    rintro ⟨j, y, rest, hj⟩
    rw [hcalls] at hj
    split at hj
    · cases hj
    · next hji => exact hji (hg.unique j i y w rest _ hj hi)
  | _ => exact absurd ht id

theorem Wedged.step (hw : s.Wedged) (h : step order s a = some s') :
    s'.Wedged ∧ s'.currentEpoch = s.currentEpoch := by
  have hnot : ∀ i w todo, s.calls i ≠ .leading w todo := fun i w todo hi => hw.2 ⟨i, w, todo, hi⟩
  have hzero := hw.1
  simp only [Wedged, Led, not_exists]
  cases callStep h <;> grind

theorem waiting_of_wedged {b : SyncBehavior order ι} {n m : ℕ} (hnm : n ≤ m) {j : ι} {x : ν}
    (hw : (b.state n).Wedged) (hj : (b.state n).calls j = .waiting x (b.state n).currentEpoch) :
    (b.state m).calls j ≠ .idle := by
  have hstuck : (b.state m).Wedged ∧
      (b.state m).calls j = .waiting x (b.state m).currentEpoch := by
    refine b.persists (I := fun s => s.Wedged ∧ s.calls j = .waiting x s.currentEpoch) ?_ hnm
      ⟨hw, hj⟩
    intro s a s' hs h
    obtain ⟨hw', hepoch⟩ := hs.1.step h
    exact ⟨hw', hepoch ▸ waiting_step h hs.2⟩
  simp [hstuck.2]

end Steps

section Behaviors

variable {order : List ν} {b : SyncBehavior order ι}

/-- A leader's sync that throws leaves no call of its epoch and no later call behind. -/
def ThrowsAlone (b : SyncBehavior order ι) : Prop :=
  ∀ n a, b.action n = some a → (b.state n).Throws a →
    (b.state n).pendingCount = 1 ∧ ∀ m j w, n < m → b.action m ≠ some (.requestSync j w)

/-- Every call returns or throws: no thread is in a call for ever. -/
def CallsEnd (b : SyncBehavior order ι) : Prop :=
  ∀ n i, ∃ m, n ≤ m ∧ (b.state m).calls i = .idle

theorem grouped_of_init (h₀ : b.state 0 = init ν ι) (n : ℕ) :
    (b.state n).Grouped ∧ (b.state n).Tallied := by
  refine b.persists (I := fun s => s.Grouped ∧ s.Tallied)
    (fun s a s' hs h => ⟨hs.1.step h, hs.2.step hs.1 h⟩) (Nat.zero_le n) ?_
  rw [h₀]
  exact ⟨init_grouped, fun i _ w _ h => absurd h (init_not_member i w), by simp [init]⟩

theorem throwsAlone_of_callsEnd (h₀ : b.state 0 = init ν ι) (h : CallsEnd b) : ThrowsAlone b := by
  intro n a ha ht
  obtain ⟨hg, htally⟩ := grouped_of_init h₀ n
  obtain ⟨hw, hepoch⟩ := ht.wedged hg (b.acts n a ha)
  have hwedged : ∀ m, n < m → (b.state m).Wedged := fun m hnm =>
    b.persists (I := Wedged) (fun s a s' hs h => (hs.step h).1) hnm hw
  constructor
  · by_contra hone
    obtain ⟨i, w, todo, hi⟩ := ht.led
    have hpos := hg.pending i w (.inl ⟨todo, hi⟩)
    have htwo : 2 ≤ (b.state n).pendingCount := by omega
    obtain ⟨j, x, hj⟩ := htally.follower htwo
    obtain ⟨m, hnm, hidle⟩ := h (n + 1) j
    exact waiting_of_wedged hnm hw (hepoch ▸ waiting_step (b.acts n a ha) hj) hidle
  · intro m j w hnm hm
    have hcall := b.acts m _ hm
    obtain ⟨k, hmk, hidle⟩ := h (m + 1) j
    have hwm := hwedged m hnm
    cases callStep hcall with
    | lead i w hi hzero => exact hwm.1 hzero
    | join i w hi hzero hcalls hepoch hpending =>
      refine waiting_of_wedged (x := w) hmk (hwedged (m + 1) (by omega)) ?_ hidle
      simp [hcalls, hepoch]

theorem Led.step {s s' : GroupCommit ν ι} {a : SyncAction ν ι} (hs : s.Led)
    (h : step order s a = some s') : s'.Led ∨ s.Throws a ∨ ∃ i, a = .finish i := by
  obtain ⟨k, y, todo, hk⟩ := hs
  cases callStep h with
  | append i w hi hcalls => exact .inl ⟨k, y, todo, by rw [hcalls, hk]⟩
  | lead i w hi hzero hcalls => exact .inl ⟨i, w, order, by simp [hcalls]⟩
  | join i w hi hzero hcalls => exact .inl ⟨k, y, todo, by grind⟩
  | visit i w x rest succeeds hi hworks hcalls => exact .inl ⟨i, w, rest, by simp [hcalls]⟩
  | throw i w x rest hi hfails => exact .inr (.inl ⟨w, x, rest, hi, hfails⟩)
  | finish i => exact .inr (.inr ⟨i, rfl⟩)
  | wake i w epoch hi hlt hcalls => exact .inl ⟨k, y, todo, by grind⟩

theorem wedged_of_step {s s' : GroupCommit ν ι} {a : SyncAction ν ι} (hw : s'.Wedged)
    (h : step order s a = some s') : s.Wedged ∨ s.Throws a := by
  by_cases hled : s.Led
  · rcases hled.step h with hled' | ht | ⟨i, rfl⟩
    · exact absurd hled' hw.2
    · exact .inr ht
    · cases callStep h with
      | finish i w hi hcalls hepoch hpending => exact absurd hpending hw.1
  · refine .inl ⟨?_, hled⟩
    cases callStep h with
    | lead i w hi hzero hcalls => exact absurd ⟨i, w, order, by simp [hcalls]⟩ hw.2
    | join i w hi hzero => exact hzero
    | finish i w hi => exact absurd ⟨i, w, [], hi⟩ hled
    | append | visit | throw | wake =>
      rename_i hpending
      exact hpending ▸ hw.1

theorem leading_step {s s' : GroupCommit ν ι} {a : SyncAction ν ι} (h : step order s a = some s')
    {j : ι} {w x : ν} {todo : List ν} {epoch : Nat} (hj : s.calls j = .leading w todo) :
    s'.calls j ≠ .waiting x epoch := by
  cases callStep h <;> grind

theorem led_step {s s' : GroupCommit ν ι} {a : SyncAction ν ι} (hg : s.Grouped) (ht : s.Tallied)
    (hled : ∀ j x, s.calls j = .waiting x s.currentEpoch → s.Led) (h : step order s a = some s')
    {j : ι} {x : ν} (hj : s'.calls j = .waiting x s'.currentEpoch) :
    s'.Led ∨ (s.Throws a ∧ 2 ≤ s.pendingCount) ∨ (s.Wedged ∧ ∃ i w, a = .requestSync i w) := by
  by_cases hcall : ∃ i w, a = .requestSync i w
  · obtain ⟨i, w, rfl⟩ := hcall
    cases callStep h with
    | lead i w hi hzero hcalls => exact .inl ⟨i, w, order, by simp [hcalls]⟩
    | join i w hi hzero =>
      by_cases hled : s.Led
      · refine .inl ((hled.step h).resolve_right ?_)
        simp [Throws]
      · exact .inr (.inr ⟨⟨hzero, hled⟩, i, w, rfl⟩)
  · have hm : s.Member j x := member_of_step hg h (fun i w ha => hcall ⟨i, w, ha⟩) (.inr hj)
    have hled' : s.Led := hm.elim (fun ⟨todo, hj⟩ => ⟨j, x, todo, hj⟩) (hled j x)
    rcases hled'.step h with hled' | hthrow | ⟨i, rfl⟩
    · exact .inl hled'
    · refine .inr (.inl ⟨hthrow, ?_⟩)
      obtain ⟨i, w, todo, hi⟩ := hled'
      refine ht.two_le i j w x (.inl ⟨todo, hi⟩) hm ?_
      rintro rfl
      exact leading_step h hi hj
    · exact absurd (.inr hj) (finish_not_member hg h j x)

theorem led_of_throwsAlone (h₀ : b.state 0 = init ν ι) (h : ThrowsAlone b) (n : ℕ) :
    ((b.state n).Wedged → ∃ k a, k < n ∧ b.action k = some a ∧ (b.state k).Throws a) ∧
      ∀ j x, (b.state n).calls j = .waiting x (b.state n).currentEpoch → (b.state n).Led := by
  induction n with
  | zero => simp [h₀, init, Wedged]
  | succ n ih =>
    obtain ⟨hg, htally⟩ := grouped_of_init h₀ n
    have hearlier : (b.state n).Wedged →
        ∃ k a, k < n + 1 ∧ b.action k = some a ∧ (b.state k).Throws a := by
      intro hw
      obtain ⟨k, a, hk, hthrow⟩ := ih.1 hw
      exact ⟨k, a, by omega, hthrow⟩
    cases ha : b.action n with
    | none =>
      rw [b.idle n ha]
      exact ⟨hearlier, ih.2⟩
    | some a =>
      have hstep := b.acts n a ha
      constructor
      · intro hw
        rcases wedged_of_step hw hstep with hw | ht
        · exact hearlier hw
        · exact ⟨n, a, by omega, ha, ht⟩
      · intro j x hj
        rcases led_step hg htally ih.2 hstep hj with hled | ⟨ht, htwo⟩ | ⟨hw, i, w, rfl⟩
        · exact hled
        · have := (h n a ha ht).1
          omega
        · obtain ⟨k, a, hk, hka, ht⟩ := ih.1 hw
          exact absurd ha ((h k a hka ht).2 n i w hk)

def toVisit (s : GroupCommit ν ι) (i : ι) : ℕ :=
  match s.calls i with
  | .leading _ todo => todo.length
  | _ => 0

theorem leading_enabled {s : GroupCommit ν ι} {i : ι} {w : ν} {todo : List ν}
    (hi : s.calls i = .leading w todo) : ∃ a, Advances i a ∧ (step order s a).isSome := by
  cases todo with
  | nil => exact ⟨.finish i, rfl, by simp [step, hi]⟩
  | cons x todo => exact ⟨.visit i true, rfl, by simp [step, hi]⟩

theorem leading_cases {s s' : GroupCommit ν ι} {a : SyncAction ν ι} (h : step order s a = some s')
    {i : ι} {w : ν} {todo : List ν} (hi : s.calls i = .leading w todo) :
    s'.calls i = .idle ∨ ∃ todo', s'.calls i = .leading w todo' ∧ todo'.length ≤ todo.length ∧
      (Advances i a → todo'.length < todo.length) := by
  cases callStep h <;> grind [Advances]

theorem leader_step {s s' : GroupCommit ν ι} {a : SyncAction ν ι} (hg : s.Grouped)
    (h : step order s a = some s') {i k : ι} {w y : ν} {todo rest : List ν}
    (hi : s.calls i = .leading w todo) (hk : s'.calls k = .leading y rest) : k = i := by
  have hpending := hg.pending i w (.inl ⟨todo, hi⟩)
  have hunique := fun x rest hk => hg.unique k i x w rest todo hk hi
  cases callStep h <;> grind

theorem epoch_mono {s s' : GroupCommit ν ι} {a : SyncAction ν ι} (h : step order s a = some s') :
    s.currentEpoch ≤ s'.currentEpoch := by
  cases callStep h <;> omega

theorem leading_ends (hfair : ∀ i, b.WeaklyFair (Advances i)) {n : ℕ} {i : ι} {w : ν}
    {todo : List ν} (hi : (b.state n).calls i = .leading w todo) :
    ∃ m, n ≤ m ∧ (b.state m).calls i = .idle := by
  refine (hfair i).reaches (I := fun _ => True) (P := fun s => ∃ w todo, s.calls i = .leading w todo)
    (Q := fun s => s.calls i = .idle) (toVisit · i) (fun _ => trivial) ?_ ?_ ?_ ⟨w, todo, hi⟩
  · rintro s - ⟨w, todo, hi⟩
    exact leading_enabled hi
  · rintro s a s' - - ⟨w, todo, hi⟩ h
    refine (leading_cases h hi).imp_right ?_
    rintro ⟨todo', hi', hle, -⟩
    exact ⟨⟨w, todo', hi'⟩, by simpa [toVisit, hi, hi'] using hle⟩
  · rintro s a s' - - ⟨w, todo, hi⟩ ha h
    refine (leading_cases h hi).imp_right ?_
    rintro ⟨todo', hi', -, hlt⟩
    exact ⟨⟨w, todo', hi'⟩, by simpa [toVisit, hi, hi'] using hlt ha⟩

theorem waiting_released (hfair : ∀ i, b.WeaklyFair (Advances i)) {n : ℕ} {j : ι} {x : ν}
    (hled : ∀ n j x, (b.state n).calls j = .waiting x (b.state n).currentEpoch → (b.state n).Led)
    (hg : ∀ n, (b.state n).Grouped)
    (hj : (b.state n).calls j = .waiting x (b.state n).currentEpoch) :
    ∃ m, n ≤ m ∧ ∃ epoch, (b.state m).calls j = .waiting x epoch ∧
      epoch < (b.state m).currentEpoch := by
  obtain ⟨i, w, todo, hi⟩ := hled n j x hj
  have hstep : ∀ s a s', s.Grouped → (s'.calls j = .waiting x s'.currentEpoch → s'.Led) →
      (∃ w todo, s.calls i = .leading w todo) ∧ s.calls j = .waiting x s.currentEpoch →
      step order s a = some s' →
      (∃ epoch, s'.calls j = .waiting x epoch ∧ epoch < s'.currentEpoch) ∨
        (((∃ w todo, s'.calls i = .leading w todo) ∧ s'.calls j = .waiting x s'.currentEpoch) ∧
          s'.toVisit i ≤ s.toVisit i ∧ (Advances i a → s'.toVisit i < s.toVisit i)) := by
    rintro s a s' hg hled ⟨⟨w, todo, hi⟩, hj⟩ h
    have hj' := waiting_step h hj
    rcases (epoch_mono h).lt_or_eq with hlt | heq
    · exact .inl ⟨_, hj', hlt⟩
    · rw [heq] at hj'
      obtain ⟨k, y, rest, hk⟩ := hled hj'
      obtain rfl := leader_step hg h hi hk
      rcases leading_cases h hi with hidle | ⟨todo', hi', hle, hlt⟩
      · simp [hidle] at hk
      · exact .inr ⟨⟨⟨w, todo', hi'⟩, hj'⟩, by simpa [toVisit, hi, hi'] using hle,
          by simpa [toVisit, hi, hi'] using hlt⟩
  refine (hfair i).reaches
    (I := fun s => s.Grouped ∧ (s.calls j = .waiting x s.currentEpoch → s.Led))
    (P := fun s => (∃ w todo, s.calls i = .leading w todo) ∧ s.calls j = .waiting x s.currentEpoch)
    (Q := fun s => ∃ epoch, s.calls j = .waiting x epoch ∧ epoch < s.currentEpoch)
    (toVisit · i) (fun n => ⟨hg n, hled n j x⟩) ?_ ?_ ?_ ⟨⟨w, todo, hi⟩, hj⟩
  · rintro s - ⟨⟨w, todo, hi⟩, -⟩
    exact leading_enabled hi
  · intro s a s' hs hs' hp h
    exact (hstep s a s' hs.1 hs'.2 hp h).imp_right fun hr => ⟨hr.1, hr.2.1⟩
  · intro s a s' hs hs' hp ha h
    exact (hstep s a s' hs.1 hs'.2 hp h).imp_right fun hr => ⟨hr.1, hr.2.2 ha⟩

theorem released_ends (hfair : ∀ i, b.WeaklyFair (Advances i)) {n : ℕ} {j : ι} {x : ν}
    {epoch : Nat} (hj : (b.state n).calls j = .waiting x epoch)
    (hlt : epoch < (b.state n).currentEpoch) :
    ∃ m, n ≤ m ∧ (b.state m).calls j = .idle := by
  have hstep : ∀ s a s', s.calls j = .waiting x epoch ∧ epoch < s.currentEpoch →
      step order s a = some s' → s'.calls j = .idle ∨
        ((s'.calls j = .waiting x epoch ∧ epoch < s'.currentEpoch) ∧ ¬ Advances j a) := by
    rintro s a s' ⟨hj, hlt⟩ h
    have hmono := epoch_mono h
    cases callStep h <;> grind [Advances]
  refine (hfair j).reaches (I := fun _ => True)
    (P := fun s => s.calls j = .waiting x epoch ∧ epoch < s.currentEpoch)
    (Q := fun s => s.calls j = .idle) (fun _ => 0) (fun _ => trivial) ?_ ?_ ?_ ⟨hj, hlt⟩
  · rintro s - ⟨hj, hlt⟩
    exact ⟨.wake j, rfl, by simp [step, hj, hlt]⟩
  · intro s a s' _ _ hp h
    exact (hstep s a s' hp h).imp_right fun hr => ⟨hr.1, le_refl 0⟩
  · intro s a s' _ _ hp ha h
    exact (hstep s a s' hp h).imp_right fun hr => absurd ha hr.2

/-- In a fair behaviour every call of `request_sync` returns or throws exactly when each sync that
throws has no other call in its epoch and no call after it. -/
theorem callsEnd_iff (h₀ : b.state 0 = init ν ι) (hfair : ∀ i, b.WeaklyFair (Advances i)) :
    CallsEnd b ↔ ThrowsAlone b := by
  refine ⟨throwsAlone_of_callsEnd h₀, fun h n i => ?_⟩
  have hg : ∀ n, (b.state n).Grouped := fun n => (grouped_of_init h₀ n).1
  cases hi : (b.state n).calls i with
  | idle => exact ⟨n, le_refl n, hi⟩
  | leading w todo => exact leading_ends hfair hi
  | waiting w epoch =>
    rcases (hg n).epoch_le i w epoch hi |>.lt_or_eq with hlt | rfl
    · exact released_ends hfair hi hlt
    · obtain ⟨m, hnm, epoch, hm, hlt⟩ :=
        waiting_released hfair (fun n => (led_of_throwsAlone h₀ h n).2) hg hi
      obtain ⟨k, hmk, hidle⟩ := released_ends hfair hm hlt
      exact ⟨k, hnm.trans hmk, hidle⟩

end Behaviors

section Examples

def syncedRun : List (SyncAction Unit (Fin 2)) :=
  [.append 0 (), .requestSync 0 (), .append 1 (), .requestSync 1 (), .visit 0 true, .finish 0,
    .wake 1]

/-- The leader throws, and a second thread calls afterwards. -/
def wedgedRun : List (SyncAction Unit (Fin 2)) :=
  [.append 0 (), .requestSync 0 (), .visit 0 false, .requestSync 1 ()]

def syncedBehavior : SyncBehavior [()] (Fin 2) := .ofRun (init Unit (Fin 2)) syncedRun (by decide)

def wedgedBehavior : SyncBehavior [()] (Fin 2) := .ofRun (init Unit (Fin 2)) wedgedRun (by decide)

theorem syncedBehavior_fair (i : Fin 2) : syncedBehavior.WeaklyFair (Advances i) := by
  refine Behavior.ofRun_weaklyFair rfl fun a ha => ?_
  cases a with
  | append | requestSync => exact absurd ha id
  | visit j | finish j | wake j =>
    obtain rfl : j = i := ha
    fin_cases j <;> rfl

theorem wedgedBehavior_fair (i : Fin 2) : wedgedBehavior.WeaklyFair (Advances i) := by
  refine Behavior.ofRun_weaklyFair rfl fun a ha => ?_
  cases a with
  | append | requestSync => exact absurd ha id
  | visit j | finish j | wake j =>
    obtain rfl : j = i := ha
    fin_cases j <;> rfl

theorem callsEnd_iff_syncedBehavior : CallsEnd syncedBehavior ↔ ThrowsAlone syncedBehavior :=
  callsEnd_iff rfl syncedBehavior_fair

/-- In a fair behaviour, a call after a sync that threw waits for ever. -/
theorem call_never_ends :
    (∀ i, wedgedBehavior.WeaklyFair (Advances i)) ∧
      ∀ m, 4 ≤ m → (wedgedBehavior.state m).calls 1 = .waiting () 0 := by
  refine ⟨wedgedBehavior_fair, fun m hm => ?_⟩
  obtain ⟨t, ht, hwaits⟩ : ∃ t, run (step [()]) (init Unit (Fin 2)) wedgedRun = some t ∧
      t.calls 1 = .waiting () 0 := ⟨_, rfl, rfl⟩
  rw [wedgedBehavior, Behavior.ofRun_state ht hm]
  exact hwaits

end Examples

end GroupCommit

end CoroDB
