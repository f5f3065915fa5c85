import CoroDB.Framework.Word

/-!
# Readers of a buffer

A parser that moves a position through a buffer of known length.
-/

namespace CoroDB.Framework

/-- What a parse comes to: a value, a refusal, or a read outside the buffer. -/
inductive Outcome (α : Type) where
  | value (a : α)
  | refused
  | outside
  deriving DecidableEq, Repr

def Outcome.result {α : Type} : Outcome α → Option α
  | .value a => some a
  | .refused => none
  | .outside => none

/-- A parser of the bytes from a position on, which gives a value and the position behind it. -/
def BufferReader (α : Type) : Type := List UInt8 → Nat → Outcome (α × Nat)

namespace BufferReader

variable {α β : Type}

instance monadBufferReader : Monad BufferReader where
  pure a := fun _ pos => .value (a, pos)
  bind r f := fun buf pos =>
    match r buf pos with
    | .value (a, pos') => f a buf pos'
    | .refused => .refused
    | .outside => .outside

section Operations

def read (n : Nat) : BufferReader (List UInt8) := fun buf pos =>
  if pos + n ≤ buf.length then .value ((buf.drop pos).take n, pos + n) else .outside

def word (width : Nat) : BufferReader Nat := do
  let bs ← read width
  pure (ofLeBytes bs)

def need (n : Nat) : BufferReader Unit := fun buf pos =>
  if pos + n ≤ buf.length then .value ((), pos) else .refused

def checkedRead (n : Nat) : BufferReader (List UInt8) := do
  need n
  read n

def checkedWord (width : Nat) : BufferReader Nat := do
  need width
  word width

def exactly (n : Nat) : BufferReader Unit := fun buf pos =>
  if pos + n = buf.length then .value ((), pos) else .refused

def require (p : Prop) [Decidable p] : BufferReader Unit := fun _ pos =>
  if p then .value ((), pos) else .refused

def remaining : BufferReader Nat := fun buf pos => .value (buf.length - pos, pos)

def front : BufferReader (List UInt8) := fun buf pos =>
  if pos ≤ buf.length then .value (buf.take pos, pos) else .outside

def run (r : BufferReader α) (data : List UInt8) : Outcome α :=
  match r data 0 with
  | .value (a, _) => .value a
  | .refused => .refused
  | .outside => .outside

def nested (r : BufferReader α) (data : List UInt8) : BufferReader α := fun _ pos =>
  match run r data with
  | .value a => .value (a, pos)
  | .refused => .refused
  | .outside => .outside

def many : Nat → BufferReader α → BufferReader (List α)
  | 0, _ => pure []
  | n + 1, r => do
    let a ← r
    let as ← many n r
    pure (a :: as)

end Operations

section Runs

variable {r : BufferReader α} {f : α → BufferReader β} {buf : List UInt8} {pos : Nat}

theorem bind_value {a : α} {pos' : Nat} (h : r buf pos = .value (a, pos')) :
    (r >>= f) buf pos = f a buf pos' := by
  simp only [bind, h]

theorem bind_refused (h : r buf pos = .refused) : (r >>= f) buf pos = .refused := by
  simp only [bind, h]

theorem bind_outside (h : r buf pos = .outside) : (r >>= f) buf pos = .outside := by
  simp only [bind, h]

theorem bind_eq_value {b : β × Nat} (h : (r >>= f) buf pos = .value b) :
    ∃ a pos', r buf pos = .value (a, pos') ∧ f a buf pos' = .value b := by
  cases hr : r buf pos with
  | value v => exact ⟨v.1, v.2, rfl, (bind_value hr).symm.trans h⟩
  | refused =>
    rw [bind_refused hr] at h
    cases h
  | outside =>
    rw [bind_outside hr] at h
    cases h

theorem read_of_le {n : Nat} (h : pos + n ≤ buf.length) :
    read n buf pos = .value ((buf.drop pos).take n, pos + n) := if_pos h

theorem read_of_lt {n : Nat} (h : buf.length < pos + n) : read n buf pos = .outside :=
  if_neg h.not_ge

theorem word_of_le {width : Nat} (h : pos + width ≤ buf.length) :
    word width buf pos = .value (ofLeBytes ((buf.drop pos).take width), pos + width) :=
  bind_value (read_of_le h)

theorem word_zero {width : Nat} (h : width ≤ buf.length) :
    word width buf 0 = .value (ofLeBytes (buf.take width), width) := by
  rw [word_of_le (by omega), List.drop_zero, Nat.zero_add]

theorem need_of_le {n : Nat} (h : pos + n ≤ buf.length) : need n buf pos = .value ((), pos) :=
  if_pos h

theorem need_of_lt {n : Nat} (h : buf.length < pos + n) : need n buf pos = .refused :=
  if_neg h.not_ge

theorem require_of {p : Prop} [Decidable p] (h : p) : require p buf pos = .value ((), pos) :=
  if_pos h

theorem require_of_not {p : Prop} [Decidable p] (h : ¬ p) : require p buf pos = .refused :=
  if_neg h

theorem word_eq_value {width a pos' : Nat} (h : word width buf pos = .value (a, pos')) :
    a = ofLeBytes ((buf.drop pos).take width) := by
  rcases Nat.lt_or_ge buf.length (pos + width) with hlt | hle
  · rw [word, bind_outside (read_of_lt hlt)] at h
    cases h
  · rw [word_of_le hle] at h
    cases h
    rfl

theorem need_eq_value {n : Nat} {u : Unit} {pos' : Nat} (h : need n buf pos = .value (u, pos')) :
    pos' = pos := by
  rw [need] at h
  split_ifs at h
  cases h
  rfl

theorem checkedWord_lt {width a pos' : Nat} (h : checkedWord width buf pos = .value (a, pos')) :
    a < 256 ^ width := by
  obtain ⟨u, pos₁, -, hword⟩ := bind_eq_value h
  rw [word_eq_value hword]
  apply (ofLeBytes_lt _).trans_le
  exact Nat.pow_le_pow_right (by decide) (List.length_take_le _ _)

theorem checkedRead_length {n pos' : Nat} {bs : List UInt8}
    (h : checkedRead n buf pos = .value (bs, pos')) : bs.length = n := by
  obtain ⟨u, pos₁, -, hread⟩ := bind_eq_value h
  rw [read] at hread
  split_ifs at hread with hle
  cases hread
  rw [List.length_take, List.length_drop]
  omega

theorem exactly_eq_value {n : Nat} {u : Unit} {pos' : Nat}
    (h : exactly n buf pos = .value (u, pos')) : pos + n = buf.length ∧ pos' = pos := by
  rw [exactly] at h
  split_ifs at h with hn
  cases h
  exact ⟨hn, rfl⟩

theorem require_eq_value {p : Prop} [Decidable p] {u : Unit} {pos' : Nat}
    (h : require p buf pos = .value (u, pos')) : p := by
  rw [require] at h
  split_ifs at h with hp
  exact hp

theorem front_eq_value {a : List UInt8} {pos' : Nat} (h : front buf pos = .value (a, pos')) :
    a = buf.take pos ∧ pos' = pos := by
  rw [front] at h
  split_ifs at h
  cases h
  exact ⟨rfl, rfl⟩

theorem run_value {a : α} {pos' : Nat} (h : r buf 0 = .value (a, pos')) :
    run r buf = .value a := by
  simp only [run, h]

theorem run_refused (h : r buf 0 = .refused) : run r buf = .refused := by
  simp only [run, h]

theorem run_outside (h : r buf 0 = .outside) : run r buf = .outside := by
  simp only [run, h]

theorem run_eq_value {a : α} (h : run r buf = .value a) : ∃ pos', r buf 0 = .value (a, pos') := by
  cases hr : r buf 0 with
  | value v =>
    rw [run_value hr] at h
    cases h
    exact ⟨v.2, rfl⟩
  | refused =>
    rw [run_refused hr] at h
    cases h
  | outside =>
    rw [run_outside hr] at h
    cases h

theorem nested_eq {data : List UInt8} (h : run r data ≠ .outside) :
    nested r data buf pos = (run r data).result.elim .refused fun a => .value (a, pos) := by
  cases hr : run r data with
  | value v => simp only [nested, hr, Outcome.result, Option.elim]
  | refused => simp only [nested, hr, Outcome.result, Option.elim]
  | outside => exact absurd hr h

end Runs

section Encodings

/-- The reader gives the value back from its bytes, whatever stands around them. -/
def Reads (r : BufferReader α) (bs : List UInt8) (a : α) : Prop :=
  ∀ before after, r (before ++ (bs ++ after)) before.length =
    .value (a, before.length + bs.length)

variable {r : BufferReader α} {f : α → BufferReader β} {bs bs' : List UInt8} {a : α} {b : β}

theorem Reads.pure (a : α) : Reads (pure a) [] a := fun _ _ => rfl

theorem Reads.bind (h : Reads r bs a) (h' : Reads (f a) bs' b) :
    Reads (r >>= f) (bs ++ bs') b := by
  intro before after
  rw [List.append_assoc, bind_value (h before (bs' ++ after))]
  have hrest := h' (before ++ bs) after
  rw [List.append_assoc, List.length_append, Nat.add_assoc] at hrest
  rw [hrest, List.length_append]

theorem Reads.run_append (h : Reads r bs a) (rest : List UInt8) :
    run r (bs ++ rest) = .value a :=
  run_value (h [] rest)

theorem Reads.last {g : α → β} (h : Reads r bs a) :
    Reads (r >>= fun x => Pure.pure (g x)) bs (g a) := by
  have hbind : Reads (r >>= fun x => Pure.pure (g x)) (bs ++ []) (g a) := h.bind (Reads.pure (g a))
  rwa [List.append_nil] at hbind

theorem reads_read {n : Nat} (h : bs.length = n) : Reads (read n) bs bs := by
  intro before after
  subst h
  rw [read_of_le (by simp), List.drop_left, List.take_left]

theorem reads_word {width n : Nat} (h : n < 256 ^ width) :
    Reads (word width) (leBytes width n) n := by
  have hlast := (reads_read (leBytes_length width n)).last (g := ofLeBytes)
  rwa [ofLeBytes_leBytes, Nat.mod_eq_of_lt h] at hlast

theorem Reads.need {n : Nat} {g : Unit → BufferReader α} (h : Reads (g ()) bs a)
    (hn : n ≤ bs.length) : Reads (need n >>= g) bs a := by
  intro before after
  rw [bind_value (need_of_le (by simp; omega)), h before after]

theorem reads_checkedRead {n : Nat} (h : bs.length = n) : Reads (checkedRead n) bs bs :=
  (reads_read h).need h.ge

theorem reads_checkedWord {width n : Nat} (h : n < 256 ^ width) :
    Reads (checkedWord width) (leBytes width n) n :=
  (reads_word h).need (leBytes_length width n).ge

theorem Reads.require {p : Prop} [Decidable p] {g : Unit → BufferReader α} (h : Reads (g ()) bs a)
    (hp : p) : Reads (require p >>= g) bs a := by
  intro before after
  rw [bind_value (require_of hp), h before after]

theorem Reads.many {xs : List α} {encode : α → List UInt8} (h : ∀ x ∈ xs, Reads r (encode x) x) :
    Reads (many xs.length r) (xs.flatMap encode) xs := by
  induction xs with
  | nil => exact Reads.pure []
  | cons x xs ih =>
    rw [List.flatMap_cons]
    apply (h x List.mem_cons_self).bind
    apply Reads.last
    exact ih fun y hy => h y (List.mem_cons_of_mem x hy)

end Encodings

section Bounds

/-- Not a read outside the buffer, and with a value at least `m` bytes are left. -/
def Inside (len m : Nat) : Outcome (α × Nat) → Prop
  | .value v => v.2 + m ≤ len
  | .refused => True
  | .outside => False

/-- With `n` bytes left the reader stays inside the buffer, and leaves `m` bytes when it gives a
value. -/
def Needs (n : Nat) (r : BufferReader α) (m : Nat) : Prop :=
  ∀ buf pos, pos + n ≤ buf.length → Inside buf.length m (r buf pos)

variable {n m l k : Nat} {r : BufferReader α} {f : α → BufferReader β}

theorem Needs.run_ne_outside (h : Needs 0 r m) (buf : List UInt8) : run r buf ≠ .outside := by
  have hin := h buf 0 (Nat.zero_le _)
  cases hr : r buf 0 with
  | value v =>
    rw [run_value hr]
    simp
  | refused =>
    rw [run_refused hr]
    simp
  | outside =>
    rw [hr] at hin
    exact hin.elim

theorem Needs.pure (a : α) : Needs n (pure a) n := fun _ _ h => h

theorem Needs.bind (h : Needs n r m) (h' : ∀ a, Needs m (f a) l) : Needs n (r >>= f) l := by
  intro buf pos hpos
  have hin := h buf pos hpos
  cases hr : r buf pos with
  | value v =>
    rw [hr] at hin
    rw [bind_value hr]
    exact h' v.1 buf v.2 hin
  | refused =>
    rw [bind_refused hr]
    trivial
  | outside =>
    rw [hr] at hin
    exact hin.elim

theorem needs_read (h : k + m ≤ n) : Needs n (read k) m := by
  intro buf pos hpos
  rw [read_of_le (by omega)]
  change pos + k + m ≤ buf.length
  omega

theorem needs_word (h : k + m ≤ n) : Needs n (word k) m :=
  (needs_read h).bind fun _ => Needs.pure _

theorem needs_need : Needs n (need k) k := by
  intro buf pos _
  rw [need]
  split_ifs with hk
  · exact hk
  · trivial

theorem needs_checkedRead : Needs n (checkedRead k) 0 :=
  needs_need.bind fun _ => needs_read (Nat.le_refl _)

theorem needs_checkedWord : Needs n (checkedWord k) 0 :=
  needs_need.bind fun _ => needs_word (Nat.le_refl _)

theorem needs_exactly : Needs n (exactly k) k := by
  intro buf pos _
  rw [exactly]
  split_ifs with hk
  · exact hk.le
  · trivial

theorem needs_require {p : Prop} [Decidable p] : Needs n (require p) n := by
  intro buf pos hpos
  rw [require]
  split_ifs with hp
  · exact hpos
  · trivial

theorem needs_front : Needs n front n := by
  intro buf pos hpos
  rw [front, if_pos (by omega)]
  exact hpos

theorem Needs.many (h : Needs 0 r 0) (count : Nat) : Needs 0 (many count r) 0 := by
  induction count with
  | zero => exact Needs.pure []
  | succ count ih => exact h.bind fun _ => ih.bind fun _ => Needs.pure _

end Bounds

section Extensions

/-- More bytes behind the buffer do not change a value that was read. -/
def Stable (r : BufferReader α) : Prop :=
  ∀ buf ext pos v, r buf pos = .value v → r (buf ++ ext) pos = .value v

variable {r : BufferReader α} {f : α → BufferReader β}

theorem Stable.pure (a : α) : Stable (pure a : BufferReader α) := fun _ _ _ _ h => h

theorem Stable.bind (h : Stable r) (h' : ∀ a, Stable (f a)) : Stable (r >>= f) := by
  intro buf ext pos v hv
  obtain ⟨a, pos', hr, hf⟩ := bind_eq_value hv
  rw [bind_value (h buf ext pos _ hr)]
  exact h' a buf ext pos' v hf

theorem stable_read (n : Nat) : Stable (read n) := by
  intro buf ext pos v hv
  rcases Nat.lt_or_ge buf.length (pos + n) with hlt | hle
  · rw [read_of_lt hlt] at hv
    cases hv
  · rw [read_of_le hle] at hv
    rw [read_of_le (by simp; omega), ← hv, List.drop_append_of_le_length (by omega),
      List.take_append_of_le_length (by simp; omega)]

theorem stable_word (width : Nat) : Stable (word width) :=
  (stable_read width).bind fun _ => Stable.pure _

theorem stable_need (n : Nat) : Stable (need n) := by
  intro buf ext pos v hv
  rcases Nat.lt_or_ge buf.length (pos + n) with hlt | hle
  · rw [need_of_lt hlt] at hv
    cases hv
  · rw [need_of_le hle] at hv
    rw [need_of_le (by simp; omega), hv]

theorem stable_checkedRead (n : Nat) : Stable (checkedRead n) :=
  (stable_need n).bind fun _ => stable_read n

theorem stable_checkedWord (width : Nat) : Stable (checkedWord width) :=
  (stable_need width).bind fun _ => stable_word width

theorem stable_require (p : Prop) [Decidable p] : Stable (require p) := fun _ _ _ _ h => h

theorem Stable.many (h : Stable r) (count : Nat) : Stable (many count r) := by
  induction count with
  | zero => exact Stable.pure []
  | succ count ih => exact h.bind fun _ => ih.bind fun _ => Stable.pure _

theorem Reads.run_take_ne_value {bs : List UInt8} {a : α} {k : Nat} (h : Reads r bs a)
    (hstable : Stable r) (hneeds : Needs 0 r 0) (hk : k < bs.length) (b : α) :
    run r (bs.take k) ≠ .value b := by
  intro hrun
  obtain ⟨pos, hpos⟩ := run_eq_value hrun
  have hinside := hneeds (bs.take k) 0 (Nat.zero_le _)
  rw [hpos] at hinside
  have hwhole := hstable _ (bs.drop k) _ _ hpos
  rw [List.take_append_drop] at hwhole
  have hend := h [] []
  rw [List.append_nil, List.nil_append, List.length_nil, hwhole] at hend
  have heq : pos = 0 + bs.length := (Prod.mk.inj (Outcome.value.inj hend)).2
  have hle : pos + 0 ≤ (bs.take k).length := hinside
  rw [List.length_take] at hle
  omega

end Extensions

end BufferReader

end CoroDB.Framework
