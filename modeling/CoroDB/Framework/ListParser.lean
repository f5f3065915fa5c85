import Mathlib.Data.List.Basic
import Mathlib.Data.Option.Basic

/-!
# Parsers of token lists

A parser takes tokens off the front of a list and gives what they stand for and the rest, or refuses.
-/

namespace CoroDB.Framework

universe u v w

abbrev ListParser (τ : Type u) (α : Type v) := List τ → Option (α × List τ)

namespace ListParser

variable {τ : Type u} {α ω : Type v} {β : Type w}

def accept (test : τ → Bool) : List τ → Option (List τ)
  | [] => none
  | t :: ts => if test t then some ts else none

/-- Separators with an item behind each, as long as the next token is a separator. -/
def tailWith (sep : τ → Option ω) (item : ListParser τ α) : ℕ → ListParser τ (List (ω × α))
  | 0, _ => none
  | n + 1, ts =>
    match ts.head?.bind sep with
    | none => some ([], ts)
    | some o => do
      let (a, ts) ← item ts.tail
      let (as, ts) ← tailWith sep item n ts
      return ((o, a) :: as, ts)

def sepBy (sep : τ → Option ω) (item : ListParser τ α) : ListParser τ (α × List (ω × α)) := fun ts => do
  let (a, ts) ← item ts
  let (as, ts) ← tailWith sep item (ts.length + 1) ts
  return ((a, as), ts)

/-- Operands with operators between them, taken together from the left. -/
def chain (op : τ → Option ω) (combine : ω → α → α → α) (item : ListParser τ α) : ListParser τ α :=
  fun ts => (sepBy op item ts).map fun p => (p.1.2.foldl (fun a b => combine b.1 a b.2) p.1.1, p.2)

/-- The parser reads some tokens as a value, or refuses them, whatever follows that may follow. -/
def Takes (p : ListParser τ α) (stop : List τ → Prop) (ts : List τ) (a : Option α) : Prop :=
  ∀ rest, stop rest → p (ts ++ rest) = a.map (·, rest)

section Separated

variable {sep : τ → Option ω} {item : ListParser τ α} {stop : List τ → Prop} {parts : List β}
  {tok : β → τ} {shown : β → List τ} {op : β → ω} {val : β → Option α} {rest : List τ} {n : ℕ}

theorem tailWith_flatMap (hsep : ∀ b ∈ parts, sep (tok b) = some (op b))
    (hitem : ∀ b ∈ parts, item.Takes stop (shown b) (val b))
    (hstop : ∀ t rest, (sep t).isSome → stop (t :: rest)) (hrest : stop rest)
    (hend : rest.head?.bind sep = none) (hn : parts.length < n) :
    tailWith sep item n (parts.flatMap (fun b => tok b :: shown b) ++ rest) =
      (parts.mapM fun b => (val b).map (op b, ·)).map (·, rest) := by
  induction parts generalizing n with
  | nil =>
    obtain ⟨n, rfl⟩ := Nat.exists_eq_succ_of_ne_zero (Nat.ne_of_gt hn)
    simp [tailWith, hend]
  | cons b parts ih =>
    obtain ⟨n, rfl⟩ := Nat.exists_eq_succ_of_ne_zero (Nat.ne_of_gt (Nat.zero_lt_of_lt hn))
    simp only [List.forall_mem_cons] at hsep hitem
    have hnext : stop (parts.flatMap (fun b => tok b :: shown b) ++ rest) := by
      cases parts with
      | nil => exact hrest
      | cons b' parts => exact hstop _ _ (by simp [hsep.2 b'])
    have hfirst := hitem.1 _ hnext
    have htail := ih hsep.2 hitem.2 (n := n) (by simpa using hn)
    rw [List.flatMap_cons, tailWith, List.cons_append, List.cons_append, List.append_assoc]
    simp only [List.head?_cons, Option.bind_some, hsep.1, List.tail_cons, hfirst, List.mapM_cons]
    cases val b with
    | none => rfl
    | some a =>
      simp only [Option.map_some, Option.bind_eq_bind, Option.bind_some, htail]
      cases parts.mapM fun b => (val b).map (op b, ·) <;> rfl

theorem map_snd_mapM (parts : List β) :
    (parts.mapM fun b => (val b).map (op b, ·)).map (List.map Prod.snd) = parts.mapM val := by
  induction parts with
  | nil => rfl
  | cons b parts ih =>
    rw [List.mapM_cons, List.mapM_cons, ← ih]
    cases val b with
    | none => rfl
    | some a => cases parts.mapM fun b => (val b).map (op b, ·) <;> rfl

theorem length_le_flatMap (parts : List β) :
    parts.length ≤ (parts.flatMap fun b => tok b :: shown b).length := by
  induction parts with
  | nil => simp
  | cons b parts ih =>
    rw [List.flatMap_cons, List.length_append, List.length_cons, List.length_cons]
    omega

theorem sepBy_flatMap {first : List τ} {a : Option α} (hfirst : item.Takes stop first a)
    (hsep : ∀ b ∈ parts, sep (tok b) = some (op b))
    (hitem : ∀ b ∈ parts, item.Takes stop (shown b) (val b))
    (hstop : ∀ t rest, (sep t).isSome → stop (t :: rest)) (hrest : stop rest)
    (hend : rest.head?.bind sep = none) :
    sepBy sep item (first ++ parts.flatMap (fun b => tok b :: shown b) ++ rest) =
      a.bind fun a => (parts.mapM fun b => (val b).map (op b, ·)).map fun as => ((a, as), rest) := by
  have hnext : stop (parts.flatMap (fun b => tok b :: shown b) ++ rest) := by
    cases parts with
    | nil => exact hrest
    | cons b' parts => exact hstop _ _ (by simp [hsep b'])
  rw [List.append_assoc, sepBy, hfirst _ hnext]
  cases a with
  | none => rfl
  | some a =>
    have htail := tailWith_flatMap hsep hitem hstop hrest hend
      (n := (parts.flatMap (fun b => tok b :: shown b) ++ rest).length + 1) (by
        have hlength : parts.length ≤ (parts.flatMap fun b => tok b :: shown b).length :=
          length_le_flatMap parts
        rw [List.length_append]
        omega)
    simp only [Option.map_some, Option.bind_eq_bind, Option.bind_some, htail]
    cases parts.mapM fun b => (val b).map (op b, ·) <;> rfl

end Separated

section Chain

/-- The tokens of operands with operators between them, and their value from the left. -/
inductive Chained (op : τ → Option ω) (combine : ω → α → α → α) (item : ListParser τ α)
    (stop : List τ → Prop) : List τ → Option α → Prop
  | single {ts : List τ} {a : Option α} (h : item.Takes stop ts a) : Chained op combine item stop ts a
  | snoc {ts ts' : List τ} {t : τ} {o : ω} {a b : Option α} (h : Chained op combine item stop ts a) (ht : op t = some o)
      (hb : item.Takes stop ts' b) :
      Chained op combine item stop (ts ++ t :: ts') (a.bind fun a => b.map (combine o a))

structure Operand (op : τ → Option ω) (item : ListParser τ α) (stop : List τ → Prop) where
  token : τ
  operator : ω
  shown : List τ
  value : Option α
  reads : op token = some operator
  takes : item.Takes stop shown value

variable {op : τ → Option ω} {combine : ω → α → α → α} {item : ListParser τ α}
  {stop : List τ → Prop} {ts : List τ} {a : Option α}

theorem chain_eq_none (h : item ts = none) : chain op combine item ts = none := by
  simp [chain, sepBy, h]

theorem Chained.operands (h : Chained op combine item stop ts a) :
    ∃ first a₀, ∃ parts : List (Operand op item stop), item.Takes stop first a₀ ∧
      ts = first ++ parts.flatMap (fun p => p.token :: p.shown) ∧
      a = a₀.bind fun a₀ => (parts.mapM fun p : Operand op item stop =>
        p.value.map (p.operator, ·)).map fun bs => bs.foldl (fun a b => combine b.1 a b.2) a₀ := by
  induction h with
  | @single ts a h => exact ⟨ts, a, [], h, by simp, by cases a <;> rfl⟩
  | @snoc ts ts' t o a b _ ht hb ih =>
    obtain ⟨first, a₀, parts, hfirst, rfl, rfl⟩ := ih
    refine ⟨first, a₀, parts ++ [⟨t, o, ts', b, ht, hb⟩], hfirst, by simp, ?_⟩
    rw [List.mapM_append]
    cases a₀ with
    | none => rfl
    | some a₀ =>
      cases parts.mapM fun p : Operand op item stop => p.value.map (p.operator, ·) <;> cases b <;> simp

theorem Chained.takes (h : Chained op combine item stop ts a)
    (hstop : ∀ t rest, (op t).isSome → stop (t :: rest)) :
    (chain op combine item).Takes (fun rest => stop rest ∧ rest.head?.bind op = none) ts a := by
  obtain ⟨first, a₀, parts, hfirst, rfl, rfl⟩ := h.operands
  intro rest hrest
  rw [chain, sepBy_flatMap hfirst (fun p _ => p.reads) (fun p _ => p.takes) hstop hrest.1 hrest.2]
  cases a₀ with
  | none => rfl
  | some a₀ =>
    cases parts.mapM fun p : Operand op item stop => p.value.map (p.operator, ·) <;> rfl

end Chain

end ListParser

end CoroDB.Framework
