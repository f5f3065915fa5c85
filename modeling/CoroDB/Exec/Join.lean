import CoroDB.Exec.Predicate
import CoroDB.Framework.OuterJoin

/-!
# Joins

The nested-loop join of the executor: every pair of rows is merged and the `ON` condition is evaluated
on it.
-/

namespace CoroDB

open Framework

inductive JoinType where
  | inner
  | left
  | right
  | full
  deriving DecidableEq, Repr

namespace JoinType

def padsLeft : JoinType → Bool
  | .left | .full => true
  | .inner | .right => false

def padsRight : JoinType → Bool
  | .right | .full => true
  | .inner | .left => false

end JoinType

/-- `merge_rows`. -/
def Record.merge (l r : Record) : Record := ⟨l.bindings ++ r.bindings, l.values ++ r.values⟩

/-- `make_null_record`. -/
def nullRecord (bindings : List ColumnRef) : Record :=
  ⟨bindings, List.replicate bindings.length .null⟩

/-- One side of a join: the bindings derived from its plan, and the records that the plan gives. -/
structure JoinInput where
  schema : List ColumnRef
  rows : List Record

def BoolExpr.accepts (on : BoolExpr) (r : Record) : Except String Bool := do
  return (← on.eval r) == .isTrue

namespace JoinInput

def padLeft (type : JoinType) (right : JoinInput) (l : Record) : List Record :=
  if type.padsLeft then [l.merge (nullRecord right.schema)] else []

def padRight (type : JoinType) (left : JoinInput) (r : Record) : List Record :=
  if type.padsRight then [(nullRecord left.schema).merge r] else []

end JoinInput

def nestedLoopJoin (type : JoinType) (on : BoolExpr) (left right : JoinInput) :
    Except String (List Record) :=
  joinLoop (fun _ => .ok right.rows.zipIdx) (fun l r => on.accepts (l.merge r)) Record.merge
    (right.padLeft type) (left.padRight type) left.rows right.rows

section Spec

variable {on : BoolExpr}

theorem BoolExpr.accepts_eq_ok {r : Record} {b : Bool} (h : on.accepts r = .ok b) :
    b = on.holds r := by
  rw [BoolExpr.accepts] at h
  rw [BoolExpr.holds]
  cases he : on.eval r with
  | error e => simp [he, bind, Except.bind] at h
  | ok v =>
    simp only [he, bind, Except.bind, pure, Except.pure, Except.ok.injEq] at h
    rw [← h]
    cases v <;> rfl

theorem nestedLoopJoin_perm (type : JoinType) (left right : JoinInput)
    (hon : ∀ l ∈ left.rows, ∀ r ∈ right.rows, ∃ b, on.accepts (l.merge r) = .ok b) :
    ∃ out, nestedLoopJoin type on left right = .ok out ∧
      out.Perm (joined (fun l r => on.holds (l.merge r)) Record.merge (right.padLeft type)
        (left.padRight type) left.rows right.rows) := by
  apply joinLoop_perm
  constructor
  intro l hl
  refine ⟨fun _ => true, by simp, fun r hr => ⟨fun _ => ?_, fun h => by cases h⟩⟩
  obtain ⟨b, hb⟩ := hon l hl r hr
  rw [hb, BoolExpr.accepts_eq_ok hb]

end Spec

section Mirror

/-- A side whose records have the bindings of its schema. -/
structure Relation extends JoinInput where
  bindings : ∀ r ∈ rows, r.bindings = schema
  arity : ∀ r ∈ rows, r.values.length = schema.length

/-- Exchange the first columns, as many as given, and the others. -/
def Record.exchange (n : Nat) (r : Record) : Record := ⟨r.bindings.rotate n, r.values.rotate n⟩

variable {on : BoolExpr} {L R : Relation}

theorem Record.exchange_merge {l r : Record} {n : Nat} (hbindings : l.bindings.length = n)
    (hvalues : l.values.length = n) : (l.merge r).exchange n = r.merge l := by
  rw [exchange, merge, merge]
  congr 1
  · rw [← hbindings, List.rotate_append_length_eq]
  · rw [← hvalues, List.rotate_append_length_eq]

theorem Relation.exchange_merge {l : Record} (hl : l ∈ L.rows) (r : Record) :
    (l.merge r).exchange L.schema.length = r.merge l :=
  Record.exchange_merge (by rw [L.bindings l hl]) (L.arity l hl)

theorem exchange_nullRecord (schema : List ColumnRef) (r : Record) :
    ((nullRecord schema).merge r).exchange schema.length = r.merge (nullRecord schema) :=
  Record.exchange_merge rfl List.length_replicate

/-- The condition is evaluated on every pair of rows, with the same outcome in either order of the
columns. -/
def BoolExpr.Symmetric (on : BoolExpr) (L R : Relation) : Prop :=
  ∀ l ∈ L.rows, ∀ r ∈ R.rows, ∃ b, on.accepts (l.merge r) = .ok b ∧ on.accepts (r.merge l) = .ok b

theorem BoolExpr.Symmetric.swap (h : on.Symmetric L R) : on.Symmetric R L := by
  intro r hr l hl
  obtain ⟨b, hlr, hrl⟩ := h l hl r hr
  exact ⟨b, hrl, hlr⟩

theorem BoolExpr.Symmetric.holds (h : on.Symmetric L R) : ∀ l ∈ L.rows, ∀ r ∈ R.rows,
    on.holds (r.merge l) = on.holds (l.merge r) := by
  intro l hl r hr
  obtain ⟨b, hlr, hrl⟩ := h l hl r hr
  rw [← BoolExpr.accepts_eq_ok hlr, ← BoolExpr.accepts_eq_ok hrl]

def JoinType.mirror : JoinType → JoinType
  | .left => .right
  | .right => .left
  | type => type

theorem BoolExpr.Symmetric.evaluates (h : on.Symmetric L R) :
    ∀ l ∈ L.rows, ∀ r ∈ R.rows, ∃ b, on.accepts (l.merge r) = .ok b :=
  fun l hl r hr => (h l hl r hr).imp fun _ hb => hb.1

theorem nestedLoopJoin_mirror (h : on.Symmetric L R) (type : JoinType) {out out' : List Record}
    (hout : nestedLoopJoin type on L.toJoinInput R.toJoinInput = .ok out)
    (hout' : nestedLoopJoin type.mirror on R.toJoinInput L.toJoinInput = .ok out') :
    (out.map (Record.exchange L.schema.length)).Perm out' := by
  obtain ⟨rows, hrows, hperm⟩ :=
    nestedLoopJoin_perm type L.toJoinInput R.toJoinInput h.evaluates
  obtain ⟨rows', hrows', hperm'⟩ :=
    nestedLoopJoin_perm type.mirror R.toJoinInput L.toJoinInput h.swap.evaluates
  rw [hout, Except.ok.injEq] at hrows
  rw [hout', Except.ok.injEq] at hrows'
  rw [hrows, hrows']
  refine ((hperm.map _).trans ?_).trans hperm'.symm
  apply joined_mirror h.holds
  · exact fun l hl r _ => Relation.exchange_merge hl r
  · intro l hl
    cases type <;> simp [JoinInput.padLeft, JoinInput.padRight, JoinType.padsLeft,
      JoinType.padsRight, JoinType.mirror, Relation.exchange_merge hl]
  · intro r _
    cases type <;> simp [JoinInput.padLeft, JoinInput.padRight, JoinType.padsLeft,
      JoinType.padsRight, JoinType.mirror, exchange_nullRecord]

theorem leftOnly_padLeft (hit : Record → Record → Bool) (type : JoinType) (left right : JoinInput) :
    leftOnly hit (right.padLeft type) left.rows right.rows =
      if type.padsLeft then leftOnly hit (right.padLeft .full) left.rows right.rows else [] := by
  cases type with
  | inner | right => simp [leftOnly, JoinInput.padLeft, JoinType.padsLeft]
  | left | full => rfl

theorem rightOnly_padRight (hit : Record → Record → Bool) (type : JoinType) (left right : JoinInput) :
    rightOnly hit (left.padRight type) left.rows right.rows =
      if type.padsRight then rightOnly hit (left.padRight .full) left.rows right.rows else [] := by
  cases type with
  | inner | left => simp [rightOnly, JoinInput.padRight, JoinType.padsRight]
  | right | full => rfl

theorem nestedLoopJoin_parts (h : on.Symmetric L R) :
    ∃ pairs lefts rights : List Record, ∀ type,
      ∃ out, nestedLoopJoin type on L.toJoinInput R.toJoinInput = .ok out ∧
        out.Perm (pairs ++ (if type.padsLeft then lefts else []) ++
          if type.padsRight then rights else []) := by
  let hit := fun l r : Record => on.holds (l.merge r)
  refine ⟨matched hit Record.merge L.rows R.rows,
    leftOnly hit (R.padLeft .full) L.rows R.rows, rightOnly hit (L.padRight .full) L.rows R.rows, ?_⟩
  intro type
  obtain ⟨out, hout, hperm⟩ := nestedLoopJoin_perm type L.toJoinInput R.toJoinInput h.evaluates
  refine ⟨out, hout, hperm.trans (List.Perm.of_eq ?_)⟩
  rw [joined, leftOnly_padLeft, rightOnly_padRight]

/-- Right and left joins, and full joins, mirror each other; the inner join is contained in the left
and the right one; and the full join has as many rows as those two have without the inner one. -/
def MirrorLaws (on : BoolExpr) (L R : Relation) : Prop :=
  ∃ inner left right full left' full',
    nestedLoopJoin .inner on L.toJoinInput R.toJoinInput = .ok inner ∧
    nestedLoopJoin .left on L.toJoinInput R.toJoinInput = .ok left ∧
    nestedLoopJoin .right on L.toJoinInput R.toJoinInput = .ok right ∧
    nestedLoopJoin .full on L.toJoinInput R.toJoinInput = .ok full ∧
    nestedLoopJoin .left on R.toJoinInput L.toJoinInput = .ok left' ∧
    nestedLoopJoin .full on R.toJoinInput L.toJoinInput = .ok full' ∧
    (right.map (Record.exchange L.schema.length)).Perm left' ∧
    (full.map (Record.exchange L.schema.length)).Perm full' ∧
    inner.Subperm left ∧ inner.Subperm right ∧
    full.length + inner.length = left.length + right.length

theorem outerJoins_mirror (on : BoolExpr) (L R : Relation) (h : on.Symmetric L R) :
    MirrorLaws on L R := by
  obtain ⟨pairs, lefts, rights, hparts⟩ := nestedLoopJoin_parts h
  obtain ⟨inner, hinner, pinner⟩ := hparts .inner
  obtain ⟨left, hleft, pleft⟩ := hparts .left
  obtain ⟨right, hright, pright⟩ := hparts .right
  obtain ⟨full, hfull, pfull⟩ := hparts .full
  obtain ⟨left', hleft', -⟩ := nestedLoopJoin_perm .left R.toJoinInput L.toJoinInput h.swap.evaluates
  obtain ⟨full', hfull', -⟩ := nestedLoopJoin_perm .full R.toJoinInput L.toJoinInput h.swap.evaluates
  simp only [JoinType.padsLeft, JoinType.padsRight, Bool.false_eq_true, if_false, if_true,
    List.append_nil] at pinner pleft pright pfull
  refine ⟨inner, left, right, full, left', full', hinner, hleft, hright, hfull, hleft', hfull',
    nestedLoopJoin_mirror h .right hright hleft', nestedLoopJoin_mirror h .full hfull hfull', ?_, ?_, ?_⟩
  · exact (pinner.subperm.trans (List.sublist_append_left pairs lefts).subperm).trans
      pleft.symm.subperm
  · exact (pinner.subperm.trans (List.sublist_append_left pairs rights).subperm).trans
      pright.symm.subperm
  · rw [pinner.length_eq, pleft.length_eq, pright.length_eq, pfull.length_eq]
    simp only [List.length_append]
    omega

def twoRows (table : Bytes) (a b : Value) : Relation where
  schema := [⟨table, [97]⟩]
  rows := [⟨[⟨table, [97]⟩], [a]⟩, ⟨[⟨table, [97]⟩], [b]⟩]
  bindings := by simp
  arity := by simp

def onColumns (l r : Bytes) : BoolExpr :=
  .comparison ⟨.eq, .column ⟨l, [97]⟩, .column ⟨r, [97]⟩⟩

theorem outerJoins_mirror_twoRows :
    MirrorLaws (onColumns [97] [98]) (twoRows [97] (.int 1) .null) (twoRows [98] (.int 1) (.int 2)) :=
  outerJoins_mirror _ _ _ (by unfold BoolExpr.Symmetric; decide +kernel)

end Mirror

end CoroDB
