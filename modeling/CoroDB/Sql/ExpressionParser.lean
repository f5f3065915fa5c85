import CoroDB.Exec.Expression
import CoroDB.Sql.Literals

/-!
# Scalar expressions in a statement

`Parser::parse_expression` and its levels: concatenation, sums, products, and factors.
-/

namespace CoroDB

open Framework Ascii

section Parser

variable (stod : Bytes → Option Double) (expr : ListParser Token Expression)

/-- `Parser::parse_column_ref`. -/
def parseColumnRef : ListParser Token ColumnRef := fun ts =>
  (consumeIdentifier ts).bind fun ident =>
    if (matchText (ascii ".") ident.2).isSome then
      (consumeIdentifier ident.2.tail).map fun col => (⟨ident.1, col.1⟩, col.2)
    else some (⟨[], ident.1⟩, ident.2)

def aggFuncOf (name : Bytes) : Option AggFunc :=
  [AggFunc.count, .sum, .avg, .min, .max].find? fun f => f.name == name

/-- `Parser::parse_aggregate`, behind the name of the function. -/
def parseAggregate (f : AggFunc) : ListParser Token AggregateExpr := fun ts =>
  (matchText (ascii "(") ts).bind fun ts =>
    if (matchText (ascii "*") ts).isSome then (matchText (ascii ")") ts.tail).map (⟨f, none⟩, ·)
    else (parseColumnRef ts).bind fun col => (matchText (ascii ")") col.2).map (⟨f, some col.1⟩, ·)

def ScalarFunc.name : ScalarFunc → Bytes
  | .coalesce => ascii "COALESCE"
  | .nullif => ascii "NULLIF"
  | .upper => ascii "UPPER"
  | .lower => ascii "LOWER"
  | .length => ascii "LENGTH"
  | .trim => ascii "TRIM"
  | .substr => ascii "SUBSTR"
  | .abs => ascii "ABS"

def scalarFuncOf (name : Bytes) : Option ScalarFunc :=
  [ScalarFunc.coalesce, .nullif, .upper, .lower, .length, .trim, .substr, .abs].find? fun f =>
    f.name == name

def ScalarFunc.admits : ScalarFunc → ℕ → Bool
  | .nullif, n => n == 2
  | .substr, n => 2 ≤ n && n ≤ 3
  | .coalesce, n => 1 ≤ n
  | _, n => n == 1

/-- `Parser::parse_scalar_function`, behind the name of the function. -/
def parseScalarFunction (f : ScalarFunc) : ListParser Token Expression := fun ts =>
  (if (matchText (ascii ")") ((matchText (ascii "(") ts).getD [])).isSome then some ([], ts.drop 2)
    else parenthesized (commaList expr) ts).bind fun args =>
      if f.admits args.1.length then some (.function f args.1, args.2) else none

def parseNamed (ident : Bytes) (ts : List Token) : Option (Expression × List Token) :=
  if ident = ascii "NULL" then some (.literal .null, ts.tail)
  else if ident = ascii "TRUE" then some (.literal (.int 1), ts.tail)
  else if ident = ascii "FALSE" then some (.literal (.int 0), ts.tail)
  else
    match aggFuncOf ident, scalarFuncOf ident with
    | some f, _ => (parseAggregate f ts.tail).map fun a => (.aggregate a.1, a.2)
    | none, some f => parseScalarFunction expr f ts.tail
    | none, none => (parseColumnRef ts).map fun ref => (.column ref.1, ref.2)

/-- `Parser::parse_factor`, given the parser of the expressions inside it. -/
def parseFactor : ListParser Token Expression := fun ts =>
  if (matchText (ascii "(") ts).isSome then parenthesized expr ts
  else if ts.head?.any isIdentifier then parseNamed expr ((ts.headD []).map toUpper) ts
  else (parseLiteralExpression stod ts).map fun v => (.literal v.1, v.2)

def multiplicative (t : Token) : Option BinaryOp :=
  if t = ascii "*" then some .mul
  else if t = ascii "/" then some .div
  else if t = ascii "%" then some .mod
  else none

def additive (t : Token) : Option BinaryOp :=
  if t = ascii "+" then some .add else if t = ascii "-" then some .sub else none

def concatenation (t : Token) : Option BinaryOp := if t = ascii "||" then some .concat else none

def parseTerm : ListParser Token Expression :=
  ListParser.chain multiplicative .binary (parseFactor stod expr)

def parseAdditive : ListParser Token Expression :=
  ListParser.chain additive .binary (parseTerm stod expr)

/-- The body of `Parser::parse_expression`. -/
def parseConcat : ListParser Token Expression :=
  ListParser.chain concatenation .binary (parseAdditive stod expr)

/-- `Parser::parse_expression` with a bound on how deep expressions are nested. -/
def parseExpressionWithin : ℕ → ListParser Token Expression
  | 0 => fun _ => none
  | n + 1 => parseConcat stod (parseExpressionWithin n)

/-- `Parser::parse_expression`; every level of nesting takes a token. -/
def parseExpression : ListParser Token Expression := fun ts =>
  parseExpressionWithin stod (ts.length + 1) ts

end Parser

section Printer

/-- The words that have a meaning of their own where an expression may begin. -/
def reserved : List Token :=
  ["NULL", "TRUE", "FALSE", "COUNT", "SUM", "AVG", "MIN", "MAX", "COALESCE", "NULLIF", "UPPER", "LOWER",
    "LENGTH", "TRIM", "SUBSTR", "ABS", "EXISTS", "NOT", "SELECT"].map ascii

structure ColumnName where
  table : Option Identifier
  name : Identifier
  plain : (table.getD name).text.map toUpper ∉ reserved

/-- Expressions of operators, columns and numbers; `paren` stands for parentheses that are not
needed. -/
inductive ScalarTree where
  | column (c : ColumnName)
  | literal (n : ℕ) (fits : n < 2 ^ 63)
  | paren (inner : ScalarTree)
  | binary (op : BinaryOp) (lhs rhs : ScalarTree)

def ColumnName.ref (c : ColumnName) : ColumnRef := ⟨(c.table.map (·.text)).getD [], c.name.text⟩

def ColumnName.pieces (c : ColumnName) : List Piece :=
  (c.table.map fun t => [t.piece, mark 46 rfl]).getD [] ++ [c.name.piece]

def BinaryOp.rank : BinaryOp → ℕ
  | .mul | .div | .mod => 1
  | .add | .sub => 2
  | .concat => 3

def BinaryOp.token : BinaryOp → Token
  | .mul => ascii "*"
  | .div => ascii "/"
  | .mod => ascii "%"
  | .add => ascii "+"
  | .sub => ascii "-"
  | .concat => ascii "||"

def BinaryOp.piece : BinaryOp → Piece
  | .mul => mark 42 rfl
  | .div => mark 47 rfl
  | .mod => mark 37 rfl
  | .add => mark 43 rfl
  | .sub => mark 45 rfl
  | .concat => keyword (ascii "||") rfl

def wrapped (needed : Bool) (pieces : List Piece) : List Piece :=
  if needed then inParentheses pieces else pieces

namespace ScalarTree

def expression : ScalarTree → Expression
  | column c => .column c.ref
  | literal n _ => .literal (.int (.ofInt n))
  | paren inner => inner.expression
  | binary op lhs rhs => .binary op lhs.expression rhs.expression

def rank : ScalarTree → ℕ
  | binary op _ _ => op.rank
  | _ => 0

/-- An operand is in parentheses if it binds more loosely than the operator, and on the right also if it
binds as the operator does. -/
def pieces : ScalarTree → List Piece
  | column c => c.pieces
  | literal n _ => [keyword (decimal n) (isWord_decimal n)]
  | paren inner => inParentheses inner.pieces
  | binary op lhs rhs =>
    wrapped (op.rank < lhs.rank) lhs.pieces ++ op.piece :: wrapped (op.rank ≤ rhs.rank) rhs.pieces

def tokens (e : ScalarTree) : List Token := e.pieces.flatMap (·.tokens)

def text (e : ScalarTree) : Bytes := blankJoined (e.pieces.map (·.text))

end ScalarTree

end Printer

section Levels

variable (stod : Bytes → Option Double) (expr : ListParser Token Expression)

def tierOp : ℕ → Token → Option BinaryOp
  | 0 => multiplicative
  | 1 => additive
  | 2 => concatenation
  | _ + 3 => fun _ => none

def tier : ℕ → ListParser Token Expression
  | 0 => parseFactor stod expr
  | k + 1 => ListParser.chain (tierOp k) .binary (tier k)

/-- What may follow an operand of a level. -/
def StopsAt : ℕ → List Token → Prop
  | 0, rest => rest.head? ≠ some (ascii ".")
  | k + 1, rest => StopsAt k rest ∧ rest.head?.bind (tierOp k) = none

theorem BinaryOp.tokens_piece (op : BinaryOp) : op.piece.tokens = [op.token] := by
  cases op <;> rfl

theorem tierOp_token (op : BinaryOp) (k : ℕ) :
    tierOp k op.token = if op.rank = k + 1 then some op else none := by
  rcases k with _ | _ | _ | k <;> cases op <;> rfl

theorem tierOp_eq_some {k : ℕ} {t : Token} {op : BinaryOp} (h : tierOp k t = some op) :
    t = op.token ∧ op.rank = k + 1 := by
  have ht : t = op.token := by
    rcases k with _ | _ | _ | k
    · simp only [tierOp, multiplicative] at h
      split_ifs at h with h₁ h₂ h₃ <;> cases h <;> assumption
    · simp only [tierOp, additive] at h
      split_ifs at h with h₁ h₂ <;> cases h <;> assumption
    · simp only [tierOp, concatenation] at h
      split_ifs at h with h₁
      cases h
      assumption
    · simp [tierOp] at h
  rw [ht, tierOp_token] at h
  split_ifs at h with hrank
  exact ⟨ht, hrank⟩

theorem stopsAt_of_tierOp (k : ℕ) (t : Token) (rest : List Token) (h : (tierOp k t).isSome) :
    StopsAt k (t :: rest) := by
  obtain ⟨op, hop⟩ := Option.isSome_iff_exists.mp h
  obtain ⟨rfl, hrank⟩ := tierOp_eq_some hop
  have hstop : ∀ j ≤ k, StopsAt j (op.token :: rest) := by
    intro j hj
    induction j with
    | zero => cases op <;> simp [StopsAt, BinaryOp.token, ascii]
    | succ j ih =>
      refine ⟨ih (by omega), ?_⟩
      rw [List.head?_cons, Option.bind_some, tierOp_token, if_neg (by omega)]
  exact hstop k le_rfl

theorem tier_takes_mono {j k : ℕ} (hjk : j ≤ k) {ts : List Token} {a : Option Expression}
    (h : (tier stod expr j).Takes (StopsAt j) ts a) : (tier stod expr k).Takes (StopsAt k) ts a := by
  induction hjk with
  | refl => exact h
  | @step k _ ih => exact (ListParser.Chained.single ih).takes (stopsAt_of_tierOp k)

theorem parseFactor_parenthesized {ts : List Token} {a : Option Expression}
    (h : expr.Takes (StopsAt 3) ts a) :
    (parseFactor stod expr).Takes (StopsAt 0) (ascii "(" :: (ts ++ [ascii ")"])) a := by
  intro rest _
  have hclose : ∀ rest, StopsAt 3 (ascii ")" :: rest) := by
    intro rest
    simp [StopsAt, tierOp, multiplicative, additive, concatenation, ascii]
  have hopen : (matchText (ascii "(") (ascii "(" :: (ts ++ [ascii ")"]) ++ rest)).isSome = true := rfl
  rw [parseFactor, if_pos hopen]
  exact parenthesized_takes h hclose rest trivial

theorem parseNamed_plain {ident : Bytes} (h : ident ∉ reserved) (ts : List Token) :
    parseNamed expr ident ts = (parseColumnRef ts).map fun ref => (.column ref.1, ref.2) := by
  have hne : ∀ w ∈ reserved, w ≠ ident := fun w hw heq => h (heq ▸ hw)
  have hagg : aggFuncOf ident = none := by
    apply List.find?_eq_none.mpr
    intro f _
    have hf : f.name ∈ reserved := by cases f <;> decide
    simpa using hne _ hf
  have hscalar : scalarFuncOf ident = none := by
    apply List.find?_eq_none.mpr
    intro f _
    have hf : f.name ∈ reserved := by cases f <;> decide
    simpa using hne _ hf
  rw [parseNamed, if_neg (hne _ (by decide)).symm, if_neg (hne _ (by decide)).symm,
    if_neg (hne _ (by decide)).symm, hagg, hscalar]

theorem Identifier.ne_open (name : Identifier) : name.text ≠ ascii "(" := by
  intro h
  have hletter := name.letter
  rw [h] at hletter
  exact absurd hletter (by decide)

theorem parseFactor_identifier (name : Identifier) (h : name.text.map toUpper ∉ reserved)
    (ts : List Token) :
    parseFactor stod expr (name.text :: ts) =
      (parseColumnRef (name.text :: ts)).map fun ref => (.column ref.1, ref.2) := by
  have hopen : (matchText (ascii "(") (name.text :: ts)).isSome = false := by
    simp [matchText, ListParser.accept, name.ne_open]
  rw [parseFactor, hopen, if_neg (by simp), if_pos (by simpa using name.letter),
    List.headD_cons, parseNamed_plain expr h]

theorem ColumnName.takes (c : ColumnName) :
    (parseFactor stod expr).Takes (StopsAt 0) (c.pieces.flatMap (·.tokens))
      (some (.column c.ref)) := by
  intro rest hrest
  obtain ⟨table, name, plain⟩ := c
  cases table with
  | none =>
    have hdot : (matchText (ascii ".") rest).isSome = false := by
      cases rest with
      | nil => rfl
      | cons t rest => simpa [StopsAt, matchText, ListParser.accept] using hrest
    apply (parseFactor_identifier stod expr name plain rest).trans
    simp [parseColumnRef, consumeIdentifier, name.letter, hdot, ref]
  | some table =>
    have hdot : (matchText (ascii ".") (ascii "." :: name.text :: rest)).isSome = true := rfl
    apply (parseFactor_identifier stod expr table plain (ascii "." :: name.text :: rest)).trans
    simp [parseColumnRef, consumeIdentifier, name.letter, table.letter, hdot, ref]

theorem decimal_head (n : ℕ) : ∃ c digits, decimal n = c :: digits ∧ isDigit c = true := by
  obtain ⟨c, digits, hd⟩ := List.exists_cons_of_ne_nil (decimal_ne_nil n)
  exact ⟨c, digits, hd, isDigit_of_mem_decimal (n := n) (by simp [hd])⟩

theorem not_isIdentifier_of_isDigit {c : UInt8} (h : isDigit c = true) (rest : Bytes) :
    isIdentifier (c :: rest) = false := by
  have hc : 48 ≤ c.toNat ∧ c.toNat ≤ 57 := by simpa [isDigit, UInt8.le_iff_toNat_le] using h
  simp [isIdentifier, isAlpha, UInt8.le_iff_toNat_le, ← UInt8.toNat_inj]
  omega

theorem decimal_ne_open (n : ℕ) : decimal n ≠ ascii "(" := by
  intro h
  have hdigit : isDigit 40 = true := isDigit_of_mem_decimal (n := n) (by simp [h, ascii])
  exact absurd hdigit (by decide)

theorem decimal_not_mem_reserved (n : ℕ) : (decimal n).map toUpper ∉ reserved := by
  intro h
  obtain ⟨c, digits, hd, hc⟩ := decimal_head n
  have hletter : ∀ w ∈ reserved, w.head?.any isAlpha = true := by decide
  have halpha : isAlpha (toUpper c) = true := by simpa [hd] using hletter _ h
  have hc : 48 ≤ c.toNat ∧ c.toNat ≤ 57 := by simpa [isDigit, UInt8.le_iff_toNat_le] using hc
  have hupper : toUpper c = c := by
    simp [toUpper, UInt8.le_iff_toNat_le]
    omega
  rw [hupper] at halpha
  simp [isAlpha, UInt8.le_iff_toNat_le] at halpha
  omega

theorem parseFactor_decimal {n : ℕ} (hn : n < 2 ^ 63) :
    (parseFactor stod expr).Takes (StopsAt 0) [decimal n] (some (.literal (.int (.ofInt n)))) := by
  intro rest _
  have hliteral := parseLiteral_decimal stod hn
  have hopen : (matchText (ascii "(") (decimal n :: rest)).isSome = false := by
    simp [matchText, ListParser.accept, decimal_ne_open]
  obtain ⟨c, digits, hd, hc⟩ := decimal_head n
  rw [hd] at hliteral hopen ⊢
  rw [List.singleton_append, parseFactor, hopen, if_neg (by simp),
    if_neg (by simp [not_isIdentifier_of_isDigit hc]), parseLiteralExpression, hliteral]
  rfl

end Levels

namespace ScalarTree

section RoundTrip

variable (stod : Bytes → Option Double)

theorem rank_le_three (e : ScalarTree) : e.rank ≤ 3 := by
  cases e with
  | binary op lhs rhs => cases op <;> simp [rank, BinaryOp.rank]
  | _ => simp [rank]

theorem tokens_binary (op : BinaryOp) (lhs rhs : ScalarTree) :
    (binary op lhs rhs).tokens = (wrapped (op.rank < lhs.rank) lhs.pieces).flatMap (·.tokens) ++
      op.token :: (wrapped (op.rank ≤ rhs.rank) rhs.pieces).flatMap (·.tokens) := by
  rw [tokens, pieces, List.flatMap_append, List.flatMap_cons, op.tokens_piece]
  rfl

/-- The parsers, nested at most so deep, read the expression back. -/
structure Reads (n : ℕ) (e : ScalarTree) : Prop where
  takes : ∀ k, e.rank ≤ k →
    (tier stod (parseExpressionWithin stod n) k).Takes (StopsAt k) e.tokens (some e.expression)
  chained : ∀ k, e.rank = k + 1 →
    ListParser.Chained (tierOp k) .binary (tier stod (parseExpressionWithin stod n) k) (StopsAt k)
      e.tokens (some e.expression)

variable {stod} {n : ℕ}

theorem Reads.of_factor {e : ScalarTree} (hrank : e.rank = 0)
    (h : (parseFactor stod (parseExpressionWithin stod n)).Takes (StopsAt 0) e.tokens
      (some e.expression)) : e.Reads stod n :=
  ⟨fun k _ => tier_takes_mono stod _ (Nat.zero_le k) h, fun k hk => by omega⟩

theorem factor_takes {e : ScalarTree} (he : ∀ n, e.tokens.length ≤ n → e.Reads stod n)
    (hn : (ascii "(" :: (e.tokens ++ [ascii ")"])).length ≤ n) :
    (parseFactor stod (parseExpressionWithin stod n)).Takes (StopsAt 0)
      (ascii "(" :: (e.tokens ++ [ascii ")"])) (some e.expression) := by
  simp only [List.length_cons, List.length_append, List.length_nil] at hn
  obtain ⟨m, rfl⟩ : ∃ m, n = m + 1 := ⟨n - 1, by omega⟩
  exact parseFactor_parenthesized stod _ ((he m (by omega)).takes 3 e.rank_le_three)

theorem operand_takes {e : ScalarTree} (he : ∀ n, e.tokens.length ≤ n → e.Reads stod n)
    {needed : Bool} {k : ℕ} (hk : needed = false → e.rank ≤ k)
    (hn : ((wrapped needed e.pieces).flatMap (·.tokens)).length ≤ n) :
    (tier stod (parseExpressionWithin stod n) k).Takes (StopsAt k)
      ((wrapped needed e.pieces).flatMap (·.tokens)) (some e.expression) := by
  cases needed with
  | false => exact (he n hn).takes k (hk rfl)
  | true =>
    rw [wrapped, if_pos rfl, tokens_inParentheses] at hn ⊢
    exact tier_takes_mono stod _ (Nat.zero_le k) (factor_takes he hn)

theorem reads_binary {op : BinaryOp} {lhs rhs : ScalarTree}
    (hlhs : ∀ n, lhs.tokens.length ≤ n → lhs.Reads stod n)
    (hrhs : ∀ n, rhs.tokens.length ≤ n → rhs.Reads stod n)
    (hn : (binary op lhs rhs).tokens.length ≤ n) : (binary op lhs rhs).Reads stod n := by
  obtain ⟨k, hk⟩ : ∃ k, op.rank = k + 1 := by cases op <;> exact ⟨_, rfl⟩
  rw [tokens_binary, List.length_append, List.length_cons] at hn
  have hleft : ListParser.Chained (tierOp k) .binary (tier stod (parseExpressionWithin stod n) k)
      (StopsAt k) ((wrapped (op.rank < lhs.rank) lhs.pieces).flatMap (·.tokens))
      (some lhs.expression) := by
    by_cases hsame : lhs.rank = op.rank
    · have hbare : wrapped (op.rank < lhs.rank) lhs.pieces = lhs.pieces := by simp [wrapped, hsame]
      rw [hbare] at hn ⊢
      exact (hlhs n (Nat.le_of_add_right_le hn)).chained k (hsame.trans hk)
    · apply ListParser.Chained.single
      apply operand_takes hlhs _ (Nat.le_of_add_right_le hn)
      intro hle
      have hle : lhs.rank ≤ op.rank := by simpa using hle
      omega
  have hright : (tier stod (parseExpressionWithin stod n) k).Takes (StopsAt k)
      ((wrapped (op.rank ≤ rhs.rank) rhs.pieces).flatMap (·.tokens)) (some rhs.expression) := by
    apply operand_takes hrhs _ (by omega)
    intro hlt
    have hlt : rhs.rank < op.rank := by simpa using hlt
    omega
  have hop : tierOp k op.token = some op := by rw [tierOp_token, if_pos hk]
  have hchain : ListParser.Chained (tierOp k) .binary (tier stod (parseExpressionWithin stod n) k)
      (StopsAt k) (binary op lhs rhs).tokens (some (binary op lhs rhs).expression) := by
    rw [tokens_binary]
    exact hleft.snoc hop hright
  constructor
  · intro j hj
    have htakes : (tier stod (parseExpressionWithin stod n) (k + 1)).Takes (StopsAt (k + 1))
        (binary op lhs rhs).tokens (some (binary op lhs rhs).expression) :=
      hchain.takes (stopsAt_of_tierOp k)
    exact tier_takes_mono stod _ (hk.symm.trans_le hj) htakes
  · intro j hj
    obtain rfl : k = j := by
      have hj : op.rank = j + 1 := hj
      omega
    exact hchain

theorem reads (e : ScalarTree) : ∀ n, e.tokens.length ≤ n → e.Reads stod n := by
  induction e with
  | column c => exact fun n _ => .of_factor rfl (c.takes stod _)
  | literal m fits => exact fun n _ => .of_factor rfl (parseFactor_decimal stod _ fits)
  | paren inner ih =>
    intro n hn
    have htokens : (paren inner).tokens = ascii "(" :: (inner.tokens ++ [ascii ")"]) :=
      tokens_inParentheses inner.pieces
    apply Reads.of_factor rfl
    rw [htokens] at hn ⊢
    exact factor_takes ih hn
  | binary op lhs rhs hlhs hrhs => exact fun n hn => reads_binary hlhs hrhs hn

variable (stod)

theorem parseExpression_takes (e : ScalarTree) :
    (parseExpression stod).Takes (StopsAt 3) e.tokens (some e.expression) := by
  intro rest hrest
  have hn : e.tokens.length ≤ (e.tokens ++ rest).length := by simp
  exact (reads e _ hn).takes 3 e.rank_le_three rest hrest

/-- An expression is read back from its text, and all of the text is read. -/
theorem parseExpression_text (e : ScalarTree) :
    (tokenize e.text).bind (parseExpression stod) = some (e.expression, []) := by
  have htakes := e.parseExpression_takes stod [] (by simp [StopsAt])
  rw [List.append_nil] at htakes
  rw [text, tokenize_blankJoined, Option.bind_some]
  exact htakes

end RoundTrip

end ScalarTree

end CoroDB
