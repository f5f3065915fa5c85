import CoroDB.Sql.ExpressionParser

/-!
# Predicates in a statement

`Parser::parse_bool_expr`: OR over AND over NOT over comparisons and predicates in parentheses.
-/

namespace CoroDB

open Framework Ascii

/-- `BoolExpr` as it is parsed, over the statements that subqueries are. -/
inductive BoolTree (σ : Type) where
  | comparison (op : CompareOp) (lhs rhs : Expression)
  | and (left right : BoolTree σ)
  | or (left right : BoolTree σ)
  | not (inner : BoolTree σ)
  | inList (expr : Expression) (values : List Expression) (negated : Bool)
  | inSubquery (expr : Expression) (subquery : σ) (negated existsOnly : Bool)
  | between (expr low high : Expression) (negated : Bool)

section Parser

variable {σ : Type} (stod : Bytes → Option Double) (parseSelect : ListParser Token σ)
  (bool : ListParser Token (BoolTree σ)) (lhs : Expression) (negated : Bool)

def hasKeyword (kw : String) (ts : List Token) : Bool := (matchKeyword (ascii kw) ts).isSome

/-- `IS [NOT] NULL`, behind `IS`. -/
def parseIsNull : ListParser Token (BoolTree σ) := fun ts =>
  let negated := hasKeyword "NOT" ts
  (matchKeyword (ascii "NULL") (if negated then ts.tail else ts)).map
    (.comparison (if negated then .isNotNull else .isNull) lhs (.literal .null), ·)

/-- `value, ...` or `SELECT ...`. -/
def parseInValues : ListParser Token (BoolTree σ) := fun ts =>
  if hasKeyword "SELECT" ts then
    (parseSelect ts).map fun s => (.inSubquery lhs s.1 negated false, s.2)
  else (commaList (parseExpression stod) ts).map fun vs => (.inList lhs vs.1 negated, vs.2)

/-- `IN (value, ...)` or `IN (SELECT ...)`, behind `IN`. -/
def parseIn : ListParser Token (BoolTree σ) :=
  parenthesized (parseInValues stod parseSelect lhs negated)

/-- `BETWEEN low AND high`, behind `BETWEEN`. -/
def parseBetween : ListParser Token (BoolTree σ) := fun ts =>
  (parseExpression stod ts).bind fun low =>
  (matchKeyword (ascii "AND") low.2).bind fun ts =>
  (parseExpression stod ts).map fun high => (.between lhs low.1 high.1 negated, high.2)

def parseLike : ListParser Token (BoolTree σ) := fun ts =>
  (parseExpression stod ts).map fun p =>
    (.comparison (if negated then .notLike else .like) lhs p.1, p.2)

def compareOpOf (t : Token) : Option CompareOp :=
  if t = ascii "=" then some .eq
  else if t = ascii "!=" ∨ t = ascii "<>" then some .ne
  else if t = ascii "<" then some .lt
  else if t = ascii "<=" then some .le
  else if t = ascii ">" then some .gt
  else if t = ascii ">=" then some .ge
  else none

def parseOrder : ListParser Token (BoolTree σ) := fun ts =>
  (ts.head?.bind compareOpOf).bind fun op =>
  (parseExpression stod ts.tail).map fun rhs => (.comparison op lhs rhs.1, rhs.2)

/-- `Parser::parse_comparison`, behind its first operand. -/
def parseComparisonTail : ListParser Token (BoolTree σ) := fun ts =>
  if hasKeyword "IS" ts then parseIsNull lhs ts.tail
  else
    let negated := hasKeyword "NOT" ts
    let ts := if negated then ts.tail else ts
    if hasKeyword "IN" ts then parseIn stod parseSelect lhs negated ts.tail
    else if hasKeyword "BETWEEN" ts then parseBetween stod lhs negated ts.tail
    else if hasKeyword "LIKE" ts then parseLike stod lhs negated ts.tail
    else if negated then none
    else parseOrder stod lhs ts

def parseComparison : ListParser Token (BoolTree σ) := fun ts =>
  (parseExpression stod ts).bind fun lhs => parseComparisonTail stod parseSelect lhs.1 lhs.2

/-- `Parser::parse_bool_atom`, given the parser of predicates in parentheses. -/
def parseBoolAtom : ListParser Token (BoolTree σ) := fun ts =>
  if hasKeyword "EXISTS" ts then
    (parenthesized parseSelect ts.tail).map fun s =>
      (.inSubquery (.literal (.int 1)) s.1 false true, s.2)
  else if (matchText (ascii "(") ts).isSome then parenthesized bool ts
  else parseComparison stod parseSelect ts

def parseNot (atom : ListParser Token (BoolTree σ)) : ListParser Token (BoolTree σ)
  | [] => atom []
  | t :: ts =>
    if t.map toUpper = ascii "NOT" then (parseNot atom ts).map fun b => (.not b.1, b.2)
    else atom (t :: ts)

def wordOp (kw : String) (t : Token) : Option Unit :=
  if t.map toUpper = ascii kw then some () else none

def parseAnd : ListParser Token (BoolTree σ) :=
  ListParser.chain (wordOp "AND") (fun _ => .and) (parseNot (parseBoolAtom stod parseSelect bool))

def parseOr : ListParser Token (BoolTree σ) :=
  ListParser.chain (wordOp "OR") (fun _ => .or) (parseAnd stod parseSelect bool)

/-- `Parser::parse_bool_expr` with a bound on how deep predicates are nested. -/
def parseBoolWithin : ℕ → ListParser Token (BoolTree σ)
  | 0 => fun _ => none
  | n + 1 => parseOr stod parseSelect (parseBoolWithin n)

/-- `Parser::parse_bool_expr`; every level of nesting takes a token. -/
def parseBoolExpr : ListParser Token (BoolTree σ) := fun ts =>
  parseBoolWithin stod parseSelect (ts.length + 1) ts

end Parser

section Printer

inductive OrderOp where
  | eq
  | ne
  | angles
  | lt
  | le
  | gt
  | ge

/-- Predicates over expressions of operators, columns and numbers. -/
inductive PredicateTree where
  | comparison (op : OrderOp) (lhs rhs : ScalarTree)
  | isNull (expr : ScalarTree) (negated : Bool)
  | between (expr low high : ScalarTree) (negated : Bool)
  | inList (expr first : ScalarTree) (rest : List ScalarTree) (negated : Bool)
  | and (left right : PredicateTree)
  | or (left right : PredicateTree)
  | not (inner : PredicateTree)

def OrderOp.compareOp : OrderOp → CompareOp
  | eq => .eq
  | ne | angles => .ne
  | lt => .lt
  | le => .le
  | gt => .gt
  | ge => .ge

def OrderOp.token : OrderOp → Token
  | eq => ascii "="
  | ne => ascii "!="
  | angles => ascii "<>"
  | lt => ascii "<"
  | le => ascii "<="
  | gt => ascii ">"
  | ge => ascii ">="

def OrderOp.piece : OrderOp → Piece
  | eq => mark 61 isSingle_equals
  | ne => (Lexeme.comparison 33 61 rfl).piece
  | angles => (Lexeme.comparison 60 62 rfl).piece
  | lt => keyword (ascii "<") rfl
  | le => (Lexeme.comparison 60 61 rfl).piece
  | gt => keyword (ascii ">") rfl
  | ge => (Lexeme.comparison 62 61 rfl).piece

namespace PredicateTree

def tree {σ : Type} : PredicateTree → BoolTree σ
  | comparison op lhs rhs => .comparison op.compareOp lhs.expression rhs.expression
  | isNull expr negated =>
    .comparison (if negated then .isNotNull else .isNull) expr.expression (.literal .null)
  | between expr low high negated => .between expr.expression low.expression high.expression negated
  | inList expr first rest negated =>
    .inList expr.expression ((first :: rest).map ScalarTree.expression) negated
  | and left right => .and left.tree right.tree
  | or left right => .or left.tree right.tree
  | not inner => .not inner.tree

def rank : PredicateTree → ℕ
  | or _ _ => 3
  | and _ _ => 2
  | _ => 1

def notPieces (negated : Bool) : List Piece := if negated then [keyword (ascii "NOT") rfl] else []

def pieces : PredicateTree → List Piece
  | comparison op lhs rhs => lhs.pieces ++ op.piece :: rhs.pieces
  | isNull expr negated =>
    expr.pieces ++ keyword (ascii "IS") rfl :: (notPieces negated ++ [keyword (ascii "NULL") rfl])
  | between expr low high negated =>
    expr.pieces ++ (notPieces negated ++ keyword (ascii "BETWEEN") rfl ::
      (low.pieces ++ keyword (ascii "AND") rfl :: high.pieces))
  | inList expr first rest negated =>
    expr.pieces ++ (notPieces negated ++ keyword (ascii "IN") rfl ::
      inParentheses (listed ScalarTree.pieces first rest))
  | and left right =>
    wrapped (2 < left.rank) left.pieces ++ keyword (ascii "AND") rfl ::
      wrapped (2 ≤ right.rank) right.pieces
  | or left right =>
    left.pieces ++ keyword (ascii "OR") rfl :: wrapped (3 ≤ right.rank) right.pieces
  | not inner => keyword (ascii "NOT") rfl :: wrapped (1 < inner.rank) inner.pieces

def tokens (b : PredicateTree) : List Token := b.pieces.flatMap (·.tokens)

def text (b : PredicateTree) : Bytes := blankJoined (b.pieces.map (·.text))

end PredicateTree

end Printer

section Heads

namespace ScalarTree

def opens : ScalarTree → Bool
  | column _ | literal _ _ => false
  | paren _ => true
  | binary op lhs _ => op.rank < lhs.rank || lhs.opens

theorem tokens_of_opens {e : ScalarTree} (h : e.opens = true) :
    ∃ (inner : ScalarTree) (rest : List Token),
      e.tokens = ascii "(" :: (inner.tokens ++ ascii ")" :: rest) := by
  induction e with
  | column c => simp [opens] at h
  | literal n fits => simp [opens] at h
  | paren inner _ => exact ⟨inner, [], tokens_inParentheses inner.pieces⟩
  | binary op lhs rhs ih _ =>
    rw [tokens_binary]
    by_cases hwrap : op.rank < lhs.rank
    · refine ⟨lhs, op.token :: (wrapped (op.rank ≤ rhs.rank) rhs.pieces).flatMap (·.tokens), ?_⟩
      simp [wrapped, hwrap, tokens_inParentheses, tokens]
    · obtain ⟨inner, rest, hinner⟩ := ih (by simpa [opens, hwrap] using h)
      refine ⟨inner, rest ++ op.token :: (wrapped (op.rank ≤ rhs.rank) rhs.pieces).flatMap (·.tokens), ?_⟩
      rw [tokens] at hinner
      simp [wrapped, hwrap, hinner]

theorem tokens_of_not_opens {e : ScalarTree} (h : e.opens = false) :
    ∃ (t : Token) (rest : List Token),
      e.tokens = t :: rest ∧ t ≠ ascii "(" ∧ t.map toUpper ∉ reserved := by
  induction e with
  | column c =>
    obtain ⟨table, name, plain⟩ := c
    cases table with
    | none => exact ⟨name.text, [], rfl, name.ne_open, plain⟩
    | some table => exact ⟨table.text, _, rfl, table.ne_open, plain⟩
  | literal n fits =>
    exact ⟨decimal n, [], rfl, decimal_ne_open n, decimal_not_mem_reserved n⟩
  | paren inner _ => simp [opens] at h
  | binary op lhs rhs ih _ =>
    have hwrap : ¬op.rank < lhs.rank ∧ lhs.opens = false := by simpa [opens] using h
    obtain ⟨t, rest, htokens, ht⟩ := ih hwrap.2
    rw [tokens_binary]
    refine ⟨t, rest ++ op.token :: (wrapped (op.rank ≤ rhs.rank) rhs.pieces).flatMap (·.tokens), ?_, ht⟩
    rw [tokens] at htokens
    simp [wrapped, hwrap.1, htokens]

theorem hasKeyword_tokens (e : ScalarTree) (rest : List Token) {kw : String}
    (h : ascii kw ∈ reserved) : hasKeyword kw (e.tokens ++ rest) = false := by
  cases ho : e.opens with
  | true =>
    obtain ⟨inner, rest', htokens⟩ := tokens_of_opens ho
    have hne : (ascii "(").map toUpper ≠ ascii kw := by
      intro heq
      rw [← heq] at h
      exact absurd h (by decide)
    simpa [htokens, hasKeyword, matchKeyword, ListParser.accept] using hne
  | false =>
    obtain ⟨t, rest', htokens, -, hplain⟩ := tokens_of_not_opens ho
    have hne : t.map toUpper ≠ ascii kw := fun heq => hplain (heq ▸ h)
    simpa [htokens, hasKeyword, matchKeyword, ListParser.accept] using hne

end ScalarTree

end Heads

section Atoms

variable {σ : Type} (stod : Bytes → Option Double) (parseSelect : ListParser Token σ)

theorem stopsAt_of_no_operator {t : Token} (h : t ≠ ascii ".") (hop : ∀ op : BinaryOp, t ≠ op.token)
    (rest : List Token) : StopsAt 3 (t :: rest) := by
  have hnone : ∀ k, tierOp k t = none := by
    intro k
    by_contra hne
    obtain ⟨op, hsome⟩ := Option.ne_none_iff_exists'.mp hne
    exact hop op (tierOp_eq_some hsome).1
  simp [StopsAt, hnone, h]

theorem stopsAt_close (rest : List Token) : StopsAt 3 (ascii ")" :: rest) :=
  stopsAt_of_no_operator (by decide) (by intro op; cases op <;> decide) rest

theorem parseNot_of_not_hasKeyword {atom : ListParser Token (BoolTree σ)} {ts : List Token}
    (h : hasKeyword "NOT" ts = false) : parseNot atom ts = atom ts := by
  cases ts with
  | nil => rfl
  | cons t ts =>
    have ht : t.map toUpper ≠ ascii "NOT" := by
      simpa [hasKeyword, matchKeyword, ListParser.accept] using h
    rw [parseNot, if_neg ht]

theorem parseBoolAtom_opens {bool : ListParser Token (BoolTree σ)} {e : ScalarTree}
    (h : e.opens = true)
    (hbool : ∀ (inner : ScalarTree) rest, bool (inner.tokens ++ ascii ")" :: rest) = none)
    (rest : List Token) : parseBoolAtom stod parseSelect bool (e.tokens ++ rest) = none := by
  obtain ⟨inner, rest', htokens⟩ := ScalarTree.tokens_of_opens h
  have hexists : hasKeyword "EXISTS" (e.tokens ++ rest) = false :=
    e.hasKeyword_tokens rest (by decide)
  have hopen : matchText (ascii "(") (e.tokens ++ rest) =
      some (inner.tokens ++ ascii ")" :: (rest' ++ rest)) := by
    simp [htokens, matchText, ListParser.accept]
  simp [parseBoolAtom, hexists, hopen, parenthesized, hbool]

theorem parseBoolAtom_plain {bool : ListParser Token (BoolTree σ)} {e : ScalarTree}
    (h : e.opens = false) {rest : List Token} (hrest : StopsAt 3 rest) :
    parseBoolAtom stod parseSelect bool (e.tokens ++ rest) =
      parseComparisonTail stod parseSelect e.expression rest := by
  obtain ⟨t, rest', htokens, hopen, -⟩ := ScalarTree.tokens_of_not_opens h
  have hexists : hasKeyword "EXISTS" (e.tokens ++ rest) = false :=
    e.hasKeyword_tokens rest (by decide)
  have hopen : (matchText (ascii "(") (e.tokens ++ rest)).isSome = false := by
    simp [htokens, matchText, ListParser.accept, hopen]
  rw [parseBoolAtom, hexists, if_neg (by simp), hopen, if_neg (by simp), parseComparison,
    e.parseExpression_takes stod rest hrest]
  rfl

theorem parseBoolWithin_expression (n : ℕ) (e : ScalarTree) (rest : List Token) :
    parseBoolWithin stod parseSelect n (e.tokens ++ ascii ")" :: rest) = none := by
  induction n generalizing e rest with
  | zero => rfl
  | succ n ih =>
    rw [parseBoolWithin, parseOr, parseAnd]
    apply ListParser.chain_eq_none
    apply ListParser.chain_eq_none
    rw [parseNot_of_not_hasKeyword (e.hasKeyword_tokens _ (by decide))]
    cases h : e.opens with
    | true => exact parseBoolAtom_opens stod parseSelect h ih _
    | false =>
      rw [parseBoolAtom_plain stod parseSelect h (stopsAt_close rest)]
      rfl

section Tails

variable (lhs : Expression) (negated : Bool) {rest : List Token}

def notTokens (negated : Bool) : List Token := if negated then [ascii "NOT"] else []

theorem stopsAt_keyword {w : String} (h : w ∈ ["IS", "NOT", "IN", "BETWEEN", "AND", "OR"])
    (rest : List Token) : StopsAt 3 (ascii w :: rest) := by
  have hdot : ∀ w ∈ ["IS", "NOT", "IN", "BETWEEN", "AND", "OR"], ascii w ≠ ascii "." := by decide
  have hop : ∀ w ∈ ["IS", "NOT", "IN", "BETWEEN", "AND", "OR"], ∀ op : BinaryOp,
      ascii w ≠ op.token := by
    intro w hw op
    revert w
    cases op <;> decide
  exact stopsAt_of_no_operator (hdot w h) (hop w h) rest

theorem parseComparisonTail_order (op : OrderOp) (rhs : ScalarTree) (hrest : StopsAt 3 rest) :
    parseComparisonTail stod parseSelect lhs (op.token :: (rhs.tokens ++ rest)) =
      some (.comparison op.compareOp lhs rhs.expression, rest) := by
  have horder : parseComparisonTail stod parseSelect lhs (op.token :: (rhs.tokens ++ rest)) =
      parseOrder stod lhs (op.token :: (rhs.tokens ++ rest)) := by
    cases op <;> rfl
  have hop : compareOpOf op.token = some op.compareOp := by cases op <;> rfl
  rw [horder, parseOrder, List.head?_cons, Option.bind_some, hop, Option.bind_some, List.tail_cons,
    rhs.parseExpression_takes stod rest hrest]
  rfl

theorem parseComparisonTail_isNull :
    parseComparisonTail stod parseSelect lhs
        (ascii "IS" :: (notTokens negated ++ ascii "NULL" :: rest)) =
      some (.comparison (if negated then .isNotNull else .isNull) lhs (.literal .null), rest) := by
  cases negated <;> rfl

theorem parseComparisonTail_between (low high : ScalarTree) (hrest : StopsAt 3 rest) :
    parseComparisonTail stod parseSelect lhs (notTokens negated ++ ascii "BETWEEN" ::
        (low.tokens ++ ascii "AND" :: (high.tokens ++ rest))) =
      some (.between lhs low.expression high.expression negated, rest) := by
  have hbetween : parseComparisonTail stod parseSelect lhs (notTokens negated ++ ascii "BETWEEN" ::
      (low.tokens ++ ascii "AND" :: (high.tokens ++ rest))) =
      parseBetween stod lhs negated (low.tokens ++ ascii "AND" :: (high.tokens ++ rest)) := by
    cases negated <;> rfl
  have hand : ∀ ts, matchKeyword (ascii "AND") (ascii "AND" :: ts) = some ts := fun _ => rfl
  rw [hbetween, parseBetween, low.parseExpression_takes stod _ (stopsAt_keyword (by decide) _),
    Option.map_some, Option.bind_some, hand, Option.bind_some,
    high.parseExpression_takes stod rest hrest]
  rfl

theorem parseComparisonTail_inList (first : ScalarTree) (values : List ScalarTree) :
    parseComparisonTail stod parseSelect lhs (notTokens negated ++ ascii "IN" ::
        ((inParentheses (listed ScalarTree.pieces first values)).flatMap (·.tokens) ++ rest)) =
      some (.inList lhs ((first :: values).map ScalarTree.expression) negated, rest) := by
  have hin : ∀ ts, parseComparisonTail stod parseSelect lhs (notTokens negated ++ ascii "IN" :: ts) =
      parseIn stod parseSelect lhs negated ts := by
    intro ts
    cases negated <;> rfl
  have hcomma : ∀ rest, StopsAt 3 (ascii "," :: rest) :=
    stopsAt_of_no_operator (by decide) (by intro op; cases op <;> decide)
  have hvalues : ((first :: values).mapM fun e => some e.expression) =
      some ((first :: values).map ScalarTree.expression) :=
    (mapM_eq_some_iff fun _ _ => .inr rfl).mpr fun _ _ => rfl
  have hlist : (commaList (parseExpression stod)).Takes (fun rest => StopsAt 3 rest ∧ NoComma rest)
      (first.tokens ++ values.flatMap fun e => ascii "," :: e.tokens)
      ((first :: values).mapM fun e => some e.expression) :=
    commaList_takes values first (fun e _ => e.parseExpression_takes stod) hcomma
  have hin_values : (parseInValues stod parseSelect lhs negated).Takes
      (fun rest => StopsAt 3 rest ∧ NoComma rest)
      (first.tokens ++ values.flatMap fun e => ascii "," :: e.tokens)
      (some (.inList lhs ((first :: values).map ScalarTree.expression) negated)) := by
    intro rest hrest
    have hselect : hasKeyword "SELECT" (first.tokens ++
        (values.flatMap (fun e => ascii "," :: e.tokens) ++ rest)) = false :=
      first.hasKeyword_tokens _ (by decide)
    rw [← List.append_assoc] at hselect
    rw [parseInValues, hselect, if_neg (by simp), hlist rest hrest, hvalues]
    rfl
  rw [hin, parseIn, tokens_inParentheses, tokens_listed]
  exact parenthesized_takes hin_values (fun rest => ⟨stopsAt_close rest, noComma_close rest⟩) rest
    trivial

end Tails

end Atoms

namespace PredicateTree

section RoundTrip

def plain : PredicateTree → Bool
  | comparison _ expr _ | isNull expr _ | between expr _ _ _ | inList expr _ _ _ => !expr.opens
  | and left right | or left right => left.plain && right.plain
  | not inner => inner.plain

def read {σ : Type} (b : PredicateTree) : Option (BoolTree σ) := if b.plain then some b.tree else none

def StopsAnd (rest : List Token) : Prop := StopsAt 3 rest ∧ rest.head?.bind (wordOp "AND") = none

def StopsOr (rest : List Token) : Prop := StopsAnd rest ∧ rest.head?.bind (wordOp "OR") = none

theorem stopsAt_of_upper {t : Token} {w : String} (hw : w ∈ ["AND", "OR"])
    (h : t.map toUpper = ascii w) (rest : List Token) : StopsAt 3 (t :: rest) := by
  have hdot : ∀ w ∈ ["AND", "OR"], (ascii ".").map toUpper ≠ ascii w := by decide
  have hop : ∀ w ∈ ["AND", "OR"], ∀ op : BinaryOp, op.token.map toUpper ≠ ascii w := by
    intro w hw op
    revert w
    cases op <;> decide
  apply stopsAt_of_no_operator
  · rintro rfl
    exact hdot w hw h
  · rintro op rfl
    exact hop w hw op h

theorem stopsAt_of_wordOp_and (t : Token) (rest : List Token) (h : (wordOp "AND" t).isSome) :
    StopsAt 3 (t :: rest) := by
  have ht : t.map toUpper = ascii "AND" := by simpa [wordOp] using h
  exact stopsAt_of_upper (by decide) ht rest

theorem stopsAnd_of_wordOp_or (t : Token) (rest : List Token) (h : (wordOp "OR" t).isSome) :
    StopsAnd (t :: rest) := by
  have ht : t.map toUpper = ascii "OR" := by simpa [wordOp] using h
  have hand : wordOp "AND" t = none := by
    rw [wordOp, ht]
    rfl
  exact ⟨stopsAt_of_upper (by decide) ht rest, by simpa using hand⟩

variable {σ : Type} (stod : Bytes → Option Double) (parseSelect : ListParser Token σ)

/-- The parsers, nested at most so deep, make of the predicate what `read` says. -/
structure Reads (n : ℕ) (b : PredicateTree) : Prop where
  not : b.rank ≤ 1 →
    (parseNot (parseBoolAtom stod parseSelect (parseBoolWithin stod parseSelect n))).Takes
      (StopsAt 3) b.tokens b.read
  and : b.rank ≤ 2 →
    ListParser.Chained (wordOp "AND") (fun _ => .and)
      (parseNot (parseBoolAtom stod parseSelect (parseBoolWithin stod parseSelect n)))
      (StopsAt 3) b.tokens b.read
  or : ListParser.Chained (wordOp "OR") (fun _ => .or)
      (parseAnd stod parseSelect (parseBoolWithin stod parseSelect n)) StopsAnd b.tokens b.read

variable {stod parseSelect} {n : ℕ} {b : PredicateTree}

theorem parseAnd_takes {bool : ListParser Token (BoolTree σ)} {ts : List Token}
    {a : Option (BoolTree σ)}
    (h : ListParser.Chained (wordOp "AND") (fun _ => .and)
      (parseNot (parseBoolAtom stod parseSelect bool)) (StopsAt 3) ts a) :
    (parseAnd stod parseSelect bool).Takes StopsAnd ts a :=
  h.takes stopsAt_of_wordOp_and

theorem Reads.of_not
    (h : (parseNot (parseBoolAtom stod parseSelect (parseBoolWithin stod parseSelect n))).Takes
      (StopsAt 3) b.tokens b.read) : b.Reads stod parseSelect n :=
  ⟨fun _ => h, fun _ => .single h, .single (parseAnd_takes (.single h))⟩

theorem parenthesized_reads (hb : ∀ n, b.tokens.length ≤ n → b.Reads stod parseSelect n)
    (hn : (ascii "(" :: (b.tokens ++ [ascii ")"])).length ≤ n) :
    (parseNot (parseBoolAtom stod parseSelect (parseBoolWithin stod parseSelect n))).Takes
      (StopsAt 3) (ascii "(" :: (b.tokens ++ [ascii ")"])) b.read := by
  intro rest _
  simp only [List.length_cons, List.length_append, List.length_nil] at hn
  obtain ⟨m, rfl⟩ : ∃ m, n = m + 1 := ⟨n - 1, by omega⟩
  have hinner : (parseBoolWithin stod parseSelect (m + 1)).Takes StopsOr b.tokens b.read :=
    (hb m (by omega)).or.takes stopsAnd_of_wordOp_or
  have hclose : ∀ rest, StopsOr (ascii ")" :: rest) :=
    fun rest => ⟨⟨stopsAt_close rest, rfl⟩, rfl⟩
  have hatom : ∀ ts, parseNot (parseBoolAtom stod parseSelect (parseBoolWithin stod parseSelect (m + 1)))
      (ascii "(" :: ts) = parenthesized (parseBoolWithin stod parseSelect (m + 1)) (ascii "(" :: ts) :=
    fun _ => rfl
  rw [List.cons_append, hatom]
  exact parenthesized_takes hinner hclose rest trivial

theorem operand_reads (hb : ∀ n, b.tokens.length ≤ n → b.Reads stod parseSelect n) {needed : Bool}
    (hrank : needed = false → b.rank ≤ 1)
    (hn : ((wrapped needed b.pieces).flatMap (·.tokens)).length ≤ n) :
    (parseNot (parseBoolAtom stod parseSelect (parseBoolWithin stod parseSelect n))).Takes
      (StopsAt 3) ((wrapped needed b.pieces).flatMap (·.tokens)) b.read := by
  cases needed with
  | false => exact (hb n hn).not (hrank rfl)
  | true =>
    rw [wrapped, if_pos rfl, tokens_inParentheses] at hn ⊢
    exact parenthesized_reads hb hn

theorem reads_not (hb : ∀ n, b.tokens.length ≤ n → b.Reads stod parseSelect n)
    (hn : b.not.tokens.length ≤ n) : b.not.Reads stod parseSelect n := by
  have htokens : b.not.tokens =
      ascii "NOT" :: (wrapped (1 < b.rank) b.pieces).flatMap (·.tokens) := rfl
  apply Reads.of_not
  rw [htokens] at hn ⊢
  intro rest hrest
  have hinner := operand_reads hb (by simp) (Nat.le_of_succ_le hn) rest hrest
  have hnot : ∀ (atom : ListParser Token (BoolTree σ)) ts, parseNot atom (ascii "NOT" :: ts) =
      (parseNot atom ts).map fun b => (.not b.1, b.2) := fun _ _ => rfl
  rw [List.cons_append, hnot, hinner, read, read, plain]
  split_ifs <;> rfl

theorem reads_and {left right : PredicateTree}
    (hleft : ∀ n, left.tokens.length ≤ n → left.Reads stod parseSelect n)
    (hright : ∀ n, right.tokens.length ≤ n → right.Reads stod parseSelect n)
    (hn : (left.and right).tokens.length ≤ n) : (left.and right).Reads stod parseSelect n := by
  have htokens : (left.and right).tokens = (wrapped (2 < left.rank) left.pieces).flatMap (·.tokens) ++
      ascii "AND" :: (wrapped (2 ≤ right.rank) right.pieces).flatMap (·.tokens) := by
    rw [tokens, pieces, List.flatMap_append, List.flatMap_cons]
    rfl
  have hread : (left.and right).read (σ := σ) = left.read.bind fun a => right.read.map (.and a) := by
    rw [read, read, read, plain]
    cases left.plain <;> cases right.plain <;> rfl
  rw [htokens, List.length_append, List.length_cons] at hn
  have hfirst : ListParser.Chained (wordOp "AND") (fun _ => .and)
      (parseNot (parseBoolAtom stod parseSelect (parseBoolWithin stod parseSelect n))) (StopsAt 3)
      ((wrapped (2 < left.rank) left.pieces).flatMap (·.tokens)) left.read := by
    by_cases hrank : 2 < left.rank
    · exact .single (operand_reads hleft (by simp [hrank]) (Nat.le_of_add_right_le hn))
    · have hbare : wrapped (2 < left.rank) left.pieces = left.pieces := by simp [wrapped, hrank]
      rw [hbare] at hn ⊢
      exact (hleft n (Nat.le_of_add_right_le hn)).and (Nat.le_of_not_lt hrank)
  have hsecond : (parseNot (parseBoolAtom stod parseSelect (parseBoolWithin stod parseSelect n))).Takes
      (StopsAt 3) ((wrapped (2 ≤ right.rank) right.pieces).flatMap (·.tokens)) right.read :=
    operand_reads hright (by simp) (by omega)
  have hchain := hfirst.snoc (t := ascii "AND") rfl hsecond
  rw [← htokens, ← hread] at hchain
  exact ⟨by simp [rank], fun _ => hchain, .single (parseAnd_takes hchain)⟩

theorem reads_or {left right : PredicateTree}
    (hleft : ∀ n, left.tokens.length ≤ n → left.Reads stod parseSelect n)
    (hright : ∀ n, right.tokens.length ≤ n → right.Reads stod parseSelect n)
    (hn : (left.or right).tokens.length ≤ n) : (left.or right).Reads stod parseSelect n := by
  have htokens : (left.or right).tokens = left.tokens ++
      ascii "OR" :: (wrapped (3 ≤ right.rank) right.pieces).flatMap (·.tokens) := by
    rw [tokens, pieces, List.flatMap_append, List.flatMap_cons]
    rfl
  have hread : (left.or right).read (σ := σ) = left.read.bind fun a => right.read.map (.or a) := by
    rw [read, read, read, plain]
    cases left.plain <;> cases right.plain <;> rfl
  rw [htokens, List.length_append, List.length_cons] at hn
  have hsecond : (parseAnd stod parseSelect (parseBoolWithin stod parseSelect n)).Takes StopsAnd
      ((wrapped (3 ≤ right.rank) right.pieces).flatMap (·.tokens)) right.read := by
    apply parseAnd_takes
    by_cases hrank : 3 ≤ right.rank
    · exact .single (operand_reads hright (by simp [hrank]) (by omega))
    · have hbare : wrapped (3 ≤ right.rank) right.pieces = right.pieces := by simp [wrapped, hrank]
      rw [hbare] at hn ⊢
      exact (hright n (Nat.le_of_add_left_le hn |> Nat.le_of_succ_le)).and (by omega)
  have hchain := (hleft n (Nat.le_of_add_right_le hn)).or.snoc (t := ascii "OR") rfl hsecond
  rw [← htokens, ← hread] at hchain
  exact ⟨by simp [rank], by simp [rank], hchain⟩

theorem comparison_takes {e : ScalarTree} {tail : List Token} {a : BoolTree σ}
    (hstop : ∀ rest, StopsAt 3 (tail ++ rest))
    (htail : ∀ rest, StopsAt 3 rest →
      parseComparisonTail stod parseSelect e.expression (tail ++ rest) = some (a, rest)) :
    (parseNot (parseBoolAtom stod parseSelect (parseBoolWithin stod parseSelect n))).Takes
      (StopsAt 3) (e.tokens ++ tail) (if !e.opens then some a else none) := by
  intro rest hrest
  rw [List.append_assoc, parseNot_of_not_hasKeyword (e.hasKeyword_tokens _ (by decide))]
  cases h : e.opens with
  | true =>
    rw [parseBoolAtom_opens stod parseSelect h (parseBoolWithin_expression stod parseSelect n)]
    rfl
  | false =>
    rw [parseBoolAtom_plain stod parseSelect h (hstop rest), htail rest hrest]
    rfl

theorem stopsAt_notTokens {w : String} (h : w ∈ ["IS", "NOT", "IN", "BETWEEN", "AND", "OR"])
    (negated : Bool) (rest : List Token) : StopsAt 3 (notTokens negated ++ ascii w :: rest) := by
  cases negated with
  | false => exact stopsAt_keyword h rest
  | true => exact stopsAt_keyword (w := "NOT") (by decide) (ascii w :: rest)

theorem tokens_notPieces (negated : Bool) :
    (notPieces negated).flatMap (·.tokens) = notTokens negated := by
  cases negated <;> rfl

theorem reads (b : PredicateTree) : ∀ n, b.tokens.length ≤ n → b.Reads stod parseSelect n := by
  induction b with
  | comparison op lhs rhs =>
    intro n _
    have htokens : (comparison op lhs rhs).tokens = lhs.tokens ++ op.token :: rhs.tokens := by
      rw [tokens, pieces, List.flatMap_append, List.flatMap_cons]
      cases op <;> rfl
    apply Reads.of_not
    rw [htokens]
    apply comparison_takes
    · intro rest
      apply stopsAt_of_no_operator
      · cases op <;> decide
      · intro op'
        cases op <;> cases op' <;> decide
    · intro rest hrest
      exact parseComparisonTail_order stod parseSelect _ op rhs hrest
  | isNull expr negated =>
    intro n _
    have htokens : (isNull expr negated).tokens =
        expr.tokens ++ ascii "IS" :: (notTokens negated ++ [ascii "NULL"]) := by
      rw [tokens, pieces, List.flatMap_append, List.flatMap_cons, List.flatMap_append,
        tokens_notPieces]
      rfl
    apply Reads.of_not
    rw [htokens]
    apply comparison_takes
    · exact fun rest => stopsAt_keyword (by decide) _
    · intro rest _
      rw [List.cons_append, List.append_assoc]
      exact parseComparisonTail_isNull stod parseSelect _ negated
  | between expr low high negated =>
    intro n _
    have htokens : (between expr low high negated).tokens = expr.tokens ++
        (notTokens negated ++ ascii "BETWEEN" :: (low.tokens ++ ascii "AND" :: high.tokens)) := by
      rw [tokens, pieces, List.flatMap_append, List.flatMap_append, List.flatMap_cons,
        List.flatMap_append, List.flatMap_cons, tokens_notPieces]
      rfl
    apply Reads.of_not
    rw [htokens]
    apply comparison_takes
    · intro rest
      rw [List.append_assoc]
      exact stopsAt_notTokens (by decide) negated _
    · intro rest hrest
      rw [List.append_assoc, List.cons_append, List.append_assoc, List.cons_append]
      exact parseComparisonTail_between stod parseSelect _ negated low high hrest
  | inList expr first values negated =>
    intro n _
    have htokens : (inList expr first values negated).tokens = expr.tokens ++
        (notTokens negated ++ ascii "IN" ::
          (inParentheses (listed ScalarTree.pieces first values)).flatMap (·.tokens)) := by
      rw [tokens, pieces, List.flatMap_append, List.flatMap_append, List.flatMap_cons,
        tokens_notPieces]
      rfl
    apply Reads.of_not
    rw [htokens]
    apply comparison_takes
    · intro rest
      rw [List.append_assoc]
      exact stopsAt_notTokens (by decide) negated _
    · intro rest _
      rw [List.append_assoc, List.cons_append]
      exact parseComparisonTail_inList stod parseSelect _ negated first values
  | and left right hleft hright => exact fun n hn => reads_and hleft hright hn
  | or left right hleft hright => exact fun n hn => reads_or hleft hright hn
  | not inner ih => exact fun n hn => reads_not ih hn

variable (stod parseSelect)

/-- The text of a predicate is read back exactly when no comparison in it begins with a parenthesis,
which the parser takes for one around a predicate. -/
theorem parseBoolExpr_text_iff (b : PredicateTree) :
    (tokenize b.text).bind (parseBoolExpr stod parseSelect) = some (b.tree, []) ↔ b.plain = true := by
  have htakes : parseBoolExpr stod parseSelect (b.tokens ++ []) = b.read.map (·, []) :=
    (reads b _ (by simp)).or.takes stopsAnd_of_wordOp_or [] ⟨⟨by simp [StopsAt], rfl⟩, rfl⟩
  rw [List.append_nil, read] at htakes
  have htext : (tokenize b.text).bind (parseBoolExpr stod parseSelect) =
      (if b.plain then some b.tree else none).map (·, []) := by
    rw [text, tokenize_blankJoined, Option.bind_some]
    exact htakes
  rw [htext]
  cases b.plain <;> simp

/-- The predicate `( a + b ) * c = d` is refused. -/
theorem parseBoolExpr_product : ∃ b : PredicateTree, b.text = ascii "( a + b ) * c = d" ∧
    (tokenize b.text).bind
      (parseBoolExpr (fun _ => none) (fun _ => (none : Option (Unit × List Token)))) = none := by
  have htokens : tokenize (ascii "( a + b ) * c = d") =
      some (["(", "a", "+", "b", ")", "*", "c", "=", "d"].map ascii) := by decide
  have htext : (comparison .eq
      (.binary .mul (.binary .add (.column ⟨none, ⟨ascii "a", rfl, rfl⟩, by decide⟩)
        (.column ⟨none, ⟨ascii "b", rfl, rfl⟩, by decide⟩))
        (.column ⟨none, ⟨ascii "c", rfl, rfl⟩, by decide⟩))
      (.column ⟨none, ⟨ascii "d", rfl, rfl⟩, by decide⟩)).text = ascii "( a + b ) * c = d" := rfl
  refine ⟨_, htext, ?_⟩
  rw [htext, htokens]
  rfl

end RoundTrip

end PredicateTree

end CoroDB
