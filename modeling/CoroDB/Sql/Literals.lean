import CoroDB.Framework.ListParser
import CoroDB.Sql.Lexer

/-!
# Literals in INSERT

`Parser::parse_literal` reads a value from one token, and `Parser::parse_insert` the rows of a statement.
-/

namespace CoroDB

open Framework Ascii

section Numbers

def digitsValue (digits : Bytes) : Nat :=
  Nat.ofDigits 10 (digits.reverse.map fun c => (c - 48).toNat)

/-- `std::stoll`: the sign, the leading digits, and an error where there are none or where the number
is no `int64_t`. -/
def stoll (text : Bytes) : Option Int64 :=
  let negative := text.head? = some minus
  let digits := (if negative then text.tail else text).takeWhile isDigit
  let n : Int := if negative then -(digitsValue digits : Int) else digitsValue digits
  if digits = [] then none
  else if -2 ^ 63 ≤ n ∧ n < 2 ^ 63 then some (Int64.ofInt n) else none

end Numbers

section Parser

variable (stod : Bytes → Option Double) {α : Type}

def parseLiteral (token : Token) : Option Value :=
  if token.map toUpper = ascii "NULL" then some .null
  else if token.map toUpper = ascii "TRUE" then some (.int 1)
  else if token.map toUpper = ascii "FALSE" then some (.int 0)
  else if token.head?.any isDigit ∨ (token.head? = some minus ∧ 1 < token.length) then
    if point ∈ token then (stod token).map .double else (stoll token).map .int
  else if 2 ≤ token.length ∧ token.head? = some quote ∧ token.getLast? = some quote then
    some (.text (token.tail.dropLast))
  else none

def isAlpha (c : UInt8) : Bool := 65 ≤ c && c ≤ 90 || 97 ≤ c && c ≤ 122

/-- `peek_is_identifier_text`. -/
def isIdentifier (token : Token) : Bool := token.head?.any fun c => isAlpha c || c == 95

def matchText (text : Token) : List Token → Option (List Token) := ListParser.accept (· == text)

def matchKeyword (kw : Token) : List Token → Option (List Token) :=
  ListParser.accept fun token => token.map toUpper == kw

def consumeIdentifier : ListParser Token Bytes
  | [] => none
  | token :: ts => if isIdentifier token then some (token, ts) else none

def parseLiteralExpression : ListParser Token Value
  | [] => none
  | token :: ts => (parseLiteral stod token).map (·, ts)

def comma (token : Token) : Option Unit := if token = ascii "," then some () else none

def commaList (item : ListParser Token α) : ListParser Token (List α) := fun ts =>
  (ListParser.sepBy comma item ts).map fun p => (p.1.1 :: p.1.2.map Prod.snd, p.2)

def parenthesized (item : ListParser Token α) : ListParser Token α := fun ts =>
  (matchText (ascii "(") ts).bind fun ts => (item ts).bind fun p =>
    (matchText (ascii ")") p.2).map (p.1, ·)

structure InsertStmt where
  table : Bytes
  columns : List Bytes
  rows : List (List Value)

def parseColumns (ts : List Token) : Option (List Bytes × List Token) :=
  if (matchText (ascii "(") ts).isSome then parenthesized (commaList consumeIdentifier) ts
  else some ([], ts)

/-- `Parser::parse_insert`; `INTO` may be left out. -/
def parseInsert : ListParser Token InsertStmt := fun ts =>
  (matchKeyword (ascii "INSERT") ts).bind fun ts =>
  (consumeIdentifier ((matchKeyword (ascii "INTO") ts).getD ts)).bind fun table =>
  (parseColumns table.2).bind fun columns =>
  (matchKeyword (ascii "VALUES") columns.2).bind fun ts =>
  (commaList (parenthesized (commaList (parseLiteralExpression stod))) ts).map fun rows =>
    (⟨table.1, columns.1, rows.1⟩, rows.2)

end Parser

section Lists

variable {α β : Type} {item : ListParser Token α} {shown : β → List Token} {val : β → Option α}

theorem mapM_eq_some_iff {f : β → Option α} {g : β → α} {xs : List β}
    (h : ∀ x ∈ xs, f x = none ∨ f x = some (g x)) :
    xs.mapM f = some (xs.map g) ↔ ∀ x ∈ xs, f x = some (g x) := by
  induction xs with
  | nil => simp
  | cons x xs ih =>
    simp only [List.forall_mem_cons] at h ⊢
    rw [← ih h.2, List.mapM_cons]
    rcases h.1 with hx | hx
    · simp [hx]
    · simp [hx, Option.bind_eq_some_iff]

theorem mapM_eq_none_or {f : β → Option α} {g : β → α} {xs : List β}
    (h : ∀ x ∈ xs, f x = none ∨ f x = some (g x)) :
    xs.mapM f = none ∨ xs.mapM f = some (xs.map g) := by
  induction xs with
  | nil => simp
  | cons x xs ih =>
    simp only [List.forall_mem_cons] at h
    rw [List.mapM_cons]
    rcases h.1 with hx | hx <;> rcases ih h.2 with hxs | hxs <;> simp [hx, hxs]

def NoComma (rest : List Token) : Prop := rest.head? ≠ some (ascii ",")

theorem commaList_takes {stop : List Token → Prop} (xs : List β) (x : β)
    (hitem : ∀ y ∈ x :: xs, item.Takes stop (shown y) (val y))
    (hcomma : ∀ rest, stop (ascii "," :: rest)) :
    (commaList item).Takes (fun rest => stop rest ∧ NoComma rest)
      (shown x ++ xs.flatMap fun y => ascii "," :: shown y) ((x :: xs).mapM val) := by
  intro rest hrest
  have hnext : ∀ t rest, (comma t).isSome → stop (t :: rest) := by
    intro t rest h
    obtain rfl : t = ascii "," := by simpa [comma] using h
    exact hcomma rest
  have hsep : ∀ y ∈ xs, comma (ascii ",") = some () := fun _ _ => rfl
  have hend : rest.head?.bind comma = none := by
    cases rest with
    | nil => rfl
    | cons t rest =>
      have ht : t ≠ ascii "," := by simpa [NoComma] using hrest.2
      simp [comma, ht]
  rw [commaList, ListParser.sepBy_flatMap (hitem x (by simp)) hsep
    (fun y hy => hitem y (List.mem_cons_of_mem _ hy)) hnext hrest.1 hend,
    List.mapM_cons]
  have hvalues : (xs.mapM fun y => (val y).map ((), ·)).map (List.map Prod.snd) = xs.mapM val :=
    ListParser.map_snd_mapM xs
  rw [← hvalues]
  cases val x with
  | none => rfl
  | some a => cases xs.mapM fun y => (val y).map ((), ·) <;> rfl

theorem parenthesized_takes {stop : List Token → Prop} {ts : List Token} {a : Option α}
    (h : item.Takes stop ts a) (hstop : ∀ rest, stop (ascii ")" :: rest)) :
    (parenthesized item).Takes (fun _ => True) (ascii "(" :: (ts ++ [ascii ")"])) a := by
  intro rest _
  have hopen : matchText (ascii "(") (ascii "(" :: (ts ++ [ascii ")"]) ++ rest) =
      some (ts ++ ascii ")" :: rest) := by
    simp [matchText, ListParser.accept]
  rw [parenthesized, hopen, Option.bind_some, h _ (hstop rest)]
  cases a with
  | none => rfl
  | some a => simp [matchText, ListParser.accept]

end Lists

section Decimal

theorem decimal_ne_nil (n : Nat) : decimal n ≠ [] := by
  unfold decimal
  split_ifs with h
  · simp
  · simpa using Nat.digits_ne_nil_iff_ne_zero.mpr h

theorem isDigit_of_mem_decimal {n : Nat} {c : UInt8} (h : c ∈ decimal n) : isDigit c = true := by
  unfold decimal at h
  split_ifs at h
  · obtain rfl := List.mem_singleton.mp h
    decide
  · obtain ⟨d, hd, rfl⟩ := List.mem_map.mp h
    have hd := Nat.digits_lt_base (by decide) (List.mem_reverse.mp hd)
    interval_cases d <;> decide

theorem digitsValue_decimal (n : Nat) : digitsValue (decimal n) = n := by
  unfold decimal digitsValue
  split_ifs with h
  · subst h
    decide
  · rw [← List.map_reverse, List.reverse_reverse, List.map_map]
    have hm : (Nat.digits 10 n).map ((fun c => (c - 48).toNat) ∘ fun d => UInt8.ofNat (48 + d)) =
        Nat.digits 10 n := by
      apply (List.map_congr_left fun d hd => ?_).trans (List.map_id _)
      have hd := Nat.digits_lt_base (by decide) hd
      interval_cases d <;> decide
    rw [hm, Nat.ofDigits_digits]

theorem isDigit_spec {c : UInt8} (h : isDigit c = true) :
    isSpace c = false ∧ c ≠ quote ∧ c ≠ minus ∧ isSingle c = false ∧ toUpper c ∉ [78, 84, 70] ∧
      c ∉ [33, 60, 62] := by
  have hc : 48 ≤ c.toNat ∧ c.toNat ≤ 57 := by simpa [isDigit, UInt8.le_iff_toNat_le] using h
  have hupper : toUpper c = c := by
    simp [toUpper, UInt8.le_iff_toNat_le]
    omega
  rw [hupper]
  simp [isSpace, isSingle, UInt8.le_iff_toNat_le, ← UInt8.toNat_inj, quote, minus]
  omega

theorem wordFrom_digits {digits : Bytes} (h : ∀ c ∈ digits, isDigit c = true) (current : Bytes) :
    wordFrom current digits = true := by
  induction digits generalizing current with
  | nil => rfl
  | cons c digits ih =>
    simp only [List.forall_mem_cons] at h
    obtain ⟨hs, hq, -, hi, -, ho⟩ := isDigit_spec h.1
    have hop : operatorAt c digits.head? = none := by
      by_contra hop
      exact ho (by simpa using (operatorAt_eq_some hop).1)
    simp [wordFrom, endsToken, hs, hq, hi, hop, ih h.2]

theorem isWord_decimal (n : Nat) : isWord (decimal n) = true :=
  isWord_iff.mpr ⟨decimal_ne_nil n, wordFrom_digits (fun _ => isDigit_of_mem_decimal) []⟩

theorem stoll_digit {c : UInt8} (hc : isDigit c = true) (rest : Bytes) :
    stoll (c :: rest) =
      if digitsValue ((c :: rest).takeWhile isDigit) < 2 ^ 63 then
        some (Int64.ofInt (digitsValue ((c :: rest).takeWhile isDigit)))
      else none := by
  obtain ⟨-, -, hminus, -⟩ := isDigit_spec hc
  simp only [stoll, List.head?_cons, Option.some.injEq, hminus, if_false]
  rw [if_neg (by simp [hc])]
  exact if_congr (by omega) rfl rfl

theorem parseLiteral_digit (stod : Bytes → Option Double) {c : UInt8} (hc : isDigit c = true)
    (rest : Bytes) :
    parseLiteral stod (c :: rest) =
      if point ∈ c :: rest then (stod (c :: rest)).map .double
      else (stoll (c :: rest)).map .int := by
  obtain ⟨-, -, -, -, hupper, -⟩ := isDigit_spec hc
  have hkeyword : ∀ w : String, (ascii w).head? ∈ [some 78, some 84, some 70] →
      (c :: rest).map toUpper ≠ ascii w := by
    intro w hw heq
    rw [← heq] at hw
    exact hupper (by simpa using hw)
  rw [parseLiteral, if_neg (hkeyword _ (by decide)), if_neg (hkeyword _ (by decide)),
    if_neg (hkeyword _ (by decide)), if_pos (by simp [hc])]

theorem parseLiteral_decimal (stod : Bytes → Option Double) {n : Nat} (hn : n < 2 ^ 63) :
    parseLiteral stod (decimal n) = some (.int (Int64.ofInt n)) := by
  have hall : ∀ c ∈ decimal n, isDigit c = true := fun _ => isDigit_of_mem_decimal
  have hvalue := digitsValue_decimal n
  obtain ⟨c, digits, hd⟩ := List.exists_cons_of_ne_nil (decimal_ne_nil n)
  rw [hd] at hall hvalue ⊢
  have hpoint : point ∉ c :: digits := fun h => absurd (hall _ h) (by decide)
  have htake : (c :: digits).takeWhile isDigit = c :: digits :=
    List.takeWhile_eq_self_iff.mpr hall
  rw [parseLiteral_digit stod (hall c (by simp)), if_neg hpoint, stoll_digit (hall c (by simp)),
    htake, hvalue, if_pos hn]
  rfl

theorem parseLiteral_quoted (stod : Bytes → Option Double) (s : Bytes) :
    parseLiteral stod (quote :: (s ++ [quote])) = some (.text s) := by
  have hkeyword : ∀ w : String, (ascii w).head? ≠ some quote →
      (quote :: (s ++ [quote])).map toUpper ≠ ascii w := by
    intro w hw heq
    rw [← heq] at hw
    exact hw rfl
  have hnumber : ¬((quote :: (s ++ [quote])).head?.any isDigit = true ∨
      (quote :: (s ++ [quote])).head? = some minus ∧ 1 < (quote :: (s ++ [quote])).length) := by
    have hdigit : isDigit quote = false := by decide
    simp [hdigit, quote, minus]
  have hquoted : 2 ≤ (quote :: (s ++ [quote])).length ∧ (quote :: (s ++ [quote])).head? = some quote ∧
      (quote :: (s ++ [quote])).getLast? = some quote := by
    refine ⟨by simp, rfl, ?_⟩
    rw [← List.cons_append, List.getLast?_append]
    rfl
  rw [parseLiteral, if_neg (hkeyword _ (by decide)), if_neg (hkeyword _ (by decide)),
    if_neg (hkeyword _ (by decide)), if_neg hnumber, if_pos hquoted]
  simp

end Decimal

section Written

/-- A value as it is written in a statement. -/
inductive SqlLiteral where
  | null
  | int (i : Int64)
  | text (s : Bytes)

namespace SqlLiteral

def value : SqlLiteral → Value
  | null => .null
  | int i => .int i
  | text s => .text s

def written : SqlLiteral → Bytes
  | null => ascii "NULL"
  | int i => intText i
  | text s => quote :: (doubleQuotes s ++ [quote])

def isNegative : SqlLiteral → Bool
  | int i => i.toInt < 0
  | _ => false

def tokens : SqlLiteral → List Token
  | null => [ascii "NULL"]
  | int i => if i.toInt < 0 then [[minus], decimal i.toInt.natAbs] else [decimal i.toInt.natAbs]
  | text s => [quote :: (s ++ [quote])]

theorem tokenize_written (l : SqlLiteral) : tokenize l.written = some l.tokens := by
  cases l with
  | null => exact Slot.tokens_text (.word (ascii "NULL") rfl)
  | text s => exact Slot.tokens_text (.string s)
  | int i =>
    have hnumber : tokenize (decimal i.toInt.natAbs) = some [decimal i.toInt.natAbs] :=
      Slot.tokens_text (.word _ (isWord_decimal _))
    rw [written, intText, tokens]
    split_ifs with h
    · rw [tokenize, LexState.tokens_mark (by decide) (by decide), ← tokenize, hnumber]
      rfl
    · exact hnumber

def piece (l : SqlLiteral) : Piece := ⟨l.written, l.tokens, l.tokenize_written⟩

def read (l : SqlLiteral) : Option Value := if l.isNegative then none else some l.value

theorem read_eq_some_iff (l : SqlLiteral) : l.read = some l.value ↔ l.isNegative = false := by
  simp [read]

theorem read_eq_none_or (l : SqlLiteral) : l.read = none ∨ l.read = some l.value := by
  rw [read]
  split_ifs <;> simp

theorem parseLiteralExpression_takes (stod : Bytes → Option Double) (l : SqlLiteral) :
    (parseLiteralExpression stod).Takes (fun _ => True) l.tokens l.read := by
  intro rest _
  cases l with
  | null => rfl
  | text s => simp [tokens, parseLiteralExpression, parseLiteral_quoted, read, isNegative, value]
  | int i =>
    rw [tokens, read, isNegative]
    by_cases h : i.toInt < 0
    · have hminus : parseLiteral stod [minus] = none := rfl
      simp [h, parseLiteralExpression, hminus]
    · have habs : (i.toInt.natAbs : Int) = i.toInt := by omega
      have hlt : i.toInt.natAbs < 2 ^ 63 := by
        have := i.toInt_lt
        omega
      simp [h, parseLiteralExpression, parseLiteral_decimal stod hlt, habs, value]

end SqlLiteral

/-- A name that a statement may use. -/
structure Identifier where
  text : Bytes
  letter : isIdentifier text = true
  whole : isWord text = true

def Identifier.piece (name : Identifier) : Piece := (Lexeme.word name.text name.whole).piece

def keyword (text : Bytes) (whole : isWord text = true) : Piece := (Lexeme.word text whole).piece

def mark (c : UInt8) (single : isSingle c = true) : Piece := (Lexeme.mark c single).piece

structure InsertRow where
  first : SqlLiteral
  rest : List SqlLiteral

/-- The parts of an INSERT statement, with at least one row. -/
structure InsertText where
  table : Identifier
  columns : List Identifier
  first : InsertRow
  rest : List InsertRow

section Pieces

def listed {β : Type} (item : β → List Piece) (x : β) (xs : List β) : List Piece :=
  item x ++ xs.flatMap fun y => mark 44 rfl :: item y

def inParentheses (pieces : List Piece) : List Piece := mark 40 rfl :: (pieces ++ [mark 41 rfl])

namespace InsertRow

def literals (row : InsertRow) : List SqlLiteral := row.first :: row.rest

def pieces (row : InsertRow) : List Piece :=
  inParentheses (listed (fun l => [SqlLiteral.piece l]) row.first row.rest)

end InsertRow

namespace InsertText

def rows (ins : InsertText) : List InsertRow := ins.first :: ins.rest

def columnPieces : List Identifier → List Piece
  | [] => []
  | c :: cs => inParentheses (listed (fun c => [Identifier.piece c]) c cs)

def pieces (ins : InsertText) : List Piece :=
  keyword (ascii "INSERT") rfl :: keyword (ascii "INTO") rfl :: ins.table.piece ::
    (columnPieces ins.columns ++ keyword (ascii "VALUES") rfl ::
      listed InsertRow.pieces ins.first ins.rest)

/-- `INSERT INTO t ( a , b ) VALUES ( 1 , 'x' ) , ( NULL , 'y' )`. -/
def text (ins : InsertText) : Bytes := blankJoined (ins.pieces.map (·.text))

def stmt (ins : InsertText) : InsertStmt :=
  ⟨ins.table.text, ins.columns.map (·.text), ins.rows.map fun row => row.literals.map SqlLiteral.value⟩

end InsertText

variable {β : Type} (stod : Bytes → Option Double)

theorem tokens_listed (item : β → List Piece) (x : β) (xs : List β) :
    (listed item x xs).flatMap (·.tokens) = (item x).flatMap (·.tokens) ++
      xs.flatMap fun y => ascii "," :: (item y).flatMap (·.tokens) := by
  rw [listed, List.flatMap_append, List.flatMap_assoc]
  rfl

theorem tokens_inParentheses (pieces : List Piece) : (inParentheses pieces).flatMap (·.tokens) =
    ascii "(" :: (pieces.flatMap (·.tokens) ++ [ascii ")"]) := by
  rw [inParentheses, List.flatMap_cons, List.flatMap_append]
  rfl

theorem noComma_close (rest : List Token) : NoComma (ascii ")" :: rest) := by
  simp [NoComma, ascii]

theorem parenthesized_listed_takes {α : Type} {p : ListParser Token α} {item : β → List Piece}
    {val : β → Option α} {x : β} {xs : List β}
    (h : ∀ y ∈ x :: xs, p.Takes (fun _ => True) ((item y).flatMap (·.tokens)) (val y)) :
    (parenthesized (commaList p)).Takes (fun _ => True)
      ((inParentheses (listed item x xs)).flatMap (·.tokens)) ((x :: xs).mapM val) := by
  rw [tokens_inParentheses, tokens_listed]
  exact parenthesized_takes (commaList_takes xs x h fun _ => trivial)
    fun rest => ⟨trivial, noComma_close rest⟩

theorem InsertRow.takes (row : InsertRow) :
    (parenthesized (commaList (parseLiteralExpression stod))).Takes (fun _ => True)
      (row.pieces.flatMap (·.tokens)) (row.literals.mapM SqlLiteral.read) := by
  apply parenthesized_listed_takes
  intro l _
  simpa [SqlLiteral.piece] using l.parseLiteralExpression_takes stod

theorem Identifier.takes (name : Identifier) :
    ListParser.Takes consumeIdentifier (fun _ => True) name.piece.tokens (some name.text) := by
  intro rest _
  simp [consumeIdentifier, piece, Lexeme.piece, Lexeme.token, name.letter]

namespace InsertText

theorem parseColumns_pieces (columns : List Identifier) {rest : List Token}
    (hrest : matchText (ascii "(") rest = none) :
    parseColumns ((columnPieces columns).flatMap (·.tokens) ++ rest) =
      some (columns.map (·.text), rest) := by
  cases columns with
  | nil => simp [columnPieces, parseColumns, hrest]
  | cons c cs =>
    have htakes : (parenthesized (commaList consumeIdentifier)).Takes (fun _ => True)
        ((columnPieces (c :: cs)).flatMap (·.tokens)) ((c :: cs).mapM fun c => some c.text) := by
      apply parenthesized_listed_takes
      intro c _
      simpa using c.takes
    have hopen : (matchText (ascii "(")
        ((columnPieces (c :: cs)).flatMap (·.tokens) ++ rest)).isSome = true := by
      rw [columnPieces, tokens_inParentheses]
      simp [matchText, ListParser.accept]
    have hread : ((c :: cs).mapM fun c => some c.text) = some ((c :: cs).map (·.text)) :=
      (mapM_eq_some_iff fun _ _ => .inr rfl).mpr fun _ _ => rfl
    rw [parseColumns, if_pos hopen, htakes rest trivial, hread]
    rfl

theorem parseInsert_pieces (ins : InsertText) :
    parseInsert stod (ins.pieces.flatMap (·.tokens)) =
      (ins.rows.mapM fun row : InsertRow => row.literals.mapM SqlLiteral.read).map fun rows =>
        (⟨ins.table.text, ins.columns.map (·.text), rows⟩, []) := by
  have hrows : (commaList (parenthesized (commaList (parseLiteralExpression stod)))).Takes
      (fun rest => True ∧ NoComma rest) ((listed InsertRow.pieces ins.first ins.rest).flatMap (·.tokens))
      (ins.rows.mapM fun row : InsertRow => row.literals.mapM SqlLiteral.read) := by
    rw [tokens_listed]
    exact commaList_takes ins.rest ins.first (fun row _ => row.takes stod) fun _ => trivial
  have hrows := hrows [] (by simp [NoComma])
  have htokens : ins.pieces.flatMap (·.tokens) = ascii "INSERT" :: ascii "INTO" ::
      (ins.table.piece.tokens ++ ((columnPieces ins.columns).flatMap (·.tokens) ++ ascii "VALUES" ::
        (listed InsertRow.pieces ins.first ins.rest).flatMap (·.tokens))) := by
    simp [pieces, keyword, Lexeme.piece, Lexeme.token]
  rw [List.append_nil] at hrows
  have htable := ins.table.takes ((columnPieces ins.columns).flatMap (·.tokens) ++ ascii "VALUES" ::
    (listed InsertRow.pieces ins.first ins.rest).flatMap (·.tokens)) trivial
  have hinsert : ∀ ts, matchKeyword (ascii "INSERT") (ascii "INSERT" :: ts) = some ts := fun _ => rfl
  have hinto : ∀ ts, matchKeyword (ascii "INTO") (ascii "INTO" :: ts) = some ts := fun _ => rfl
  have hvalues : ∀ ts, matchKeyword (ascii "VALUES") (ascii "VALUES" :: ts) = some ts := fun _ => rfl
  rw [htokens, parseInsert, hinsert, Option.bind_some, hinto, Option.getD_some, htable,
    Option.map_some, Option.bind_some, parseColumns_pieces _ rfl, Option.bind_some, hvalues,
    Option.bind_some, hrows, Option.map_map]
  rfl

theorem parseInsert_text_iff (ins : InsertText) :
    (tokenize ins.text).bind (parseInsert stod) = some (ins.stmt, []) ↔
      ∀ row ∈ ins.rows, ∀ l ∈ row.literals, l.isNegative = false := by
  have hrow : ∀ row : InsertRow, row.literals.mapM SqlLiteral.read = none ∨
      row.literals.mapM SqlLiteral.read = some (row.literals.map SqlLiteral.value) :=
    fun row => mapM_eq_none_or fun l _ => l.read_eq_none_or
  have hrows : (ins.rows.mapM fun row : InsertRow => row.literals.mapM SqlLiteral.read) =
      some (ins.rows.map fun row => row.literals.map SqlLiteral.value) ↔
      ∀ row ∈ ins.rows, ∀ l ∈ row.literals, l.isNegative = false := by
    rw [mapM_eq_some_iff fun row _ => hrow row]
    simp only [mapM_eq_some_iff fun l (_ : l ∈ _) => SqlLiteral.read_eq_none_or l,
      SqlLiteral.read_eq_some_iff]
  rw [text, tokenize_blankJoined, Option.bind_some, parseInsert_pieces, stmt, ← hrows]
  simp [Option.map_eq_some_iff]

end InsertText

end Pieces

section Claim

def isNumber (token : Token) : Bool :=
  token.head?.any isDigit &&
    (token.all isDigit || ((token.dropWhile isDigit).head? == some point &&
      (token.dropWhile isDigit).tail.all isDigit))

/-- A number that the conversion would refuse by its size. -/
def isTooLarge (stod : Bytes → Option Double) (token : Token) : Prop :=
  if point ∈ token then stod token = none else 2 ^ 63 ≤ digitsValue (token.takeWhile isDigit)

theorem parseLiteral_eq_none_iff (stod : Bytes → Option Double) {token : Token}
    (h : token.head?.any isDigit = true) :
    parseLiteral stod token = none ↔ isTooLarge stod token := by
  cases token with
  | nil => simp at h
  | cons c rest =>
    have hc : isDigit c = true := by simpa using h
    rw [parseLiteral_digit stod hc, isTooLarge]
    split_ifs
    · simp
    · rw [stoll_digit hc]
      simp

/-- A statement is read back exactly when no literal in it is negative, because a minus sign is a token
of its own and no literal, and the conversions read the number a token begins with. -/
theorem literals_round_trip_iff (stod : Bytes → Option Double) (ins : InsertText) (token : Token) :
    ((tokenize ins.text).bind (parseInsert stod) = some (ins.stmt, []) ↔
      ∀ row ∈ ins.rows, ∀ l ∈ row.literals, l.isNegative = false) ∧
    ((token.head?.any isDigit = true → parseLiteral stod token ≠ none → isNumber token = true) ↔
      (token.head?.any isDigit = true → isNumber token = true ∨ isTooLarge stod token)) := by
  constructor
  · exact ins.parseInsert_text_iff stod
  · apply forall_congr'
    intro h
    rw [← parseLiteral_eq_none_iff stod h, ne_eq, ← or_iff_not_imp_left, or_comm]

/-- The statement that inserts -5 is refused, and the token `12ab` is taken for 12. -/
theorem literals_minusFive :
    (tokenize (ascii "INSERT INTO t VALUES ( -5 )")).bind (parseInsert fun _ => none) = none ∧
    parseLiteral (fun _ => none) (ascii "12ab") = some (.int 12) ∧ isNumber (ascii "12ab") = false := by
  have htokens : tokenize (ascii "INSERT INTO t VALUES ( -5 )") =
      some (["INSERT", "INTO", "t", "VALUES", "(", "-", "5", ")"].map ascii) := by decide
  rw [htokens]
  exact ⟨rfl, rfl, rfl⟩

end Claim

end Written

end CoroDB
