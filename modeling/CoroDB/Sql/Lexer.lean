import CoroDB.Sql.Tokenizer

/-!
# The tokenizer

`Parser::tokenize` reads the statement byte by byte, looking one byte ahead, with the text of the token
being read as its only state.
-/

namespace CoroDB

abbrev Token := Bytes

namespace Ascii

abbrev point : UInt8 := 46

def isDigit (c : UInt8) : Bool := 48 ≤ c && c ≤ 57

/-- The bytes that are a token of their own: `( ) , ; . * + - / = ? %`. -/
def isSingle (c : UInt8) : Bool := c ∈ [40, 41, 44, 59, 46, 42, 43, 45, 47, 61, 63, 37]

end Ascii

open Ascii

section Tokenize

/-- Where the tokenizer stands: in a token, whose text so far is empty between tokens, in a string
literal, or before the second byte of an operator or of a doubled quote. -/
inductive LexState where
  | between (current : Bytes)
  | literal (text : Bytes)
  | operator
  | doubled (text : Bytes)
  deriving DecidableEq

/-- The two-byte comparison operator that starts at `c`. -/
def operatorAt (c : UInt8) (next : Option UInt8) : Option Token :=
  match next with
  | none => none
  | some n =>
    if (c = 33 ∨ c = 60 ∨ c = 62) ∧ n = 61 then some [c, n]
    else if c = 60 ∧ n = 62 then some [c, n]
    else none

def flushToken (current : Bytes) : List Token := if current = [] then [] else [current]

def endsInDigit (current : Bytes) : Bool := current.getLast?.any isDigit

/-- The byte `c` ends the token being read instead of being added to it. -/
def endsToken (current : Bytes) (c : UInt8) (next : Option UInt8) : Bool :=
  isSpace c || c == quote || (operatorAt c next).isSome ||
    isSingle c && !decide (c = point ∧ endsInDigit current ∧ next.any isDigit)

namespace LexState

/-- One byte of `Parser::tokenize`, with the byte after it. -/
def step : LexState → UInt8 → Option UInt8 → List Token × LexState
  | between current, c, next =>
    if isSpace c then (flushToken current, between [])
    else if c = quote then (flushToken current, literal [quote])
    else match operatorAt c next with
      | some op => (flushToken current ++ [op], operator)
      | none =>
        if c = point ∧ endsInDigit current ∧ next.any isDigit then ([], between (current ++ [c]))
        else if isSingle c then (flushToken current ++ [[c]], between [])
        else ([], between (current ++ [c]))
  | literal text, c, next =>
    if c = quote then
      if next = some quote then ([], doubled (text ++ [quote]))
      else ([text ++ [quote]], between [])
    else ([], literal (text ++ [c]))
  | operator, _, _ => ([], between [])
  | doubled text, _, _ => ([], literal text)

/-- The tokens that are still to come; an open string literal at the end is an error. -/
def tokens : LexState → Bytes → Option (List Token)
  | between current, [] => some (flushToken current)
  | operator, [] => some []
  | literal _, [] => none
  | doubled _, [] => none
  | s, c :: rest => ((s.step c rest.head?).2.tokens rest).map ((s.step c rest.head?).1 ++ ·)

end LexState

def tokenize (sql : Bytes) : Option (List Token) := (LexState.between []).tokens sql

end Tokenize

section Bytewise

variable {current rest : Bytes} {c : UInt8} {next : Option UInt8}

theorem operatorAt_eq_some (h : operatorAt c next ≠ none) :
    (c = 33 ∨ c = 60 ∨ c = 62) ∧ (next = some 61 ∨ next = some 62) := by
  cases next with
  | none => simp [operatorAt] at h
  | some n =>
    simp only [operatorAt] at h
    split_ifs at h <;> simp_all

namespace LexState

theorem tokens_cons (s : LexState) (c : UInt8) (rest : Bytes) :
    s.tokens (c :: rest) =
      ((s.step c rest.head?).2.tokens rest).map ((s.step c rest.head?).1 ++ ·) := by
  cases s <;> rfl

theorem step_of_not_endsToken (h : endsToken current c next = false) :
    (between current).step c next = ([], between (current ++ [c])) := by
  simp only [endsToken, Bool.or_eq_false_iff, Bool.and_eq_false_iff] at h
  obtain ⟨⟨⟨hs, hq⟩, ho⟩, hp⟩ := h
  have ho : operatorAt c next = none := by simpa using ho
  simp only [step, ho, hs, Bool.false_eq_true, if_false, if_neg (by simpa using hq : ¬c = quote)]
  split_ifs <;> simp_all

theorem tokens_of_not_endsToken (h : endsToken current c rest.head? = false) :
    (between current).tokens (c :: rest) = (between (current ++ [c])).tokens rest := by
  rw [tokens_cons, step_of_not_endsToken h]
  simp

theorem step_blank {s : LexState} {b : UInt8} (hb : isSpace b = true) :
    s.step c (some b) = s.step c none := by
  have hop : operatorAt c (some b) = none := by
    by_contra h
    rcases (operatorAt_eq_some h).2 with h | h <;> cases h <;> exact absurd hb (by decide)
  have hdigit : isDigit b = false := by
    simp only [isSpace, isDigit, Bool.or_eq_true, Bool.and_eq_true, beq_iff_eq, decide_eq_true_eq,
      UInt8.le_iff_toNat_le, ← UInt8.toNat_inj, Bool.and_eq_false_iff, decide_eq_false_iff_not] at hb ⊢
    simp at hb ⊢
    omega
  have hquote : b ≠ quote := by
    rintro rfl
    exact absurd hb (by decide)
  have hnone : operatorAt c none = none := rfl
  cases s <;> simp [step, hop, hnone, hdigit, hquote]

theorem tokens_blank (h : isSpace c = true) :
    (between current).tokens (c :: rest) =
      ((between []).tokens rest).map (flushToken current ++ ·) := by
  rw [tokens_cons, step, if_pos h]

theorem tokens_blanks {gap : Bytes} (h : ∀ c ∈ gap, isSpace c = true) :
    (between []).tokens (gap ++ rest) = (between []).tokens rest := by
  induction gap with
  | nil => rfl
  | cons c gap ih =>
    simp only [List.forall_mem_cons] at h
    rw [List.cons_append, tokens_blank h.1, ih h.2]
    simp [flushToken]

theorem tokens_append_blank {s : LexState} {b : UInt8} {text : Bytes} {ts : List Token}
    (hb : isSpace b = true) (h : s.tokens text = some ts) :
    s.tokens (text ++ b :: rest) = ((between []).tokens rest).map (ts ++ ·) := by
  induction text generalizing s ts with
  | nil =>
    cases s with
    | between current =>
      rw [List.nil_append, tokens_blank hb]
      cases h
      rfl
    | operator =>
      cases h
      rw [List.nil_append, tokens_cons]
      rfl
    | literal text => cases h
    | doubled text => cases h
  | cons c text ih =>
    have hstep : s.step c (text ++ b :: rest).head? = s.step c text.head? := by
      cases text with
      | cons d text => rfl
      | nil => exact step_blank hb
    rw [tokens_cons] at h
    obtain ⟨ts', hts, rfl⟩ := Option.map_eq_some_iff.mp h
    rw [List.cons_append, tokens_cons, hstep, ih hts, Option.map_map]
    congr 1
    funext x
    simp

end LexState

def blankJoined : List Bytes → Bytes
  | [] => []
  | [piece] => piece
  | piece :: next :: pieces => piece ++ 32 :: blankJoined (next :: pieces)

structure Piece where
  text : Bytes
  tokens : List Token
  tokenized : tokenize text = some tokens

theorem tokenize_blankJoined (pieces : List Piece) :
    tokenize (blankJoined (pieces.map (·.text))) = some (pieces.flatMap (·.tokens)) := by
  induction pieces with
  | nil => rfl
  | cons piece pieces ih =>
    cases pieces with
    | nil => simpa [blankJoined] using piece.tokenized
    | cons next pieces =>
      have hrest : (LexState.between []).tokens (blankJoined ((next :: pieces).map (·.text))) = _ := ih
      rw [List.map_cons, List.map_cons, blankJoined, tokenize, ← List.map_cons,
        LexState.tokens_append_blank (by decide) piece.tokenized, hrest]
      rfl

end Bytewise

section Lexemes

def wordFrom (current : Bytes) : Bytes → Bool
  | [] => true
  | c :: rest => !endsToken current c rest.head? && wordFrom (current ++ [c]) rest

def isWord (text : Bytes) : Bool := !text.isEmpty && wordFrom [] text

theorem isWord_iff {text : Bytes} : isWord text = true ↔ text ≠ [] ∧ wordFrom [] text = true := by
  simp [isWord]

/-- `'` in a string literal is written twice. -/
def doubleQuotes (s : Bytes) : Bytes := s.flatMap fun c => if c = quote then [quote, quote] else [c]

/-- What stands for one token in a text: a name or number, a byte of its own, a comparison operator of
two bytes, or a string literal. -/
inductive Lexeme where
  | word (text : Bytes) (whole : isWord text = true)
  | mark (c : UInt8) (single : isSingle c = true)
  | comparison (c n : UInt8) (operator : operatorAt c (some n) = some [c, n])
  | string (s : Bytes)

namespace Lexeme

def text : Lexeme → Bytes
  | word text _ => text
  | mark c _ => [c]
  | comparison c n _ => [c, n]
  | string s => quote :: (doubleQuotes s ++ [quote])

def token : Lexeme → Token
  | word text _ => text
  | mark c _ => [c]
  | comparison c n _ => [c, n]
  | string s => quote :: (s ++ [quote])

def isText : Lexeme → Bool
  | word _ _ => true
  | _ => false

def operators : List Token :=
  [ascii "=", ascii "<", ascii ">", ascii "<=", ascii ">=", ascii "!=", ascii "<>", ascii "+", ascii "-",
    ascii "*", ascii "/", ascii "%", ascii "||", ascii ",", ascii "(", ascii ")", ascii ";"]

def isOperator (l : Lexeme) : Bool := l.token ∈ operators

end Lexeme

def isOperatorByte (c : UInt8) : Bool := c ∈ ascii "=<>!+-*/%|"

/-- A lexeme with the blanks behind it, and what is left of these. -/
structure Slot where
  lexeme : Lexeme
  gap : Bytes
  kept : Bytes
  blank : ∀ c ∈ gap, isSpace c = true
  removed : kept.Sublist gap

namespace Slot

/-- All blanks between two lexemes may be left out: one of them is an operator, and no two bytes of
operators come together. -/
def MayTouch (a b : Slot) : Prop :=
  (a.lexeme.isOperator = true ∨ b.lexeme.isOperator = true) ∧
    ¬(a.lexeme.text.getLast?.any isOperatorByte = true ∧ b.lexeme.text.head?.any isOperatorByte = true)

def spaced (slots : List Slot) : Bytes := slots.flatMap fun s => s.lexeme.text ++ s.gap

def squeezed (slots : List Slot) : Bytes := slots.flatMap fun s => s.lexeme.text ++ s.kept

end Slot

end Lexemes

section OneLexeme

variable {current u rest s : Bytes} {c n : UInt8} {next : Option UInt8} {l : Lexeme}

theorem endsToken_append (h : endsToken u c next = false) :
    endsToken (current ++ u) c next = false := by
  cases u with
  | nil =>
    simp only [endsToken, endsInDigit, List.getLast?_nil, Option.any_none] at h ⊢
    simp_all
  | cons d u =>
    have hlast : (current ++ d :: u).getLast? = (d :: u).getLast? := by
      rw [List.getLast?_append]
      simp [List.getLast?_cons]
    rw [endsToken, endsInDigit, hlast]
    exact h

theorem endsToken_of_none (h : endsToken u c none = false) (hc : operatorAt c next = none) :
    endsToken u c next = false := by
  simp only [endsToken, hc, Option.any_none] at h ⊢
  simp_all

namespace LexState

theorem tokens_wordFrom (current : Bytes) (h : wordFrom u s = true)
    (hlast : ∀ c, s.getLast? = some c → operatorAt c rest.head? = none) :
    (between (current ++ u)).tokens (s ++ rest) = (between (current ++ (u ++ s))).tokens rest := by
  induction s generalizing u with
  | nil => simp
  | cons c s ih =>
    simp only [wordFrom, Bool.and_eq_true, Bool.not_eq_eq_eq_not, Bool.not_true] at h
    have hc : endsToken u c (s ++ rest).head? = false := by
      cases s with
      | nil => exact endsToken_of_none h.1 (hlast c rfl)
      | cons d s => exact h.1
    have hrest := ih h.2 fun d hd => hlast d (by
      cases s with
      | nil => simp at hd
      | cons e s => rw [List.getLast?_cons_cons]; exact hd)
    rw [List.cons_append, tokens_of_not_endsToken (endsToken_append hc)]
    simpa using hrest

theorem tokens_mark (hc : isSingle c = true) (hpoint : c = point → endsInDigit current = false) :
    (between current).tokens (c :: rest) =
      ((between []).tokens rest).map (flushToken current ++ [[c]] ++ ·) := by
  have hplain : isSpace c = false ∧ c ≠ quote ∧ operatorAt c rest.head? = none := by
    simp only [isSingle, List.mem_cons, List.not_mem_nil, or_false, decide_eq_true_eq] at hc
    refine ⟨?_, ?_, ?_⟩
    · rcases hc with rfl | rfl | rfl | rfl | rfl | rfl | rfl | rfl | rfl | rfl | rfl | rfl <;> decide
    · rintro rfl
      exact absurd hc (by decide)
    · by_contra h
      have hop := (operatorAt_eq_some h).1
      rcases hop with rfl | rfl | rfl <;> simp at hc
  rw [tokens_cons]
  simp only [step, hplain.1, Bool.false_eq_true, if_false, hplain.2, hc]
  rw [if_neg (fun h => by simp [hpoint h.1] at h), if_pos trivial]

theorem tokens_comparison (h : operatorAt c (some n) = some [c, n]) :
    (between current).tokens (c :: n :: rest) =
      ((between []).tokens rest).map (flushToken current ++ [[c, n]] ++ ·) := by
  have hop := (operatorAt_eq_some (by rw [h]; exact Option.some_ne_none [c, n])).1
  have hspace : isSpace c = false := by rcases hop with rfl | rfl | rfl <;> decide
  have hquote : c ≠ quote := by rintro rfl; exact absurd hop (by decide)
  rw [tokens_cons, tokens_cons]
  simp only [List.head?_cons, step, hspace, Bool.false_eq_true, if_false, hquote, h, List.nil_append]
  cases (between []).tokens rest <;> rfl

theorem tokens_doubleQuotes (lit : Bytes) (hrest : rest.head? ≠ some quote) :
    (literal lit).tokens (doubleQuotes s ++ quote :: rest) =
      ((between []).tokens rest).map ((lit ++ s ++ [quote]) :: ·) := by
  induction s generalizing lit with
  | nil =>
    rw [doubleQuotes, List.flatMap_nil, List.nil_append, tokens_cons]
    simp [step, hrest]
  | cons c s ih =>
    rw [doubleQuotes, List.flatMap_cons]
    change (literal lit).tokens (((if c = quote then [quote, quote] else [c]) ++ doubleQuotes s) ++ _) = _
    by_cases hc : c = quote
    · subst hc
      have hpair : (literal lit).tokens (quote :: quote :: (doubleQuotes s ++ quote :: rest)) =
          (literal (lit ++ [quote])).tokens (doubleQuotes s ++ quote :: rest) := by
        simp [tokens_cons, step]
      simpa using hpair.trans (ih _)
    · have hone : (literal lit).tokens (c :: (doubleQuotes s ++ quote :: rest)) =
          (literal (lit ++ [c])).tokens (doubleQuotes s ++ quote :: rest) := by
        rw [tokens_cons]
        simp [step, hc]
      simpa [hc] using hone.trans (ih _)

theorem tokens_string (hrest : rest.head? ≠ some quote) :
    (between current).tokens (quote :: (doubleQuotes s ++ [quote]) ++ rest) =
      ((between []).tokens rest).map (flushToken current ++ [quote :: (s ++ [quote])] ++ ·) := by
  rw [List.cons_append, tokens_cons]
  have hspace : isSpace quote = false := by decide
  simp only [step, hspace, Bool.false_eq_true, if_false, if_true]
  rw [List.append_assoc, List.singleton_append, tokens_doubleQuotes [quote] hrest, Option.map_map]
  congr 1
  funext x
  simp

end LexState

end OneLexeme

section Slots

variable {l : Lexeme} {a b : Slot} {slots : List Slot} {current rest : Bytes} {c n : UInt8}

namespace Lexeme

theorem text_ne_nil : l.text ≠ [] := by
  cases l with
  | word text whole => exact (isWord_iff.mp whole).1
  | _ => simp [text]

theorem head?_text : l.text.head? = l.token.head? := by cases l <;> rfl

theorem token_ne_nil : l.token ≠ [] := by
  intro h
  exact text_ne_nil (List.head?_eq_none_iff.mp (by rw [head?_text, h]; rfl))

theorem token_of_isOperator (h : l.isOperator = true) :
    l.token.head? ≠ some quote ∧ l.token ≠ [point] ∧ endsInDigit l.token = false := by
  have hall : ∀ t ∈ operators, t.head? ≠ some quote ∧ t ≠ [point] ∧ endsInDigit t = false := by decide
  exact hall _ (by simpa [isOperator] using h)

end Lexeme

namespace Slot

theorem blank_kept (s : Slot) : ∀ c ∈ s.kept, isSpace c = true :=
  fun c hc => s.blank c (s.removed.subset hc)

theorem head?_squeezed (h : (a :: slots).IsChain fun a b => a.kept = [] → a.MayTouch b)
    (hn : (a.kept ++ squeezed slots).head? = some n) :
    isSpace n = true ∨ ∃ b, a.MayTouch b ∧ b.lexeme.text.head? = some n := by
  cases hk : a.kept with
  | cons c kept =>
    rw [hk] at hn
    obtain rfl : c = n := by simpa using hn
    exact .inl (a.blank_kept c (by simp [hk]))
  | nil =>
    cases slots with
    | nil => simp [hk, squeezed] at hn
    | cons b slots =>
      refine .inr ⟨b, (List.isChain_cons_cons.mp h).1 hk, ?_⟩
      obtain ⟨d, text, htext⟩ := List.exists_cons_of_ne_nil (Lexeme.text_ne_nil (l := b.lexeme))
      simpa [hk, squeezed, htext] using hn

theorem operatorAt_last (h : (a :: slots).IsChain fun a b => a.kept = [] → a.MayTouch b)
    (hc : a.lexeme.text.getLast? = some c) : operatorAt c (a.kept ++ squeezed slots).head? = none := by
  by_contra hop
  obtain ⟨hc', hnext⟩ := operatorAt_eq_some hop
  have hcb : isOperatorByte c = true := by rcases hc' with rfl | rfl | rfl <;> decide
  obtain ⟨n, hn, hnb, hns⟩ : ∃ n, (a.kept ++ squeezed slots).head? = some n ∧
      isOperatorByte n = true ∧ isSpace n = false := by
    rcases hnext with hn | hn
    · exact ⟨61, hn, by decide, by decide⟩
    · exact ⟨62, hn, by decide, by decide⟩
  rcases head?_squeezed h hn with hs | ⟨b, htouch, hb⟩
  · rw [hns] at hs
    cases hs
  · exact htouch.2 ⟨by simp [hc, hcb], by simp [hb, hnb]⟩

theorem head?_ne_quote (h : (a :: slots).IsChain fun a b => a.kept = [] → a.MayTouch b) {s : Bytes}
    (ha : a.lexeme = .string s) : (a.kept ++ squeezed slots).head? ≠ some quote := by
  intro hn
  rcases head?_squeezed h hn with hs | ⟨b, htouch, hb⟩
  · exact absurd hs (by decide)
  · rcases htouch.1 with hop | hop
    · exact (Lexeme.token_of_isOperator hop).1 (by rw [ha]; rfl)
    · exact (Lexeme.token_of_isOperator hop).1 (Lexeme.head?_text ▸ hb)

/-- The tokens of a text without the blanks that are left out, with the word that is being read. -/
def glued : Bytes → List Slot → List Token
  | current, [] => flushToken current
  | current, s :: slots =>
    if s.lexeme.isText then
      if s.kept = [] then glued (current ++ s.lexeme.token) slots
      else (current ++ s.lexeme.token) :: glued [] slots
    else flushToken current ++ s.lexeme.token :: glued [] slots

theorem tokens_squeezed (current : Bytes) (h : slots.IsChain fun a b => a.kept = [] → a.MayTouch b)
    (hcurrent : ∀ a ∈ slots.head?, ∀ single, a.lexeme = .mark point single → endsInDigit current = false) :
    (LexState.between current).tokens (squeezed slots) = some (glued current slots) := by
  induction slots generalizing current with
  | nil => rfl
  | cons a slots ih =>
    have hrest : (LexState.between []).tokens (a.kept ++ squeezed slots) = some (glued [] slots) := by
      rw [LexState.tokens_blanks a.blank_kept]
      exact ih [] h.tail fun _ _ _ _ => rfl
    have htext : squeezed (a :: slots) = a.lexeme.text ++ (a.kept ++ squeezed slots) := by
      simp [squeezed]
    rw [htext, glued]
    cases hl : a.lexeme with
    | word text whole =>
      obtain ⟨nonempty, hfrom⟩ := isWord_iff.mp whole
      have hlast : ∀ c, text.getLast? = some c → operatorAt c (a.kept ++ squeezed slots).head? = none :=
        fun c hc => operatorAt_last h (by rw [hl]; exact hc)
      have hword := LexState.tokens_wordFrom current hfrom hlast
      rw [List.append_nil, List.nil_append] at hword
      simp only [Lexeme.text, Lexeme.isText, Lexeme.token, if_true, hword]
      cases hk : a.kept with
      | nil =>
        refine ih _ h.tail fun b hb single hpoint => ?_
        cases slots with
        | nil => cases hb
        | cons b' slots =>
          obtain rfl : b' = b := by simpa using hb
          rcases ((List.isChain_cons_cons.mp h).1 hk).1 with hop | hop
          · have hdigit := (Lexeme.token_of_isOperator hop).2.2
            rw [hl] at hdigit
            rw [endsInDigit, List.getLast?_append_of_ne_nil _ nonempty]
            exact hdigit
          · exact absurd (by rw [hpoint]; rfl) (Lexeme.token_of_isOperator hop).2.1
      | cons c kept =>
        have hc : isSpace c = true := a.blank_kept c (by simp [hk])
        rw [hk, List.cons_append, LexState.tokens_blank hc] at hrest
        rw [List.cons_append, LexState.tokens_blank hc]
        simp [flushToken, nonempty] at hrest ⊢
        exact hrest
    | mark c single =>
      have hpoint : c = point → endsInDigit current = false := by
        rintro rfl
        exact hcurrent a rfl single hl
      simp only [Lexeme.text, Lexeme.isText, Lexeme.token, List.singleton_append,
        LexState.tokens_mark single hpoint, hrest]
      simp
    | comparison c n operator =>
      simp only [Lexeme.text, Lexeme.isText, Lexeme.token, List.cons_append, List.nil_append,
        LexState.tokens_comparison operator, hrest]
      simp
    | string s =>
      simp only [Lexeme.text, Lexeme.isText, Lexeme.token,
        LexState.tokens_string (head?_ne_quote h hl), hrest]
      simp

def Apart (a b : Slot) : Prop := a.kept = [] → ¬(a.lexeme.isText = true ∧ b.lexeme.isText = true)

theorem isChain_apart_cons : (a :: slots).IsChain Apart ↔
    (a.kept = [] → a.lexeme.isText = true → ∀ b ∈ slots.head?, b.lexeme.isText = false) ∧
      slots.IsChain Apart := by
  cases slots with
  | nil => simp
  | cons b slots => simp [List.isChain_cons_cons, Apart]

theorem length_glued_le (current : Bytes) (slots : List Slot) :
    (glued current slots).length ≤ (flushToken current).length + slots.length := by
  induction slots generalizing current with
  | nil => simp [glued]
  | cons a slots ih =>
    have hnil := ih []
    have hjoined := ih (current ++ a.lexeme.token)
    have hflush : ∀ w : Bytes, (flushToken w).length ≤ 1 := fun w => by rw [flushToken]; split_ifs <;> simp
    have hone := hflush (current ++ a.lexeme.token)
    rw [glued]
    split_ifs <;> simp [flushToken] at hnil ⊢ <;> omega

theorem glued_eq_iff (current : Bytes) (slots : List Slot) : glued current slots = flushToken current ++ slots.map (·.lexeme.token) ↔
    (current ≠ [] → ∀ a ∈ slots.head?, a.lexeme.isText = false) ∧ slots.IsChain Apart := by
  induction slots generalizing current with
  | nil => simp [glued]
  | cons a slots ih =>
    have hnil : glued [] slots = slots.map (·.lexeme.token) ↔ slots.IsChain Apart := by
      simpa [flushToken] using ih []
    rw [glued, isChain_apart_cons]
    cases hw : a.lexeme.isText with
    | false => simp [hw, hnil, flushToken]
    | true =>
      by_cases hcurrent : current = []
      · have hjoined : glued a.lexeme.token slots = a.lexeme.token :: slots.map (·.lexeme.token) ↔
            (∀ b ∈ slots.head?, b.lexeme.isText = false) ∧ slots.IsChain Apart := by
          simpa [flushToken, Lexeme.token_ne_nil] using ih a.lexeme.token
        by_cases hk : a.kept = []
        · simpa [hw, hk, hcurrent, flushToken] using hjoined
        · simp [hk, hcurrent, hnil, flushToken]
      · have hle := length_glued_le (current ++ a.lexeme.token) slots
        have hle' := length_glued_le [] slots
        simp only [flushToken, List.append_eq_nil_iff, hcurrent, false_and, if_false, if_true,
          List.length_singleton, List.length_nil] at hle hle'
        have hne : (if a.kept = [] then glued (current ++ a.lexeme.token) slots
            else (current ++ a.lexeme.token) :: glued [] slots) ≠
              current :: a.lexeme.token :: slots.map (·.lexeme.token) := by
          intro h
          have hlength := congrArg List.length h
          split_ifs at hlength <;> simp at hlength <;> omega
        simpa [hw, hcurrent, flushToken] using hne

theorem glued_nil_iff : glued [] slots = slots.map (·.lexeme.token) ↔ slots.IsChain Apart := by
  simpa [flushToken] using glued_eq_iff [] slots

theorem tokens_text (l : Lexeme) : (LexState.between []).tokens l.text = some [l.token] := by
  have htokens : (LexState.between []).tokens (squeezed [⟨l, [], [], by simp, .refl _⟩]) =
      some (glued [] [⟨l, [], [], by simp, .refl _⟩]) :=
    tokens_squeezed [] (by simp) fun _ _ _ _ => rfl
  rw [glued_nil_iff.mpr (by simp)] at htokens
  simpa [squeezed] using htokens

theorem tokens_spaced (h : slots.IsChain fun a _ => a.gap ≠ []) :
    (LexState.between []).tokens (spaced slots) = some (slots.map (·.lexeme.token)) := by
  induction slots with
  | nil => rfl
  | cons a slots ih =>
    have hrest : (LexState.between []).tokens (a.gap ++ spaced slots) =
        some (slots.map (·.lexeme.token)) := by
      rw [LexState.tokens_blanks a.blank]
      exact ih h.tail
    rw [show spaced (a :: slots) = a.lexeme.text ++ (a.gap ++ spaced slots) by simp [spaced],
      List.map_cons]
    cases hgap : a.gap with
    | nil =>
      cases slots with
      | nil => simpa [spaced] using tokens_text a.lexeme
      | cons b slots => exact absurd hgap (List.isChain_cons_cons.mp h).1
    | cons c gap =>
      have hc : isSpace c = true := a.blank c (by simp [hgap])
      rw [hgap, List.cons_append, LexState.tokens_blank hc] at hrest
      rw [List.cons_append, LexState.tokens_append_blank hc (tokens_text a.lexeme)]
      simpa [flushToken] using hrest

end Slot

def Lexeme.piece (l : Lexeme) : Piece := ⟨l.text, [l.token], Slot.tokens_text l⟩

/-- Blanks left out next to an operator leave the tokens as they are exactly when no two words come
together. -/
theorem tokenize_squeezed_iff {lead lead' : Bytes} (hlead : ∀ c ∈ lead, isSpace c = true)
    (hlead' : lead'.Sublist lead) (hspaced : slots.IsChain fun a _ => a.gap ≠ [])
    (htouch : slots.IsChain fun a b => a.kept = [] → a.MayTouch b) :
    tokenize (lead' ++ Slot.squeezed slots) = tokenize (lead ++ Slot.spaced slots) ↔
      slots.IsChain Slot.Apart := by
  have hsqueezed : tokenize (lead' ++ Slot.squeezed slots) = some (Slot.glued [] slots) := by
    rw [tokenize, LexState.tokens_blanks fun c hc => hlead c (hlead'.subset hc)]
    exact Slot.tokens_squeezed [] htouch fun _ _ _ _ => rfl
  have hall : tokenize (lead ++ Slot.spaced slots) = some (slots.map (·.lexeme.token)) := by
    rw [tokenize, LexState.tokens_blanks hlead, Slot.tokens_spaced hspaced]
  rw [hsqueezed, hall, Option.some.injEq, Slot.glued_nil_iff]

theorem blank_space : ∀ c ∈ [(32 : UInt8)], isSpace c = true := by simp [isSpace]

def Slot.closed (l : Lexeme) : Slot := ⟨l, [32], [], blank_space, List.nil_sublist _⟩

theorem isSingle_equals : isSingle 61 = true := rfl

/-- `x = 1`, to be written without its blanks. -/
def xEqualsOne : List Slot :=
  [.closed (.word [120] rfl), .closed (.mark 61 isSingle_equals),
    .closed (.word [49] rfl)]

theorem tokenize_xEqualsOne :
    tokenize ([] ++ Slot.squeezed xEqualsOne) = tokenize ([] ++ Slot.spaced xEqualsOne) := by
  refine (tokenize_squeezed_iff (by simp) (.refl _) ?_ ?_).mpr ?_
  · simp [xEqualsOne, List.isChain_cons_cons, Slot.closed]
  · simp [xEqualsOne, List.isChain_cons_cons, Slot.MayTouch, Slot.closed, Lexeme.isOperator,
      Lexeme.token, Lexeme.text, Lexeme.operators, isOperatorByte, ascii]
  · simp [xEqualsOne, List.isChain_cons_cons, Slot.Apart, Slot.closed, Lexeme.isText]

/-- A name that touches `<` is one word with it. -/
theorem tokenize_less_joined :
    tokenize (ascii "a < b") = some [ascii "a", ascii "<", ascii "b"] ∧
      tokenize (ascii "a<b") = some [ascii "a<b"] := by
  decide

end Slots

end CoroDB
