import CoroDB.Sql.Tokenizer

/-!
# Parameters of a prepared statement

`EXECUTE` writes its parameters into the prepared text as text, and the result is parsed anew.
-/

namespace CoroDB

open Ascii

section Splice

variable (doubleText : Double → Bytes)

/-- The text that stands for a parameter; a string is put between quotes as it is. -/
def literalText : Value → Bytes
  | .null => ascii "NULL"
  | .int i => intText i
  | .double d => doubleText d
  | .text s => quote :: (s ++ [quote])

/-- The text that `EXECUTE` parses: every `?` byte is replaced by the next parameter. -/
def splice : Bytes → List Value → Option Bytes
  | [], _ => some []
  | c :: rest, params =>
    if c = placeholder then
      match params with
      | [] => none
      | p :: params => (splice rest params).map (literalText doubleText p ++ ·)
    else (splice rest params).map (c :: ·)

end Splice

end CoroDB
