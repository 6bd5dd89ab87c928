import WhenLoop.Token.Basic

/-!
# Lexical faults

What can be wrong with a piece of text that should be a token.  A fault does not end
the scan, so a text can have many.
-/

namespace WhenLoop

/-- A piece of text that is not a token. -/
inductive LexFault where
  /-- The text ends where a character has to follow. -/
  | unexpectedEnd
  /-- No token starts with this character. -/
  | unexpectedChar (at_ : Position) (got : Char)
  /-- A character has to be followed by another one than it is.  The position is that of
  the second one. -/
  | expectedChar (at_ : Position) (expected got : Char)
  /-- A block comment that starts here is never closed. -/
  | unterminatedComment (at_ : Position)
deriving DecidableEq, Repr, Inhabited

namespace LexFault

/-- Where the fault is, if it is anywhere. -/
def position? : LexFault → Option Position
  | unexpectedEnd => none
  | unexpectedChar p _ => some p
  | expectedChar p _ _ => some p
  | unterminatedComment p => some p

/-- The fault in words. -/
def message : LexFault → String
  | unexpectedEnd => "Unexpected EOF"
  | unexpectedChar _ got => "Unexpected character '" ++ got.toString ++ "'"
  | expectedChar _ expected got =>
      "Unexpected character; expected '" ++ expected.toString ++ "', got '"
        ++ got.toString ++ "'"
  | unterminatedComment _ => "Unterminated block comment"

end LexFault

/-- What one scanning step finds: a token or a fault. -/
inductive Item where
  | token (token : Token)
  | fault (fault : LexFault)
deriving DecidableEq, Repr, Inhabited

end WhenLoop
