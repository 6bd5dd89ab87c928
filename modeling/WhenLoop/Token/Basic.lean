import WhenLoop.Text.Position

/-!
# Tokens

A token is a kind, the text it was read from, and the positions before and behind that
text.  Seven words are reserved.  Three of them, `and`, `or` and `not`, are other
spellings of `&&`, `||` and `!`, so a token's kind does not determine its text.

Two kinds never come from a piece of text.  `endOfInput` stands behind the last
character.  `placeholder` stands for the token before the first one.
-/

namespace WhenLoop

/-- What a token is. -/
inductive TokenKind where
  | placeholder
  | openParen | closeParen
  | openBrace | closeBrace
  | semicolon
  | assign | equal
  | greater | greaterEqual
  | less | lessEqual
  | plus | minus
  | star | slash | percent
  | and | or | not
  | name
  | number
  | when | otherwise
  | loop
  | out
  | endOfInput
deriving DecidableEq, Repr, Inhabited

/-- The reserved words. -/
def keywords : List (String × TokenKind) :=
  [("when", .when), ("else", .otherwise), ("loop", .loop), ("out", .out),
   ("and", .and), ("or", .or), ("not", .not)]

/-- The kind of a word: reserved or a name. -/
def TokenKind.ofWord (word : String) : TokenKind :=
  (keywords.lookup word).getD .name

/-- A piece of the source with its kind and its place. -/
structure Token where
  /-- What the token is. -/
  kind : TokenKind
  /-- The text it was read from. -/
  text : String
  /-- The position before the text. -/
  start : Position
  /-- The position behind the text. -/
  stop : Position
deriving DecidableEq, Repr, Inhabited

namespace Token

/-- The token that stands before the first one. -/
def placeholder : Token := ⟨.placeholder, "", .start, .start⟩

/-- The token behind the last character, at position `p`. -/
def endAt (p : Position) : Token := ⟨.endOfInput, "", p, p⟩

/-- A token as messages show it: its text in quotes, or a word for the two kinds that
have no text. -/
def render (t : Token) : String :=
  match t.kind with
  | .placeholder => "None"
  | .endOfInput => "Eof"
  | _ => "'" ++ t.text ++ "'"

end Token

example : TokenKind.ofWord "else" = .otherwise ∧ TokenKind.ofWord "Else" = .name := by decide

end WhenLoop
