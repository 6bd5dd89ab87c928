import WhenLoop.Token.Scan

/-!
# The lexical grammar

The lexical grammar says which texts are gaps and which are tokens, and what is wrong with
a text that is neither.  It says nothing of how a text is cut into pieces.

A *gap* is made of blanks, line comments and closed block comments.  A line comment ends
with a line feed, and only at the end of a source it may lack it.  A block comment is `/*`,
then nested comments and characters at which no delimiter starts, then `*/`.

A *lexeme* is a text that a token can have.  It is *maximal* in front of a text if that text
does not go on with a character that would belong to it.  The sign `/` is maximal only if it
does not start a comment.

`Reading read rest items` says that behind the text `read` the text `rest` is made of gaps
and the texts of the items in turn.  Each token has the positions before and behind its own
text.  A fault has the position before its text, but where a second `&` or `|` is missing it
has the position of what stands in its place.  Positions are counts of line feeds and of
characters (`Position.behind`).

A text without faults is told by its words alone.  A *word* is a token without its place, and
`Spells text words` is a reading without places.
-/

namespace WhenLoop

/-- The place behind a text that starts a source: one more than the line feeds in it, and one
more than the characters behind the last of them. -/
def Position.behind (read : List Char) : Position where
  line := Int32.ofNat (1 + read.count '\n')
  column := Int32.ofNat (1 + (read.reverse.takeWhile (· != '\n')).length)

namespace Lexical

/-! ## Gaps -/

/-- Whether a delimiter of block comments starts the text. -/
def startsDelimiter : List Char → Bool
  | '/' :: '*' :: _ => true
  | '*' :: '/' :: _ => true
  | _ => false

/-- What follows the first delimiter of a closed block comment. -/
inductive CommentTail : List Char → Prop where
  | close : CommentTail ['*', '/']
  | nested {inner text : List Char} :
      CommentTail inner → CommentTail text → CommentTail ('/' :: '*' :: inner ++ text)
  | char {c : Char} {text : List Char} :
      startsDelimiter (c :: text) = false → CommentTail text → CommentTail (c :: text)

/-- Blanks and comments. -/
inductive Gap : List Char → Prop where
  | nil : Gap []
  | blank {c : Char} {text : List Char} : isBlank c = true → Gap text → Gap (c :: text)
  | line {body text : List Char} :
      '\n' ∉ body → Gap text → Gap ('/' :: '/' :: body ++ '\n' :: text)
  | block {tail text : List Char} :
      CommentTail tail → Gap text → Gap ('/' :: '*' :: tail ++ text)

/-- A gap at the end of a source. -/
inductive LastGap : List Char → Prop where
  | closed {gap : List Char} : Gap gap → LastGap gap
  | line {gap body : List Char} :
      Gap gap → '\n' ∉ body → LastGap (gap ++ '/' :: '/' :: body)

/-- By induction on the first gap: each blank or comment of it stands before the second. -/
theorem Gap.append {gap text : List Char} (h : Gap gap) (h' : Gap text) : Gap (gap ++ text) := by
  induction h with
  | nil => exact h'
  | blank blank _ ih => exact .blank blank ih
  | line body _ ih =>
      rw [List.append_assoc]
      exact .line body ih
  | block tail _ ih =>
      rw [List.append_assoc]
      exact .block tail ih

/-- A gap before the last gap is part of it. -/
theorem Gap.append_last {gap text : List Char} (h : Gap gap) (h' : LastGap text) :
    LastGap (gap ++ text) := by
  cases h' with
  | closed more => exact .closed (h.append more)
  | line more body =>
      rw [← List.append_assoc]
      exact .line (h.append more) body

/-- With a line feed behind it the last gap of a source is a gap. -/
theorem LastGap.newline {gap : List Char} (h : LastGap gap) : Gap (gap ++ ['\n']) := by
  have feed : isBlank '\n' = true := by decide
  cases h with
  | closed gap => exact gap.append (.blank feed .nil)
  | line gap body =>
      rw [List.append_assoc]
      exact gap.append (.line body .nil)

/-! ## Lexemes -/

/-- The spellings of the kinds that have no more than two. -/
def spellings : TokenKind → List String
  | .openParen => ["("]
  | .closeParen => [")"]
  | .openBrace => ["\x7b"]
  | .closeBrace => ["\x7d"]
  | .semicolon => [";"]
  | .assign => ["="]
  | .equal => ["=="]
  | .greater => [">"]
  | .greaterEqual => [">="]
  | .less => ["<"]
  | .lessEqual => ["<="]
  | .plus => ["+"]
  | .minus => ["-"]
  | .star => ["*"]
  | .slash => ["/"]
  | .percent => ["%"]
  | .and => ["&&", "and"]
  | .or => ["||", "or"]
  | .not => ["!", "not"]
  | .when => ["when"]
  | .otherwise => ["else"]
  | .loop => ["loop"]
  | .out => ["out"]
  | .name | .number | .placeholder | .endOfInput => []

/-- A text that a token of the kind can have. -/
inductive Lexeme : TokenKind → List Char → Prop where
  | fixed {kind : TokenKind} {text : String} : text ∈ spellings kind → Lexeme kind text.toList
  | number {c : Char} {cs : List Char} :
      c.isDigit = true → (∀ d ∈ cs, d.isDigit = true) → Lexeme .number (c :: cs)
  | name {c : Char} {cs : List Char} :
      isLetter c = true → (∀ d ∈ cs, isNameChar d = true) →
      String.ofList (c :: cs) ∉ keywords.map Prod.fst → Lexeme .name (c :: cs)

/-- Whether the character would belong to the token that has the text before it. -/
def prolongs : (text : List Char) → Char → Bool
  | [], _ => false
  | first :: more, c =>
      if first.isDigit then c.isDigit
      else if isLetter first then isNameChar c
      else match first, more with
        | '=', [] | '<', [] | '>', [] => c == '='
        | '/', [] => c == '/' || c == '*'
        | _, _ => false

/-- A token with the text `text` ends in front of `after`. -/
def Maximal (text after : List Char) : Prop :=
  ∀ c ∈ after.head?, prolongs text c = false

/-! ## Items -/

/-- The characters other than blanks, letters and digits with which a gap or a token starts. -/
def marks : List Char :=
  ['(', ')', '\x7b', '\x7d', ';', '!', '+', '-', '*', '%', '=', '<', '>', '&', '|', '/']

/-- No gap and no token starts with the character. -/
def StartsNothing (c : Char) : Prop :=
  isBlank c = false ∧ c.isDigit = false ∧ isLetter c = false ∧ c ∉ marks

/-- A mark that is written twice. -/
def Paired (c : Char) : Prop := c = '&' ∨ c = '|'

/-- `Describes read text after item`: behind `read` and in front of `after`, the text `text`
is the text of the item. -/
inductive Describes (read : List Char) : (text after : List Char) → Item → Prop where
  | token {kind : TokenKind} {text after : List Char} :
      Lexeme kind text → Maximal text after →
      Describes read text after
        (.token ⟨kind, String.ofList text, .behind read, .behind (read ++ text)⟩)
  | unexpected {c : Char} {after : List Char} :
      StartsNothing c →
      Describes read [c] after (.fault (.unexpectedChar (.behind read) c))
  | single {c d : Char} {after : List Char} :
      Paired c → d ≠ c →
      Describes read [c] (d :: after) (.fault (.expectedChar (.behind (read ++ [c])) c d))
  | singleLast {c : Char} :
      Paired c →
      Describes read [c] [] (.fault (.unexpectedChar (.behind read) c))
  | unclosed {body : List Char} :
      (∀ tail rest, CommentTail tail → body ≠ tail ++ rest) →
      Describes read ('/' :: '*' :: body) [] (.fault (.unterminatedComment (.behind read)))

/-- `Reading read rest items`: behind `read`, the text `rest` is made of gaps and the texts of
the items in turn. -/
inductive Reading : (read rest : List Char) → List Item → Prop where
  | done {read gap : List Char} : LastGap gap → Reading read gap []
  | item {read gap text after : List Char} {item : Item} {items : List Item} :
      Gap gap → Describes (read ++ gap) text after item →
      Reading (read ++ gap ++ text) after items →
      Reading read (gap ++ text ++ after) (item :: items)

/-- A gap may be read before anything else. -/
theorem Reading.skip {read gap rest : List Char} {items : List Item} (h : Gap gap)
    (h' : Reading (read ++ gap) rest items) : Reading read (gap ++ rest) items := by
  cases h' with
  | done last => exact .done (h.append_last last)
  | item more described behind =>
      rw [List.append_assoc read] at described behind
      rw [← List.append_assoc, ← List.append_assoc]
      exact .item (h.append more) described behind

end Lexical

/-! ## Words -/

/-- A token without its place. -/
structure Word where
  /-- What the token is. -/
  kind : TokenKind
  /-- Its text. -/
  text : String
deriving DecidableEq, Repr

/-- The word of a token. -/
def Token.word (t : Token) : Word := ⟨t.kind, t.text⟩

namespace Lexical

/-- `Spells text words`: the text is made of gaps and the words in turn. -/
inductive Spells : (text : List Char) → List Word → Prop where
  | done {gap : List Char} : LastGap gap → Spells gap []
  | word {gap after : List Char} {word : Word} {words : List Word} :
      Gap gap → Lexeme word.kind word.text.toList → Maximal word.text.toList after →
      Spells after words → Spells (gap ++ word.text.toList ++ after) (word :: words)

/-- A gap may stand before the words. -/
theorem Spells.skip {gap text : List Char} {words : List Word} (h : Gap gap)
    (h' : Spells text words) : Spells (gap ++ text) words := by
  cases h' with
  | done last => exact .done (h.append_last last)
  | word more lexeme maximal behind =>
      rw [← List.append_assoc, ← List.append_assoc]
      exact .word (h.append more) lexeme maximal behind

end Lexical

end WhenLoop
