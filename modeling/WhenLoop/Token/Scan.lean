import WhenLoop.Text.CharClass
import WhenLoop.Token.Comment
import WhenLoop.Token.Fault

/-!
# Scanning

Scanning cuts a text into pieces from left to right.  `cut` finds the first piece of a
text that is not empty.  Every piece is as long as it can be, and it is one of three
things.

* A gap: a run of blanks, a line comment, or a closed block comment.  The line feed
  behind a line comment is no part of it.
* A token.
* A fault: a character that starts no token, a `&` or `|` that stands alone, or a block
  comment that is never closed.  Such a comment takes the rest of the text.

A piece together with what follows it is the whole text (`cut_text_append_rest`), and
no piece is empty (`cut_text_ne_nil`).  So every step shortens the text, and this is the
measure by which the loops here end.

A `Cursor` is a place in a text.  `Cursor.next` passes over gaps to the next item, and
at the end of the text it stays and gives the end token.  `scan` collects the items of a
whole text.  A fault is an item like a token, so the scan goes on behind it.
-/

namespace WhenLoop

/-! ## Pieces -/

/-- What a piece of text is. -/
inductive Piece where
  /-- Blanks or a comment. -/
  | gap
  /-- A token of the given kind. -/
  | token (kind : TokenKind)
  /-- A character with which no token starts. -/
  | unexpected (got : Char)
  /-- A character that another one than `got` has to follow. -/
  | expected (wanted got : Char)
  /-- A block comment that is never closed. -/
  | unclosed
deriving DecidableEq, Repr

/-- The item of a piece with the given text that starts at `p`.  A gap has none. -/
def Piece.item? (p : Position) (text : List Char) : Piece → Option Item
  | gap => none
  | token kind => some (.token ⟨kind, String.ofList text, p, p.after text⟩)
  | unexpected got => some (.fault (.unexpectedChar p got))
  | expected wanted got => some (.fault (.expectedChar (p.after text) wanted got))
  | unclosed => some (.fault (.unterminatedComment p))

/-- A text cut in two behind its first piece. -/
structure Cut where
  /-- What the first piece is. -/
  piece : Piece
  /-- The first piece. -/
  text : List Char
  /-- What follows it. -/
  rest : List Char
deriving DecidableEq, Repr

namespace Cut

/-- A piece of one character. -/
def single (piece : Piece) (c : Char) (cs : List Char) : Cut :=
  ⟨piece, [c], cs⟩

/-- A character and all that follow it in the class `p`. -/
def run (p : Char → Bool) (piece : List Char → Piece) (c : Char) (cs : List Char) : Cut :=
  ⟨piece (c :: cs.takeWhile p), c :: cs.takeWhile p, cs.dropWhile p⟩

/-- A mark that means something else with an equality sign behind it. -/
def withEqual (alone joined : TokenKind) (c : Char) : List Char → Cut
  | '=' :: cs => ⟨.token joined, [c, '='], cs⟩
  | cs => ⟨.token alone, [c], cs⟩

/-- A mark that is written twice. -/
def doubled (kind : TokenKind) (c : Char) : List Char → Cut
  | [] => ⟨.unexpected c, [c], []⟩
  | d :: cs => if d = c then ⟨.token kind, [c, d], cs⟩ else ⟨.expected c d, [c], d :: cs⟩

/-- A slash: a comment of either sort, or the division sign. -/
def slash : List Char → Cut
  | '/' :: cs => ⟨.gap, '/' :: '/' :: cs.takeWhile (· != '\n'), cs.dropWhile (· != '\n')⟩
  | '*' :: cs =>
      match afterComment? 1 cs with
      | some rest => ⟨.gap, '/' :: '*' :: cs.take (cs.length - rest.length), rest⟩
      | none => ⟨.unclosed, '/' :: '*' :: cs, []⟩
  | cs => ⟨.token .slash, ['/'], cs⟩

/-- The pieces that start with neither a blank nor a letter nor a digit. -/
def symbol (c : Char) (cs : List Char) : Cut :=
  match c with
  | '(' => single (.token .openParen) c cs
  | ')' => single (.token .closeParen) c cs
  | '\x7b' => single (.token .openBrace) c cs
  | '\x7d' => single (.token .closeBrace) c cs
  | ';' => single (.token .semicolon) c cs
  | '!' => single (.token .not) c cs
  | '+' => single (.token .plus) c cs
  | '-' => single (.token .minus) c cs
  | '*' => single (.token .star) c cs
  | '%' => single (.token .percent) c cs
  | '=' => withEqual .assign .equal c cs
  | '<' => withEqual .less .lessEqual c cs
  | '>' => withEqual .greater .greaterEqual c cs
  | '&' => doubled .and c cs
  | '|' => doubled .or c cs
  | '/' => slash cs
  | _ => single (.unexpected c) c cs

end Cut

/-- The first piece of the text `c :: cs`. -/
def cut (c : Char) (cs : List Char) : Cut :=
  if isBlank c then .run isBlank (fun _ => .gap) c cs
  else if c.isDigit then .run Char.isDigit (fun _ => .token .number) c cs
  else if isLetter c then
    .run isNameChar (fun word => .token (.ofWord (String.ofList word))) c cs
  else .symbol c cs

/-! ## A cut loses nothing and takes something -/

namespace Cut

/-- The cut is one of the text `text`: its two parts make up `text`, and the first is not
empty. -/
def Splits (k : Cut) (text : List Char) : Prop :=
  k.text ++ k.rest = text ∧ k.text ≠ []

theorem single_splits (piece : Piece) (c : Char) (cs : List Char) :
    (single piece c cs).Splits (c :: cs) := by
  simp [Splits, single]

theorem run_splits (p : Char → Bool) (piece : List Char → Piece) (c : Char) (cs : List Char) :
    (run p piece c cs).Splits (c :: cs) := by
  simp [Splits, run]

theorem withEqual_splits (alone joined : TokenKind) (c : Char) (cs : List Char) :
    (withEqual alone joined c cs).Splits (c :: cs) := by
  unfold withEqual
  split <;> simp [Splits]

theorem doubled_splits (kind : TokenKind) (c : Char) (cs : List Char) :
    (doubled kind c cs).Splits (c :: cs) := by
  unfold doubled
  split
  · simp [Splits]
  · split <;> simp [Splits]

/-- One case for each character that may follow. -/
theorem slash_splits (cs : List Char) : (slash cs).Splits ('/' :: cs) := by
  unfold slash
  split
  · simp [Splits]
  · rename_i cs
    split
    · rename_i rest h
      obtain ⟨body, rfl⟩ := suffix_of_afterComment? h
      simp [Splits]
    · simp [Splits]
  · simp [Splits]

theorem symbol_splits (c : Char) (cs : List Char) : (symbol c cs).Splits (c :: cs) := by
  unfold symbol
  split <;> simp only [single_splits, withEqual_splits, doubled_splits, slash_splits]

end Cut

/-- What is cut off and what is left are the text. -/
theorem cut_splits (c : Char) (cs : List Char) : (cut c cs).Splits (c :: cs) := by
  rw [cut]
  split
  · exact Cut.run_splits ..
  · split
    · exact Cut.run_splits ..
    · split
      · exact Cut.run_splits ..
      · exact Cut.symbol_splits ..

/-- The first piece and what follows it are the whole text. -/
theorem cut_text_append_rest (c : Char) (cs : List Char) :
    (cut c cs).text ++ (cut c cs).rest = c :: cs :=
  (cut_splits c cs).1

/-- The first piece is not empty. -/
theorem cut_text_ne_nil (c : Char) (cs : List Char) : (cut c cs).text ≠ [] :=
  (cut_splits c cs).2

/-- What follows the first piece is shorter than the text. -/
theorem length_cut_rest_lt (c : Char) (cs : List Char) :
    (cut c cs).rest.length < (c :: cs).length := by
  have split := congrArg List.length (cut_text_append_rest c cs)
  have taken := List.length_pos_iff.mpr (cut_text_ne_nil c cs)
  rw [List.length_append] at split
  omega

/-! ## The cursor -/

/-- A place in a text. -/
structure Cursor where
  /-- The text that is still to be read. -/
  rest : List Char
  /-- The position before it. -/
  pos : Position
deriving DecidableEq, Repr

/-- The place before a source. -/
def Cursor.ofSource (source : String) : Cursor := ⟨source.toList, .start⟩

/-- The next item of a text that starts at `p`, and the place behind it. -/
def nextItem (p : Position) : List Char → Item × Cursor
  | [] => (.token (.endAt p), ⟨[], p⟩)
  | c :: cs =>
      match (cut c cs).piece.item? p (cut c cs).text with
      | some item => (item, ⟨(cut c cs).rest, p.after (cut c cs).text⟩)
      | none => nextItem (p.after (cut c cs).text) (cut c cs).rest
termination_by text => text.length
decreasing_by exact length_cut_rest_lt c cs

namespace Cursor

/-- The next item at a place, and the place behind it. -/
def next (cursor : Cursor) : Item × Cursor :=
  nextItem cursor.pos cursor.rest

/-- A step gives the end token at the end of the text, or it shortens the text. -/
theorem next_shortens (cursor : Cursor) :
    (∃ p, cursor.next = (.token (.endAt p), ⟨[], p⟩)) ∨
      cursor.next.2.rest.length < cursor.rest.length := by
  obtain ⟨rest, pos⟩ := cursor
  rw [next]
  fun_induction nextItem pos rest with
  | case1 p => exact .inl ⟨p, rfl⟩
  | case2 p c cs item h => exact .inr (length_cut_rest_lt c cs)
  | case3 p c cs h ih =>
      exact ih.imp_right fun shorter => Nat.lt_trans shorter (length_cut_rest_lt c cs)

end Cursor

/-! ## The items of a text -/

/-- The items of a source and the end token behind them. -/
structure Scan where
  /-- Tokens and faults in the order of the text. -/
  items : List Item
  /-- The end token. -/
  finish : Token
deriving DecidableEq, Repr

/-- The items from a place on, behind those found before it. -/
def scanFrom (found : Array Item) (cursor : Cursor) : Scan :=
  match _ : cursor.next with
  | (.fault fault, after) => scanFrom (found.push (.fault fault)) after
  | (.token token, after) =>
      if token.kind = .endOfInput then ⟨found.toList, token⟩
      else scanFrom (found.push (.token token)) after
termination_by cursor.rest.length
decreasing_by
  · rename_i next
    simpa [next] using cursor.next_shortens
  · rename_i next notEnd
    have step := cursor.next_shortens
    rw [next] at step
    rcases step with ⟨p, same⟩ | shorter
    · cases same
      exact absurd rfl notEnd
    · exact shorter

/-- The items of a source. -/
def scan (source : String) : Scan :=
  scanFrom #[] (.ofSource source)

example : (scan "x <= 10; /* a */ y && $").items.length = 7 := by decide +kernel

end WhenLoop
