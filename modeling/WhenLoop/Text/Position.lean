/-!
# Positions

A position is a line and a column, both counted from one.  A column counts characters
and not bytes.  Only a line feed ends a line, so a carriage return takes a column like
any other character.

Both counters are 32-bit words.  They are exact for every text of fewer than
`2 ^ 31 - 1` characters.
-/

namespace WhenLoop

/-- A place in a text. -/
structure Position where
  /-- The line, counted from one. -/
  line : Int32
  /-- The column in the line, counted from one. -/
  column : Int32
deriving DecidableEq, Repr, Inhabited

namespace Position

/-- The place before the first character. -/
def start : Position := ⟨1, 1⟩

/-- The place behind one more character. -/
def next (p : Position) (c : Char) : Position :=
  if c = '\n' then ⟨p.line + 1, 1⟩ else ⟨p.line, p.column + 1⟩

/-- The place behind a piece of text. -/
def after (p : Position) (text : List Char) : Position :=
  text.foldl next p

@[simp]
theorem after_nil (p : Position) : p.after [] = p := rfl

@[simp]
theorem after_cons (p : Position) (c : Char) (text : List Char) :
    p.after (c :: text) = (p.next c).after text := rfl

theorem after_append (p : Position) (text more : List Char) :
    p.after (text ++ more) = (p.after text).after more :=
  List.foldl_append ..

/-- `line:column`, as reports write it. -/
def render (p : Position) : String :=
  p.line.toInt.repr ++ ":" ++ p.column.toInt.repr

end Position

example : Position.start.after "ab\n c".toList = ⟨2, 3⟩ := by decide

end WhenLoop
