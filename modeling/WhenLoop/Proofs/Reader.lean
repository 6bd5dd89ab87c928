import WhenLoop.Proofs.Scanning

/-!
# Reading one character at a time

A scanning step cuts a whole piece off a text.  It can also be taken one character at a time, with
no more of the text in sight than the next character.  A `Reader` does this.  It goes over the
characters of a source once and holds the one that it looked at and did not take yet.  It counts
the bytes that it took, and it cuts the text of a token out of the source between two such counts.
There is no such text if the counts do not lie between characters, or not in order, and then
`Reader.scan` has no result.

All operations of a reader are of one kind: they take some text, and possibly look at what comes
next (`Reader.Takes`).  The measure by which the loops here end is what is not taken yet.
-/

namespace WhenLoop

open Lexical

/-! ## Texts between byte offsets -/

/-- The text of a source between two byte offsets.  There is none unless both are between
characters and in order. -/
def textBetween? (source : String) (start stop : String.Pos.Raw) : Option String :=
  if h : start.IsValid source ∧ stop.IsValid source ∧ start ≤ stop then
    some (source.slice ⟨start, h.1⟩ ⟨stop, h.2.1⟩ h.2.2).copy
  else none

theorem isValid_rawEndPos (before after : String) :
    before.rawEndPos.IsValid (before ++ after) :=
  String.Pos.Raw.isValid_rawEndPos.append_right after

/-- The text between two offsets that are between characters is cut out. -/
theorem textBetween?_append (before text after : String) :
    textBetween? (before ++ text ++ after) before.rawEndPos (before ++ text).rawEndPos =
      some text := by
  have start : before.rawEndPos.IsValid (before ++ text ++ after) := by
    rw [String.append_assoc]
    exact isValid_rawEndPos before (text ++ after)
  have stop := isValid_rawEndPos (before ++ text) after
  obtain ⟨le, copy⟩ := (@String.copy_slice_eq_iff_splits text _ ⟨_, start⟩ ⟨_, stop⟩).mpr
    ⟨before, after, ⟨String.append_assoc .., rfl⟩, ⟨rfl, rfl⟩⟩
  rw [textBetween?, dif_pos ⟨start, stop, le⟩, copy]

/-! ## The reader -/

/-- A reader of a source. -/
structure Reader where
  /-- The source. -/
  source : String
  /-- The characters that it has not come to yet. -/
  left : List Char
  /-- The character that it looked at and did not take. -/
  held : Option Char
  /-- How many bytes it had taken where the current item starts. -/
  startIndex : String.Pos.Raw
  /-- How many bytes it has taken. -/
  index : String.Pos.Raw
  /-- The position where the current item starts. -/
  startPos : Position
  /-- The position behind what it has taken. -/
  pos : Position
deriving DecidableEq, Repr

namespace Reader

/-- The reader before a source. -/
def ofSource (source : String) : Reader := ⟨source, source.toList, none, 0, 0, .start, .start⟩

/-- What is not taken yet. -/
def ahead (r : Reader) : List Char := r.held.toList ++ r.left

/-- The place of the reader in the source. -/
def cursor (r : Reader) : Cursor := ⟨r.ahead, r.pos⟩

/-- Look at the next character. -/
def peek (r : Reader) : Option Char × Reader :=
  match r.held with
  | some c => (some c, r)
  | none =>
      match r.left with
      | [] => (none, r)
      | c :: left => (some c, { r with held := some c, left := left })

/-- Count a character that is taken. -/
def count (c : Char) (r : Reader) : Reader := { r with index := r.index + c, pos := r.pos.next c }

/-- Take the next character. -/
def take (r : Reader) : Option Char × Reader :=
  match r.held with
  | some c => (some c, { r with held := none }.count c)
  | none =>
      match r.left with
      | [] => (none, r)
      | c :: left => (some c, { r with left := left }.count c)

/-- An item starts here. -/
def mark (r : Reader) : Reader := { r with startIndex := r.index, startPos := r.pos }

/-! ## Taking text -/

/-- The second reader is the first one after the text was taken.  It may have looked at what
comes next. -/
structure Takes (r : Reader) (text : List Char) (r' : Reader) : Prop where
  ahead : r.ahead = text ++ r'.ahead
  source : r'.source = r.source
  index : r'.index = r.index + String.ofList text
  pos : r'.pos = r.pos.after text
  startIndex : r'.startIndex = r.startIndex
  startPos : r'.startPos = r.startPos

namespace Takes

variable {r r' r'' : Reader} {text more : List Char}

theorem refl (r : Reader) : r.Takes [] r where
  ahead := rfl
  source := rfl
  index := by simp [String.Pos.Raw.ext_iff]
  pos := rfl
  startIndex := rfl
  startPos := rfl

/-- What is taken in two steps is taken one behind the other. -/
theorem trans (h : r.Takes text r') (h' : r'.Takes more r'') : r.Takes (text ++ more) r'' where
  ahead := by rw [h.ahead, h'.ahead, List.append_assoc]
  source := h'.source.trans h.source
  index := by
    rw [h'.index, h.index]
    simp [String.Pos.Raw.ext_iff, Nat.add_assoc]
  pos := by rw [h'.pos, h.pos, Position.after_append]
  startIndex := h'.startIndex.trans h.startIndex
  startPos := h'.startPos.trans h.startPos

theorem length_eq (h : r.Takes text r') : r.ahead.length = text.length + r'.ahead.length := by
  rw [h.ahead, List.length_append]

end Takes

/-- A look gives the next character and takes none. -/
theorem peek_takes (r : Reader) : r.peek.1 = r.ahead.head? ∧ r.Takes [] r.peek.2 := by
  rw [peek]
  cases held : r.held with
  | some c => exact ⟨by simp [ahead, held], .refl r⟩
  | none =>
      cases left : r.left with
      | nil => exact ⟨by simp [ahead, held, left], .refl r⟩
      | cons c left' =>
          refine ⟨by simp [ahead, held, left], ?_⟩
          have same := Takes.refl r
          exact { same with ahead := by simp [ahead, held, left] }

theorem ahead_eq_nil {r : Reader} : r.ahead = [] ↔ r.held = none ∧ r.left = [] := by
  rw [ahead, List.append_eq_nil_iff, Option.toList_eq_nil_iff]

theorem peek_nil {r : Reader} (h : r.ahead = []) : r.peek = (none, r) := by
  obtain ⟨held, left⟩ := ahead_eq_nil.mp h
  simp [peek, held, left]

theorem take_nil {r : Reader} (h : r.ahead = []) : r.take = (none, r) := by
  obtain ⟨held, left⟩ := ahead_eq_nil.mp h
  simp [take, held, left]

/-- The next character is taken, whether it was looked at before or not. -/
theorem take_cons {r : Reader} {c : Char} {cs : List Char} (h : r.ahead = c :: cs) :
    r.take.1 = some c ∧ r.Takes [c] r.take.2 := by
  have index : r.index + c = r.index + String.ofList [c] := by
    simp [String.Pos.Raw.ext_iff]
  rw [take]
  cases held : r.held with
  | some d =>
      obtain ⟨rfl, rest⟩ : d = c ∧ r.left = cs := by simpa [ahead, held] using h
      exact ⟨rfl, ⟨by simp [ahead, count, held], rfl, index, rfl, rfl, rfl⟩⟩
  | none =>
      cases left : r.left with
      | nil => simp [ahead, held, left] at h
      | cons d left' =>
          obtain ⟨rfl, rest⟩ : d = c ∧ left' = cs := by simpa [ahead, held, left] using h
          exact ⟨rfl, ⟨by simp [ahead, count, held, left], rfl, index, rfl, rfl, rfl⟩⟩

section Peek

variable {r r' : Reader} {c : Char}

theorem peek_eq_none (h : r.peek = (none, r')) : r.ahead = [] ∧ r' = r := by
  have nothing : r.ahead = [] := by
    have next := r.peek_takes.1
    rw [h] at next
    exact List.head?_eq_none_iff.mp next.symm
  rw [peek_nil nothing] at h
  exact ⟨nothing, (Prod.mk.inj h).2.symm⟩

theorem peek_eq_some (h : r.peek = (some c, r')) :
    r.Takes [] r' ∧ ∃ cs, r.ahead = c :: cs := by
  have looked := r.peek_takes
  rw [h] at looked
  exact ⟨looked.2, List.head?_eq_some_iff.mp looked.1.symm⟩

/-- The character that was looked at is the one that is taken. -/
theorem take_peeked (h : r.peek = (some c, r')) :
    r'.take.1 = some c ∧ r.Takes [c] r'.take.2 := by
  obtain ⟨looked, cs, next⟩ := peek_eq_some h
  obtain ⟨same, taken⟩ := take_cons (looked.ahead.symm.trans next)
  exact ⟨same, looked.trans taken⟩

theorem length_take_peeked (h : r.peek = (some c, r')) :
    r'.take.2.ahead.length < r.ahead.length := by
  rw [(take_peeked h).2.length_eq]
  exact Nat.lt_add_of_pos_left Nat.one_pos

theorem take_eq_none (h : r.take = (none, r')) : r.ahead = [] ∧ r' = r := by
  cases next : r.ahead with
  | nil =>
      rw [take_nil next] at h
      exact ⟨rfl, (Prod.mk.inj h).2.symm⟩
  | cons c cs =>
      have taken := (take_cons next).1
      rw [h] at taken
      cases taken

theorem take_eq_some (h : r.take = (some c, r')) : r.Takes [c] r' := by
  cases next : r.ahead with
  | nil =>
      rw [take_nil next] at h
      cases h
  | cons d cs =>
      obtain ⟨same, taken⟩ := take_cons next
      rw [h] at same taken
      cases same
      exact taken

theorem length_take_lt (h : r.take = (some c, r')) : r'.ahead.length < r.ahead.length := by
  rw [(take_eq_some h).length_eq]
  exact Nat.lt_add_of_pos_left Nat.one_pos

end Peek

/-! ## Characters that are expected -/

/-- Take the next character if it is the expected one. -/
def accept (expected : Char) (r : Reader) : Bool × Reader :=
  match r.peek with
  | (some c, r') => if c = expected then (r'.take.1.isSome, r'.take.2) else (false, r')
  | (none, r') => (false, r')

/-- Whether the next character was taken because it is the expected one. -/
inductive Accepts (expected : Char) (r : Reader) : Bool × Reader → Prop where
  | yes {r' : Reader} : r.Takes [expected] r' → Accepts expected r (true, r')
  | no {r' : Reader} : r.Takes [] r' → r.ahead.head? ≠ some expected →
      Accepts expected r (false, r')

/-- The expected character is taken if it comes next, and nothing else is. -/
theorem accept_accepts (expected : Char) (r : Reader) :
    Accepts expected r (r.accept expected) := by
  rw [accept]
  split
  · rename_i c r' looked
    obtain ⟨same, taken⟩ := take_peeked looked
    split
    · rename_i found
      subst found
      rw [same]
      exact .yes taken
    · rename_i other
      obtain ⟨looked, cs, next⟩ := peek_eq_some looked
      exact .no looked fun head => other (by simpa [next] using head)
  · rename_i r' looked
    obtain ⟨nothing, rfl⟩ := peek_eq_none looked
    exact .no (.refl r') (by simp [nothing])

/-! ## Loops -/

/-- Take characters of a class as long as they come. -/
def skipWhile (p : Char → Bool) (r : Reader) : Reader :=
  match _ : r.peek with
  | (some c, r') => if p c then r'.take.2.skipWhile p else r'
  | (none, r') => r'
termination_by r.ahead.length
decreasing_by
  rename_i looked _
  exact length_take_peeked looked

/-- By induction on what is ahead: the loop stops where the class ends. -/
theorem skipWhile_takes (p : Char → Bool) (r : Reader) :
    r.Takes (r.ahead.takeWhile p) (r.skipWhile p) := by
  fun_induction skipWhile p r with
  | case1 r c r' looked holds ih =>
      obtain ⟨-, taken⟩ := take_peeked looked
      rw [taken.ahead, List.singleton_append, List.takeWhile_cons_of_pos holds]
      exact taken.trans ih
  | case2 r c r' looked fails =>
      obtain ⟨looked, cs, next⟩ := peek_eq_some looked
      rw [next, List.takeWhile_cons_of_neg fails]
      exact looked
  | case3 r r' looked =>
      obtain ⟨nothing, rfl⟩ := peek_eq_none looked
      rw [nothing]
      exact .refl r'

/-- Take the rest of a line with the line feed behind it. -/
def skipLine (r : Reader) : Reader :=
  match _ : r.peek with
  | (some c, r') => if c = '\n' then r'.take.2 else r'.take.2.skipLine
  | (none, r') => r'
termination_by r.ahead.length
decreasing_by
  rename_i looked _
  exact length_take_peeked looked

/-- The loop takes the line, and the line feed behind it if there is one. -/
theorem skipLine_takes (r : Reader) :
    r.Takes (r.ahead.takeWhile (· != '\n')) r.skipLine ∨
      r.Takes (r.ahead.takeWhile (· != '\n') ++ ['\n']) r.skipLine := by
  fun_induction skipLine r with
  | case1 r r' looked =>
      obtain ⟨-, taken⟩ := take_peeked looked
      right
      rw [taken.ahead]
      exact taken
  | case2 r c r' looked other ih =>
      obtain ⟨-, taken⟩ := take_peeked looked
      rw [taken.ahead, List.singleton_append, List.takeWhile_cons_of_pos (by simpa using other)]
      exact ih.imp taken.trans taken.trans
  | case3 r r' looked =>
      obtain ⟨nothing, rfl⟩ := peek_eq_none looked
      rw [nothing]
      exact .inl (.refl r')

/-! ## Block comments -/

/-- Behind the first character of a delimiter, take the second one if it is there. -/
def goesOn (c first second : Char) (r : Reader) : Bool × Reader :=
  if c = first then r.accept second else (false, r)

section GoesOn

variable {c first second : Char} {r r' : Reader}

/-- Both characters of the delimiter were there. -/
theorem goesOn_eq_true (h : r.goesOn c first second = (true, r')) :
    c = first ∧ r.Takes [second] r' := by
  rw [goesOn] at h
  split at h
  · rename_i same
    have accepts := accept_accepts second r
    rw [h] at accepts
    cases accepts with
    | yes taken => exact ⟨same, taken⟩
  · cases h

/-- Nothing was taken, and the delimiter did not start here. -/
theorem goesOn_eq_false (h : r.goesOn c first second = (false, r')) :
    r.Takes [] r' ∧ (c = first → r.ahead.head? ≠ some second) := by
  rw [goesOn] at h
  split at h
  · have accepts := accept_accepts second r
    rw [h] at accepts
    cases accepts with
    | no looked other => exact ⟨looked, fun _ => other⟩
  · rename_i other
    cases h
    exact ⟨.refl r, fun same => absurd same other⟩

theorem length_goesOn_le {went : Bool} (h : r.goesOn c first second = (went, r')) :
    r'.ahead.length ≤ r.ahead.length := by
  cases went with
  | true =>
      rw [(goesOn_eq_true h).2.length_eq]
      exact Nat.le_add_left ..
  | false =>
      rw [(goesOn_eq_false h).1.length_eq]
      exact Nat.le_add_left ..

end GoesOn

/-- Take the rest of so many open comments.  The result is false if the source ends before that. -/
def skipComment (depth : Nat) (r : Reader) : Bool × Reader :=
  match depth with
  | 0 => (true, r)
  | depth + 1 =>
      match _ : r.take with
      | (none, r₁) => (false, r₁)
      | (some c, r₁) =>
          match _ : r₁.goesOn c '/' '*' with
          | (true, r₂) => r₂.skipComment (depth + 2)
          | (false, r₂) =>
              match _ : r₂.goesOn c '*' '/' with
              | (true, r₃) => r₃.skipComment depth
              | (false, r₃) => r₃.skipComment (depth + 1)
termination_by r.ahead.length
decreasing_by
  · rename_i took opens
    exact Nat.lt_of_le_of_lt (length_goesOn_le opens) (length_take_lt took)
  · rename_i took stays closes
    exact Nat.lt_of_le_of_lt (Nat.le_trans (length_goesOn_le closes) (length_goesOn_le stays))
      (length_take_lt took)
  · rename_i took stays stays'
    exact Nat.lt_of_le_of_lt (Nat.le_trans (length_goesOn_le stays') (length_goesOn_le stays))
      (length_take_lt took)

/-- What becomes of so many open comments. -/
inductive Passes (depth : Nat) (r : Reader) : Bool × Reader → Prop where
  | closed {body : List Char} {r' : Reader} : r.Takes body r' →
      afterComment? depth r.ahead = some r'.ahead → Passes depth r (true, r')
  | unclosed {r' : Reader} : r.Takes r.ahead r' →
      afterComment? depth r.ahead = none → Passes depth r (false, r')

/-- What becomes of open comments behind some text tells what becomes of them before it, if the text
changes nothing or opens or closes one. -/
theorem Passes.behind {depth depth' : Nat} {r r' : Reader} {text : List Char}
    {result : Bool × Reader} (taken : r.Takes text r')
    (same : afterComment? depth r.ahead = afterComment? depth' r'.ahead)
    (h : Passes depth' r' result) : Passes depth r result := by
  cases h with
  | closed rest ends => exact .closed (taken.trans rest) (same.trans ends)
  | unclosed rest open_ =>
      refine .unclosed ?_ (same.trans open_)
      rw [taken.ahead]
      exact taken.trans rest

/-- By induction along the loop: each round takes a delimiter or a character, and the depth
follows. -/
theorem skipComment_passes (depth : Nat) (r : Reader) : Passes depth r (r.skipComment depth) := by
  fun_induction skipComment depth r with
  | case1 r => exact .closed (.refl r) (by rw [afterComment?])
  | case2 r depth r₁ took =>
      obtain ⟨nothing, rfl⟩ := take_eq_none took
      refine .unclosed ?_ (by rw [nothing, afterComment?])
      rw [nothing]
      exact .refl r₁
  | case3 r depth c r₁ took r₂ opens ih =>
      obtain ⟨rfl, second⟩ := goesOn_eq_true opens
      have both := (take_eq_some took).trans second
      exact ih.behind both (by rw [both.ahead]; rfl)
  | case4 r depth c r₁ took r₂ stays r₃ closes ih =>
      obtain ⟨rfl, second⟩ := goesOn_eq_true closes
      have both := ((take_eq_some took).trans (goesOn_eq_false stays).1).trans second
      exact ih.behind both (by rw [both.ahead]; rfl)
  | case5 r depth c r₁ took r₂ stays r₃ stays' ih =>
      obtain ⟨looked, opens⟩ := goesOn_eq_false stays
      obtain ⟨looked', closes⟩ := goesOn_eq_false stays'
      have one := ((take_eq_some took).trans looked).trans looked'
      have plain : startsDelimiter (c :: r₃.ahead) = false := by
        rw [looked.ahead, looked'.ahead] at opens
        rw [looked'.ahead] at closes
        rw [startsDelimiter]
        · intro rest same
          obtain ⟨first, behind⟩ := List.cons.inj same
          exact opens first (by simp [behind])
        · intro rest same
          obtain ⟨first, behind⟩ := List.cons.inj same
          exact closes first (by simp [behind])
      exact ih.behind one (by rw [one.ahead]; exact afterComment?_char plain depth)

/-! ## Rounds of a step -/

/-- How a round of a scanning step ends. -/
inductive Round where
  /-- The step is over, with a result unless a text could not be cut out. -/
  | done (result : Option (Item × Reader))
  /-- A comment was passed, and the step goes on. -/
  | again (r : Reader)

/-- A token with the text since its start.  Its kind may depend on the text. -/
def word (kind : String → TokenKind) (r : Reader) : Option (Item × Reader) :=
  (textBetween? r.source r.startIndex r.index).map fun text =>
    (.token ⟨kind text, text, r.startPos, r.pos⟩, r)

/-- A token of the given kind with the text since its start. -/
def token (kind : TokenKind) (r : Reader) : Option (Item × Reader) :=
  r.word fun _ => kind

/-- A mark that means something else with an equality sign behind it. -/
def withEqual (alone joined : TokenKind) (r : Reader) : Option (Item × Reader) :=
  match r.accept '=' with
  | (true, r') => r'.token joined
  | (false, r') => r'.token alone

/-- A mark that is written twice. -/
def doubled (kind : TokenKind) (expected : Char) (r : Reader) : Option (Item × Reader) :=
  match r.peek with
  | (some c, r') =>
      if c = expected then r'.take.2.token kind
      else some (.fault (.expectedChar r.pos expected c), r')
  | (none, r') => some (.fault (.unexpectedChar r'.startPos expected), r')

/-- A slash: a comment of either sort, or the division sign. -/
def slash (r : Reader) : Round :=
  match r.accept '/' with
  | (true, r₁) => .again r₁.skipLine
  | (false, r₁) =>
      match r₁.accept '*' with
      | (true, r₂) =>
          match r₂.skipComment 1 with
          | (true, r₃) => .again r₃
          | (false, r₃) => .done (some (.fault (.unterminatedComment r₃.startPos), r₃))
      | (false, r₂) => .done (r₂.token .slash)

/-- A number, a name or a reserved word, or a character that starts nothing. -/
def classed (c : Char) (r : Reader) : Option (Item × Reader) :=
  if c.isDigit then (r.skipWhile Char.isDigit).token .number
  else if isLetter c then (r.skipWhile isNameChar).word .ofWord
  else some (.fault (.unexpectedChar r.startPos c), r)

/-- What comes of a round behind its first character. -/
def behindFirst (c : Char) (r : Reader) : Round :=
  match c with
  | '(' => .done (r.token .openParen)
  | ')' => .done (r.token .closeParen)
  | '\x7b' => .done (r.token .openBrace)
  | '\x7d' => .done (r.token .closeBrace)
  | ';' => .done (r.token .semicolon)
  | '=' => .done (r.withEqual .assign .equal)
  | '!' => .done (r.token .not)
  | '>' => .done (r.withEqual .greater .greaterEqual)
  | '<' => .done (r.withEqual .less .lessEqual)
  | '&' => .done (r.doubled .and '&')
  | '|' => .done (r.doubled .or '|')
  | '+' => .done (r.token .plus)
  | '-' => .done (r.token .minus)
  | '*' => .done (r.token .star)
  | '%' => .done (r.token .percent)
  | '/' => r.slash
  | c => .done (r.classed c)

/-- Pass over blanks to where an item may start. -/
def toItem (r : Reader) : Reader := (r.skipWhile isBlank).mark

/-- One round of a scanning step: pass over blanks, and read what starts behind them. -/
def round (r : Reader) : Round :=
  if r.toItem.source.rawEndPos ≤ r.toItem.index then .done (r.toItem.token .endOfInput)
  else
    match r.toItem.take with
    | (none, r') => .done (some (.fault .unexpectedEnd, r'))
    | (some c, r') => r'.behindFirst c

/-- What becomes of a slash. -/
inductive Slashes (r : Reader) : Round → Prop where
  | line {cs feed : List Char} {r' : Reader} : r.ahead = '/' :: cs → feed = [] ∨ feed = ['\n'] →
      r.Takes ('/' :: cs.takeWhile (· != '\n') ++ feed) r' → Slashes r (.again r')
  | block {cs body : List Char} {r' : Reader} : r.ahead = '*' :: cs →
      afterComment? 1 cs = some r'.ahead → r.Takes ('*' :: body) r' → Slashes r (.again r')
  | unclosed {cs : List Char} {r' : Reader} : r.ahead = '*' :: cs → afterComment? 1 cs = none →
      r.Takes ('*' :: cs) r' →
      Slashes r (.done (some (.fault (.unterminatedComment r.startPos), r')))
  | sign {r' : Reader} : r.ahead.head? ≠ some '/' → r.ahead.head? ≠ some '*' → r.Takes [] r' →
      Slashes r (.done (r'.token .slash))

/-- One case for each character that may follow: a second slash, an asterisk, or neither. -/
theorem slash_slashes (r : Reader) : Slashes r r.slash := by
  rw [slash]
  split
  · rename_i r₁ line
    cases line ▸ accept_accepts '/' r with
    | yes first =>
        rcases r₁.skipLine_takes with rest | rest
        · refine .line first.ahead (.inl rfl) ?_
          rw [List.append_nil]
          exact first.trans rest
        · exact .line first.ahead (.inr rfl) (first.trans rest)
  · rename_i r₁ noLine
    cases noLine ▸ accept_accepts '/' r with
    | no looked other =>
        split
        · rename_i r₂ block
          cases block ▸ accept_accepts '*' r₁ with
          | yes star =>
              have first := looked.trans star
              have passes := r₂.skipComment_passes 1
              split
              · rename_i r₃ closed
                rw [closed] at passes
                cases passes with
                | closed body ends => exact .block first.ahead ends (first.trans body)
              · rename_i r₃ open_
                rw [open_] at passes
                cases passes with
                | unclosed rest never =>
                    have all := first.trans rest
                    rw [all.startPos]
                    exact .unclosed first.ahead never all
        · rename_i r₂ noBlock
          cases noBlock ▸ accept_accepts '*' r₁ with
          | no looked' other' =>
              rw [← List.nil_append r₁.ahead, ← looked.ahead] at other'
              exact .sign other other' (looked.trans looked')

/-- A round that is tried again has taken a comment. -/
theorem slash_takes {r r' : Reader} (h : r.slash = .again r') : ∃ text, r.Takes text r' := by
  cases h ▸ r.slash_slashes with
  | line _ _ taken => exact ⟨_, taken⟩
  | block _ _ taken => exact ⟨_, taken⟩

theorem behindFirst_takes {r r' : Reader} {c : Char} (h : r.behindFirst c = .again r') :
    ∃ text, r.Takes text r' := by
  unfold behindFirst at h
  split at h
  -- every round but that of a slash is over
  all_goals try cases h
  exact slash_takes h

/-- A comment takes at least one character. -/
theorem round_shortens {r r' : Reader} (h : r.round = .again r') :
    r'.ahead.length < r.ahead.length := by
  have blanks : r.ahead.length = _ + r.toItem.ahead.length :=
    (r.skipWhile_takes isBlank).length_eq
  rw [round] at h
  split at h
  · cases h
  · split at h
    · cases h
    · rename_i c r₁ took
      obtain ⟨text, rest⟩ := behindFirst_takes h
      have shorter := length_take_lt took
      have length := rest.length_eq
      omega

/-- A scanning step: the next item of the source, unless a text could not be cut out, and the
reader behind it. -/
def scan (r : Reader) : Option (Item × Reader) :=
  match _ : r.round with
  | .done result => result
  | .again r' => r'.scan
termination_by r.ahead.length
decreasing_by
  rename_i again
  exact round_shortens again

end Reader

end WhenLoop
