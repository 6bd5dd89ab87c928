import WhenLoop.Proofs.Scanning

/-!
# Block comments are the balanced ones

Scanning reads past a block comment with a counter, and the lexical grammar says what a comment
is by recursion: between its delimiters it has nested comments, and characters at which no
delimiter starts.  The two agree.  No comment starts another one (`Comment.unique`), so where the
text goes on with a comment there is one place to resume from, and scanning resumes there.  Where
it does not, the counter never comes back to zero, and the comment takes the rest of the source
(`Cursor.Reached.next_comment`).

The places that scanning comes to are those of `Cursor.Reached`.  A step passes over a piece of
the text and loses nothing (`nextItem_splits`), so the position at such a place is that behind
what was read before it.
-/

namespace WhenLoop

open Lexical

namespace Lexical

/-- A closed block comment. -/
inductive Comment : List Char → Prop where
  | closed {tail : List Char} : CommentTail tail → Comment ('/' :: '*' :: tail)

/-- A text goes on with one comment at most. -/
theorem Comment.unique {comment other rest more : List Char} (h : Comment comment)
    (h' : Comment other) (same : comment ++ rest = other ++ more) :
    other = comment ∧ more = rest := by
  cases h with
  | @closed tail closed =>
      cases h' with
      | @closed tail' closed' =>
          have tails : tail ++ rest = tail' ++ more := List.cons.inj (List.cons.inj same).2 |>.2
          have ends : afterComment? 1 (tail ++ rest) = some rest := by
            rw [afterComment?_tail closed, afterComment?]
          have ends' : afterComment? 1 (tail ++ rest) = some more := by
            rw [tails, afterComment?_tail closed', afterComment?]
          obtain rfl : rest = more := Option.some.inj (ends.symm.trans ends')
          rw [List.append_cancel_right tails]
          exact ⟨rfl, rfl⟩

end Lexical

/-! ## The places of a scan -/

/-- The places that scanning a source comes to, from one item to the next. -/
inductive Cursor.Reached (source : String) : Cursor → Prop where
  | start : Reached source (.ofSource source)
  | next {cursor : Cursor} : Reached source cursor → Reached source cursor.next.2

/-- A step passes over a piece of the text and leaves what is behind it. -/
theorem nextItem_splits (p : Position) (text : List Char) :
    ∃ passed, text = passed ++ (nextItem p text).2.rest ∧
      (nextItem p text).2.pos = p.after passed := by
  fun_induction nextItem p text with
  | case1 p => exact ⟨[], rfl, rfl⟩
  | case2 p c cs item found => exact ⟨_, (cut_text_append_rest c cs).symm, rfl⟩
  | case3 p c cs gap ih =>
      obtain ⟨passed, rest, pos⟩ := ih
      refine ⟨(cut c cs).text ++ passed, ?_, ?_⟩
      · rw [List.append_assoc, ← rest, cut_text_append_rest]
      · rw [pos, Position.after_append]

/-- By induction on the steps: a cursor is at its place behind what was read. -/
theorem Cursor.Reached.behind {source : String} {cursor : Cursor} (h : cursor.Reached source) :
    ∃ read, source.toList = read ++ cursor.rest ∧ cursor.pos = .behind read := by
  induction h with
  | start => exact ⟨[], rfl, rfl⟩
  | @next cursor _ ih =>
      obtain ⟨read, whole, pos⟩ := ih
      obtain ⟨passed, rest, behind⟩ := nextItem_splits cursor.pos cursor.rest
      refine ⟨read ++ passed, ?_, ?_⟩
      · rw [List.append_assoc, whole, rest]
        rfl
      · rw [← Position.after_behind, ← pos]
        exact behind

/-! ## Comments at these places -/

/-- Where a text goes on with a comment, the next item is the one behind the comment. -/
theorem nextItem_comment {comment : List Char} (h : Comment comment) (p : Position)
    (rest : List Char) : nextItem p (comment ++ rest) = nextItem (p.after comment) rest := by
  cases h with
  | closed closed => exact nextItem_block closed

/-- Where the delimiter of a comment starts none, the next item is a fault that takes the rest. -/
theorem nextItem_unclosed {read text : List Char} (opens : ['/', '*'] <+: text)
    (open_ : ∀ comment rest, Comment comment → text ≠ comment ++ rest) :
    nextItem (.behind read) text =
      (.fault (.unterminatedComment (.behind read)), ⟨[], .behind (read ++ text)⟩) := by
  obtain ⟨body, rfl⟩ := opens
  have unclosed : ∀ tail rest, CommentTail tail → body ≠ tail ++ rest := by
    rintro tail rest closed rfl
    exact open_ _ rest (.closed closed) rfl
  have step := nextItem_described (@Describes.unclosed read body unclosed)
  rwa [List.append_nil] at step

/-- Block comments are exactly the balanced ones.  At a place that scanning a source comes to,
let `/*` stand behind gaps.  If the text goes on with a comment there, it does so with one only,
and the next item is the one behind it.  If not, the next item is a fault at the position of this
`/*`, and the one after it is the end token at the end of the source.  In a source of fewer than
`2147483647` characters the positions are exact. -/
theorem Cursor.Reached.next_comment {source : String} {cursor : Cursor} {gap text : List Char}
    (short : source.length < 2147483647) (reached : cursor.Reached source) (skipped : Gap gap)
    (rest : cursor.rest = gap ++ text) (opens : ['/', '*'] <+: text) :
    ∃ read, source.toList = read ++ text ∧
      (∀ comment after, Comment comment → text = comment ++ after →
        (∀ other more, Comment other → text = other ++ more → other = comment ∧ more = after) ∧
        cursor.next = Cursor.next ⟨after, .behind (read ++ comment)⟩) ∧
      ((∀ comment after, Comment comment → text ≠ comment ++ after) →
        cursor.next = (.fault (.unterminatedComment (.behind read)),
          ⟨[], .behind source.toList⟩) ∧
        cursor.next.2.next = (.token (.endAt (.behind source.toList)),
          ⟨[], .behind source.toList⟩)) ∧
      ∀ part, part <+: source.toList →
        (Position.behind part).line.toInt = 1 + part.count '\n' ∧
        (Position.behind part).column.toInt =
          1 + (part.reverse.takeWhile (· != '\n')).length := by
  obtain ⟨read, whole, pos⟩ := reached.behind
  rw [rest, ← List.append_assoc] at whole
  -- one call of the scanner passes over the gaps and comes to the delimiter
  have begun : cursor.next = nextItem (.behind (read ++ gap)) text := by
    rw [Cursor.next, pos, rest, nextItem_skip skipped, Position.after_behind]
  refine ⟨read ++ gap, whole, ?_, ?_, ?_⟩
  · rintro comment after closed rfl
    refine ⟨fun other more closed' same => closed.unique closed' same, ?_⟩
    rw [begun, nextItem_comment closed, Position.after_behind]
    rfl
  · intro open_
    have step := begun.trans (nextItem_unclosed opens open_)
    rw [← whole] at step
    refine ⟨step, ?_⟩
    rw [step, Cursor.next, nextItem]
  · intro part start
    have length := start.length_le
    rw [String.length_toList] at length
    exact Position.toInt_behind (by omega)

/-- A comment in which `/*/` opens another one, and behind a name a `/*/` that is not closed. -/
theorem Cursor.Reached.next_comment_overlap :
    let cursor := Cursor.ofSource "/* /*/ */*/x/*/"
    (Comment "/* /*/ */*/".toList ∧ cursor.rest = "/* /*/ */*/".toList ++ "x/*/".toList ∧
      cursor.next = Cursor.next ⟨"x/*/".toList, ⟨1, 12⟩⟩) ∧
    cursor.next.2.rest = "/*/".toList ∧
      cursor.next.2.next = (.fault (.unterminatedComment ⟨1, 13⟩), ⟨[], ⟨1, 16⟩⟩) ∧
      cursor.next.2.next.2.next = (.token (.endAt ⟨1, 16⟩), ⟨[], ⟨1, 16⟩⟩) := by
  intro cursor
  have short : "/* /*/ */*/x/*/".length < 2147483647 := by decide
  have first : cursor.Reached "/* /*/ */*/x/*/" := .start
  have closed : Comment "/* /*/ */*/".toList :=
    .closed (.char rfl (.nested (.char rfl (.char rfl .close)) .close))
  have open_ : ∀ comment after, Comment comment → "/*/".toList ≠ comment ++ after := by
    rintro _ after @⟨tail, closed⟩ same
    have body : ['/'] = tail ++ after := (List.cons.inj (List.cons.inj same).2).2
    have ends : afterComment? 1 ['/'] = some after := by
      rw [body, afterComment?_tail closed, afterComment?]
    cases ends
  have behind : cursor.next.2.rest = "/*/".toList := by decide +kernel
  obtain ⟨read, whole, comments, -⟩ :=
    @Cursor.Reached.next_comment _ _ [] cursor.rest short first .nil rfl ⟨_, rfl⟩
  obtain ⟨read', whole', -, faults, -⟩ :=
    @Cursor.Reached.next_comment _ _ [] "/*/".toList short first.next .nil behind ⟨_, rfl⟩
  obtain rfl : read = [] := List.append_left_eq_self.mp whole.symm
  refine ⟨⟨closed, rfl, (comments _ "x/*/".toList closed rfl).2⟩, behind, ?_⟩
  obtain rfl : read' = "/* /*/ */*/x".toList := List.append_cancel_right whole'.symm
  exact faults open_

end WhenLoop
