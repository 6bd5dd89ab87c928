import WhenLoop.Proofs.Comments
import WhenLoop.Proofs.Reader

/-!
# A reader is in step with its source

What a reader holds and what it has not come to yet are together the source from the bytes on that
it took (`Reader.Stands`).  This holds whatever it takes, so a round of a step gives the piece that
is cut off there (`Reader.Round.Follows`), and a step is one of the cursor (`Stands.scan_steps`).
Any number of steps keep this up, from before the source to its end, where the reader stays
(`Reader.calls_in_step`).
-/

namespace WhenLoop

open Lexical

namespace Reader

/-! ## Where a reader stands -/

/-- The reader has taken `before` and then `taken` of its source, the latter since the current
item started, and both its byte offsets say so. -/
structure Stands (r : Reader) (before taken : String) : Prop where
  whole : r.source = before ++ taken ++ String.ofList r.ahead
  start : r.startIndex = before.rawEndPos
  index : r.index = (before ++ taken).rawEndPos

namespace Stands

variable {r r' : Reader} {before taken : String}

theorem ofSource (source : String) : (ofSource source).Stands "" "" where
  whole := by simp [Reader.ofSource, ahead]
  start := rfl
  index := rfl

/-- A mark makes all that was taken part of what is before. -/
theorem mark (h : r.Stands before taken) : r.mark.Stands (before ++ taken) "" where
  whole := by
    rw [String.append_empty]
    exact h.whole
  start := h.index
  index := by
    rw [String.append_empty]
    exact h.index

/-- What is taken is added since the mark, in bytes and in characters. -/
theorem takes {text : List Char} (h : r.Stands before taken) (h' : r.Takes text r') :
    r'.Stands before (taken ++ String.ofList text) where
  whole := by
    rw [h'.source, h.whole, h'.ahead, String.ofList_append]
    simp only [String.append_assoc]
  start := h'.startIndex.trans h.start
  index := by
    rw [h'.index, h.index]
    simp [String.Pos.Raw.ext_iff, Nat.add_assoc]

/-- The text since the start can be cut out. -/
theorem word_eq (h : r.Stands before taken) (kind : String → TokenKind) :
    r.word kind = some (.token ⟨kind taken, taken, r.startPos, r.pos⟩, r) := by
  rw [word, h.whole, h.start, h.index, textBetween?_append]
  rfl

/-- The offsets are between characters and in order, and what is not taken yet is the source from
the second one on. -/
theorem aligned (h : r.Stands before taken) :
    r.startIndex.IsValid r.source ∧ r.index.IsValid r.source ∧ r.startIndex ≤ r.index ∧
      textBetween? r.source r.index r.source.rawEndPos = some (String.ofList r.ahead) := by
  rw [h.whole, h.start, h.index]
  refine ⟨?_, isValid_rawEndPos (before ++ taken) _, ?_, ?_⟩
  · rw [String.append_assoc]
    exact isValid_rawEndPos before _
  · simp [String.Pos.Raw.le_iff]
  · have cuts := textBetween?_append (before ++ taken) (String.ofList r.ahead) ""
    rwa [String.append_empty] at cuts

end Stands

/-! ## A round cuts off a piece -/

/-- From the reader on, the round gives the piece that is cut off.  Of a line comment it also takes
the line feed. -/
inductive Round.Follows (r : Reader) (k : Cut) : Round → Prop where
  | item {item : Item} {r' : Reader} : k.piece.item? r.pos k.text = some item →
      r.Takes k.text r' → Follows r k (.done (some (item, r')))
  | gap {feed : List Char} {r' : Reader} : k.piece = .gap → feed = [] ∨ feed = ['\n'] →
      r.Takes (k.text ++ feed) r' → Follows r k (.again r')

section Follows

variable {r r' : Reader} {before : String} (stands : r.Stands before "")
  (fresh : r.startPos = r.pos)

include stands fresh

/-- The text between the offsets is the text that was taken, so it can be cut out. -/
theorem word_follows (kind : String → TokenKind) {text rest : List Char}
    (taken : r.Takes text r') :
    Round.Follows r ⟨.token (kind (String.ofList text)), text, rest⟩ (.done (r'.word kind)) := by
  rw [(stands.takes taken).word_eq, String.empty_append]
  refine .item ?_ taken
  rw [Piece.item?, taken.startPos, fresh, taken.pos]

theorem token_follows (kind : TokenKind) {text rest : List Char} (taken : r.Takes text r') :
    Round.Follows r ⟨.token kind, text, rest⟩ (.done (r'.token kind)) :=
  word_follows stands fresh (fun _ => kind) taken

/-- If the equality sign comes next it is taken and part of the text, else the mark stands alone. -/
theorem withEqual_follows (alone joined : TokenKind) {c : Char} (taken : r.Takes [c] r') :
    Round.Follows r (.withEqual alone joined c r'.ahead) (.done (r'.withEqual alone joined)) := by
  rw [withEqual]
  split
  · rename_i r₁ accepted
    cases accepted ▸ accept_accepts '=' r' with
    | yes sign =>
        rw [sign.ahead]
        exact token_follows stands fresh joined (taken.trans sign)
  · rename_i r₁ refused
    cases refused ▸ accept_accepts '=' r' with
    | no looked other =>
        have stop : ∀ d ∈ r'.ahead.head?, (d == '=') = false := by
          intro d next
          rw [beq_eq_false_iff_ne]
          rintro rfl
          exact other next
        rw [Cut.withEqual_alone alone joined c stop]
        exact token_follows stands fresh alone (taken.trans looked)

/-- If the mark comes twice both are one token, else it is a fault. -/
theorem doubled_follows (kind : TokenKind) {c : Char} (taken : r.Takes [c] r') :
    Round.Follows r (.doubled kind c r'.ahead) (.done (r'.doubled kind c)) := by
  rw [doubled]
  split
  · rename_i d r₁ looked
    split
    · rename_i same
      subst same
      obtain ⟨-, second⟩ := take_peeked looked
      have cuts : Cut.doubled kind d ([d] ++ r₁.take.2.ahead) =
          ⟨.token kind, [d, d], r₁.take.2.ahead⟩ := if_pos rfl
      rw [second.ahead, cuts]
      exact token_follows stands fresh kind (taken.trans second)
    · rename_i other
      obtain ⟨looked, cs, next⟩ := peek_eq_some looked
      have cuts : Cut.doubled kind c (d :: cs) = ⟨.expected c d, [c], d :: cs⟩ := if_neg other
      rw [next, cuts]
      refine .item ?_ (taken.trans looked)
      rw [Piece.item?, taken.pos]
  · rename_i r₁ looked
    obtain ⟨nothing, rfl⟩ := peek_eq_none looked
    rw [nothing, Cut.doubled]
    refine .item ?_ taken
    rw [Piece.item?, taken.startPos, fresh]

/-- A second slash starts a line comment, an asterisk a block comment that is closed or not, and
else it is the division sign. -/
theorem slash_follows (taken : r.Takes ['/'] r') :
    Round.Follows r (.slash r'.ahead) r'.slash := by
  have slashes := r'.slash_slashes
  generalize r'.slash = round at slashes ⊢
  cases slashes with
  | line next feed rest =>
      rw [next, Cut.slash]
      exact .gap rfl feed (taken.trans rest)
  | @block cs body r'' next closes rest =>
      have body_eq : cs.take (cs.length - r''.ahead.length) = body := by
        have whole : cs = body ++ r''.ahead := (List.cons.inj (next.symm.trans rest.ahead)).2
        rw [whole]
        simp
      rw [next, Cut.slash, closes]
      refine .gap rfl (.inl rfl) ?_
      simp only [body_eq, List.append_nil]
      exact taken.trans rest
  | unclosed next never rest =>
      rw [next, Cut.slash, never, taken.startPos, fresh]
      exact .item rfl (taken.trans rest)
  | sign noLine noBlock looked =>
      have stop : ∀ d ∈ r'.ahead.head?, (d == '/' || d == '*') = false := by
        intro d next
        rw [Bool.or_eq_false_iff, beq_eq_false_iff_ne, beq_eq_false_iff_ne]
        constructor
        · rintro rfl
          exact noLine next
        · rintro rfl
          exact noBlock next
      rw [Cut.slash_alone stop]
      exact token_follows stands fresh .slash (taken.trans looked)

theorem run_follows (p : Char → Bool) (kind : String → TokenKind) {c : Char}
    (taken : r.Takes [c] r') :
    Round.Follows r (.run p (fun word => .token (kind (String.ofList word))) c r'.ahead)
      (.done ((r'.skipWhile p).word kind)) :=
  word_follows stands fresh kind (taken.trans (r'.skipWhile_takes p))

/-- What is neither blank nor a mark is told by its class. -/
theorem classed_follows {c : Char} (inked : isBlank c = false) (unmarked : c ∉ marks)
    (taken : r.Takes [c] r') : Round.Follows r (cut c r'.ahead) (.done (r'.classed c)) := by
  rw [cut, if_neg (by simp [inked]), classed]
  split
  · exact run_follows stands fresh Char.isDigit (fun _ => .number) taken
  · split
    · exact run_follows stands fresh isNameChar .ofWord taken
    · rw [Cut.symbol_unexpected unmarked, taken.startPos, fresh]
      exact .item rfl taken

/-- A round gives the piece that is cut off at a character that is not blank. -/
theorem behindFirst_follows {c : Char} (inked : isBlank c = false) (taken : r.Takes [c] r') :
    Round.Follows r (cut c r'.ahead) (r'.behindFirst c) := by
  unfold behindFirst
  split
  · exact token_follows stands fresh .openParen taken
  · exact token_follows stands fresh .closeParen taken
  · exact token_follows stands fresh .openBrace taken
  · exact token_follows stands fresh .closeBrace taken
  · exact token_follows stands fresh .semicolon taken
  · exact withEqual_follows stands fresh .assign .equal taken
  · exact token_follows stands fresh .not taken
  · exact withEqual_follows stands fresh .greater .greaterEqual taken
  · exact withEqual_follows stands fresh .less .lessEqual taken
  · exact doubled_follows stands fresh .and taken
  · exact doubled_follows stands fresh .or taken
  · exact token_follows stands fresh .plus taken
  · exact token_follows stands fresh .minus taken
  · exact token_follows stands fresh .star taken
  · exact token_follows stands fresh .percent taken
  · exact slash_follows stands fresh taken
  · refine classed_follows stands fresh inked ?_ taken
    simp only [marks, List.mem_cons, List.not_mem_nil, or_false, not_or]
    and_intros <;> assumption

end Follows

end Reader

/-! ## A step of a reader is a step of its cursor -/

/-- Blanks may be passed over before an item. -/
theorem nextItem_blanks (p : Position) (text : List Char) :
    nextItem (p.after (text.takeWhile isBlank)) (text.dropWhile isBlank) = nextItem p text := by
  induction text generalizing p with
  | nil => rfl
  | cons c cs ih =>
      cases blank : isBlank c with
      | true =>
          rw [List.takeWhile_cons_of_pos blank, List.dropWhile_cons_of_pos blank,
            Position.after_cons, ih, nextItem_blank blank]
      | false => simp [blank]

/-- Scanning never reports an unexpected end. -/
theorem Piece.item?_ne_unexpectedEnd (piece : Piece) (p : Position) (text : List Char) :
    piece.item? p text ≠ some (.fault .unexpectedEnd) := by
  cases piece <;> simp [item?]

/-- A step never gives the fault that the text ends. -/
theorem nextItem_ne_unexpectedEnd (p : Position) (text : List Char) :
    (nextItem p text).1 ≠ .fault .unexpectedEnd := by
  fun_induction nextItem p text with
  | case1 p => simp
  | case2 p c cs item found =>
      rintro rfl
      exact Piece.item?_ne_unexpectedEnd _ _ _ found
  | case3 p c cs gap ih => exact ih

/-- No text is an end token. -/
theorem Piece.kind_ne_of_item? {piece : Piece} {p : Position} {text : List Char} {t : Token}
    (h : piece.item? p text = some (.token t)) (other : piece ≠ .token .endOfInput) :
    t.kind ≠ .endOfInput := by
  cases piece with
  | token kind =>
      cases h
      exact fun last => other (congrArg Piece.token last)
  | _ => cases h

/-- No piece of a text is the end token. -/
theorem cut_piece_ne (c : Char) (cs : List Char) : (cut c cs).piece ≠ .token .endOfInput := by
  rw [cut]
  split
  · simp [Cut.run]
  · split
    · simp [Cut.run]
    · split
      · rename_i letter
        have word : Lexeme _ (c :: cs.takeWhile isNameChar) :=
          lexeme_word letter forall_mem_takeWhile
        exact fun last => word.kind_ne (Piece.token.inj last)
      · unfold Cut.symbol
        split <;> simp only [Cut.single, Cut.withEqual, Cut.doubled, Cut.slash] <;> grind

namespace Reader

variable {r : Reader} {before taken : String}

/-- All bytes are taken exactly if no character is left. -/
theorem Stands.atEnd_iff (h : r.Stands before taken) :
    r.source.rawEndPos ≤ r.index ↔ r.ahead = [] := by
  have size : r.source.rawEndPos ≤ r.index ↔ (String.ofList r.ahead).utf8ByteSize = 0 := by
    rw [h.whole, h.index, String.Pos.Raw.le_iff, String.byteIdx_rawEndPos,
      String.byteIdx_rawEndPos, String.utf8ByteSize_append]
    omega
  rw [size, String.utf8ByteSize_eq_zero_iff, String.ofList_eq_empty_iff]

theorem Stands.toItem (h : r.Stands before taken) :
    r.toItem.Stands (before ++ (taken ++ String.ofList (r.ahead.takeWhile isBlank))) "" :=
  (h.takes (r.skipWhile_takes isBlank)).mark

theorem toItem_ahead (r : Reader) : r.toItem.ahead = r.ahead.dropWhile isBlank := by
  have taken := (r.skipWhile_takes isBlank).ahead
  exact (List.append_cancel_left (List.takeWhile_append_dropWhile.trans taken)).symm

theorem toItem_next (r : Reader) : r.toItem.cursor.next = r.cursor.next := by
  have pos : r.toItem.pos = _ := (r.skipWhile_takes isBlank).pos
  rw [Cursor.next, cursor, pos, toItem_ahead]
  exact nextItem_blanks r.pos r.ahead

/-- Behind the last item a round gives the end token. -/
theorem Stands.round_nil (h : r.Stands before taken) (nothing : r.toItem.ahead = []) :
    r.round = .done (some (.token (.endAt r.toItem.pos), r.toItem)) := by
  rw [round, if_pos (h.toItem.atEnd_iff.mpr nothing), token, h.toItem.word_eq]
  rfl

/-- A round gives the piece that is cut off. -/
theorem Stands.round_cons (h : r.Stands before taken) {c : Char} {cs : List Char}
    (next : r.toItem.ahead = c :: cs) : Round.Follows r.toItem (cut c cs) r.round := by
  have inked : isBlank c = false := by
    rw [toItem_ahead] at next
    exact head_dropWhile c (by rw [next]; rfl)
  rw [round, if_neg (by simp [h.toItem.atEnd_iff, next])]
  split
  · rename_i r' took
    rw [(take_eq_none took).1] at next
    cases next
  · rename_i d r' took
    have first := take_eq_some took
    obtain ⟨rfl, rfl⟩ := List.cons.inj (next.symm.trans first.ahead)
    exact behindFirst_follows h.toItem rfl inked first

section Next

variable {r' : Reader} {c : Char} {cs : List Char} (next : r.ahead = c :: cs)

include next

/-- A round that gives an item gives that of the cursor. -/
theorem Round.Follows.next_item {result : Option (Item × Reader)}
    (h : Round.Follows r (cut c cs) (.done result)) :
    ∃ item r', result = some (item, r') ∧ r.cursor.next = (item, r'.cursor) ∧
      (∃ text, r.Takes text r') ∧ ∀ t, item = .token t → t.kind ≠ .endOfInput := by
  cases h with
  | @item item r' found taken =>
      have cuts : cut c cs = ⟨(cut c cs).piece, (cut c cs).text, r'.ahead⟩ := by
        have whole := (cut_text_append_rest c cs).trans (next.symm.trans taken.ahead)
        rw [← List.append_cancel_left whole]
      refine ⟨item, r', rfl, ?_, ⟨_, taken⟩, ?_⟩
      · have step := nextItem_of_item cuts found
        rw [← taken.pos, ← next] at step
        exact step
      · rintro t rfl
        exact Piece.kind_ne_of_item? found (cut_piece_ne c cs)

/-- A round that passes over a comment does not change what the cursor gives. -/
theorem Round.Follows.next_again (h : Round.Follows r (cut c cs) (.again r')) :
    r.cursor.next = r'.cursor.next ∧ ∃ text, r.Takes text r' := by
  cases h with
  | @gap feed r' gap either taken =>
      refine ⟨?_, _, taken⟩
      have cuts : cut c cs = ⟨.gap, (cut c cs).text, feed ++ r'.ahead⟩ := by
        have whole := (cut_text_append_rest c cs).trans (next.symm.trans taken.ahead)
        rw [List.append_assoc] at whole
        rw [← List.append_cancel_left whole, ← gap]
      have feeds : Gap feed := by
        rcases either with rfl | rfl
        · exact .nil
        · exact .blank (by decide) .nil
      have step := (nextItem_of_gap (p := r.pos) cuts).trans (nextItem_skip feeds)
      rw [← Position.after_append, ← taken.pos, ← next] at step
      exact step

end Next

/-! ## Steps -/

theorem skipWhile_nil (p : Char → Bool) (nothing : r.ahead = []) : r.skipWhile p = r := by
  rw [skipWhile]
  split
  · rename_i looked
    rw [peek_nil nothing] at looked
    cases looked
  · rename_i looked
    exact (peek_eq_none looked).2

/-- With only blanks ahead the step gives the end token, and stands there. -/
theorem Stands.scan_nil (h : r.Stands before taken) (nothing : r.toItem.ahead = []) :
    r.scan = some (.token (.endAt r.toItem.pos), r.toItem) := by
  rw [scan]
  split
  · rename_i ended
    exact Round.done.inj (ended.symm.trans (h.round_nil nothing))
  · rename_i again
    cases again.symm.trans (h.round_nil nothing)

/-- At the end of the source a reader stays as it is. -/
theorem Stands.scan_toItem (h : r.Stands before taken) (nothing : r.toItem.ahead = []) :
    r.toItem.scan = some (.token (.endAt r.toItem.pos), r.toItem) := by
  have same : r.toItem.toItem = r.toItem :=
    calc
      r.toItem.toItem = r.toItem.mark := congrArg Reader.mark (skipWhile_nil isBlank nothing)
      _ = r.toItem := rfl
  have step := h.toItem.scan_nil (by rw [same]; exact nothing)
  rwa [same] at step

/-- What a step does from where a reader stands: it gives the item of the cursor and stands at
its place, and behind the end token it stays. -/
structure Steps (r : Reader) (item : Item) (r' : Reader) : Prop where
  next : r.cursor.next = (item, r'.cursor)
  source : r'.source = r.source
  stands : ∃ before taken, r'.Stands before taken
  stays : ∀ t, item = .token t → t.kind = .endOfInput → r'.scan = some (item, r')

/-- A step has a result, and it is that of the cursor. -/
theorem Stands.scan_steps (h : r.Stands before taken) :
    ∃ item r', r.scan = some (item, r') ∧ r.Steps item r' := by
  fun_induction scan r generalizing before taken with
  | case1 r result ended =>
      have source : r.toItem.source = r.source := (r.skipWhile_takes isBlank).source
      cases next : r.toItem.ahead with
      | nil =>
          obtain rfl := Round.done.inj (ended.symm.trans (h.round_nil next))
          refine ⟨_, _, rfl, ?_, source, ⟨_, _, h.toItem⟩, fun _ _ _ => h.scan_toItem next⟩
          rw [← toItem_next, Cursor.next, cursor, next, nextItem]
      | cons c cs =>
          obtain ⟨item, r', rfl, step, ⟨text, took⟩, inside⟩ :=
            Round.Follows.next_item next (ended ▸ h.round_cons next)
          exact ⟨item, r', rfl, ⟨r.toItem_next.symm.trans step, took.source.trans source,
            ⟨_, _, h.toItem.takes took⟩, fun t token last => absurd last (inside t token)⟩⟩
  | case2 r r' again ih =>
      cases next : r.toItem.ahead with
      | nil => cases again.symm.trans (h.round_nil next)
      | cons c cs =>
          obtain ⟨step, text, took⟩ := Round.Follows.next_again next (again ▸ h.round_cons next)
          obtain ⟨item, r'', found, steps⟩ := ih (h.toItem.takes took)
          have source : r'.source = r.source :=
            took.source.trans (r.skipWhile_takes isBlank).source
          exact ⟨item, r'', found, ⟨r.toItem_next.symm.trans (step.trans steps.next),
            steps.source.trans source, steps.stands, steps.stays⟩⟩

/-- The offset and the bytes ahead make up the source. -/
theorem Stands.size_eq (h : r.Stands before taken) :
    r.index.byteIdx + (String.ofList r.ahead).utf8ByteSize = r.source.utf8ByteSize := by
  rw [h.index, h.whole, String.utf8ByteSize_append, String.byteIdx_rawEndPos]

/-- A step takes a part of what is ahead. -/
theorem Steps.passed {r' : Reader} {item : Item} (steps : r.Steps item r') :
    ∃ passed, r.ahead = passed ++ r'.ahead := by
  have step : nextItem r.pos r.ahead = (item, r'.cursor) := steps.next
  obtain ⟨passed, whole, -⟩ := nextItem_splits r.pos r.ahead
  rw [step] at whole
  exact ⟨passed, whole⟩

/-- A step that does not give the end token takes bytes. -/
theorem Stands.index_lt {r' : Reader} {item : Item} (h : r.Stands before taken)
    (steps : r.Steps item r') (inside : ∀ t, item = .token t → t.kind ≠ .endOfInput) :
    r.index < r'.index := by
  obtain ⟨before', taken', h'⟩ := steps.stands
  obtain ⟨passed, whole⟩ := steps.passed
  have shorter : r'.ahead.length < r.ahead.length := by
    rcases r.cursor.next_shortens with ⟨p, last⟩ | shorter
    · obtain ⟨rfl, -⟩ := Prod.mk.inj (steps.next.symm.trans last)
      exact absurd rfl (inside _ rfl)
    · rwa [steps.next] at shorter
  have bytes : (String.ofList passed).utf8ByteSize ≠ 0 := by
    rw [ne_eq, String.utf8ByteSize_eq_zero_iff, String.ofList_eq_empty_iff]
    rintro rfl
    exact Nat.ne_of_lt shorter (congrArg List.length whole.symm)
  -- the bytes taken and those ahead are the same in sum before and behind the step
  have size := h.size_eq
  rw [whole, String.ofList_append, String.utf8ByteSize_append, ← steps.source,
    ← h'.size_eq] at size
  rw [String.Pos.Raw.lt_iff]
  omega

end Reader

/-! ## Any number of steps -/

/-- The items of so many steps, and the cursor behind them. -/
def Cursor.calls (cursor : Cursor) : Nat → List Item × Cursor
  | 0 => ([], cursor)
  | n + 1 => (cursor.next.1 :: (cursor.next.2.calls n).1, (cursor.next.2.calls n).2)

namespace Reader

/-- The items of so many steps, and the reader behind them, unless a text could not be cut out. -/
def calls (r : Reader) : Nat → Option (List Item × Reader)
  | 0 => some ([], r)
  | n + 1 =>
      r.scan.bind fun step => (step.2.calls n).map fun rest => (step.1 :: rest.1, rest.2)

variable {r : Reader} {before taken : String}

/-- A reader that stays where it is gives the same item again and again. -/
theorem calls_stay {item : Item} (h : r.scan = some (item, r)) (n : Nat) :
    r.calls n = some (List.replicate n item, r) := by
  induction n with
  | zero => rfl
  | succ n ih =>
      rw [calls, h, Option.bind_some, ih]
      rfl

/-- From where a reader stands, any number of steps have results, and they are those of the
cursor. -/
theorem Stands.calls_eq (h : r.Stands before taken) (n : Nat) :
    ∃ items last, r.calls n = some (items, last) ∧ r.cursor.calls n = (items, last.cursor) ∧
      last.source = r.source ∧ ∃ before taken, last.Stands before taken := by
  induction n generalizing r before taken with
  | zero => exact ⟨[], r, rfl, rfl, rfl, before, taken, h⟩
  | succ n ih =>
      obtain ⟨item, r', found, steps⟩ := h.scan_steps
      obtain ⟨_, _, stands⟩ := steps.stands
      obtain ⟨items, last, more, cursors, source, ends⟩ := ih stands
      refine ⟨item :: items, last, ?_, ?_, source.trans steps.source, ends⟩
      · rw [calls, found, Option.bind_some, more]
        rfl
      · rw [Cursor.calls, steps.next, cursors]

/-- A reader is always in step with its source.  Take any number of scanning steps from before a
source.  Then they have results, and these are the items of as many steps of a cursor.  Both byte
offsets lie between characters and in order, and the character that is held with those that are
left is the source from the second offset on.  The next step has a result as well, so the texts it
cuts out are there.  It is never the fault that the text ends.  If it is not the end token, the
step takes bytes.  If it is, then any number of further steps give this end token again, and the
reader stays as it is. -/
theorem calls_in_step (source : String) (n : Nat) :
    ∃ items r, (ofSource source).calls n = some (items, r) ∧
      (Cursor.ofSource source).calls n = (items, r.cursor) ∧
      r.source = source ∧ r.startIndex.IsValid source ∧ r.index.IsValid source ∧
      r.startIndex ≤ r.index ∧
      textBetween? source r.index source.rawEndPos =
        some (String.ofList (r.held.toList ++ r.left)) ∧
      ∃ item r', r.scan = some (item, r') ∧ item ≠ .fault .unexpectedEnd ∧
        ((∀ t, item = .token t → t.kind ≠ .endOfInput) → r.index < r'.index) ∧
        ∀ t, item = .token t → t.kind = .endOfInput →
          ∀ k, r'.calls k = some (List.replicate k item, r') := by
  obtain ⟨items, r, called, cursors, same, before, taken, stands⟩ :=
    (Stands.ofSource source).calls_eq n
  obtain ⟨item, r', found, steps⟩ := stands.scan_steps
  have aligned := stands.aligned
  rw [same] at aligned
  obtain ⟨start, index, le, rest⟩ := aligned
  have known : item ≠ .fault .unexpectedEnd := by
    have ne := nextItem_ne_unexpectedEnd r.pos r.ahead
    have step : nextItem r.pos r.ahead = (item, r'.cursor) := steps.next
    rwa [step] at ne
  exact ⟨items, r, called, cursors, same, start, index, le, rest, item, r', found, known,
    stands.index_lt steps, fun t token last => calls_stay (steps.stays t token last)⟩

/-- Two bytes of a character that starts nothing, a `&` without its second, and behind it a name
that is held. -/
example :
    ((ofSource "é&y").calls 2).map (fun called => (called.2.held, called.2.left, called.2.index)) =
      some (some 'y', [], ⟨3⟩) := by
  decide +kernel

end Reader

end WhenLoop
