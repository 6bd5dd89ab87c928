import WhenLoop.Proofs.Lexical

/-!
# Scanning loses nothing

Every text has a reading by the lexical grammar (`readable`), and the scan of a
text gives the items of every reading of it (`scanFrom_of_reading`).  So a text has one
reading, and this is what its scan finds (`scan_reading_iff`).

The first fact is about the grammar alone: at every character a gap, a token or a fault
starts.  The second goes along a reading.  A scanning step passes over a gap
(`nextItem_skip`), and at the text of an item it stops with that item
(`nextItem_described`).

For words there is one more step.  A text spells words exactly if its scan finds tokens with
these words and no fault (`spells_iff_scan`).
-/

namespace WhenLoop

open Lexical

/-! ## Positions -/

namespace Position

theorem next_behind (read : List Char) (c : Char) :
    (behind read).next c = behind (read ++ [c]) := by
  rw [next]
  split
  · subst c
    simp [behind, Int32.ofNat_add, Int32.add_assoc]
  · rename_i other
    simp [behind, other, Int32.ofNat_add, Int32.add_assoc]

theorem after_behind (read text : List Char) :
    (behind read).after text = behind (read ++ text) := by
  induction text generalizing read with
  | nil => rw [after_nil, List.append_nil]
  | cons c text ih =>
      rw [after_cons, next_behind, ih, List.append_assoc]
      rfl

/-- In a source that is not too long no count wraps. -/
theorem toInt_behind {read : List Char} (short : read.length < 2147483647) :
    (behind read).line.toInt = 1 + read.count '\n' ∧
      (behind read).column.toInt = 1 + (read.reverse.takeWhile (· != '\n')).length := by
  have lines : read.count '\n' ≤ read.length := List.count_le_length
  have columns : (read.reverse.takeWhile (· != '\n')).length ≤ read.length := by
    have sub := (List.takeWhile_prefix (l := read.reverse) (· != '\n')).length_le
    rwa [List.length_reverse] at sub
  constructor
  · rw [behind, Int32.toInt_ofNat_of_lt (by omega)]
    omega
  · rw [behind, Int32.toInt_ofNat_of_lt (by omega)]
    omega

end Position

/-! ## Block comments -/

namespace Lexical

theorem CommentTail.ne_nil {tail : List Char} (h : CommentTail tail) : tail ≠ [] := by
  cases h <;> exact List.cons_ne_nil _ _

/-- Two characters decide, so what follows them does not matter. -/
theorem startsDelimiter_append {c : Char} {text : List Char} (h : text ≠ []) (rest : List Char) :
    startsDelimiter (c :: (text ++ rest)) = startsDelimiter (c :: text) := by
  cases text with
  | nil => exact absurd rfl h
  | cons d text =>
      rw [List.cons_append]
      unfold startsDelimiter
      split <;> simp_all

end Lexical

/-- A character that starts no delimiter is passed over. -/
theorem afterComment?_char {c : Char} {text : List Char}
    (plain : startsDelimiter (c :: text) = false) (depth : Nat) :
    afterComment? (depth + 1) (c :: text) = afterComment? (depth + 1) text := by
  rw [afterComment?]
  · rintro _ rfl rfl
    cases plain
  · rintro _ rfl rfl
    cases plain

/-- One comment is over where its tail is. -/
theorem afterComment?_tail {tail : List Char} (h : CommentTail tail) (depth : Nat)
    (rest : List Char) : afterComment? (depth + 1) (tail ++ rest) = afterComment? depth rest := by
  induction h generalizing depth rest with
  | close => simp [afterComment?]
  | @nested inner text _ _ ihi iht =>
      calc
        afterComment? (depth + 1) ('/' :: '*' :: inner ++ text ++ rest)
          = afterComment? (depth + 2) (inner ++ (text ++ rest)) := by simp [afterComment?]
        _ = afterComment? (depth + 1) (text ++ rest) := ihi _ _
        _ = afterComment? depth rest := iht _ _
  | @char c text plain tail ih =>
      rw [List.cons_append, afterComment?_char, ih]
      rwa [startsDelimiter_append tail.ne_nil]

/-- What is read up to the end of so many open comments is as many tails. -/
theorem exists_tails {depth : Nat} {text rest : List Char}
    (h : afterComment? depth text = some rest) :
    ∃ tails : List (List Char), tails.length = depth ∧ (∀ tail ∈ tails, CommentTail tail) ∧
      text = tails.flatten ++ rest := by
  fun_induction afterComment? depth text with
  | case1 text =>
      cases h
      exact ⟨[], rfl, List.forall_mem_nil _, rfl⟩
  | case2 => cases h
  | case3 depth text ih =>
      -- a comment that opens here and the rest of the one around it make one tail
      obtain ⟨tails, length, closed, rfl⟩ := ih h
      obtain ⟨inner, tails, rfl⟩ := List.exists_cons_of_length_eq_add_one length
      obtain ⟨tail, tails, rfl⟩ := List.exists_cons_of_length_eq_add_one (Nat.succ.inj length)
      refine ⟨('/' :: '*' :: inner ++ tail) :: tails, by simpa using length, ?_, by simp⟩
      simp only [List.forall_mem_cons] at closed ⊢
      exact ⟨.nested closed.1 closed.2.1, closed.2.2⟩
  | case4 depth text ih =>
      obtain ⟨tails, length, closed, rfl⟩ := ih h
      exact ⟨['*', '/'] :: tails, by simp [length], List.forall_mem_cons.mpr ⟨.close, closed⟩, rfl⟩
  | case5 depth c text opens closes ih =>
      obtain ⟨tails, length, closed, rfl⟩ := ih h
      obtain ⟨tail, tails, rfl⟩ := List.exists_cons_of_length_eq_add_one length
      rw [List.forall_mem_cons] at closed
      have plain : startsDelimiter (c :: tail) = false := by
        rw [startsDelimiter]
        · intro _ same
          cases same
          exact opens _ rfl rfl
        · intro _ same
          cases same
          exact closes _ rfl rfl
      exact ⟨(c :: tail) :: tails, by simpa using length,
        List.forall_mem_cons.mpr ⟨.char plain closed.1, closed.2⟩, rfl⟩

/-- A comment that is closed has a tail. -/
theorem afterComment?_eq_some {text rest : List Char} (h : afterComment? 1 text = some rest) :
    ∃ tail, CommentTail tail ∧ text = tail ++ rest := by
  obtain ⟨tails, length, closed, rfl⟩ := exists_tails h
  obtain ⟨tail, rfl⟩ := List.length_eq_one_iff.mp length
  exact ⟨tail, closed tail List.mem_cons_self, by rw [List.flatten_singleton]⟩

/-- A comment that has no tail is not closed. -/
theorem afterComment?_eq_none {text : List Char}
    (open_ : ∀ tail rest, CommentTail tail → text ≠ tail ++ rest) :
    afterComment? 1 text = none := by
  cases h : afterComment? 1 text with
  | none => rfl
  | some rest =>
      obtain ⟨tail, closed, same⟩ := afterComment?_eq_some h
      exact absurd same (open_ tail rest closed)

/-! ## Every text has a reading -/

namespace Lexical

/-- Every reserved word is a spelling of its kind. -/
theorem mem_spellings_ofWord : ∀ pair ∈ keywords, pair.1 ∈ spellings (.ofWord pair.1) := by
  decide

theorem ofWord_of_not_mem {word : String} (h : word ∉ keywords.map Prod.fst) :
    TokenKind.ofWord word = .name := by
  have none : keywords.lookup word = none := by
    rw [List.lookup_eq_none_iff]
    intro pair mem
    rw [bne_iff_ne]
    rintro rfl
    exact h (List.mem_map_of_mem mem)
  rw [TokenKind.ofWord, none]
  rfl

/-- A letter and name characters behind it are a name or a reserved word. -/
theorem lexeme_word {c : Char} {cs : List Char} (first : isLetter c = true)
    (all : ∀ d ∈ cs, isNameChar d = true) :
    Lexeme (.ofWord (String.ofList (c :: cs))) (c :: cs) := by
  by_cases reserved : String.ofList (c :: cs) ∈ keywords.map Prod.fst
  · obtain ⟨⟨word, kind⟩, mem, same⟩ := List.mem_map.mp reserved
    have spelled : Lexeme (.ofWord word) word.toList := .fixed (mem_spellings_ofWord _ mem)
    rwa [show word = String.ofList (c :: cs) from same, String.toList_ofList] at spelled
  · rw [ofWord_of_not_mem reserved]
    exact .name first all reserved

/-- A run of a class of characters stops in front of another class. -/
theorem head_dropWhile {p : Char → Bool} {cs : List Char} :
    ∀ d ∈ (cs.dropWhile p).head?, p d = false := by
  intro d next
  have stop := List.head?_dropWhile_not p cs
  rw [show (cs.dropWhile p).head? = some d from next] at stop
  exact stop

theorem forall_mem_takeWhile {p : Char → Bool} {cs : List Char} :
    ∀ d ∈ cs.takeWhile p, p d = true :=
  List.all_eq_true.mp List.all_takeWhile

theorem maximal_digits {c : Char} {cs after : List Char} (first : c.isDigit = true) :
    Maximal (c :: cs) after ↔ ∀ d ∈ after.head?, d.isDigit = false := by
  simp only [Maximal, prolongs, first, if_true]

theorem maximal_word {c : Char} {cs after : List Char} (first : isLetter c = true) :
    Maximal (c :: cs) after ↔ ∀ d ∈ after.head?, isNameChar d = false := by
  simp [Maximal, prolongs, first, isDigit_of_isLetter first]

/-- Some items can be read behind `read`. -/
def Readable (read rest : List Char) : Prop := ∃ items, Reading read rest items

namespace Readable

variable {read : List Char}

theorem skip {gap rest : List Char} (h : Gap gap) (h' : Readable (read ++ gap) rest) :
    Readable read (gap ++ rest) :=
  h'.imp fun _ reading => .skip h reading

theorem item {text after : List Char} {item : Item} (h : Describes read text after item)
    (h' : Readable (read ++ text) after) : Readable read (text ++ after) := by
  obtain ⟨items, reading⟩ := h'
  rw [← List.append_nil read] at h reading
  exact ⟨item :: items, .item .nil h reading⟩

theorem token {kind : TokenKind} {text after : List Char} (h : Lexeme kind text)
    (maximal : Maximal text after) (h' : Readable (read ++ text) after) :
    Readable read (text ++ after) :=
  item (.token h maximal) h'

/-- A mark that is a token whatever follows it. -/
theorem mark {kind : TokenKind} {text : String} (h : text ∈ spellings kind)
    (alone : ∀ d, prolongs text.toList d = false) {after : List Char}
    (h' : Readable (read ++ text.toList) after) : Readable read (text.toList ++ after) :=
  token (.fixed h) (fun d _ => alone d) h'

section Mark

variable {cs : List Char}
  (ih : ∀ read' rest : List Char, rest.length ≤ cs.length → Readable read' rest)

include ih

/-- With the equality sign behind it the mark is one token, and else another. -/
theorem withEqual {c : Char} {alone joined : TokenKind} (h : Lexeme alone [c])
    (h' : Lexeme joined [c, '=']) (prolong : ∀ d, prolongs [c] d = (d == '='))
    (full : ∀ d, prolongs [c, '='] d = false) : Readable read (c :: cs) := by
  by_cases next : cs.head? = some '='
  · obtain ⟨ds, rfl⟩ := List.head?_eq_some_iff.mp next
    exact token h' (fun d _ => full d) (ih _ ds (Nat.le_succ _))
  · refine token h (fun d head => ?_) (ih _ cs (Nat.le_refl _))
    rw [prolong, beq_eq_false_iff_ne]
    rintro rfl
    exact next head

/-- The mark comes twice and is a token, or once and is a fault. -/
theorem doubled {c : Char} {kind : TokenKind} (paired : Paired c) (h : Lexeme kind [c, c])
    (full : ∀ d, prolongs [c, c] d = false) : Readable read (c :: cs) := by
  cases cs with
  | nil => exact item (.singleLast paired) (ih _ [] (Nat.le_refl _))
  | cons d ds =>
      by_cases same : d = c
      · subst same
        exact token h (fun d _ => full d) (ih _ ds (Nat.le_succ _))
      · exact item (.single paired same) (ih _ (d :: ds) (Nat.le_refl _))

/-- The comment is a gap up to the line feed, or the last gap if there is none. -/
theorem lineComment {ds : List Char} (shorter : ds.length ≤ cs.length) :
    Readable read ('/' :: '/' :: ds) := by
  have body : '\n' ∉ ds.takeWhile (· != '\n') := by
    intro mem
    simpa using forall_mem_takeWhile _ mem
  rw [← List.takeWhile_append_dropWhile (p := (· != '\n')) (l := ds)]
  cases rest : ds.dropWhile (· != '\n') with
  | nil =>
      rw [List.append_nil]
      exact ⟨[], .done (.line .nil body)⟩
  | cons d rest' =>
      have feed : d = '\n' := bne_eq_false_iff_eq.mp (head_dropWhile d (by rw [rest]; rfl))
      subst feed
      have length := congrArg List.length rest
      have sub := (List.dropWhile_suffix (l := ds) (· != '\n')).length_le
      rw [List.length_cons] at length
      have gap := Gap.line body .nil
      simpa using skip gap (ih (read ++ _) rest' (by omega))

/-- The comment is a gap if it is closed, and else a fault that takes all the rest. -/
theorem blockComment {ds : List Char} (shorter : ds.length ≤ cs.length) :
    Readable read ('/' :: '*' :: ds) := by
  cases closes : afterComment? 1 ds with
  | some rest =>
      obtain ⟨tail, closed, rfl⟩ := afterComment?_eq_some closes
      rw [List.length_append] at shorter
      have gap := Gap.block closed .nil
      simpa using skip gap (ih (read ++ _) rest (by omega))
  | none =>
      have open_ : ∀ tail rest, CommentTail tail → ds ≠ tail ++ rest := by
        rintro tail rest closed rfl
        rw [afterComment?_tail closed, afterComment?] at closes
        cases closes
      simpa using item (.unclosed open_) (ih (read ++ _) [] (Nat.zero_le _))

/-- One case for each character that may follow. -/
theorem slash : Readable read ('/' :: cs) := by
  by_cases line : cs.head? = some '/'
  · obtain ⟨ds, rfl⟩ := List.head?_eq_some_iff.mp line
    exact lineComment ih (Nat.le_succ _)
  by_cases block : cs.head? = some '*'
  · obtain ⟨ds, rfl⟩ := List.head?_eq_some_iff.mp block
    exact blockComment ih (Nat.le_succ _)
  have sign : Lexeme .slash "/".toList := .fixed (by decide)
  refine token sign (fun d head => ?_) (ih _ cs (Nat.le_refl _))
  have here : prolongs "/".toList d = (d == '/' || d == '*') := rfl
  rw [here, Bool.or_eq_false_iff, beq_eq_false_iff_ne, beq_eq_false_iff_ne]
  constructor
  · rintro rfl
    exact line head
  · rintro rfl
    exact block head

end Mark

end Readable

/-- A mark starts a comment, a token or a fault. -/
theorem readable_mark {read cs : List Char} {c : Char} (h : c ∈ marks)
    (ih : ∀ read' rest : List Char, rest.length ≤ cs.length → Readable read' rest) :
    Readable read (c :: cs) := by
  have next := fun read' => ih read' cs (Nat.le_refl _)
  simp only [marks, List.mem_cons, List.not_mem_nil, or_false] at h
  rcases h with rfl | rfl | rfl | rfl | rfl | rfl | rfl | rfl | rfl | rfl | rfl | rfl | rfl | rfl |
    rfl | rfl
  · exact .mark (show "(" ∈ spellings .openParen by decide) (fun _ => rfl) (next _)
  · exact .mark (show ")" ∈ spellings .closeParen by decide) (fun _ => rfl) (next _)
  · exact .mark (show "\x7b" ∈ spellings .openBrace by decide) (fun _ => rfl) (next _)
  · exact .mark (show "\x7d" ∈ spellings .closeBrace by decide) (fun _ => rfl) (next _)
  · exact .mark (show ";" ∈ spellings .semicolon by decide) (fun _ => rfl) (next _)
  · exact .mark (show "!" ∈ spellings .not by decide) (fun _ => rfl) (next _)
  · exact .mark (show "+" ∈ spellings .plus by decide) (fun _ => rfl) (next _)
  · exact .mark (show "-" ∈ spellings .minus by decide) (fun _ => rfl) (next _)
  · exact .mark (show "*" ∈ spellings .star by decide) (fun _ => rfl) (next _)
  · exact .mark (show "%" ∈ spellings .percent by decide) (fun _ => rfl) (next _)
  · exact .withEqual ih (.fixed (show "=" ∈ spellings .assign by decide))
      (.fixed (show "==" ∈ spellings .equal by decide)) (fun _ => rfl) (fun _ => rfl)
  · exact .withEqual ih (.fixed (show "<" ∈ spellings .less by decide))
      (.fixed (show "<=" ∈ spellings .lessEqual by decide)) (fun _ => rfl) (fun _ => rfl)
  · exact .withEqual ih (.fixed (show ">" ∈ spellings .greater by decide))
      (.fixed (show ">=" ∈ spellings .greaterEqual by decide)) (fun _ => rfl) (fun _ => rfl)
  · exact .doubled ih (.inl rfl) (.fixed (show "&&" ∈ spellings .and by decide)) (fun _ => rfl)
  · exact .doubled ih (.inr rfl) (.fixed (show "||" ∈ spellings .or by decide)) (fun _ => rfl)
  · exact .slash ih

/-- Every text has a reading. -/
theorem readable (read rest : List Char) : Readable read rest := by
  cases rest with
  | nil => exact ⟨[], .done (.closed .nil)⟩
  | cons c cs =>
      have ih : ∀ read' rest' : List Char, rest'.length ≤ cs.length → Readable read' rest' :=
        fun read' rest' shorter => readable read' rest'
      have drop : ∀ p : Char → Bool, (cs.dropWhile p).length ≤ cs.length :=
        fun p => (List.dropWhile_suffix p).length_le
      by_cases blank : isBlank c = true
      · exact .skip (.blank blank .nil) (ih _ cs (Nat.le_refl _))
      by_cases digit : c.isDigit = true
      · rw [← List.takeWhile_append_dropWhile (p := Char.isDigit) (l := cs)]
        exact .token (.number digit forall_mem_takeWhile)
          ((maximal_digits digit).mpr head_dropWhile)
          (ih _ _ (drop _))
      by_cases letter : isLetter c = true
      · rw [← List.takeWhile_append_dropWhile (p := isNameChar) (l := cs)]
        exact .token (lexeme_word letter forall_mem_takeWhile)
          ((maximal_word letter).mpr head_dropWhile) (ih _ _ (drop _))
      by_cases mark : c ∈ marks
      · exact readable_mark mark ih
      · have nothing : StartsNothing c := ⟨by simpa using blank, by simpa using digit,
          by simpa using letter, mark⟩
        exact .item (.unexpected nothing) (ih _ cs (Nat.le_refl _))
termination_by rest.length
decreasing_by simpa using Nat.lt_succ_of_le shorter

end Lexical

/-! ## The first piece of a text -/

/-- A run of a class of characters in front of another class. -/
theorem span_append {p : Char → Bool} {cs after : List Char} (all : ∀ d ∈ cs, p d = true)
    (stop : ∀ d ∈ after.head?, p d = false) :
    (cs ++ after).takeWhile p = cs ∧ (cs ++ after).dropWhile p = after := by
  rw [List.takeWhile_append_of_pos all, List.dropWhile_append_of_pos all]
  cases after with
  | nil => exact ⟨List.append_nil cs, rfl⟩
  | cons d after => simp [stop d rfl]

namespace Cut

/-- A run stops in front of the first character that is not of the class. -/
theorem run_append {p : Char → Bool} (piece : List Char → Piece) (c : Char)
    {cs after : List Char} (all : ∀ d ∈ cs, p d = true) (stop : ∀ d ∈ after.head?, p d = false) :
    run p piece c (cs ++ after) = ⟨piece (c :: cs), c :: cs, after⟩ := by
  rw [run, (span_append all stop).1, (span_append all stop).2]

theorem withEqual_alone (alone joined : TokenKind) (c : Char) {after : List Char}
    (stop : ∀ d ∈ after.head?, (d == '=') = false) :
    withEqual alone joined c after = ⟨.token alone, [c], after⟩ := by
  rw [withEqual]
  rintro cs rfl
  cases stop '=' rfl

/-- Without a second slash and without an asterisk it is the division sign. -/
theorem slash_alone {after : List Char}
    (stop : ∀ d ∈ after.head?, (d == '/' || d == '*') = false) :
    slash after = ⟨.token .slash, ['/'], after⟩ := by
  rw [slash]
  · rintro cs rfl
    cases stop '/' rfl
  · rintro cs rfl
    cases stop '*' rfl

theorem symbol_unexpected {c : Char} (h : c ∉ marks) (after : List Char) :
    symbol c after = ⟨.unexpected c, [c], after⟩ := by
  rw [symbol]
  · rfl
  all_goals
    rintro rfl
    exact h (by decide)

end Cut

/-- A maximal run of digits is cut off whole. -/
theorem cut_digits {c : Char} {cs after : List Char} (first : c.isDigit = true)
    (all : ∀ d ∈ cs, d.isDigit = true) (maximal : Maximal (c :: cs) after) :
    cut c (cs ++ after) = ⟨.token .number, c :: cs, after⟩ := by
  rw [cut, if_neg (by simp [isBlank_of_isDigit first]), if_pos first]
  exact Cut.run_append _ c all ((maximal_digits first).mp maximal)

theorem cut_word {c : Char} {cs after : List Char} (first : isLetter c = true)
    (all : ∀ d ∈ cs, isNameChar d = true) (maximal : Maximal (c :: cs) after) :
    cut c (cs ++ after) = ⟨.token (.ofWord (String.ofList (c :: cs))), c :: cs, after⟩ := by
  rw [cut, if_neg (by simp [isBlank_of_isLetter first]),
    if_neg (by simp [isDigit_of_isLetter first]), if_pos first]
  exact Cut.run_append _ c all ((maximal_word first).mp maximal)

/-- In front of `after` the text `text` is cut off as a token of the kind. -/
def CutsToken (kind : TokenKind) (text after : List Char) : Prop :=
  ∃ c cs, text = c :: cs ∧ cut c (cs ++ after) = ⟨.token kind, text, after⟩

theorem cutsToken_keyword {c : Char} {cs after : List Char} (first : isLetter c = true)
    (all : cs.all isNameChar = true) (maximal : Maximal (c :: cs) after) :
    CutsToken (.ofWord (String.ofList (c :: cs))) (c :: cs) after :=
  ⟨c, cs, rfl, cut_word first (List.all_eq_true.mp all) maximal⟩

/-- One case for each fixed spelling. -/
theorem cutsToken_fixed {kind : TokenKind} {text : String} {after : List Char}
    (h : text ∈ spellings kind) (maximal : Maximal text.toList after) :
    CutsToken kind text.toList after := by
  cases kind <;> simp only [spellings, List.mem_cons, List.not_mem_nil, or_false] at h
  case assign | less | greater =>
    subst h
    exact ⟨_, _, rfl, Cut.withEqual_alone _ _ _ maximal⟩
  case slash =>
    subst h
    exact ⟨_, _, rfl, Cut.slash_alone maximal⟩
  case when | otherwise | loop | out =>
    subst h
    exact cutsToken_keyword (by decide) (by decide) maximal
  case and | or | not =>
    rcases h with rfl | rfl
    · exact ⟨_, _, rfl, rfl⟩
    · exact cutsToken_keyword (by decide) (by decide) maximal
  all_goals
    subst h
    exact ⟨_, _, rfl, rfl⟩

/-- Every lexeme that ends where it must is cut off as a token of its kind. -/
theorem Lexical.Lexeme.cutsToken {kind : TokenKind} {text after : List Char} (h : Lexeme kind text)
    (maximal : Maximal text after) : CutsToken kind text after := by
  cases h with
  | fixed spelled => exact cutsToken_fixed spelled maximal
  | number first all => exact ⟨_, _, rfl, cut_digits first all maximal⟩
  | name first all unreserved =>
      have cuts := cut_word first all maximal
      rw [ofWord_of_not_mem unreserved] at cuts
      exact ⟨_, _, rfl, cuts⟩

/-! ## A scanning step along a reading -/

section Step

variable {p : Position} {c : Char} {cs text rest : List Char}

theorem nextItem_of_item {piece : Piece} {item : Item} (cuts : cut c cs = ⟨piece, text, rest⟩)
    (found : piece.item? p text = some item) :
    nextItem p (c :: cs) = (item, ⟨rest, p.after text⟩) := by
  simp only [nextItem, cuts, found]

theorem nextItem_of_gap (cuts : cut c cs = ⟨.gap, text, rest⟩) :
    nextItem p (c :: cs) = nextItem (p.after text) rest := by
  rw [nextItem]
  simp only [cuts, Piece.item?]

/-- Blanks may be passed over one by one. -/
theorem nextItem_blank (blank : isBlank c = true) :
    nextItem p (c :: cs) = nextItem (p.next c) cs := by
  have run : ∀ (q : Position) {d : Char} (ds : List Char), isBlank d = true →
      nextItem q (d :: ds) =
        nextItem (q.after (d :: ds.takeWhile isBlank)) (ds.dropWhile isBlank) := by
    intro q d ds blank
    exact nextItem_of_gap (by rw [cut, if_pos blank]; rfl)
  rw [run p cs blank]
  cases cs with
  | nil => rfl
  | cons d ds =>
      cases next : isBlank d with
      | true =>
          rw [run (p.next c) ds next]
          simp [next]
      | false => simp [next]

/-- A line comment is passed over as a gap, up to its line feed. -/
theorem nextItem_line {body : List Char} (h : '\n' ∉ body)
    (stop : ∀ d ∈ rest.head?, (d != '\n') = false) :
    nextItem p ('/' :: '/' :: body ++ rest) = nextItem (p.after ('/' :: '/' :: body)) rest := by
  have all : ∀ d ∈ body, (d != '\n') = true := by
    intro d mem
    rw [bne_iff_ne]
    rintro rfl
    exact h mem
  have cuts : cut '/' ('/' :: (body ++ rest)) = ⟨.gap, '/' :: '/' :: body, rest⟩ := by
    change Cut.slash ('/' :: (body ++ rest)) = _
    rw [Cut.slash, (span_append all stop).1, (span_append all stop).2]
  exact nextItem_of_gap cuts

/-- A block comment that is closed is passed over in the same way. -/
theorem nextItem_block {tail : List Char} (h : CommentTail tail) :
    nextItem p ('/' :: '*' :: tail ++ rest) = nextItem (p.after ('/' :: '*' :: tail)) rest := by
  have closes : afterComment? 1 (tail ++ rest) = some rest := by
    rw [afterComment?_tail h, afterComment?]
  have cuts : cut '/' ('*' :: (tail ++ rest)) = ⟨.gap, '/' :: '*' :: tail, rest⟩ := by
    change Cut.slash ('*' :: (tail ++ rest)) = _
    simp [Cut.slash, closes]
  exact nextItem_of_gap cuts

/-- A step passes over a gap. -/
theorem nextItem_skip {gap : List Char} (h : Gap gap) :
    nextItem p (gap ++ rest) = nextItem (p.after gap) rest := by
  induction h generalizing p with
  | nil => rfl
  | blank blank _ ih => exact (nextItem_blank blank).trans ih
  | @line body text comment gap ih =>
      have feed : ∀ d ∈ ('\n' :: text ++ rest).head?, (d != '\n') = false := by
        rintro d ⟨⟩
        rfl
      rw [List.append_assoc, nextItem_line comment feed, Position.after_append]
      exact (nextItem_blank (by decide)).trans ih
  | @block tail text comment gap ih =>
      rw [List.append_assoc, nextItem_block comment, Position.after_append]
      exact ih

/-- By induction on the gap: behind it is the end token. -/
theorem nextItem_last {gap : List Char} (h : LastGap gap) :
    nextItem p gap = (.token (.endAt (p.after gap)), ⟨[], p.after gap⟩) := by
  cases h with
  | closed gap =>
      have skipped : nextItem p (_ ++ []) = _ := nextItem_skip gap
      rwa [List.append_nil, nextItem] at skipped
  | @line gap body closed comment =>
      have passed : nextItem (p.after gap) (_ ++ []) = _ := nextItem_line comment (by simp)
      rw [List.append_nil, nextItem, ← Position.after_append] at passed
      rw [nextItem_skip closed, passed]

end Step

/-- A step stops at the text of an item, with the item. -/
theorem nextItem_described {read text after : List Char} {item : Item}
    (h : Describes read text after item) :
    nextItem (.behind read) (text ++ after) = (item, ⟨after, .behind (read ++ text)⟩) := by
  rw [← Position.after_behind]
  cases h with
  | token lexeme maximal =>
      obtain ⟨c, cs, rfl, cuts⟩ := lexeme.cutsToken maximal
      exact nextItem_of_item cuts (by rw [Piece.item?, Position.after_behind])
  | @unexpected c _ nothing =>
      have cuts : cut c after = ⟨.unexpected c, [c], after⟩ := by
        simp only [cut, nothing.1, nothing.2.1, nothing.2.2.1, Bool.false_eq_true, if_false]
        exact Cut.symbol_unexpected nothing.2.2.2 after
      exact nextItem_of_item cuts rfl
  | @single c d after paired other =>
      have cuts : cut c (d :: after) = ⟨.expected c d, [c], d :: after⟩ := by
        rcases paired with rfl | rfl
        · exact if_neg other
        · exact if_neg other
      exact nextItem_of_item cuts (by rw [Piece.item?, Position.after_behind])
  | singleLast paired =>
      rcases paired with rfl | rfl
      · exact nextItem_of_item rfl rfl
      · exact nextItem_of_item rfl rfl
  | @unclosed body open_ =>
      have cuts : cut '/' ('*' :: body) = ⟨.unclosed, '/' :: '*' :: body, []⟩ := by
        change Cut.slash ('*' :: body) = _
        simp [Cut.slash, afterComment?_eq_none open_]
      rw [List.append_nil]
      exact nextItem_of_item cuts rfl

/-! ## The scan of a text -/

theorem Lexical.Lexeme.kind_ne {kind : TokenKind} {text : List Char} (h : Lexeme kind text) :
    kind ≠ .endOfInput := by
  rintro rfl
  cases h with
  | fixed spelled => cases spelled

theorem Lexical.Describes.kind_ne {read text after : List Char} {t : Token}
    (h : Describes read text after (.token t)) : t.kind ≠ .endOfInput := by
  cases h with
  | token lexeme _ => exact lexeme.kind_ne

/-- The end token closes the scan. -/
theorem scanFrom_end {found : Array Item} {cursor after : Cursor} {t : Token}
    (step : cursor.next = (.token t, after)) (last : t.kind = .endOfInput) :
    scanFrom found cursor = ⟨found.toList, t⟩ := by
  rw [scanFrom]
  split
  · rename_i same
    cases step.symm.trans same
  · rename_i same
    cases step.symm.trans same
    rw [if_pos last]

/-- Any other item is found, and the scan goes on behind it. -/
theorem scanFrom_item {found : Array Item} {cursor after : Cursor} {item : Item}
    (step : cursor.next = (item, after)) (inside : ∀ t, item = .token t → t.kind ≠ .endOfInput) :
    scanFrom found cursor = scanFrom (found.push item) after := by
  rw [scanFrom]
  split
  · rename_i same
    cases step.symm.trans same
    rfl
  · rename_i same
    cases step.symm.trans same
    rw [if_neg (inside _ rfl)]

/-- From any place on, the scan gives the items of a reading. -/
theorem scanFrom_of_reading {read rest : List Char} {items : List Item}
    (h : Reading read rest items) (found : Array Item) :
    scanFrom found ⟨rest, .behind read⟩ =
      ⟨found.toList ++ items, .endAt (.behind (read ++ rest))⟩ := by
  induction h generalizing found with
  | @done read gap last =>
      have step : Cursor.next ⟨gap, .behind read⟩ = _ := nextItem_last last
      rw [Position.after_behind] at step
      rw [scanFrom_end step rfl, List.append_nil]
  | @item read gap text after item items skipped described _ ih =>
      have step : Cursor.next ⟨gap ++ text ++ after, .behind read⟩ =
          (item, ⟨after, .behind (read ++ gap ++ text)⟩) := by
        rw [Cursor.next, List.append_assoc, nextItem_skip skipped, Position.after_behind]
        exact nextItem_described described
      have inside : ∀ t, item = .token t → t.kind ≠ .endOfInput := by
        rintro t rfl
        exact described.kind_ne
      rw [scanFrom_item step inside, ih]
      simp

/-- A source has no reading but the one the scan gives. -/
theorem scan_of_reading {source : String} {items : List Item}
    (h : Reading [] source.toList items) : scan source = ⟨items, .endAt (.behind source.toList)⟩ :=
  scanFrom_of_reading h #[]

theorem scan_reading (source : String) : Reading [] source.toList (scan source).items := by
  obtain ⟨items, reading⟩ := readable [] source.toList
  rwa [scan_of_reading reading]

theorem scan_finish (source : String) : (scan source).finish = .endAt (.behind source.toList) := by
  rw [scan_of_reading (scan_reading source)]

/-- Scanning loses nothing.  A source has one reading by the lexical grammar, and the items of
this reading are what its scan finds.  Behind them stands the end token.  In a source of fewer
than `2147483647` characters all positions are exact: they count the line feeds before them and
the characters behind the last of these. -/
theorem scan_reading_iff (source : String) (short : source.length < 2147483647) :
    (∀ items, Reading [] source.toList items ↔ items = (scan source).items) ∧
      (scan source).finish = .endAt (.behind source.toList) ∧
      ∀ read, read <+: source.toList →
        (Position.behind read).line.toInt = 1 + read.count '\n' ∧
        (Position.behind read).column.toInt =
          1 + (read.reverse.takeWhile (· != '\n')).length := by
  refine ⟨fun items => ⟨fun reading => ?_, fun same => ?_⟩, scan_finish source,
    fun read part => ?_⟩
  · rw [scan_of_reading reading]
  · rw [same]
    exact scan_reading source
  · have length := part.length_le
    rw [String.length_toList] at length
    exact Position.toInt_behind (by omega)

/-- A name, a `&` without its second, and a block comment that is never closed. -/
theorem scan_reading_iff_faults :
    "x\n&y /* z".length < 2147483647 ∧
      Reading [] "x\n&y /* z".toList
        [.token ⟨.name, "x", ⟨1, 1⟩, ⟨1, 2⟩⟩, .fault (.expectedChar ⟨2, 2⟩ '&' 'y'),
          .token ⟨.name, "y", ⟨2, 2⟩, ⟨2, 3⟩⟩, .fault (.unterminatedComment ⟨2, 4⟩)] := by
  have short : "x\n&y /* z".length < 2147483647 := by decide
  exact ⟨short, ((scan_reading_iff _ short).1 _).mpr (by decide +kernel)⟩

/-! ## Words -/

/-- By induction on the words, each of which gets its place from what was read before it. -/
theorem Lexical.Spells.reading {text : List Char} {words : List Word} (h : Spells text words)
    (read : List Char) :
    ∃ tokens : List Token, Reading read text (tokens.map .token) ∧
      tokens.map Token.word = words := by
  induction h generalizing read with
  | done last => exact ⟨[], .done last, rfl⟩
  | @word gap after word words skipped lexeme maximal _ ih =>
      obtain ⟨tokens, reading, same⟩ := ih (read ++ gap ++ word.text.toList)
      refine ⟨_ :: tokens, .item skipped (.token lexeme maximal) reading, ?_⟩
      simp [Token.word, same]

/-- A reading without faults spells its words, wherever they stand. -/
theorem Lexical.Reading.spells {read text : List Char} {items : List Item}
    (h : Reading read text items) {tokens : List Token} (same : items = tokens.map .token) :
    Spells text (tokens.map Token.word) := by
  induction h generalizing tokens with
  | done last =>
      rw [List.map_eq_nil_iff.mp same.symm]
      exact .done last
  | @item read gap text after item items skipped described _ ih =>
      obtain ⟨t, tokens, rfl, rfl, rfl⟩ := List.map_eq_cons_iff.mp same.symm
      cases described with
      | @token kind _ _ lexeme maximal =>
          have shown : (Word.mk kind (String.ofList text)).text.toList = text :=
            String.toList_ofList
          rw [← shown] at lexeme maximal
          have whole := Spells.word skipped lexeme maximal (ih rfl)
          rwa [shown] at whole

/-- A source spells words exactly if its scan finds tokens with these words and no fault. -/
theorem spells_iff_scan {source : String} {words : List Word} :
    Spells source.toList words ↔
      ∃ tokens : List Token, (scan source).items = tokens.map .token ∧
        tokens.map Token.word = words := by
  constructor
  · intro spells
    obtain ⟨tokens, reading, same⟩ := spells.reading []
    exact ⟨tokens, by rw [scan_of_reading reading], same⟩
  · rintro ⟨tokens, items, rfl⟩
    exact (scan_reading source).spells items

/-- A source spells its words in one way. -/
theorem Lexical.Spells.unique {source : String} {words others : List Word}
    (h : Spells source.toList words) (h' : Spells source.toList others) : words = others := by
  obtain ⟨tokens, items, rfl⟩ := spells_iff_scan.mp h
  obtain ⟨tokens', items', rfl⟩ := spells_iff_scan.mp h'
  rw [items, List.map_inj_right fun _ _ => Item.token.inj] at items'
  rw [items']

end WhenLoop
