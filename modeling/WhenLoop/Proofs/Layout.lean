import WhenLoop.Proofs.Scanning

/-!
# Words with gaps between them

A text of words has a separator before the first word and one behind every word.  A separator
starts with a blank, and a gap of any sort may follow.  A blank belongs to no token, so every
word ends where its separator starts (`maximal_of_blank`), and what is inside a gap is never
read as a word.  So scanning a text of words gives these words back, however it is laid out
(`scan_layout`).

Two texts of words with a line feed between them are one text of all their words
(`Spells.append`).  The line feed ends a line comment at the end of the first text, and it keeps
the last word of the first text from the first word of the second.
-/

namespace WhenLoop

namespace Lexical

/-- A blank and a gap behind it. -/
inductive Separator : List Char → Prop where
  | blank {c : Char} {gap : List Char} : isBlank c = true → Gap gap → Separator (c :: gap)

/-- The text of words, with a text before the first and a text behind each. -/
def layout : (lead : List Char) → List (Word × List Char) → List Char
  | lead, [] => lead
  | lead, (word, separator) :: parts => lead ++ word.text.toList ++ layout separator parts

theorem Separator.gap {text : List Char} (h : Separator text) : Gap text := by
  cases h with
  | blank blank gap => exact .blank blank gap

/-- No token goes on with a blank. -/
theorem prolongs_blank {c : Char} (blank : isBlank c = true) (text : List Char) :
    prolongs text c = false := by
  have noName := isNameChar_of_isBlank blank
  have noDigit : c.isDigit = false := (Bool.or_eq_false_iff.mp noName).2
  have noMark : ∀ d, isBlank d = false → (c == d) = false := by
    intro d other
    rw [beq_eq_false_iff_ne]
    rintro rfl
    rw [blank] at other
    cases other
  cases text with
  | nil => rfl
  | cons first more =>
      simp only [prolongs, noName, noDigit]
      split
      · rfl
      split
      · rfl
      split
      · exact noMark '=' (by decide)
      · exact noMark '=' (by decide)
      · exact noMark '=' (by decide)
      · rw [noMark '/' (by decide), noMark '*' (by decide), Bool.or_self]
      · rfl

/-- Every word ends in front of a blank. -/
theorem maximal_of_blank {c : Char} (blank : isBlank c = true) (text after : List Char) :
    Maximal text (c :: after) := by
  rintro d ⟨⟩
  exact prolongs_blank blank text

/-- In front of a separator every token ends. -/
theorem Separator.maximal {separator : List Char} (h : Separator separator)
    (text : List Char) (parts : List (Word × List Char)) :
    Maximal text (layout separator parts) := by
  cases h with
  | blank blank gap =>
      cases parts with
      | nil => exact maximal_of_blank blank text _
      | cons part parts =>
          rw [layout, List.append_assoc]
          exact maximal_of_blank blank text _

/-- A text of words spells the words. -/
theorem spells_layout {lead : List Char} {parts : List (Word × List Char)} (h : Gap lead)
    (each : ∀ part ∈ parts, Lexeme part.1.kind part.1.text.toList ∧ Separator part.2) :
    Spells (layout lead parts) (parts.map Prod.fst) := by
  induction parts generalizing lead with
  | nil => exact .done (.closed h)
  | cons part parts ih =>
      obtain ⟨⟨lexeme, separator⟩, others⟩ := List.forall_mem_cons.mp each
      exact .word h lexeme (separator.maximal _ _) (ih separator.gap others)

/-- What follows behind a blank makes no difference to where a token ends. -/
theorem Maximal.append {text after : List Char} (h : Maximal text after) {c : Char}
    (blank : isBlank c = true) (more : List Char) : Maximal text (after ++ c :: more) := by
  cases after with
  | nil => exact maximal_of_blank blank text more
  | cons d after => exact h

/-- With a line feed between them, two texts spell the words of both. -/
theorem Spells.append {text more : List Char} {words others : List Word} (h : Spells text words)
    (h' : Spells more others) : Spells (text ++ '\n' :: more) (words ++ others) := by
  induction h with
  | done last =>
      rw [← List.singleton_append, ← List.append_assoc]
      exact h'.skip last.newline
  | word gap lexeme maximal _ ih =>
      rw [List.append_assoc]
      exact .word gap lexeme (maximal.append (by decide) more) ih

/-- Words with a space between any two are spelled. -/
theorem spells_spaced {words : List Word} (each : ∀ w ∈ words, Lexeme w.kind w.text.toList) :
    Spells (" ".intercalate (words.map Word.text)).toList words := by
  induction words with
  | nil => exact .done (.closed .nil)
  | cons w words ih =>
      obtain ⟨lexeme, others⟩ := List.forall_mem_cons.mp each
      cases words with
      | nil =>
          have ends : Maximal w.text.toList [] := by rintro c ⟨⟩
          have spells := Spells.word .nil lexeme ends (.done (.closed .nil))
          simpa using spells
      | cons v words =>
          have space : isBlank ' ' = true := by decide
          have behind := (ih others).skip (.blank space .nil)
          have spells := Spells.word .nil lexeme (maximal_of_blank space _ _) behind
          simpa using spells

/-- A line before others adds its words to theirs. -/
theorem Spells.line {text next : String} {texts : List String} {words others : List Word}
    (h : Spells text.toList words) (h' : Spells ("\n".intercalate (next :: texts)).toList others) :
    Spells ("\n".intercalate (text :: next :: texts)).toList (words ++ others) := by
  rw [String.intercalate_cons_cons, String.toList_append, String.toList_append, List.append_assoc]
  exact h.append h'

end Lexical

open Lexical

/-- Scanning undoes layout.  Words of any kind and spelling, with separators before, between
and behind them, are scanned back one by one, and no fault is found. -/
theorem scan_layout {lead : List Char} {parts : List (Word × List Char)} (first : Separator lead)
    (each : ∀ part ∈ parts, Lexeme part.1.kind part.1.text.toList ∧ Separator part.2) :
    ∃ tokens : List Token,
      (scan (String.ofList (layout lead parts))).items = tokens.map .token ∧
      tokens.map Token.word = parts.map Prod.fst ∧
      (scan (String.ofList (layout lead parts))).finish.kind = .endOfInput := by
  have spells := spells_layout first.gap each
  rw [← String.toList_ofList (l := layout lead parts)] at spells
  obtain ⟨tokens, items, words⟩ := spells_iff_scan.mp spells
  refine ⟨tokens, items, words, ?_⟩
  rw [scan_finish]
  rfl

/-- Both spellings of `and`, with comments that hold a word and the ends of comments. -/
theorem scan_layout_comment :
    (Separator " ".toList ∧
      ∀ part ∈ [(Word.mk .and "and", "\t/*/*&&*/*/".toList), (⟨.and, "&&"⟩, " //*/\n".toList)],
        Lexeme part.1.kind part.1.text.toList ∧ Separator part.2) ∧
      ∃ tokens : List Token, (scan " and\t/*/*&&*/*/&& //*/\n").items = tokens.map .token ∧
        tokens.map Token.word = [⟨.and, "and"⟩, ⟨.and, "&&"⟩] := by
  have first : Separator " ".toList := .blank (by decide) .nil
  have nested : Separator "\t/*/*&&*/*/".toList :=
    .blank (by decide) (.block (.nested (.char rfl (.char rfl .close)) .close) .nil)
  have line : Separator " //*/\n".toList :=
    .blank (by decide) (@Gap.line "*/".toList [] (by decide) .nil)
  have each : ∀ part ∈
      [(Word.mk .and "and", "\t/*/*&&*/*/".toList), (⟨.and, "&&"⟩, " //*/\n".toList)],
      Lexeme part.1.kind part.1.text.toList ∧ Separator part.2 := by
    rw [List.forall_mem_cons, List.forall_mem_singleton]
    exact ⟨⟨.fixed (by decide), nested⟩, .fixed (by decide), line⟩
  obtain ⟨tokens, items, words, -⟩ := scan_layout first each
  exact ⟨⟨first, each⟩, tokens, items, words⟩

end WhenLoop
