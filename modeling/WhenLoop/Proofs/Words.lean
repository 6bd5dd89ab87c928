import WhenLoop.Proofs.Acceptance
import WhenLoop.Proofs.Scanning

/-!
# A program is told by its words

The rules of the grammar ask for the kinds and the texts of tokens and never for their places.
So tokens with the same words derive the same trees (`Phrase.of_words` and those after it), and
whether a source is accepted, and with which tree, depends on the words that it spells
(`readProgram_eq_ok_iff_words`).

This takes positions out of everything that is said of whole sources.
-/

namespace WhenLoop

open Lexical

/-- The token of a word, at the place where a source starts. -/
def Word.token (w : Word) : Token := ⟨w.kind, w.text, .start, .start⟩

@[simp]
theorem Word.token_kind (w : Word) : w.token.kind = w.kind := rfl

@[simp]
theorem Word.token_text (w : Word) : w.token.text = w.text := rfl

/-! ## Tokens with the same words -/

/-- The tokens differ in their places only. -/
def SameWords (us ts : List Token) : Prop := us.map Token.word = ts.map Token.word

namespace SameWords

variable {us ts rs : List Token} {t : Token}

theorem nil (h : SameWords us []) : us = [] := List.map_eq_nil_iff.mp h

/-- Tokens with the words of others have a first one if the others have. -/
theorem cons (h : SameWords us (t :: ts)) :
    ∃ u vs, us = u :: vs ∧ u.kind = t.kind ∧ u.text = t.text ∧ SameWords vs ts := by
  obtain ⟨u, vs, rfl, word, same⟩ := List.map_eq_cons_iff.mp h
  exact ⟨u, vs, rfl, congrArg Word.kind word, congrArg Word.text word, same⟩

/-- Tokens with the words of two lists are in two parts as well. -/
theorem append (h : SameWords us (ts ++ rs)) :
    ∃ us₁ us₂, us = us₁ ++ us₂ ∧ SameWords us₁ ts ∧ SameWords us₂ rs := by
  rw [SameWords, List.map_append] at h
  exact List.map_eq_append_iff.mp h

theorem singleton (h : SameWords us [t]) : ∃ u, us = [u] ∧ u.kind = t.kind ∧ u.text = t.text := by
  obtain ⟨u, vs, rfl, kind, text, none⟩ := h.cons
  rw [none.nil]
  exact ⟨u, rfl, kind, text⟩

/-- Two lists with a token between them. -/
theorem between (h : SameWords us (ts ++ t :: rs)) :
    ∃ us₁ u us₂, us = us₁ ++ u :: us₂ ∧ SameWords us₁ ts ∧ u.kind = t.kind ∧
      SameWords us₂ rs := by
  obtain ⟨us₁, us₂, rfl, left, right⟩ := h.append
  obtain ⟨u, us₂, rfl, kind, -, right⟩ := right.cons
  exact ⟨us₁, u, us₂, rfl, left, kind, right⟩

end SameWords

/-! ## The grammar asks for words only -/

namespace Grammar

/-- A derivation of a phrase looks at the words of its tokens only.  The induction is on the
derivation, and the tokens are taken apart as the rules put them together. -/
theorem Phrase.of_words {rank : Rank} {levels k : Nat} {ts : List Token} {node : Node}
    (h : Phrase rank levels k ts node) {us : List Token} (same : SameWords us ts) :
    Phrase rank levels k us node := by
  induction h generalizing us with
  | number kind value le =>
      obtain ⟨u, rfl, sameKind, sameText⟩ := same.singleton
      exact .number (sameKind.trans kind) (by rw [sameText, value]) le
  | name kind =>
      obtain ⟨u, rfl, sameKind, sameText⟩ := same.singleton
      rw [← sameText]
      exact .name (sameKind.trans kind)
  | group opens _ closes ih =>
      obtain ⟨l, us, rfl, left, -, same⟩ := same.cons
      obtain ⟨us, r, none, rfl, inner, right, last⟩ := same.between
      rw [last.nil]
      exact .group (left.trans opens) (ih inner) (right.trans closes)
  | ofPrimary _ ih => exact .ofPrimary (ih same)
  | negative sign _ integer ih =>
      obtain ⟨op, us, rfl, kind, -, same⟩ := same.cons
      exact .negative (kind.trans sign) (ih same) integer
  | ofUnary _ ih => exact .ofUnary (ih same)
  | product _ sign _ il ir ihl ihr =>
      obtain ⟨ls, op, rs, rfl, left, kind, right⟩ := same.between
      rw [← kind] at sign
      exact .product (ihl left) sign (ihr right) il ir
  | ofFactor _ ih => exact .ofFactor (ih same)
  | sum _ sign _ il ir ihl ihr =>
      obtain ⟨ls, op, rs, rfl, left, kind, right⟩ := same.between
      rw [← kind] at sign
      exact .sum (ihl left) sign (ihr right) il ir
  | ofTerm _ ih => exact .ofTerm (ih same)
  | compare _ sign _ il ir ihl ihr =>
      obtain ⟨ls, op, rs, rfl, left, kind, right⟩ := same.between
      rw [← kind] at sign
      exact .compare (ihl left) sign (ihr right) il ir
  | ofComparison _ ih => exact .ofComparison (ih same)
  | negation sign _ ih =>
      obtain ⟨op, us, rfl, kind, -, same⟩ := same.cons
      exact .negation (kind.trans sign) (ih same)
  | ofNot _ ih => exact .ofNot (ih same)
  | conjunction _ sign _ ihl ihr =>
      obtain ⟨ls, op, rs, rfl, left, kind, right⟩ := same.between
      exact .conjunction (ihl left) (kind.trans sign) (ihr right)
  | ofAnd _ ih => exact .ofAnd (ih same)
  | disjunction _ sign _ ihl ihr =>
      obtain ⟨ls, op, rs, rfl, left, kind, right⟩ := same.between
      exact .disjunction (ihl left) (kind.trans sign) (ihr right)

theorem Expression.of_words {most levels : Nat} {ts us : List Token} {node : Node}
    (h : Expression most levels ts node) (same : SameWords us ts) :
    Expression most levels us node := by
  cases h with
  | whole phrase le integer => exact .whole (phrase.of_words same) le integer

theorem Condition.of_words {most levels : Nat} {ts us : List Token} {node : Node}
    (h : Condition most levels ts node) (same : SameWords us ts) :
    Condition most levels us node := by
  cases h with
  | whole phrase le => exact .whole (phrase.of_words same) le

mutual

/-- A derivation of a statement looks at words only. -/
theorem Statement.of_words {most : Nat} :
    ∀ {levels : Nat} {ts : List Token} {node : Node}, Statement most levels ts node →
      ∀ {us : List Token}, SameWords us ts → Statement most levels us node
  | _, _, _, .assign ht hs h he, us, same => by
      obtain ⟨target, us, rfl, kind, text, same⟩ := same.cons
      obtain ⟨sign, us, rfl, kind', -, same⟩ := same.cons
      obtain ⟨us, stop, none, rfl, value, kind'', last⟩ := same.between
      rw [last.nil, ← text]
      exact .assign (kind.trans ht) (kind'.trans hs) (h.of_words value) (kind''.trans he)
  | _, _, _, .out hw h he, us, same => by
      obtain ⟨word, us, rfl, kind, -, same⟩ := same.cons
      obtain ⟨us, stop, none, rfl, value, kind', last⟩ := same.between
      rw [last.nil]
      exact .out (kind.trans hw) (h.of_words value) (kind'.trans he)
  | _, _, _, .when hw hl h hr hb, us, same => by
      obtain ⟨word, us, rfl, kind, -, same⟩ := same.cons
      obtain ⟨l, us, rfl, kind', -, same⟩ := same.cons
      obtain ⟨cs, r, us, rfl, test, kind'', branch⟩ := same.between
      exact .when (kind.trans hw) (kind'.trans hl) (h.of_words test) (kind''.trans hr)
        (hb.of_words branch)
  | _, _, _, .whenElse hw hl h hr hb closed ho hb', us, same => by
      obtain ⟨us, other, vs, rfl, same, elseKind, branch'⟩ := same.between
      obtain ⟨word, us, rfl, kind, -, same⟩ := same.cons
      obtain ⟨l, us, rfl, kind', -, same⟩ := same.cons
      obtain ⟨cs, r, us, rfl, test, kind'', branch⟩ := same.between
      exact .whenElse (kind.trans hw) (kind'.trans hl) (h.of_words test) (kind''.trans hr)
        (hb.of_words branch) closed (elseKind.trans ho) (hb'.of_words branch')
  | _, _, _, .loop hw hl h hr hb, us, same => by
      obtain ⟨word, us, rfl, kind, -, same⟩ := same.cons
      obtain ⟨l, us, rfl, kind', -, same⟩ := same.cons
      obtain ⟨cs, r, us, rfl, test, kind'', body⟩ := same.between
      exact .loop (kind.trans hw) (kind'.trans hl) (h.of_words test) (kind''.trans hr)
        (hb.of_words body)
  | _, _, _, .block hl hs hr, us, same => by
      obtain ⟨l, us, rfl, kind, -, same⟩ := same.cons
      obtain ⟨us, r, none, rfl, inner, kind', last⟩ := same.between
      rw [last.nil]
      exact .block (kind.trans hl) (hs.of_words inner) (kind'.trans hr)

theorem Statements.of_words {most : Nat} :
    ∀ {levels : Nat} {ts : List Token} {nodes : List Node}, Statements most levels ts nodes →
      ∀ {us : List Token}, SameWords us ts → Statements most levels us nodes
  | _, _, _, .nil, us, same => by
      rw [same.nil]
      exact .nil
  | _, _, _, .cons h hs, us, same => by
      obtain ⟨us, vs, rfl, first, others⟩ := same.append
      exact .cons (h.of_words first) (hs.of_words others)

end

/-- A derivation of a program looks at words only, so it can be moved to another source. -/
theorem Program.of_words {most levels : Nat} {ts us : List Token} {tree : Node}
    (h : Program most levels ts tree) (same : SameWords us ts) : Program most levels us tree := by
  cases h with
  | whole statements => exact .whole (statements.of_words same)

end Grammar

open Grammar

/-- The words derive the tree within the limits of the language. -/
def Derives (words : List Word) (tree : Node) : Prop :=
  Program maxOperators maxNesting (words.map Word.token) tree

/-- Tokens have the words of the tokens that their own words make. -/
theorem sameWords_tokens (words : List Word) {tokens : List Token}
    (same : tokens.map Token.word = words) : SameWords tokens (words.map Word.token) := by
  rw [SameWords, same, List.map_map]
  exact (List.map_id words).symm

/-- A source is accepted exactly if it spells words that derive a tree. -/
theorem readProgram_eq_ok_iff_words {source : String} {tree : Node} :
    readProgram source = .ok tree ↔ ∃ words, Spells source.toList words ∧ Derives words tree := by
  rw [readProgram_eq_ok]
  constructor
  · rintro ⟨silent, rfl⟩
    obtain ⟨tokens, items, derives⟩ := parse_sound silent
    have same := sameWords_tokens (tokens.map Token.word) rfl
    exact ⟨_, spells_iff_scan.mpr ⟨tokens, items, rfl⟩, derives.of_words same.symm⟩
  · rintro ⟨words, spells, derives⟩
    obtain ⟨tokens, items, same⟩ := spells_iff_scan.mp spells
    exact parse_complete items (derives.of_words (sameWords_tokens words same))

end WhenLoop
