import WhenLoop.Proofs.Typing
import WhenLoop.Proofs.Words

/-!
# Concrete trees

Not every tree is the tree of a source.  A source has no literal for a negative integer, a
name in it is spelled as names are and is no reserved word, and an `else` in it goes with the
nearest `when`.  A tree that keeps to these three rules is *writable*.

The rules say nothing of where nodes may stand, and typing says nothing of how they are
spelled.  A list of statements that is both typed and writable is *concrete*.  The trees of
accepted sources are concrete (`readProgram_concrete`).
-/

namespace WhenLoop

open Lexical

namespace Node

/-- The literals and the names of the tree can be spelled, and no `else` in it would go with
another `when`. -/
inductive Writable : Node → Prop where
  | num {value : Int32} : 0 ≤ value → Writable (.num value)
  | var {name : String} : Lexeme .name name.toList → Writable (.var name)
  | arith {op : ArithOp} {left right : Node} :
      Writable left → Writable right → Writable (.arith op left right)
  | neg {operand : Node} : Writable operand → Writable (.neg operand)
  | compare {op : CompareOp} {left right : Node} :
      Writable left → Writable right → Writable (.compare op left right)
  | and {left right : Node} : Writable left → Writable right → Writable (.and left right)
  | or {left right : Node} : Writable left → Writable right → Writable (.or left right)
  | not {operand : Node} : Writable operand → Writable (.not operand)
  | nonzero {operand : Node} : Writable operand → Writable (.nonzero operand)
  | assign {target : String} {value : Node} :
      Lexeme .name target.toList → Writable value → Writable (.assign target value)
  | when {condition thenBranch : Node} :
      Writable condition → Writable thenBranch → Writable (.when condition thenBranch none)
  | whenElse {condition thenBranch elseBranch : Node} :
      Writable condition → Writable thenBranch → thenBranch.endsOpen = false →
      Writable elseBranch → Writable (.when condition thenBranch (some elseBranch))
  | loop {condition body : Node} :
      Writable condition → Writable body → Writable (.loop condition body)
  | out {value : Node} : Writable value → Writable (.out value)
  | seq {statements : List Node} :
      (∀ node ∈ statements, Writable node) → Writable (.seq statements)

/-- A list of statements that is typed and writable. -/
inductive Concrete : Node → Prop where
  | seq {statements : List Node} :
      (∀ node ∈ statements, node.IsStatement) → (∀ node ∈ statements, node.Writable) →
      Concrete (.seq statements)

/-- What the parser puts around an integer in a condition's place can be written too. -/
theorem Writable.asCondition {node : Node} (h : node.Writable) : node.asCondition.Writable := by
  rw [Node.asCondition]
  split
  · exact h
  · exact .nonzero h

end Node

/-! ## The grammar makes writable trees -/

/-- The texts of the tokens are such as tokens of their kinds can have. -/
def Legible (ts : List Token) : Prop := ∀ t ∈ ts, Lexeme t.kind t.text.toList

namespace Legible

variable {t : Token} {ts us : List Token}

@[simp]
theorem nil : Legible [] := List.forall_mem_nil _

@[simp]
theorem cons_iff : Legible (t :: ts) ↔ Lexeme t.kind t.text.toList ∧ Legible ts :=
  List.forall_mem_cons

@[simp]
theorem append_iff : Legible (ts ++ us) ↔ Legible ts ∧ Legible us := List.forall_mem_append

theorem head (h : Legible (t :: ts)) : Lexeme t.kind t.text.toList := (cons_iff.mp h).1

theorem tail (h : Legible (t :: ts)) : Legible ts := (cons_iff.mp h).2

theorem left (h : Legible (ts ++ us)) : Legible ts := (append_iff.mp h).1

theorem right (h : Legible (ts ++ us)) : Legible us := (append_iff.mp h).2

theorem of_spells {text : List Char} {words : List Word} (h : Spells text words) :
    Legible (words.map Word.token) := by
  induction h with
  | done => exact nil
  | word _ lexeme _ _ ih => exact cons_iff.mpr ⟨lexeme, ih⟩

end Legible

namespace Grammar

/-- By induction on the derivation.  A number that is spelled is no more than the greatest integer,
and a name that is spelled is an identifier. -/
theorem Phrase.writable {rank : Rank} {levels k : Nat} {ts : List Token} {node : Node}
    (h : Phrase rank levels k ts node) (legible : Legible ts) : node.Writable := by
  induction h with
  | @number _ value _ _ _ le =>
      refine .num (Int32.le_iff_toInt_le.mpr ?_)
      rw [Int32.toInt_ofNat_of_lt (by omega)]
      exact Int.natCast_nonneg value
  | name kind =>
      have lexeme := legible.head
      rw [kind] at lexeme
      exact .var lexeme
  | group _ _ _ ih => exact ih legible.left.tail
  | ofPrimary _ ih => exact ih legible
  | negative _ _ _ ih => exact .neg (ih legible.tail)
  | ofUnary _ ih => exact ih legible
  | product _ _ _ _ _ ihl ihr => exact .arith (ihl legible.left) (ihr legible.right.tail)
  | ofFactor _ ih => exact ih legible
  | sum _ _ _ _ _ ihl ihr => exact .arith (ihl legible.left) (ihr legible.right.tail)
  | ofTerm _ ih => exact ih legible
  | compare _ _ _ _ _ ihl ihr => exact .compare (ihl legible.left) (ihr legible.right.tail)
  | ofComparison _ ih => exact ih legible
  | negation _ _ ih => exact .not (ih legible.tail).asCondition
  | ofNot _ ih => exact ih legible
  | conjunction _ _ _ ihl ihr =>
      exact .and (ihl legible.left).asCondition (ihr legible.right.tail).asCondition
  | ofAnd _ ih => exact ih legible
  | disjunction _ _ _ ihl ihr =>
      exact .or (ihl legible.left).asCondition (ihr legible.right.tail).asCondition

theorem Expression.writable {most levels : Nat} {ts : List Token} {node : Node}
    (h : Expression most levels ts node) (legible : Legible ts) : node.Writable := by
  cases h with
  | whole phrase => exact phrase.writable legible

theorem Condition.writable {most levels : Nat} {ts : List Token} {node : Node}
    (h : Condition most levels ts node) (legible : Legible ts) : node.Writable := by
  cases h with
  | whole phrase => exact (phrase.writable legible).asCondition

mutual

/-- Likewise for statements.  The grammar itself forbids an `else` behind a statement that ends
open. -/
theorem Statement.writable {most : Nat} : ∀ {levels : Nat} {ts : List Token} {node : Node},
    Statement most levels ts node → Legible ts → node.Writable
  | _, _, _, .assign kind _ h _, legible => by
      have lexeme := legible.head
      rw [kind] at lexeme
      exact .assign lexeme (h.writable legible.tail.tail.left)
  | _, _, _, .out _ h _, legible => .out (h.writable legible.tail.left)
  | _, _, _, .when _ _ h _ hb, legible =>
      .when (h.writable legible.tail.tail.left) (hb.writable legible.tail.tail.right.tail)
  | _, _, _, .whenElse _ _ h _ hb closed _ hb', legible =>
      .whenElse (h.writable legible.left.tail.tail.left)
        (hb.writable legible.left.tail.tail.right.tail) closed (hb'.writable legible.right.tail)
  | _, _, _, .loop _ _ h _ hb, legible =>
      .loop (h.writable legible.tail.tail.left) (hb.writable legible.tail.tail.right.tail)
  | _, _, _, .block _ hs _, legible => .seq (hs.writable legible.tail.left)

theorem Statements.writable {most : Nat} :
    ∀ {levels : Nat} {ts : List Token} {nodes : List Node},
      Statements most levels ts nodes → Legible ts → ∀ node ∈ nodes, node.Writable
  | _, _, _, .nil, _ => List.forall_mem_nil _
  | _, _, _, .cons h hs, legible =>
      List.forall_mem_cons.mpr ⟨h.writable legible.left, hs.writable legible.right⟩

end

end Grammar

/-- The tree of an accepted source is concrete. -/
theorem readProgram_concrete {source : String} {tree : Node} (h : readProgram source = .ok tree) :
    tree.Concrete := by
  obtain ⟨words, spells, derives⟩ := readProgram_eq_ok_iff_words.mp h
  cases derives with
  | whole statements =>
      exact .seq statements.typed (statements.writable (Legible.of_spells spells))

end WhenLoop
