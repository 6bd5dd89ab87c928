import WhenLoop.Command.Run
import WhenLoop.Proofs.Decimals
import WhenLoop.Proofs.Frame

/-!
# The printed form determines the tree

A printed tree is read back in two steps.  The first looks at blanks and brackets only.  An
`Outline` is what these make of a line: words, brackets with a head and parts, and braces.  No
outline starts another one that ends where a word may end, so a line has one outline
(`Outline.text_unique`).

The second step reads a tree from its outline.  Some heads are used twice.  The negative and the
difference are told by the number of their parts, and so are the two forms of `when`.  A
comparison and an assignment both have the head `=` and two parts, so they are told only by where
they stand.  This is why there is one reader for each kind of place, and why the trees have to be
typed (`Node.IsStatement.statement?_outline`).  A word is a number or a name, and it starts with a
letter if and only if it is a name.  What is spelled like a reserved word may be a name here,
because a head is never a part.
-/

namespace WhenLoop

/-! ## Outlines -/

/-- What blanks and brackets make of a line. -/
inductive Outline where
  | word (text : String)
  | bracket (head : String) (parts : List Outline)
  | braces (parts : List Outline)

namespace Outline

/-- The characters that belong to no word. -/
def separators : List Char := [' ', '(', ')', '\x7b', '\x7d']

/-- Whether the character belongs to a word. -/
def isPlain (c : Char) : Bool := c ∉ separators

/-- Some characters, and all of them belong to a word. -/
structure IsWord (text : String) : Prop where
  ne_nil : text.toList ≠ []
  plain : ∀ c ∈ text.toList, isPlain c = true

/-- A word ends in front of the text. -/
def EndsWord (rest : List Char) : Prop := ∀ c ∈ rest.head?, isPlain c = false

section Word

variable {text other : String} {rest more : List Char}

/-- A word reaches up to the first separator, so the text in front of one determines it. -/
theorem IsWord.unique (h : IsWord text) (h' : IsWord other) (ends : EndsWord rest)
    (ends' : EndsWord more) (same : text.toList ++ rest = other.toList ++ more) :
    text = other ∧ rest = more := by
  obtain ⟨first, behind⟩ := span_append h.plain ends
  obtain ⟨first', behind'⟩ := span_append h'.plain ends'
  rw [same] at first behind
  exact ⟨String.toList_inj.mp (first.symm.trans first'), behind.symm.trans behind'⟩

/-- The first character of a word belongs to it. -/
theorem IsWord.head (h : IsWord text) : ∃ c cs, text.toList = c :: cs ∧ c ∉ separators := by
  cases chars : text.toList with
  | nil => exact absurd chars h.ne_nil
  | cons c cs =>
      exact ⟨c, cs, rfl, of_decide_eq_true (h.plain c (by rw [chars]; exact List.mem_cons_self))⟩

theorem IsWord.append_ne {c : Char} (h : IsWord text) (separates : c ∈ separators) :
    text.toList ++ rest ≠ c :: more := by
  obtain ⟨first, chars, same, plain⟩ := h.head
  rw [same]
  rintro ⟨⟩
  exact plain separates

end Word

/-- The text goes on with the end of a bracket or of braces. -/
inductive Closes : List Char → Prop where
  | bracket (rest : List Char) : Closes (')' :: rest)
  | empty (rest : List Char) : Closes ('\x7d' :: rest)
  | braces (rest : List Char) : Closes (' ' :: '\x7d' :: rest)

theorem Closes.endsWord {rest : List Char} (h : Closes rest) : EndsWord rest := by
  cases h <;> rintro _ ⟨⟩ <;> rfl

/-- What closes braces with these parts. -/
def closing : List Outline → List Char
  | [] => ['\x7d']
  | _ :: _ => [' ', '\x7d']

mutual

/-- The line of an outline. -/
def text : Outline → List Char
  | word text => text.toList
  | bracket head parts => '(' :: (head.toList ++ (spaced parts ++ [')']))
  | braces parts => '\x7b' :: (spaced parts ++ closing parts)
termination_by structural outline => outline

/-- The lines of outlines, each behind a blank. -/
def spaced : List Outline → List Char
  | [] => []
  | part :: parts => ' ' :: (part.text ++ spaced parts)
termination_by structural parts => parts

end

/-- All words of the outline are words. -/
inductive Plain : Outline → Prop where
  | word {text : String} : IsWord text → Plain (.word text)
  | bracket {head : String} {parts : List Outline} :
      IsWord head → (∀ part ∈ parts, Plain part) → Plain (.bracket head parts)
  | braces {parts : List Outline} : (∀ part ∈ parts, Plain part) → Plain (.braces parts)

variable {a b : Outline} {parts others : List Outline} {rest more : List Char}

/-- No outline starts with a blank or the end of another one. -/
theorem Plain.head (h : a.Plain) : ∃ c cs, a.text = c :: cs ∧ c ∉ [' ', ')', '\x7d'] := by
  cases h with
  | @word word isWord =>
      obtain ⟨c, cs, same, plain⟩ := isWord.head
      have fewer : [' ', ')', '\x7d'] ⊆ separators := by decide
      exact ⟨c, cs, (text.eq_1 word).trans same, fun mem => plain (fewer mem)⟩
  | bracket => exact ⟨_, _, text.eq_2 .., by decide⟩
  | braces => exact ⟨_, _, text.eq_3 .., by decide⟩

/-- What closes braces is a closing brace, with a blank before it or without. -/
theorem closes_closing (parts : List Outline) (rest : List Char) :
    Closes (closing parts ++ rest) := by
  cases parts with
  | nil => exact .empty rest
  | cons => exact .braces rest

theorem endsWord_spaced (parts : List Outline) (h : Closes rest) :
    EndsWord (spaced parts ++ rest) := by
  cases parts with
  | nil => exact h.endsWord
  | cons part parts =>
      rintro _ ⟨⟩
      rfl

/-- Where a list of parts ends, no part follows. -/
theorem Plain.not_closes (h : a.Plain) : ¬Closes (' ' :: (a.text ++ rest)) := by
  obtain ⟨c, cs, same, other⟩ := h.head
  rw [same]
  rintro (_ | _ | _)
  exact other (by decide)

mutual

/-- No outline starts another one: where two lines agree up to places at which a word may end,
their outlines are the same. -/
theorem text_unique : ∀ (a : Outline) {b : Outline} {rest more : List Char}, a.Plain → b.Plain →
    EndsWord rest → EndsWord more → a.text ++ rest = b.text ++ more → a = b ∧ rest = more
  | .word _, b, rest, more, .word isWord, h', ends, ends', same => by
      cases h' with
      | word isWord' =>
          obtain ⟨rfl, behind⟩ := isWord.unique isWord' ends ends' same
          exact ⟨rfl, behind⟩
      | bracket => exact absurd same (isWord.append_ne (by decide))
      | braces => exact absurd same (isWord.append_ne (by decide))
  | .bracket head parts, b, rest, more, .bracket isWord plain, h', ends, ends', same => by
      cases h' with
      | word isWord' => exact absurd same.symm (isWord'.append_ne (by decide))
      | @bracket head' parts' isWord' plain' =>
          simp only [text, List.cons_append, List.append_assoc, List.cons.injEq, true_and,
            List.nil_append] at same
          obtain ⟨rfl, behind⟩ := isWord.unique isWord' (endsWord_spaced parts (.bracket _))
            (endsWord_spaced parts' (.bracket _)) same
          obtain ⟨rfl, last⟩ := spaced_unique parts plain plain' (.bracket _) (.bracket _) behind
          exact ⟨rfl, (List.cons.inj last).2⟩
      | braces => simp [text] at same
  | .braces parts, b, rest, more, .braces plain, h', ends, ends', same => by
      cases h' with
      | word isWord' => exact absurd same.symm (isWord'.append_ne (by decide))
      | bracket => simp [text] at same
      | @braces parts' plain' =>
          simp only [text, List.cons_append, List.append_assoc, List.cons.injEq, true_and] at same
          obtain ⟨rfl, last⟩ := spaced_unique parts plain plain' (closes_closing _ _)
            (closes_closing _ _) same
          exact ⟨rfl, List.append_cancel_left last⟩

/-- By recursion on the parts.  A part stands behind a blank and is no closing brace, so the two
lists end together. -/
theorem spaced_unique : ∀ (parts : List Outline) {others : List Outline} {rest more : List Char},
    (∀ part ∈ parts, part.Plain) → (∀ part ∈ others, part.Plain) → Closes rest → Closes more →
    spaced parts ++ rest = spaced others ++ more → parts = others ∧ rest = more
  | [], [], _, _, _, _, _, _, same => ⟨rfl, same⟩
  | [], other :: others, rest, more, _, h', closes, _, same => by
      have plain := h' other List.mem_cons_self
      simp only [spaced, List.nil_append, List.cons_append, List.append_assoc] at same
      exact absurd (same ▸ closes) plain.not_closes
  | part :: parts, [], rest, more, h, _, _, closes, same => by
      have plain := h part List.mem_cons_self
      simp only [spaced, List.nil_append, List.cons_append, List.append_assoc] at same
      exact absurd (same ▸ closes) plain.not_closes
  | part :: parts, other :: others, rest, more, h, h', closes, closes', same => by
      obtain ⟨plain, all⟩ := List.forall_mem_cons.mp h
      obtain ⟨plain', all'⟩ := List.forall_mem_cons.mp h'
      simp only [spaced, List.cons_append, List.append_assoc, List.cons.injEq, true_and] at same
      obtain ⟨rfl, behind⟩ := text_unique part plain plain' (endsWord_spaced parts closes)
        (endsWord_spaced others closes') same
      obtain ⟨rfl, last⟩ := spaced_unique parts all all' closes closes' behind
      exact ⟨rfl, last⟩

end

/-- A line has one outline. -/
theorem Plain.eq_of_text (h : a.Plain) (h' : b.Plain) (same : a.text = b.text) : a = b := by
  have nothing : EndsWord [] := by rintro c ⟨⟩
  have lines : a.text ++ [] = b.text ++ [] := congrArg (· ++ []) same
  exact (text_unique a h h' nothing nothing lines).1

end Outline

/-! ## The outline of a tree -/

mutual

/-- The outline of the printed form of a tree. -/
def Node.outline : Node → Outline
  | .num value => .word value.toInt.repr
  | .var name => .word name
  | .arith op left right => .bracket op.sign [left.outline, right.outline]
  | .neg operand => .bracket "-" [operand.outline]
  | .compare op left right => .bracket op.sign [left.outline, right.outline]
  | .and left right => .bracket "and" [left.outline, right.outline]
  | .or left right => .bracket "or" [left.outline, right.outline]
  | .not operand => .bracket "not" [operand.outline]
  | .nonzero operand => .bracket "bool" [operand.outline]
  | .assign target value => .bracket "=" [.word target, value.outline]
  | .when condition thenBranch elseBranch =>
      .bracket "when" (condition.outline :: thenBranch.outline :: outlineBranch elseBranch)
  | .loop condition body => .bracket "loop" [condition.outline, body.outline]
  | .out value => .bracket "out" [value.outline]
  | .seq statements => .braces (outlineAll statements)
termination_by structural node => node

/-- The outline of a branch that may be missing. -/
def outlineBranch : Option Node → List Outline
  | none => []
  | some node => [node.outline]
termination_by structural branch => branch

/-- The outlines of the statements of a list. -/
def outlineAll : List Node → List Outline
  | [] => []
  | node :: nodes => node.outline :: outlineAll nodes
termination_by structural nodes => nodes

end

theorem outlineBranch_eq (branch : Option Node) :
    outlineBranch branch = branch.toList.map Node.outline := by
  cases branch <;> rfl

theorem outlineAll_eq (nodes : List Node) : outlineAll nodes = nodes.map Node.outline := by
  induction nodes with
  | nil => rfl
  | cons node nodes ih => rw [outlineAll, ih, List.map_cons]

theorem displayBranch_eq (branch : Option Node) :
    displayBranch branch = branch.toList.map Node.display := by
  cases branch <;> rfl

theorem displayAll_eq (nodes : List Node) : displayAll nodes = nodes.map Node.display := by
  induction nodes with
  | nil => rfl
  | cons node nodes ih => rw [displayAll, ih, List.map_cons]

namespace Node

/-- A child is smaller than its tree, which the recursions below rest on. -/
theorem sizeOf_lt_of_child {tree part : Node} (mem : part ∈ tree.children) :
    sizeOf part < sizeOf tree := by
  cases tree with
  | num value => cases mem
  | var name => cases mem
  | seq statements =>
      have smaller : sizeOf part < sizeOf statements := List.sizeOf_lt_of_mem mem
      simp only [seq.sizeOf_spec]
      omega
  | «when» condition thenBranch elseBranch =>
      cases elseBranch with
      | none =>
          simp only [children, Option.toList, List.mem_cons, List.not_mem_nil, or_false] at mem
          rcases mem with rfl | rfl <;> (simp only [when.sizeOf_spec]; omega)
      | some elseBranch =>
          simp only [children, Option.toList, List.mem_cons, List.not_mem_nil, or_false] at mem
          rcases mem with rfl | rfl | rfl <;>
            (simp only [when.sizeOf_spec, Option.some.sizeOf_spec]; omega)
  | _ =>
      simp only [children, List.mem_cons, List.not_mem_nil, or_false] at mem
      rcases mem with rfl | rfl <;>
        (simp only [arith.sizeOf_spec, neg.sizeOf_spec, compare.sizeOf_spec, and.sizeOf_spec,
          or.sizeOf_spec, not.sizeOf_spec, nonzero.sizeOf_spec, assign.sizeOf_spec,
          loop.sizeOf_spec, out.sizeOf_spec]; omega)

/-- What holds of a node as soon as it holds of the nodes right below it holds of all nodes. -/
theorem children_induction {motive : Node → Prop}
    (step : ∀ tree : Node, (∀ part ∈ tree.children, motive part) → motive tree) (tree : Node) :
    motive tree :=
  step tree fun part _ => children_induction step part
termination_by sizeOf tree
decreasing_by exact sizeOf_lt_of_child ‹_›

end Node

/-! ## The line of a tree -/

/-- The texts are the lines of the outlines. -/
def Renders (texts : List String) (outlines : List Outline) : Prop :=
  texts.map String.toList = outlines.map Outline.text

namespace Renders

variable {texts : List String} {outlines : List Outline}

/-- If each node's printed form is its outline's line, so are those of a list. -/
theorem of_nodes {nodes : List Node}
    (each : ∀ node ∈ nodes, node.display.toList = node.outline.text) :
    Renders (nodes.map Node.display) (nodes.map Node.outline) := by
  rw [Renders, List.map_map, List.map_map]
  exact List.map_congr_left each

theorem spaced_eq (h : Renders texts outlines) :
    Outline.spaced outlines = texts.flatMap fun text => ' ' :: text.toList := by
  induction outlines generalizing texts with
  | nil =>
      rw [List.map_eq_nil_iff.mp h]
      rfl
  | cons outline outlines ih =>
      obtain ⟨text, texts, rfl, same, others⟩ := List.map_eq_cons_iff.mp h
      rw [Outline.spaced, ih others, List.flatMap_cons, same]
      rfl

/-- To join texts with blanks is to put a blank before each but the first. -/
theorem intercalate_toList (text : String) (texts : List String) :
    (" ".intercalate (text :: texts)).toList =
      text.toList ++ texts.flatMap fun text => ' ' :: text.toList := by
  induction texts generalizing text with
  | nil => simp
  | cons next texts ih =>
      rw [String.intercalate_cons_cons, String.toList_append, String.toList_append, ih]
      simp

/-- A bracket is printed as its outline's line. -/
theorem bracket (h : Renders texts outlines) (head : String) :
    (bracket head texts).toList = (Outline.bracket head outlines).text := by
  rw [WhenLoop.bracket, String.toList_append, String.toList_append, intercalate_toList,
    Outline.text, h.spaced_eq, List.append_assoc, List.append_assoc]
  rfl

/-- Braces are printed as their outline's line, with nothing or with blanks between them. -/
theorem braces (h : Renders texts outlines) :
    (braces texts).toList = (Outline.braces outlines).text := by
  cases texts with
  | nil =>
      rw [List.map_eq_nil_iff.mp h.symm]
      rfl
  | cons text texts =>
      obtain ⟨outline, outlines, rfl, -, -⟩ := List.map_eq_cons_iff.mp h.symm
      have printed : WhenLoop.braces (text :: texts) =
          "\x7b " ++ " ".intercalate (text :: texts) ++ " \x7d" := rfl
      rw [printed, String.toList_append, String.toList_append, intercalate_toList,
        Outline.text, h.spaced_eq, Outline.closing]
      simp

end Renders

/-- The printed form of a tree is the line of its outline. -/
theorem Node.display_toList (tree : Node) : tree.display.toList = tree.outline.text := by
  induction tree using Node.children_induction with
  | step tree ih =>
      have parts := Renders.of_nodes ih
      cases tree with
      | num value => rfl
      | var name => rfl
      | assign target value =>
          have target : target.toList = (Outline.word target).text := rfl
          have both : Renders [_, value.display] [_, value.outline] :=
            List.cons_eq_cons.mpr ⟨target, parts⟩
          exact both.bracket "="
      | «when» condition thenBranch elseBranch =>
          rw [display, outline, displayBranch_eq, outlineBranch_eq]
          exact parts.bracket "when"
      | seq statements =>
          rw [display, outline, displayAll_eq, outlineAll_eq]
          exact parts.braces
      | _ => exact parts.bracket _

/-! ## Names and numbers -/

/-- A text of the form of a name.  Reserved words have this form too. -/
def IsName (text : String) : Prop :=
  ∃ c cs, text.toList = c :: cs ∧ isLetter c = true ∧ ∀ d ∈ cs, isNameChar d = true

/-- The codes of the separators are all below these or above them. -/
theorem isPlain_of_toNat {c : Char} (least : 45 ≤ c.toNat) (most : c.toNat ≤ 122) :
    Outline.isPlain c = true := by
  have outside : (Outline.separators.all fun d => d.toNat < 45 || 122 < d.toNat) = true := by decide
  refine decide_eq_true fun mem => ?_
  rcases Bool.or_eq_true_iff.mp (List.all_eq_true.mp outside c mem) with below | above
  · exact absurd (of_decide_eq_true below) (by omega)
  · exact absurd (of_decide_eq_true above) (by omega)

theorem isPlain_of_isNameChar {c : Char} (h : isNameChar c = true) : Outline.isPlain c = true := by
  rcases Bool.or_eq_true_iff.mp h with letter | digit
  · have range := toNat_of_isLetter letter
    exact isPlain_of_toNat (by omega) range.2
  · have range := toNat_of_isDigit digit
    exact isPlain_of_toNat (by omega) (by omega)

theorem IsName.isWord {text : String} (h : IsName text) : Outline.IsWord text := by
  obtain ⟨c, cs, chars, letter, others⟩ := h
  have first : isNameChar c = true := Bool.or_eq_true_iff.mpr (.inl letter)
  refine ⟨by simp [chars], ?_⟩
  rw [chars, List.forall_mem_cons]
  exact ⟨isPlain_of_isNameChar first, fun d mem => isPlain_of_isNameChar (others d mem)⟩

/-- An integer is printed with a sign or a digit first, and digits behind it. -/
theorem repr_toList (z : Int) :
    ∃ c cs, z.repr.toList = c :: cs ∧ (c = '-' ∨ c.isDigit = true) ∧
      ∀ d ∈ cs, d.isDigit = true := by
  cases z with
  | ofNat n =>
      obtain ⟨c, cs, chars, first, others⟩ := (isNumeral_repr n).toList_eq
      exact ⟨c, cs, chars, .inr first, others⟩
  | negSucc n =>
      exact ⟨'-', (n + 1).repr.toList, String.toList_append, .inl rfl, (isNumeral_repr _).digits⟩

theorem isWord_repr (z : Int) : Outline.IsWord z.repr := by
  obtain ⟨c, cs, chars, first, others⟩ := repr_toList z
  have digit : ∀ d : Char, d.isDigit = true → Outline.isPlain d = true := fun d digit =>
    isPlain_of_isNameChar (Bool.or_eq_true_iff.mpr (.inr digit))
  refine ⟨by simp [chars], ?_⟩
  rw [chars, List.forall_mem_cons]
  refine ⟨?_, fun d mem => digit d (others d mem)⟩
  rcases first with rfl | first
  · decide
  · exact digit c first

/-- Whether a word starts like a name. -/
def startsName (text : String) : Bool := text.toList.head?.any isLetter

theorem IsName.startsName_eq {text : String} (h : IsName text) : startsName text = true := by
  obtain ⟨c, cs, chars, letter, -⟩ := h
  rw [startsName, chars]
  exact letter

/-- An integer starts with a digit or a sign, so it is told apart from a name. -/
theorem startsName_repr (z : Int) : startsName z.repr = false := by
  obtain ⟨c, cs, chars, first, -⟩ := repr_toList z
  rw [startsName, chars]
  change isLetter c = false
  rcases first with rfl | digit
  · decide
  · cases letter : isLetter c with
    | false => rfl
    | true => exact absurd digit (by rw [isDigit_of_isLetter letter]; decide)

namespace Node

/-- Every name in the tree has the form of a name. -/
def Named (tree : Node) : Prop := ∀ name, tree.Mentions name → IsName name

variable {tree part value : Node} {name : String}

/-- What stands in a part of the tree stands in the tree. -/
theorem Named.child (h : tree.Named) (mem : part ∈ tree.children) : part.Named := by
  rintro name (read | ⟨value, assigned⟩)
  · exact h name (.inl (.inside mem read))
  · exact h name (.inr ⟨value, .inside mem assigned⟩)

theorem Named.var (h : (Node.var name).Named) : IsName name := h name (.inl .self)

theorem Named.assign (h : (Node.assign name value).Named) : IsName name :=
  h name (.inr ⟨value, .self⟩)

end Node

/-! ## Named trees have plain outlines -/

theorem Outline.isWord_of {text : String} (some : text.toList.isEmpty = false)
    (plain : text.toList.all isPlain = true) : IsWord text :=
  ⟨List.isEmpty_eq_false_iff.mp some, List.all_eq_true.mp plain⟩

theorem ArithOp.isWord_sign (op : ArithOp) : Outline.IsWord op.sign := by
  cases op <;> exact Outline.isWord_of rfl (by decide)

theorem CompareOp.isWord_sign (op : CompareOp) : Outline.IsWord op.sign := by
  cases op <;> exact Outline.isWord_of rfl (by decide)

/-- By recursion on the tree.  Heads are fixed words, and the other words are names and integers. -/
theorem Node.outline_plain (tree : Node) (named : tree.Named) : tree.outline.Plain := by
  induction tree using Node.children_induction with
  | step tree ih =>
      have parts : ∀ part ∈ tree.children.map outline, part.Plain :=
        List.forall_mem_map.mpr fun child mem => ih child mem (named.child mem)
      cases tree with
      | num value => exact .word (isWord_repr value.toInt)
      | var name => exact .word named.var.isWord
      | arith op left right => exact .bracket op.isWord_sign parts
      | compare op left right => exact .bracket op.isWord_sign parts
      | assign target value =>
          have target : (Outline.word target).Plain := .word named.assign.isWord
          have both := List.forall_mem_cons.mpr ⟨target, parts⟩
          exact .bracket (Outline.isWord_of rfl (by decide)) both
      | «when» condition thenBranch elseBranch =>
          rw [outline, outlineBranch_eq]
          exact .bracket (Outline.isWord_of rfl (by decide)) parts
      | seq statements =>
          rw [outline, outlineAll_eq]
          exact .braces parts
      | _ => exact .bracket (Outline.isWord_of rfl (by decide)) parts

/-- Trees whose names have the form of names are printed alike only if they have one outline. -/
theorem Node.Named.outline_eq {a b : Node} (h : a.Named) (h' : b.Named)
    (same : a.display = b.display) : a.outline = b.outline := by
  refine (a.outline_plain h).eq_of_text (b.outline_plain h') ?_
  rw [← a.display_toList, ← b.display_toList, same]

/-! ## Trees from outlines

A reader for each kind of place says which node a head with its parts stands for there. -/

/-- The integer that digits denote, with or without a sign before them. -/
def integer : List Char → Int
  | '-' :: digits => -(numeral digits : Int)
  | digits => numeral digits

/-- A printed integer denotes itself. -/
theorem integer_repr (z : Int) : integer z.repr.toList = z := by
  cases z with
  | ofNat n =>
      have printed : (Int.ofNat n).repr.toList = n.repr.toList := rfl
      have unsigned : ∀ digits, n.repr.toList ≠ '-' :: digits := fun digits chars =>
        absurd ((isNumeral_repr n).digits '-' (by simp [chars])) (by decide)
      rw [printed, integer, numeral_repr]
      · rfl
      · exact unsigned
  | negSucc n =>
      have printed : (Int.negSucc n).repr.toList = '-' :: (n + 1).repr.toList :=
        String.toList_append
      rw [printed, integer, numeral_repr]
      rfl

namespace Outline

/-- The arithmetic operator with the sign. -/
def arithOp? (sign : String) : Option ArithOp :=
  [.add, .sub, .mul, .div, .mod].find? fun op => op.sign == sign

/-- The comparison with the sign. -/
def compareOp? (sign : String) : Option CompareOp :=
  [.eq, .lt, .gt, .le, .ge].find? fun op => op.sign == sign

/-- The expression with the outline. -/
def expression? : Outline → Option Node
  | word text => some (if startsName text then .var text else .num (.ofInt (integer text.toList)))
  | bracket "-" [operand] => return .neg (← operand.expression?)
  | bracket head [left, right] =>
      return .arith (← arithOp? head) (← left.expression?) (← right.expression?)
  | _ => none
termination_by structural outline => outline

/-- The condition with the outline. -/
def condition? : Outline → Option Node
  | bracket "not" [operand] => return .not (← operand.condition?)
  | bracket "bool" [operand] => return .nonzero (← operand.expression?)
  | bracket "and" [left, right] => return .and (← left.condition?) (← right.condition?)
  | bracket "or" [left, right] => return .or (← left.condition?) (← right.condition?)
  | bracket head [left, right] =>
      return .compare (← compareOp? head) (← left.expression?) (← right.expression?)
  | _ => none
termination_by structural outline => outline

mutual

/-- The statement with the outline. -/
def statement? : Outline → Option Node
  | bracket "=" [word target, value] => return .assign target (← value.expression?)
  | bracket "when" [condition, thenBranch] =>
      return .when (← condition.condition?) (← thenBranch.statement?) none
  | bracket "when" [condition, thenBranch, elseBranch] =>
      return .when (← condition.condition?) (← thenBranch.statement?)
        (some (← elseBranch.statement?))
  | bracket "loop" [condition, body] => return .loop (← condition.condition?) (← body.statement?)
  | bracket "out" [value] => return .out (← value.expression?)
  | braces parts => return .seq (← statements? parts)
  | _ => none
termination_by structural outline => outline

/-- The statements with the outlines. -/
def statements? : List Outline → Option (List Node)
  | [] => some []
  | part :: parts => return (← part.statement?) :: (← statements? parts)
termination_by structural parts => parts

end

theorem arithOp?_sign (op : ArithOp) : arithOp? op.sign = some op := by
  cases op <;> rfl

/-- A bracket with the sign of a comparison is read as that comparison. -/
theorem condition?_sign (op : CompareOp) (left right : Outline) :
    (bracket op.sign [left, right]).condition? =
      return .compare op (← left.expression?) (← right.expression?) := by
  cases op <;> rfl

/-- Where each outline is read as its statement, so is the list. -/
theorem statements?_map {nodes : List Node}
    (each : ∀ node ∈ nodes, node.outline.statement? = some node) :
    statements? (nodes.map Node.outline) = some nodes := by
  induction nodes with
  | nil => rfl
  | cons node nodes ih =>
      obtain ⟨first, others⟩ := List.forall_mem_cons.mp each
      rw [List.map_cons, statements?, first, ih others]
      rfl

end Outline

namespace Node

variable {tree : Node}

/-- By induction on the expression: its outline is read back as it. -/
theorem IsExpression.expression?_outline (h : tree.IsExpression) (named : tree.Named) :
    tree.outline.expression? = some tree := by
  induction h with
  | @num value =>
      rw [outline, Outline.expression?, startsName_repr, integer_repr, Int32.ofInt_toInt]
      rfl
  | var =>
      rw [outline, Outline.expression?, named.var.startsName_eq]
      rfl
  | arith _ _ ihl ihr =>
      rw [outline, Outline.expression?, Outline.arithOp?_sign, ihl (named.child List.mem_cons_self),
        ihr (named.child (.tail _ List.mem_cons_self))]
      rfl
  | neg _ ih =>
      rw [outline, Outline.expression?, ih (named.child List.mem_cons_self)]
      rfl

/-- By induction on the condition, down to the expressions in it. -/
theorem IsCondition.condition?_outline (h : tree.IsCondition) (named : tree.Named) :
    tree.outline.condition? = some tree := by
  induction h with
  | @compare op left right hl hr =>
      have reads := Outline.condition?_sign op left.outline right.outline
      rw [outline, reads, hl.expression?_outline (named.child List.mem_cons_self),
        hr.expression?_outline (named.child (.tail _ List.mem_cons_self))]
      rfl
  | and _ _ ihl ihr =>
      rw [outline, Outline.condition?, ihl (named.child List.mem_cons_self),
        ihr (named.child (.tail _ List.mem_cons_self))]
      rfl
  | or _ _ ihl ihr =>
      rw [outline, Outline.condition?, ihl (named.child List.mem_cons_self),
        ihr (named.child (.tail _ List.mem_cons_self))]
      rfl
  | not _ ih =>
      rw [outline, Outline.condition?, ih (named.child List.mem_cons_self)]
      rfl
  | nonzero operand =>
      rw [outline, Outline.condition?, operand.expression?_outline (named.child List.mem_cons_self)]
      rfl

/-- A typed tree whose names have the form of names can be read from its outline. -/
theorem IsStatement.statement?_outline (h : tree.IsStatement) (named : tree.Named) :
    tree.outline.statement? = some tree := by
  induction h with
  | assign value =>
      rw [outline, Outline.statement?, value.expression?_outline (named.child List.mem_cons_self)]
      rfl
  | «when» condition _ ih =>
      rw [outline, outlineBranch, Outline.statement?,
        condition.condition?_outline (named.child List.mem_cons_self),
        ih (named.child (.tail _ List.mem_cons_self))]
      rfl
  | whenElse condition _ _ ih ih' =>
      rw [outline, outlineBranch, Outline.statement?,
        condition.condition?_outline (named.child List.mem_cons_self),
        ih (named.child (.tail _ List.mem_cons_self)),
        ih' (named.child (.tail _ (.tail _ List.mem_cons_self)))]
      rfl
  | loop condition _ ih =>
      rw [outline, Outline.statement?,
        condition.condition?_outline (named.child List.mem_cons_self),
        ih (named.child (.tail _ List.mem_cons_self))]
      rfl
  | out value =>
      rw [outline, Outline.statement?, value.expression?_outline (named.child List.mem_cons_self)]
      rfl
  | seq _ ih =>
      have each := Outline.statements?_map fun node mem => ih node mem (named.child mem)
      rw [outline, outlineAll_eq, Outline.statement?, each]
      rfl

/-- Statements with the same outline are the same, since both are read back from it. -/
theorem IsStatement.outline_inj {a b : Node} (h : a.IsStatement) (h' : b.IsStatement)
    (named : a.Named) (named' : b.Named) (same : a.outline = b.outline) : a = b := by
  have reads := h.statement?_outline named
  rw [same, h'.statement?_outline named'] at reads
  exact (Option.some.inj reads).symm

end Node

/-! ## Accepted sources -/

theorem isName_of_lexeme {name : String} (h : Lexical.Lexeme .name name.toList) : IsName name := by
  generalize chars : name.toList = text at h
  cases h with
  | fixed spelled => cases spelled
  | @name c cs letter others => exact ⟨c, cs, chars, letter, others⟩

namespace Node

variable {tree part : Node}

/-- The parts of a writable tree are writable. -/
theorem Writable.child (h : tree.Writable) (mem : part ∈ tree.children) : part.Writable := by
  cases h with
  | num => cases mem
  | var => cases mem
  | neg operand => exact List.mem_singleton.mp mem ▸ operand
  | not operand => exact List.mem_singleton.mp mem ▸ operand
  | nonzero operand => exact List.mem_singleton.mp mem ▸ operand
  | assign _ value => exact List.mem_singleton.mp mem ▸ value
  | out value => exact List.mem_singleton.mp mem ▸ value
  | seq statements => exact statements part mem
  | _ =>
      simp only [children, Option.toList, List.mem_cons, List.not_mem_nil, or_false] at mem
      rcases mem with rfl | rfl | rfl <;> assumption

theorem Writable.of_occursIn (h : tree.Writable) (occurs : part.OccursIn tree) : part.Writable := by
  induction occurs with
  | self => exact h
  | inside mem _ ih => exact ih (h.child mem)

/-- The names of a writable tree are identifiers, so they have the form of names. -/
theorem Writable.named (h : tree.Writable) : tree.Named := by
  rintro name (read | ⟨value, assigned⟩)
  · cases h.of_occursIn read with
    | var lexeme => exact isName_of_lexeme lexeme
  · cases h.of_occursIn assigned with
    | assign lexeme _ => exact isName_of_lexeme lexeme

end Node

theorem readProgram_named {source : String} {tree : Node} (h : readProgram source = .ok tree) :
    tree.Named := by
  cases readProgram_concrete h with
  | seq _ writable => exact (Node.Writable.seq writable).named

/-- A command that is asked for the tree and runs its source prints the tree first. -/
theorem runSource_tree {rounds : Nat} {options : Options} {threshold : Option Level}
    {content : Except ReadError ByteArray} {ran : Ran} (asked : options.printTree = true)
    (ends : runSource rounds options threshold content = some ran) (runs : ran.error? = none) :
    ∃ source program, content.bind textOf = .ok source ∧ readProgram source = .ok program ∧
      ran.errorLines.head? = some (.text program.display) := by
  rw [runSource] at ends
  split at ends
  · cases ends
    cases runs
  · rename_i source text
    split at ends
    · cases ends
      cases runs
    · rename_i program accepted
      obtain ⟨m, -, rfl⟩ := Option.map_eq_some_iff.mp ends
      refine ⟨source, program, text, accepted, ?_⟩
      rw [asked]
      rfl

/-- The printed form determines the tree.  Two typed trees whose names have the form of names are
printed alike only if they are the same.  So two accepted sources have the same tree if their trees
are printed alike, and this is what two commands tell that print the trees before they run. -/
theorem display_determines_tree :
    (∀ a b : Node, a.IsStatement → b.IsStatement → a.Named → b.Named →
      a.display = b.display → a = b) ∧
    (∀ (source source' : String) (a b : Node), readProgram source = .ok a →
      readProgram source' = .ok b → a.display = b.display → a = b) ∧
    ∀ (rounds rounds' : Nat) (options options' : Options) (threshold threshold' : Option Level)
      (content content' : Except ReadError ByteArray) (ran ran' : Ran),
      options.printTree = true → options'.printTree = true →
      runSource rounds options threshold content = some ran → ran.error? = none →
      runSource rounds' options' threshold' content' = some ran' → ran'.error? = none →
      ran.errorLines.head? = ran'.errorLines.head? →
      ∃ source source' program, content.bind textOf = .ok source ∧
        content'.bind textOf = .ok source' ∧ readProgram source = .ok program ∧
        readProgram source' = .ok program := by
  have trees : ∀ a b : Node, a.IsStatement → b.IsStatement → a.Named → b.Named →
      a.display = b.display → a = b := fun a b typed typed' named named' same =>
    typed.outline_inj typed' named named' (named.outline_eq named' same)
  have sources : ∀ (source source' : String) (a b : Node), readProgram source = .ok a →
      readProgram source' = .ok b → a.display = b.display → a = b :=
    fun source source' a b accepted accepted' =>
      trees a b (readProgram_typed accepted) (readProgram_typed accepted')
        (readProgram_named accepted) (readProgram_named accepted')
  refine ⟨trees, sources, ?_⟩
  intro rounds rounds' options options' threshold threshold' content content' ran ran' asked asked'
    ends runs ends' runs' same
  obtain ⟨source, a, text, accepted, first⟩ := runSource_tree asked ends runs
  obtain ⟨source', b, text', accepted', first'⟩ := runSource_tree asked' ends' runs'
  rw [first, first', Option.some.injEq, ErrorLine.text.injEq] at same
  obtain rfl := sources source source' a b accepted accepted' same
  exact ⟨source, source', a, text, text', accepted, accepted'⟩

-- without types it does not: a comparison of a name is printed as an assignment to it
example : (Node.compare .eq (.var "x") (.num 1)).display = (Node.assign "x" (.num 1)).display := by
  rfl

end WhenLoop
