import Mathlib.Tactic.Ring
import WhenLoop.Proofs.Concatenation
import WhenLoop.Proofs.Recovery
import WhenLoop.Proofs.Writing

/-!
# Decimal output and literals are inverse

An integer is printed in decimal, and a literal is an integer in decimal.  So what a program
prints for an integer can be written into a source, where it stands for the same integer.  The
sign is not part of the literal but an operator before it, and this leaves out the least integer,
whose literal is one too large.

A literal may have any number of digits and zeros before them.  It stands for the number that the
digits denote (`numeral`), if this is at most the greatest integer.  No source with a literal that
denotes more is accepted (`Grammar.Statements.literals`).
-/

namespace WhenLoop

open Lexical Grammar

/-! ## Digits -/

/-- The number that digits denote: each of them counts tens for as many digits as follow it. -/
def numeral : List Char → Nat
  | [] => 0
  | c :: cs => (c.toNat - '0'.toNat) * 10 ^ cs.length + numeral cs

/-- By induction on the digits.  The digits before count for a power of ten more with each digit
that follows. -/
theorem ofDigitChars_eq_numeral (digits : List Char) (before : Nat) :
    Nat.ofDigitChars 10 digits before = before * 10 ^ digits.length + numeral digits := by
  induction digits generalizing before with
  | nil => simp [numeral, Nat.ofDigitChars]
  | cons c cs ih =>
      rw [Nat.ofDigitChars_cons, ih, numeral, List.length_cons, Nat.pow_succ]
      ring

/-- A literal is read from left to right and denotes the same number. -/
theorem literal_eq_numeral (digits : List Char) :
    Nat.ofDigitChars 10 digits 0 = numeral digits := by
  rw [ofDigitChars_eq_numeral, Nat.zero_mul, Nat.zero_add]

/-- The printed digits of a number denote it. -/
theorem numeral_repr (n : Nat) : numeral n.repr.toList = n := by
  rw [← literal_eq_numeral, Nat.toList_repr, Nat.ofDigitChars_toDigits (by decide) (by decide)]

example : numeral "0072".toList = 72 := rfl

/-- A text of digits, and of at least one. -/
structure IsNumeral (text : String) : Prop where
  ne_empty : text ≠ ""
  digits : ∀ c ∈ text.toList, c.isDigit = true

theorem isNumeral_repr (n : Nat) : IsNumeral n.repr where
  ne_empty := by
    intro none
    have empty : n.repr.toList = [] := congrArg String.toList none
    rw [Nat.toList_repr] at empty
    exact Nat.toDigits_ne_nil empty
  digits := by
    rw [Nat.toList_repr]
    exact fun c mem => Nat.isDigit_of_mem_toDigits (by decide) (by decide) mem

theorem IsNumeral.toList_eq {text : String} (h : IsNumeral text) :
    ∃ c cs, text.toList = c :: cs ∧ c.isDigit = true ∧ ∀ d ∈ cs, d.isDigit = true := by
  cases chars : text.toList with
  | nil => exact absurd (String.toList_eq_nil_iff.mp chars) h.ne_empty
  | cons c cs => exact ⟨c, cs, rfl, List.forall_mem_cons.mp (chars ▸ h.digits)⟩

theorem IsNumeral.lexeme {text : String} (h : IsNumeral text) : Lexeme .number text.toList := by
  obtain ⟨c, cs, same, first, others⟩ := h.toList_eq
  rw [same]
  exact .number first others

/-- A literal ends in front of anything but a digit. -/
theorem IsNumeral.maximal {text : String} (h : IsNumeral text) {c : Char}
    (other : c.isDigit = false) (after : List Char) : Maximal text.toList (c :: after) := by
  obtain ⟨first, others, same, digit, -⟩ := h.toList_eq
  rw [same]
  rintro _ ⟨⟩
  simp [prolongs, digit, other]

/-! ## Accepted literals -/

/-- No literal among the tokens denotes more than the greatest integer. -/
def Literals (ts : List Token) : Prop :=
  ∀ t ∈ ts, t.kind = .number → numeral t.text.toList ≤ 2147483647

namespace Literals

variable {t : Token} {ts us : List Token}

theorem nil : Literals [] := List.forall_mem_nil _

theorem cons (h : t.kind = .number → numeral t.text.toList ≤ 2147483647) (h' : Literals ts) :
    Literals (t :: ts) :=
  List.forall_mem_cons.mpr ⟨h, h'⟩

theorem append (h : Literals ts) (h' : Literals us) : Literals (ts ++ us) :=
  List.forall_mem_append.mpr ⟨h, h'⟩

/-- A token of another kind may stand before the others. -/
theorem other {kind : TokenKind} (here : t.kind = kind) (different : kind ≠ .number)
    (h : Literals ts) : Literals (t :: ts) :=
  cons (fun number => absurd (here.symm.trans number) different) h

end Literals

namespace Grammar

theorem kind_ne_number {α : Type} {kind : TokenKind} {sign : α} {signs : List (TokenKind × α)}
    (mem : (kind, sign) ∈ signs) (none : .number ∉ signs.map Prod.fst) : kind ≠ .number := by
  rintro rfl
  exact none (List.mem_map_of_mem mem)

/-- By induction on the derivation.  Only an operand has a literal, and its rule bounds it. -/
theorem Phrase.literals {rank : Rank} {levels k : Nat} {ts : List Token} {node : Node}
    (h : Phrase rank levels k ts node) : Literals ts := by
  induction h with
  | number _ value le =>
      exact .cons (fun _ => by rw [← literal_eq_numeral, value]; exact le) .nil
  | name kind => exact .other kind nofun .nil
  | group opens _ closes ih => exact .other opens nofun (ih.append (.other closes nofun .nil))
  | ofPrimary _ ih => exact ih
  | negative sign _ _ ih => exact .other sign nofun ih
  | ofUnary _ ih => exact ih
  | product _ sign _ _ _ ihl ihr =>
      exact ihl.append (.other rfl (kind_ne_number sign (by decide)) ihr)
  | ofFactor _ ih => exact ih
  | sum _ sign _ _ _ ihl ihr =>
      exact ihl.append (.other rfl (kind_ne_number sign (by decide)) ihr)
  | ofTerm _ ih => exact ih
  | compare _ sign _ _ _ ihl ihr =>
      exact ihl.append (.other rfl (kind_ne_number sign (by decide)) ihr)
  | ofComparison _ ih => exact ih
  | negation sign _ ih => exact .other sign nofun ih
  | ofNot _ ih => exact ih
  | conjunction _ sign _ ihl ihr => exact ihl.append (.other sign nofun ihr)
  | ofAnd _ ih => exact ih
  | disjunction _ sign _ ihl ihr => exact ihl.append (.other sign nofun ihr)

theorem Expression.literals {most levels : Nat} {ts : List Token} {node : Node}
    (h : Expression most levels ts node) : Literals ts := by
  cases h with
  | whole phrase => exact phrase.literals

theorem Condition.literals {most levels : Nat} {ts : List Token} {node : Node}
    (h : Condition most levels ts node) : Literals ts := by
  cases h with
  | whole phrase => exact phrase.literals

mutual

/-- By recursion on the derivation of a statement and of a list of them. -/
theorem Statement.literals {most : Nat} : ∀ {levels : Nat} {ts : List Token} {node : Node},
    Statement most levels ts node → Literals ts
  | _, _, _, .assign target sign h stop =>
      .other target nofun (.other sign nofun (h.literals.append (.other stop nofun .nil)))
  | _, _, _, .out word h stop => .other word nofun (h.literals.append (.other stop nofun .nil))
  | _, _, _, .when word l h r hb =>
      .other word nofun (.other l nofun (h.literals.append (.other r nofun hb.literals)))
  | _, _, _, .whenElse word l h r hb _ other hb' =>
      .append (.other word nofun (.other l nofun (h.literals.append (.other r nofun hb.literals))))
        (.other other nofun hb'.literals)
  | _, _, _, .loop word l h r hb =>
      .other word nofun (.other l nofun (h.literals.append (.other r nofun hb.literals)))
  | _, _, _, .block l hs r => .other l nofun (hs.literals.append (.other r nofun .nil))

/-- A literal of a program denotes an integer. -/
theorem Statements.literals {most : Nat} :
    ∀ {levels : Nat} {ts : List Token} {nodes : List Node}, Statements most levels ts nodes →
      Literals ts
  | _, _, _, .nil => .nil
  | _, _, _, .cons h hs => h.literals.append hs.literals

end

end Grammar

/-! ## Sources with a literal -/

namespace Lexical.Spells

variable {words : List Word} {after : List Char} (h : Spells after words)
include h

/-- A word with a space behind it. -/
theorem spaced {w : Word} (lexeme : Lexeme w.kind w.text.toList) :
    Spells (w.text.toList ++ ' ' :: after) (w :: words) :=
  have space : isBlank ' ' = true := by decide
  .word .nil lexeme (maximal_of_blank space _ _) (h.skip (.blank space .nil))

theorem stop : Spells (';' :: after) (⟨.semicolon, ";"⟩ :: words) :=
  have ends : Maximal [';'] after := fun c _ => rfl
  @Spells.word [] after ⟨.semicolon, ";"⟩ words .nil (.fixed (by decide)) ends h

end Lexical.Spells

/-- A literal with a semicolon behind it. -/
theorem IsNumeral.spells {text : String} (h : IsNumeral text) {after : List Char}
    {words : List Word} (behind : Spells (';' :: after) words) :
    Spells (text.toList ++ ';' :: after) (⟨.number, text⟩ :: words) :=
  @Spells.word [] (';' :: after) ⟨.number, text⟩ words .nil h.lexeme (h.maximal (by decide) after)
    behind

/-- The words of the output of a literal. -/
def outWords (text : String) : List Word :=
  [⟨.out, "out"⟩, ⟨.number, text⟩, ⟨.semicolon, ";"⟩]

section Output

variable {text : String}

/-- The digits are one word, since no digit follows them. -/
theorem IsNumeral.spells_out (h : IsNumeral text) :
    Spells ("out " ++ text ++ ";").toList (outWords text) := by
  have last : Spells [] [] := .done (.closed .nil)
  have whole := @Spells.spaced _ _ (h.spells last.stop) ⟨.out, "out"⟩ (.fixed (by decide))
  rw [String.toList_append, String.toList_append, List.append_assoc]
  exact whole

theorem literal_phrase (le : numeral text.toList ≤ 2147483647) (levels : Nat) :
    Phrase .primary levels 0 [Word.token ⟨.number, text⟩]
      (.num (Int32.ofNat (numeral text.toList))) :=
  .number rfl (literal_eq_numeral _) le

/-- Up to the greatest integer an output of the literal can be derived. -/
theorem derives_out (le : numeral text.toList ≤ 2147483647) :
    Derives (outWords text) (.seq [.out (.num (Int32.ofNat (numeral text.toList)))]) := by
  have whole : Expression maxOperators 127 [Word.token ⟨.number, text⟩] _ :=
    .whole ((literal_phrase le 126).of_primary .or) (Nat.zero_le _) rfl
  have statement : Statement maxOperators 128 ((outWords text).map Word.token)
      (.out (.num (Int32.ofNat (numeral text.toList)))) := .out rfl whole rfl
  exact .whole (.cons statement .nil)

/-- Hence the program is read, and its tree has the number. -/
theorem IsNumeral.readProgram_out (h : IsNumeral text) (le : numeral text.toList ≤ 2147483647) :
    readProgram ("out " ++ text ++ ";") =
      .ok (.seq [.out (.num (Int32.ofNat (numeral text.toList)))]) :=
  readProgram_eq_ok_iff_words.mpr ⟨_, h.spells_out, derives_out le⟩

/-- The output of a literal is accepted only if the literal denotes an integer. -/
theorem IsNumeral.le_of_accepted (h : IsNumeral text) {tree : Node}
    (accepted : readProgram ("out " ++ text ++ ";") = .ok tree) :
    numeral text.toList ≤ 2147483647 := by
  obtain ⟨words, spells, derives⟩ := readProgram_eq_ok_iff_words.mp accepted
  cases h.spells_out.unique spells
  cases derives with
  | whole statements =>
      exact statements.literals (Word.token ⟨.number, text⟩) (by simp [outWords]) rfl

/-- What is wrong with the output of a literal is reported once. -/
theorem IsNumeral.errors_le (h : IsNumeral text) :
    (parse ("out " ++ text ++ ";")).errors ≤ 1 := by
  have attempt : Attempt (⟨.out, "out"⟩ :: ([⟨.number, text⟩] ++ [⟨.semicolon, ";"⟩])) :=
    .words (.inr rfl) (Nat.le_add_left 1 119) (List.forall_mem_singleton.mpr rfl)
  have attempted : Attempted ("out " ++ text ++ ";") := ⟨_, h.spells_out, attempt⟩
  exact attempted.parse_eq.1

/-- Past the greatest integer there is one report and no more. -/
theorem IsNumeral.refused (h : IsNumeral text) (gt : 2147483647 < numeral text.toList) :
    ∃ report, (parse ("out " ++ text ++ ";")).reports = [report] := by
  have once := h.errors_le
  rw [parse_errors_eq] at once
  have wrong : (parse ("out " ++ text ++ ";")).reports ≠ [] := by
    intro silent
    have accepted := h.le_of_accepted (readProgram_eq_ok.mpr ⟨silent, rfl⟩)
    exact absurd gt (Nat.not_lt.mpr accepted)
  exact List.length_eq_one_iff.mp (Nat.le_antisymm once (List.length_pos_iff.mpr wrong))

end Output

/-! ## Sources with an integer -/

/-- The words in which an integer is printed. -/
def intWords : Int → List Word
  | .ofNat n => [⟨.number, n.repr⟩]
  | .negSucc n => [⟨.minus, "-"⟩, ⟨.number, (n + 1).repr⟩]

/-- The expression that these words derive. -/
def intNode : Int → Node
  | .ofNat n => .num (Int32.ofNat n)
  | .negSucc n => .neg (.num (Int32.ofNat (n + 1)))

/-- A printed integer is spelled by its digits, behind a sign if it is negative. -/
theorem spells_int (z : Int) {after : List Char} {words : List Word}
    (behind : Spells (';' :: after) words) :
    Spells (z.repr.toList ++ ';' :: after) (intWords z ++ words) := by
  cases z with
  | ofNat n => exact (isNumeral_repr n).spells behind
  | negSucc n =>
      have digits := (isNumeral_repr (n + 1)).spells behind
      have sign : Maximal "-".toList ((n + 1).repr.toList ++ ';' :: after) := fun c _ => rfl
      have printed : (Int.negSucc n).repr.toList = "-".toList ++ (n + 1).repr.toList :=
        String.toList_append
      rw [printed, List.append_assoc]
      exact @Spells.word [] _ ⟨.minus, "-"⟩ _ .nil (.fixed (by decide)) sign digits

theorem repr_phrase {n : Nat} (le : n ≤ 2147483647) (levels : Nat) :
    Phrase .primary levels 0 [Word.token ⟨.number, n.repr⟩] (.num (Int32.ofNat n)) := by
  have read := @literal_phrase n.repr (by rwa [numeral_repr]) levels
  rwa [numeral_repr] at read

/-- The sign is an operator, and the number without it has to be an integer. -/
theorem int_expression {z : Int} (le : z.natAbs ≤ 2147483647) (levels : Nat) :
    Expression maxOperators (levels + 2) ((intWords z).map Word.token) (intNode z) := by
  cases z with
  | ofNat n => exact .whole ((repr_phrase le _).of_primary .or) (Nat.zero_le _) rfl
  | negSucc n =>
      have operand := (repr_phrase le levels).of_primary .unary
      have negative : Phrase .unary (levels + 1) 1
          (Word.token ⟨.minus, "-"⟩ :: [Word.token ⟨.number, (n + 1).repr⟩]) _ :=
        .negative rfl operand rfl
      exact .whole (.of_term (.ofFactor (.ofUnary negative))) (by decide) rfl

/-- The expression for a printed integer evaluates to it: the sign negates without overflow. -/
theorem intNode_evaluate (v : Int32) (s : Store) : (intNode v.toInt).evaluate s = (.ok v, s) := by
  cases value : v.toInt with
  | ofNat n =>
      have same : Int32.ofNat n = v := by
        rw [← v.ofInt_toInt, value]
        exact Int32.ofInt_eq_ofNat.symm
      rw [intNode, Node.evaluate, same]
  | negSucc n =>
      have same : -Int32.ofNat (n + 1) = v := by
        rw [← v.ofInt_toInt, value, Int.negSucc_eq, Int32.ofInt_neg]
        exact congrArg (-·) Int32.ofInt_eq_ofNat.symm
      rw [intNode, Node.evaluate, Node.evaluate, Evaluation.andThen]
      exact congrArg (fun a => (Except.ok a, s)) same

/-- The words of an assignment of an integer and an output behind it. -/
def echoWords (z : Int) : List Word :=
  ⟨.name, "x"⟩ :: ⟨.assign, "="⟩ :: (intWords z ++
    [⟨.semicolon, ";"⟩, ⟨.out, "out"⟩, ⟨.name, "x"⟩, ⟨.semicolon, ";"⟩])

/-- The words of the program, one after the other. -/
theorem spells_echo (z : Int) :
    Spells ("x = " ++ z.repr ++ "; out x;").toList (echoWords z) := by
  have name : Lexeme .name "x".toList := @Lexeme.name 'x' [] (by decide) nofun (by decide)
  have last : Spells [] [] := .done (.closed .nil)
  have ends : Maximal "x".toList [';'] := by
    rintro _ ⟨⟩
    decide
  have x : Spells ['x', ';'] [⟨.name, "x"⟩, ⟨.semicolon, ";"⟩] :=
    @Spells.word [] [';'] ⟨.name, "x"⟩ _ .nil name ends last.stop
  have out := @Spells.spaced _ _ x ⟨.out, "out"⟩ (.fixed (by decide))
  have space : Gap [' '] := .blank (by decide) .nil
  have value := spells_int z (out.skip space).stop
  have sign := @Spells.spaced _ _ value ⟨.assign, "="⟩ (.fixed (by decide))
  have whole := @Spells.spaced _ _ sign ⟨.name, "x"⟩ name
  rw [String.toList_append, String.toList_append, List.append_assoc]
  exact whole

/-- Every integer but the least has a literal for its absolute value, so the program can be
derived. -/
theorem derives_echo {z : Int} (le : z.natAbs ≤ 2147483647) :
    Derives (echoWords z) (.seq [.assign "x" (intNode z), .out (.var "x")]) := by
  have name : Phrase .primary 126 0 [Word.token ⟨.name, "x"⟩] (.var "x") := .name rfl
  have first : Statement maxOperators 128 (Word.token ⟨.name, "x"⟩ :: Word.token ⟨.assign, "="⟩ ::
      (intWords z).map Word.token ++ [Word.token ⟨.semicolon, ";"⟩]) (.assign "x" (intNode z)) :=
    .assign rfl rfl (int_expression le 125) rfl
  have second : Statement maxOperators 128 (Word.token ⟨.out, "out"⟩ ::
      [Word.token ⟨.name, "x"⟩] ++ [Word.token ⟨.semicolon, ";"⟩]) (.out (.var "x")) :=
    .out rfl (.whole (name.of_primary .or) (Nat.zero_le _) rfl) rfl
  have both : Program maxOperators maxNesting _ _ := .whole (.cons first (.cons second .nil))
  simpa [Derives, echoWords] using both

/-! ## Running them -/

namespace Machine

/-- Nothing failed, the names are bound like this, and a sink without bounds took these bytes. -/
structure Shows (store : Store) (bytes : ByteArray) (m : Machine Sink) : Prop where
  store_eq : m.store = store
  sink_eq : m.sink = { Sink.unlimited with taken := bytes }
  errors_eq : m.errors = 0

namespace Shows

variable {m : Machine Sink} {store after : Store} {bytes : ByteArray} {value : Node} {v : Int32}

theorem new (threshold : Option Level) :
    (Machine.new Sink.unlimited threshold).Shows .empty .empty :=
  ⟨rfl, rfl, rfl⟩

theorem log (h : m.Shows store bytes) (event : LogEvent) : (m.log event).Shows store bytes :=
  ⟨(m.log_store event).trans h.store_eq, (m.log_sink event).trans h.sink_eq,
    (m.log_errors event).trans h.errors_eq⟩

/-- An assignment of a value that evaluates binds the name to it and prints nothing. -/
theorem assigns (h : m.Shows store bytes) (evaluates : value.evaluate store = (.ok v, after))
    (target : String) (rounds : Nat) :
    ∃ n, contain .assign ((Node.assign target value).perform rounds) m = some n ∧
      n.Shows (after.write target v) bytes := by
  have entered := h.log (.entering .assign)
  have result := congrArg value.evaluate entered.store_eq
  rw [evaluates] at result
  refine ⟨{ m.log (.entering .assign) with store := after.write target v }, ?_,
    ⟨rfl, entered.sink_eq, entered.errors_eq⟩⟩
  rw [contain, Node.perform_assign, onValue_ok (congrArg Prod.fst result), result]
  rfl

/-- An output of a value that evaluates prints its line and leaves the names alone. -/
theorem prints (h : m.Shows store bytes) (evaluates : value.evaluate store = (.ok v, after))
    (rounds : Nat) :
    ∃ n, contain .out ((Node.out value).perform rounds) m = some n ∧
      n.Shows after (bytes ++ lineOf v) := by
  have entered := h.log (.entering .out)
  have result := congrArg value.evaluate entered.store_eq
  rw [evaluates] at result
  let here : Machine Sink := { m.log (.entering .out) with store := after }
  have taken : here.sink = { Sink.unlimited with taken := bytes } := entered.sink_eq
  obtain ⟨store, sink, errors⟩ := here.settle_print v
  refine ⟨settle .out (here.print v), ?_, store, ?_, ?_⟩
  · rw [contain, Node.perform_out, onValue_ok (congrArg Prod.fst result), result]
    rfl
  · rw [sink, taken]
    rfl
  · rw [errors, taken, show here.errors = 0 from entered.errors_eq]
    rfl

theorem finish (h : m.Shows store bytes) : m.finish.Shows store bytes := by
  obtain ⟨store, sink, errors⟩ := m.finish_fields
  refine ⟨store.trans h.store_eq, ?_, ?_⟩
  · rw [sink, h.sink_eq]
    rfl
  · rw [errors, h.sink_eq, h.errors_eq]
    rfl

theorem logBindings (h : m.Shows store bytes) : m.logBindings.Shows store bytes := by
  obtain ⟨store, sink, errors⟩ := m.logBindings_fields
  exact ⟨store.trans h.store_eq, sink.trans h.sink_eq, errors.trans h.errors_eq⟩

end Shows

end Machine

open Machine

/-- What the statements of an accepted source show is what interpreting the source shows. -/
theorem interpret_shows {source : String} {nodes : List Node} {rounds : Nat} {store : Store}
    {bytes : ByteArray} (accepted : readProgram source = .ok (.seq nodes))
    (runs : ∀ m : Machine Sink, m.Shows .empty .empty →
      ∃ n, performAll rounds nodes m = some n ∧ n.Shows store bytes) (threshold : Option Level) :
    ∃ m, interpret rounds Sink.unlimited threshold source = some (.ok m) ∧ m.Shows store bytes := by
  have begun := ((Shows.new threshold).log .executing).log (.entering .seq)
  obtain ⟨n, all, shows⟩ := runs _ begun
  refine ⟨n.finish.logBindings, (interpret_eq_ok accepted).mpr ⟨n.finish, ?_, rfl⟩,
    shows.finish.logBindings⟩
  rw [run_seq, all, Option.map_some]

theorem out_shows (rounds : Nat) (v : Int32) {m : Machine Sink} (h : m.Shows .empty .empty) :
    ∃ n, performAll rounds [.out (.num v)] m = some n ∧ n.Shows .empty (lineOf v) := by
  have value : (Node.num v).evaluate .empty = (.ok v, .empty) := rfl
  obtain ⟨n, printed, shows⟩ := h.prints value rounds
  rw [ByteArray.empty_append] at shows
  refine ⟨n, ?_, shows⟩
  simp only [performAll, Node.kind, printed, Option.bind_some]

theorem Store.read_write (s : Store) (name : String) (value : Int32) :
    (s.write name value).read name = (value, s.write name value) := by
  simp [Store.read, Store.write]

/-- The assignment binds the name, and the output reads it back. -/
theorem echo_shows (rounds : Nat) (v : Int32) {m : Machine Sink} (h : m.Shows .empty .empty) :
    ∃ n, performAll rounds [.assign "x" (intNode v.toInt), .out (.var "x")] m = some n ∧
      n.Shows (Store.empty.write "x" v) (lineOf v) := by
  obtain ⟨mid, assigned, between⟩ := h.assigns (intNode_evaluate v .empty) "x" rounds
  have value : (Node.var "x").evaluate (Store.empty.write "x" v) =
      (.ok v, Store.empty.write "x" v) := by
    simp only [Node.evaluate, Store.read_write]
  obtain ⟨n, printed, shows⟩ := between.prints value rounds
  rw [ByteArray.empty_append] at shows
  refine ⟨n, ?_, shows⟩
  simp only [performAll, Node.kind, assigned, printed, Option.bind_some]

/-- The text of a value is its decimal form. -/
theorem lineOf_eq_iff {v : Int32} {text : String} :
    Machine.lineOf v = (text ++ "\n").toUTF8 ↔ text = v.toInt.repr := by
  exact String.toByteArray_inj.trans ((String.append_left_inj "\n").trans eq_comm)

theorem lineOf_ofNat {n : Nat} (le : n ≤ 2147483647) :
    lineOf (Int32.ofNat n) = (n.repr ++ "\n").toUTF8 := by
  rw [lineOf, Int32.toInt_ofNat_of_lt (by omega)]
  rfl

/-- Decimal output and literals are inverse.  Let `text` be what is printed for an integer other
than the least one.  Then a source that assigns it to a name and prints the name is accepted.  It
binds the name to the integer and prints the text.  The output of digits, of any number and with
any zeros before the others, is accepted exactly if they denote at most the greatest integer.  It
then prints the number that they denote in decimal, and else there is one report. -/
theorem decimals_inverse (rounds : Nat) (threshold : Option Level) :
    (∀ (v : Int32) (text : String), v.toInt ≠ -2147483648 → lineOf v = (text ++ "\n").toUTF8 →
      ∃ m, interpret rounds Sink.unlimited threshold ("x = " ++ text ++ "; out x;") = some (.ok m) ∧
        m.sink.taken = (text ++ "\n").toUTF8 ∧ m.store.toList = [("x", v)] ∧ m.errors = 0) ∧
    ∀ text : String, text ≠ "" → (∀ c ∈ text.toList, c.isDigit = true) →
      let source := "out " ++ text ++ ";"
      ((∃ tree, readProgram source = .ok tree) ↔ numeral text.toList ≤ 2147483647) ∧
      (numeral text.toList ≤ 2147483647 →
        ∃ m, interpret rounds Sink.unlimited threshold source = some (.ok m) ∧
          m.sink.taken = ((numeral text.toList).repr ++ "\n").toUTF8 ∧
          m.store.toList = [] ∧ m.errors = 0) ∧
      (2147483647 < numeral text.toList →
        ∃ report, interpret rounds Sink.unlimited threshold source = some (.error [report]) ∧
          (parse source).reports = [report] ∧ (parse source).errors = 1) := by
  refine ⟨fun v text notLeast line => ?_, fun text nonempty digits => ⟨⟨?_, ?_⟩, ?_, ?_⟩⟩
  · obtain rfl := lineOf_eq_iff.mp line
    have least := v.le_toInt
    have most := v.toInt_lt
    have accepted := readProgram_eq_ok_iff_words.mpr
      ⟨_, spells_echo v.toInt, derives_echo (by omega)⟩
    obtain ⟨m, ends, shows⟩ := interpret_shows accepted (fun _ => echo_shows rounds v) threshold
    refine ⟨m, ends, ?_, ?_, shows.errors_eq⟩
    · rw [shows.sink_eq]
      exact line
    · rw [shows.store_eq]
      rfl
  · rintro ⟨tree, accepted⟩
    exact IsNumeral.le_of_accepted ⟨nonempty, digits⟩ accepted
  · exact fun le => ⟨_, IsNumeral.readProgram_out ⟨nonempty, digits⟩ le⟩
  · intro le
    have accepted := IsNumeral.readProgram_out ⟨nonempty, digits⟩ le
    obtain ⟨m, ends, shows⟩ := interpret_shows accepted (fun _ => out_shows rounds _) threshold
    refine ⟨m, ends, ?_, ?_, shows.errors_eq⟩
    · rw [shows.sink_eq]
      exact lineOf_ofNat le
    · rw [shows.store_eq]
      rfl
  · intro gt
    obtain ⟨report, refused⟩ := IsNumeral.refused ⟨nonempty, digits⟩ gt
    refine ⟨report, ?_, refused, ?_⟩
    · rw [interpret, readProgram, parse_errors_eq, refused]
      rfl
    · rw [parse_errors_eq, refused]
      rfl

end WhenLoop
