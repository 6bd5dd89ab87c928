/-!
# Character classes

A program is Unicode text, but its names and numbers are ASCII.  A letter is one of the
52 ASCII letters or the underscore, and a digit is one of the ten ASCII digits
(`Char.isDigit`).  A name starts with a letter and goes on with letters and digits.

Blank characters are wider.  They are the 25 code points with the Unicode property
`White_Space`, so a no-break space or an ideographic space separates tokens as well as
an ASCII space does.  A byte order mark and a zero-width space do not have the property
and are not blank.
-/

namespace WhenLoop

/-- An ASCII letter or an underscore: what a name may start with. -/
def isLetter (c : Char) : Bool :=
  c.isAlpha || c == '_'

/-- What a name may go on with: a letter or an ASCII digit. -/
def isNameChar (c : Char) : Bool :=
  isLetter c || c.isDigit

/-- The code point ranges of the Unicode property `White_Space`, ends included, in
increasing order. -/
def blankRanges : List (Nat × Nat) :=
  [(0x0009, 0x000D), (0x0020, 0x0020), (0x0085, 0x0085), (0x00A0, 0x00A0),
   (0x1680, 0x1680), (0x2000, 0x200A), (0x2028, 0x2029), (0x202F, 0x202F),
   (0x205F, 0x205F), (0x3000, 0x3000)]

/-- A character with the Unicode property `White_Space`. -/
def isBlank (c : Char) : Bool :=
  blankRanges.any fun range => range.1 ≤ c.toNat && c.toNat ≤ range.2

/-! ## The classes do not meet -/

/-- The codes of letters are in this range, and so is that of the underscore. -/
theorem toNat_of_isLetter {c : Char} (h : isLetter c = true) : 65 ≤ c.toNat ∧ c.toNat ≤ 122 := by
  rcases Bool.or_eq_true_iff.mp h with alpha | underscore
  · rcases Bool.or_eq_true_iff.mp alpha with upper | lower
    · have range : 65 ≤ c.toNat ∧ c.toNat ≤ 90 := of_decide_eq_true upper
      omega
    · obtain ⟨least, most⟩ := Bool.and_eq_true_iff.mp lower
      have least : 97 ≤ c.toNat := of_decide_eq_true least
      have most : c.toNat ≤ 122 := of_decide_eq_true most
      omega
  · rw [beq_iff_eq.mp underscore]
    decide

theorem toNat_of_isDigit {c : Char} (h : c.isDigit = true) : 48 ≤ c.toNat ∧ c.toNat ≤ 57 := by
  simp only [Char.isDigit, Bool.and_eq_true, decide_eq_true_eq, UInt32.le_iff_toNat_le,
    ge_iff_le] at h
  exact h

/-- There is no blank from the digits to the last of the letters. -/
theorem isBlank_eq_false {c : Char} (least : 48 ≤ c.toNat) (most : c.toNat ≤ 122) :
    isBlank c = false := by
  simp only [isBlank, blankRanges, List.any_cons, List.any_nil, Bool.or_false,
    Bool.or_eq_false_iff, Bool.and_eq_false_iff, decide_eq_false_iff_not]
  omega

theorem isBlank_of_isDigit {c : Char} (h : c.isDigit = true) : isBlank c = false := by
  have range := toNat_of_isDigit h
  exact isBlank_eq_false range.1 (by omega)

theorem isBlank_of_isLetter {c : Char} (h : isLetter c = true) : isBlank c = false := by
  have range := toNat_of_isLetter h
  exact isBlank_eq_false (by omega) range.2

theorem isDigit_of_isLetter {c : Char} (h : isLetter c = true) : c.isDigit = false := by
  have range := toNat_of_isLetter h
  cases digit : c.isDigit with
  | false => rfl
  | true =>
      have range' := toNat_of_isDigit digit
      omega

theorem isNameChar_of_isBlank {c : Char} (h : isBlank c = true) : isNameChar c = false := by
  cases name : isNameChar c with
  | false => rfl
  | true =>
      rcases Bool.or_eq_true_iff.mp name with letter | digit
      · exact absurd h (by simp [isBlank_of_isLetter letter])
      · exact absurd h (by simp [isBlank_of_isDigit digit])

/-- The property has 25 code points. -/
example : (blankRanges.map fun range => range.2 - range.1 + 1).sum = 25 := by decide

/-- The ranges are disjoint and in increasing order. -/
example : (blankRanges.zip blankRanges.tail).all (fun pair => pair.1.2 < pair.2.1) = true := by
  decide

end WhenLoop
