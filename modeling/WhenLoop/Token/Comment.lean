/-!
# Block comments

A block comment runs from `/*` to the `*/` that closes it, and block comments nest.
`afterComment?` reads past the delimiters from left to right with a counter of the
comments still open.  A delimiter takes both its characters, so the `*` of `/*/` opens a
comment and does not help to close it.
-/

namespace WhenLoop

/-- What follows the delimiter that closes the outermost of `depth` open comments, or
nothing if the text ends inside a comment. -/
def afterComment? : Nat → List Char → Option (List Char)
  | 0, text => some text
  | _ + 1, [] => none
  | depth + 1, '/' :: '*' :: text => afterComment? (depth + 2) text
  | depth + 1, '*' :: '/' :: text => afterComment? depth text
  | depth + 1, _ :: text => afterComment? (depth + 1) text
termination_by structural _ text => text

/-- What follows a comment is an end piece of the text. -/
theorem suffix_of_afterComment? {depth : Nat} {text rest : List Char}
    (h : afterComment? depth text = some rest) : rest <:+ text := by
  fun_induction afterComment? depth text with
  | case1 text => simp_all
  | case2 => simp at h
  | case3 depth text ih => exact (ih h).trans ⟨['/', '*'], rfl⟩
  | case4 depth text ih => exact (ih h).trans ⟨['*', '/'], rfl⟩
  | case5 depth c text _ _ ih => exact (ih h).trans (List.suffix_cons c text)

example : afterComment? 1 "a /* b */ c */ d".toList = some " d".toList := by decide
example : afterComment? 1 "/*/ */".toList = none := by decide

end WhenLoop
