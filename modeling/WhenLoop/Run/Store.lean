import Std.Data.TreeMap

/-!
# The store

A store gives names their values.  There is one flat space of names.  Reading a name that
is not bound binds it to zero first, so a read never fails, but it can add a binding.

`Store.value` is the value a read would give.  It does not tell a name that is not bound
from one that is bound to zero, and no program can tell them apart either.  The bindings
are kept in the order of their names.
-/

namespace WhenLoop

/-- The values of names. -/
structure Store where
  /-- The bindings. -/
  bindings : Std.TreeMap String Int32

namespace Store

/-- The store without bindings. -/
def empty : Store := ⟨∅⟩

instance : Inhabited Store := ⟨empty⟩

/-- The value of a name, zero if it is not bound. -/
def value (s : Store) (name : String) : Int32 :=
  s.bindings.getD name 0

/-- Whether a name is bound. -/
def contains (s : Store) (name : String) : Bool :=
  s.bindings.contains name

/-- Bind a name to a value. -/
def write (s : Store) (name : String) (value : Int32) : Store :=
  ⟨s.bindings.insert name value⟩

/-- The value of a name, and the store in which it is bound. -/
def read (s : Store) (name : String) : Int32 × Store :=
  match s.bindings[name]? with
  | some value => (value, s)
  | none => (0, s.write name 0)

/-- How many names are bound. -/
def size (s : Store) : Nat := s.bindings.size

/-- Whether no name is bound. -/
def isEmpty (s : Store) : Bool := s.bindings.isEmpty

/-- The bindings in the order of their names. -/
def toList (s : Store) : List (String × Int32) := s.bindings.toList

/-! ## Reads and writes through the values -/

@[simp]
theorem value_empty (name : String) : empty.value name = 0 := by
  simp [empty, value]

theorem value_write (s : Store) (name : String) (v : Int32) (other : String) :
    (s.write name v).value other = if name = other then v else s.value other := by
  simp [write, value, Std.TreeMap.getD_insert]

/-- A read gives the value. -/
theorem read_fst (s : Store) (name : String) : (s.read name).1 = s.value name := by
  rw [read, value]
  rw [Std.TreeMap.getD_eq_getD_getElem?]
  cases s.bindings[name]? <;> rfl

/-- A read changes no value. -/
theorem value_read_snd (s : Store) (name other : String) :
    (s.read name).2.value other = s.value other := by
  rw [read]
  cases h : s.bindings[name]? with
  | some v => rfl
  | none =>
      rw [value_write]
      split
      · subst other
        simp [value, Std.TreeMap.getD_eq_getD_getElem?, h]
      · rfl

end Store

end WhenLoop
