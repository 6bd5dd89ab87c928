import WhenLoop.Run.Store
import Mathlib.Data.List.Dedup

/-!
# What a store recalls

A store is asked for values and for facts about its bindings, and values are written to it.  What
it answers is told by the accesses before, without any store (`Access.recall`).  A name has the
value that was last written to it, or zero.  It is bound if it was read or written before, and the
size is the number of such names.

The two ways in which a name comes to be bound, by a read and by a write, are both told by one
equation for a look-up (`Recalls`).  An access keeps it (`Recalls.step`), so it holds after any
number of accesses to an empty store, and every answer is read off it.
-/

namespace WhenLoop

namespace Store

/-! ## Accesses and their answers -/

/-- An access to a store. -/
inductive Access where
  | read (name : String)
  | write (name : String) (value : Int32)
  | contains (name : String)
  | size
  | isEmpty
deriving DecidableEq, Repr

/-- What an access gives back. -/
inductive Answer where
  | done
  | value (value : Int32)
  | truth (holds : Bool)
  | count (number : Nat)
deriving DecidableEq, Repr

/-- Make an access to a store: the answer, and the store behind it. -/
def Access.on (s : Store) : Access → Answer × Store
  | read name => (.value (s.read name).1, (s.read name).2)
  | write name value => (.done, s.write name value)
  | contains name => (.truth (s.contains name), s)
  | size => (.count s.size, s)
  | isEmpty => (.truth s.isEmpty, s)

/-- Make accesses one after another: their answers, and the store behind them. -/
def serve (s : Store) : List Access → List Answer × Store
  | [] => ([], s)
  | access :: more =>
      ((access.on s).1 :: ((access.on s).2.serve more).1, ((access.on s).2.serve more).2)

/-- By induction on the first accesses.  The later ones find the store those leave. -/
theorem serve_append (s : Store) (accesses more : List Access) :
    s.serve (accesses ++ more) =
      ((s.serve accesses).1 ++ ((s.serve accesses).2.serve more).1,
        ((s.serve accesses).2.serve more).2) := by
  induction accesses generalizing s with
  | nil => rfl
  | cons access accesses ih => simp only [List.cons_append, serve, ih]

theorem length_serve (s : Store) (accesses : List Access) :
    (s.serve accesses).1.length = accesses.length := by
  induction accesses generalizing s with
  | nil => rfl
  | cons access accesses ih => simp only [serve, List.length_cons, ih]

/-! ## Answers from the accesses before -/

namespace Access

/-- The name that is bound after the access. -/
def named? : Access → Option String
  | read name | write name _ => some name
  | contains _ | size | isEmpty => none

/-- The value that the access writes to the name. -/
def written? (name : String) : Access → Option Int32
  | write other value => if other = name then some value else none
  | read _ | contains _ | size | isEmpty => none

end Access

/-- The names that were read or written. -/
def named (history : List Access) : List String :=
  history.filterMap Access.named?

/-- The value that was last written to a name, zero if there is none. -/
def recalled (history : List Access) (name : String) : Int32 :=
  (history.filterMap (Access.written? name)).getLast?.getD 0

/-- The answer to an access, told by the accesses before it. -/
def Access.recall (history : List Access) : Access → Answer
  | read name => .value (recalled history name)
  | write _ _ => .done
  | contains name => .truth (decide (name ∈ named history))
  | size => .count (named history).dedup.length
  | isEmpty => .truth (decide ((named history).dedup.length = 0))

section History

variable {history : List Access} {name : String}

theorem mem_named_append {access : Access} :
    name ∈ named (history ++ [access]) ↔ name ∈ named history ∨ access.named? = some name := by
  simp [named, List.filterMap_append]

/-- The last access decides, if it writes to the name. -/
theorem recalled_append (access : Access) :
    recalled (history ++ [access]) name =
      (access.written? name).getD (recalled history name) := by
  cases written : access.written? name with
  | none => simp [recalled, List.filterMap_append, written]
  | some value => simp [recalled, List.filterMap_append, written]

theorem named?_of_written? {access : Access} {value : Int32}
    (h : access.written? name = some value) : access.named? = some name := by
  cases access with
  | write other value' =>
      rw [Access.written?, Option.ite_none_right_eq_some] at h
      rw [Access.named?, h.1]
  | _ => cases h

/-- A name that was neither read nor written has the value zero. -/
theorem recalled_of_not_mem (h : name ∉ named history) : recalled history name = 0 := by
  have never : history.filterMap (Access.written? name) = [] := by
    rw [List.filterMap_eq_nil_iff]
    intro access mem
    rw [Option.eq_none_iff_forall_ne_some]
    intro value written
    exact h (List.mem_filterMap.mpr ⟨access, mem, named?_of_written? written⟩)
  rw [recalled, never]
  rfl

/-- Only what was done to a name counts for its value. -/
theorem recalled_filter :
    recalled (history.filter fun access => access.named? = some name) name =
      recalled history name := by
  have same : (fun access : Access => if decide (access.named? = some name) = true then
      access.written? name else none) = Access.written? name := by
    funext access
    cases written : access.written? name with
    | none => exact ite_self none
    | some value => rw [if_pos (decide_eq_true (named?_of_written? written))]
  rw [recalled, List.filterMap_filter, same, recalled]

end History

/-! ## A store recalls the accesses before -/

/-- The store has the names that were read or written, with the values that were last written. -/
def Recalls (history : List Access) (s : Store) : Prop :=
  ∀ name, s.bindings[name]? =
    if name ∈ named history then some (recalled history name) else none

theorem getElem?_write (s : Store) (name : String) (value : Int32) (other : String) :
    (s.write name value).bindings[other]? =
      if name = other then some value else s.bindings[other]? := by
  simp [write, Std.TreeMap.getElem?_insert]

/-- A read binds its name to the value it gives, and no other. -/
theorem getElem?_read (s : Store) (name other : String) :
    (s.read name).2.bindings[other]? =
      if name = other then some (s.value name) else s.bindings[other]? := by
  rw [read, value, Std.TreeMap.getD_eq_getD_getElem?]
  cases bound : s.bindings[name]? with
  | none => exact s.getElem?_write name 0 other
  | some value =>
      by_cases same : name = other
      · rw [if_pos same, ← same]
        exact bound
      · rw [if_neg same]

/-- What a look-up gives behind an access. -/
theorem Access.getElem?_on (access : Access) (s : Store) (name : String) :
    (access.on s).2.bindings[name]? =
      if access.named? = some name then some ((access.written? name).getD (s.value name))
      else s.bindings[name]? := by
  cases access with
  | read other =>
      rw [on, getElem?_read]
      by_cases same : other = name <;> simp [named?, written?, same]
  | write other value =>
      rw [on, getElem?_write]
      by_cases same : other = name <;> simp [named?, written?, same]
  | _ => simp [on, named?]

theorem recalls_empty : Recalls [] empty := by
  intro name
  simp [empty, named]

namespace Recalls

variable {history : List Access} {s : Store}

/-- What the store has for a name, or zero, is what is recalled. -/
theorem value_eq (h : Recalls history s) (name : String) :
    s.value name = recalled history name := by
  rw [value, Std.TreeMap.getD_eq_getD_getElem?, h name]
  split
  · rfl
  · rename_i unnamed
    rw [recalled_of_not_mem unnamed]
    rfl

theorem contains_eq (h : Recalls history s) (name : String) :
    s.contains name = decide (name ∈ named history) := by
  rw [contains, Std.TreeMap.contains_eq_isSome_getElem?, h name]
  by_cases mem : name ∈ named history <;> simp [mem]

/-- The names of the bindings are those that were read or written, each of them once. -/
theorem keys_perm (h : Recalls history s) : s.bindings.keys.Perm (named history).dedup := by
  rw [List.perm_ext_iff_of_nodup Std.TreeMap.nodup_keys (List.nodup_dedup _)]
  intro name
  rw [Std.TreeMap.mem_keys, ← Std.TreeMap.contains_iff_mem, List.mem_dedup]
  exact (Bool.eq_iff_iff.mp (h.contains_eq name)).trans decide_eq_true_iff

theorem size_eq (h : Recalls history s) : s.size = (named history).dedup.length := by
  rw [size, ← Std.TreeMap.length_keys]
  exact h.keys_perm.length_eq

theorem isEmpty_eq (h : Recalls history s) :
    s.isEmpty = decide ((named history).dedup.length = 0) := by
  rw [← h.size_eq, isEmpty, size, Std.TreeMap.isEmpty_eq_size_eq_zero]
  rfl

/-- The bindings are those of the named accesses. -/
theorem mem_toList (h : Recalls history s) {name : String} {value : Int32} :
    (name, value) ∈ s.toList ↔ name ∈ named history ∧ value = recalled history name := by
  rw [toList, Std.TreeMap.mem_toList_iff_getElem?_eq_some, h name, Option.ite_none_right_eq_some,
    Option.some_inj, eq_comm]

/-- One case for each kind of access. -/
theorem answer_eq (h : Recalls history s) (access : Access) :
    (access.on s).1 = access.recall history := by
  cases access with
  | read name => exact congrArg Answer.value ((s.read_fst name).trans (h.value_eq name))
  | write name value => rfl
  | contains name => exact congrArg Answer.truth (h.contains_eq name)
  | size => exact congrArg Answer.count h.size_eq
  | isEmpty => exact congrArg Answer.truth h.isEmpty_eq

/-- An access is recalled with those before it. -/
theorem step (h : Recalls history s) (access : Access) :
    Recalls (history ++ [access]) (access.on s).2 := by
  intro name
  rw [access.getElem?_on, h.value_eq, h name, recalled_append]
  by_cases binds : access.named? = some name
  · rw [if_pos binds, if_pos (mem_named_append.mpr (.inr binds))]
  · have unwritten : access.written? name = none := by
      rw [Option.eq_none_iff_forall_ne_some]
      exact fun value written => binds (named?_of_written? written)
    rw [if_neg binds, unwritten, Option.getD_none]
    exact if_congr (by simp [mem_named_append, binds]) rfl rfl

/-- So are any number of accesses. -/
theorem serve (h : Recalls history s) (accesses : List Access) :
    Recalls (history ++ accesses) (s.serve accesses).2 := by
  induction accesses generalizing history s with
  | nil => rwa [List.append_nil]
  | cons access accesses ih =>
      have rest := ih (h.step access)
      rwa [List.append_assoc] at rest

end Recalls

/-- The bindings are in the order of their names. -/
theorem toList_ordered (s : Store) : (s.toList.map Prod.fst).Pairwise (· < ·) := by
  have ordered : s.toList.Pairwise fun a b => compare a.1 b.1 = .lt :=
    Std.TreeMap.ordered_keys_toList
  exact List.pairwise_map.mpr (ordered.imp fun less => compareOfLessAndEq_eq_lt.mp less)

/-- A store recalls its history.  Of any accesses to an empty store, each is answered as the ones
before it tell: a read gives the value that was last written to the name, or zero, a name is bound
if it was read or written, and the size counts the different names that were.  Accesses to other
names do not matter for the value of a name.  The bindings are in strictly increasing order of
their names.  They are those of the names that were read or written, with the values that a read
gives. -/
theorem serve_recalls (before : List Access) (access : Access) (after : List Access) :
    (empty.serve (before ++ access :: after)).1[before.length]? = some (access.recall before) ∧
    let s := (empty.serve before).2
    (∀ name, (s.read name).1 =
      ((empty.serve (before.filter fun access => access.named? = some name)).2.read name).1) ∧
    (s.toList.map Prod.fst).Pairwise (· < ·) ∧
    ∀ name value, (name, value) ∈ s.toList ↔ name ∈ named before ∧ value = (s.read name).1 := by
  have recalls (accesses : List Access) : Recalls accesses (empty.serve accesses).2 :=
    recalls_empty.serve accesses
  have reads (accesses : List Access) (name : String) :
      ((empty.serve accesses).2.read name).1 = recalled accesses name :=
    (read_fst _ name).trans ((recalls accesses).value_eq name)
  refine ⟨?_, fun name => ?_, toList_ordered _, fun name value => ?_⟩
  · rw [serve_append, List.getElem?_append_right (Nat.le_of_eq (length_serve ..)), length_serve,
      Nat.sub_self, serve, List.getElem?_cons_zero, (recalls before).answer_eq]
  · rw [reads, reads, recalled_filter]
  · rw [(recalls before).mem_toList, reads]

end Store

end WhenLoop
