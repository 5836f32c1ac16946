import Mathlib.Data.Vector.Basic

/-!
# Shared vocabulary of the relay model

Every function of the source that can fail to return is modelled in `Exec`.
A C string is the list of its bytes before the terminating NUL, so `strcmp` is
list equality and `strlen` is the length. Allocation is assumed to succeed.
-/

namespace DnsRelay

/-- The ways in which a computation of the program does not return. -/
inductive Stop
  /-- `exit(0)` of `compare_record_with_label` on a record that is not valid. -/
  | invalidRecord
  /-- `exit(0)` of `get_hashnode` on a head node that carries a record. -/
  | headRecord
  /-- `exit(EXIT_FAILURE)` of `push_front` when the free stack is exhausted. -/
  | noRemainSpace
  /-- Undefined behaviour: a NULL or released pointer, or an access outside an array. -/
  | fault
  /-- A loop of the source that never ends. -/
  | hang
  deriving DecidableEq, Repr

/-- Computations of the program that may stop instead of returning. -/
abbrev Exec := Except Stop

/-- The reason for which a computation stopped, if it did. -/
def stopOf {α : Type} : Exec α → Option Stop
  | .ok _ => none
  | .error e => some e

@[simp] theorem stopOf_ok {α : Type} (a : α) : stopOf (.ok a : Exec α) = none := rfl

@[simp] theorem stopOf_error {α : Type} (e : Stop) : stopOf (.error e : Exec α) = some e := rfl

theorem exists_ok_of_stopOf {α : Type} {x : Exec α} (h : stopOf x = none) : ∃ a, x = .ok a := by
  cases x with
  | ok a => exact ⟨a, rfl⟩
  | error e => simp at h

/-- A domain name as a C string. -/
abbrev Label := List UInt8

instance : LawfulBEq Label := List.instLawfulBEq

/-- `struct IP`: the sixteen bytes of `union ip` and the family tag. -/
structure IP where
  addr : Vector UInt8 16
  type : UInt8
  deriving DecidableEq, Repr

end DnsRelay
