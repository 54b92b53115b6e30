import Mathlib.Data.List.Basic

/- Parsers that know where what they read ends. Whatever follows what such a parser
   takes, it takes the same and leaves the rest alone, so that nothing it takes is
   the beginning of anything else it takes. -/
namespace Parsing

/-- What is read from the front, and what is left. -/
abbrev Parser (B A : Type) := List B → Option (A × List B)

variable {B A C : Type}

namespace Parser

def done (a : A) : Parser B A := fun bytes => some (a, bytes)

def fail : Parser B A := fun _ => none

def bind (p : Parser B A) (f : A → Parser B C) : Parser B C := fun bytes =>
  (p bytes).bind fun read => f read.1 read.2

/- The next n of the input -/
def next (n : Nat) : Parser B (List B) := fun bytes =>
  if n ≤ bytes.length then some (bytes.take n, bytes.drop n) else none

end Parser

open Parsing.Parser

/-- The parser takes the front as a, whatever follows. -/
def Takes (p : Parser B A) (a : A) (front : List B) : Prop := ∀ rest, p (front ++ rest) = some (a, rest)

/-- All a parser ever reads, it takes from the front. -/
def Delimiting (p : Parser B A) : Prop :=
  ∀ bytes a rest, p bytes = some (a, rest) → ∃ front, bytes = front ++ rest ∧ Takes p a front

variable {p : Parser B A} {f : A → Parser B C} {a a' : A} {c : C} {front more rest : List B}

theorem Takes.whole (takes : Takes p a front) : p front = some (a, []) := by
  have read := takes []
  rwa [List.append_nil] at read

theorem Delimiting.takes_iff (delimits : Delimiting p) : Takes p a front ↔ p front = some (a, []) := by
  constructor
  · exact Takes.whole
  · intro read
    obtain ⟨front', same, takes⟩ := delimits _ _ _ read
    rw [List.append_nil] at same
    exact same ▸ takes

/-- Nothing that is taken begins anything else that is. -/
theorem Takes.prefix_free (one : Takes p a front) (two : Takes p a' (front ++ rest)) :
    rest = [] ∧ a = a' := by
  have read := (one rest).symm.trans two.whole
  obtain ⟨same, empty⟩ := Prod.mk.inj (Option.some.inj read)
  exact ⟨empty, same⟩

theorem takes_done : Takes (done a : Parser B A) a [] := fun _ => rfl

theorem takes_bind (first : Takes p a front) (second : Takes (f a) c more) :
    Takes (p.bind f) c (front ++ more) := by
  intro rest
  rw [List.append_assoc, Parser.bind, first]
  exact second rest

theorem takes_map {g : A → C} (takes : Takes p a front) :
    Takes (p.bind fun a => done (g a)) (g a) front := by
  have both := takes_bind (f := fun a => done (g a)) takes takes_done
  rwa [List.append_nil] at both

theorem takes_next (bytes : List B) : Takes (next bytes.length) bytes bytes := by
  intro rest
  simp [next]

theorem delimiting_done : Delimiting (done a : Parser B A) := by
  intro bytes a' rest read
  obtain ⟨rfl, rfl⟩ := Prod.mk.inj (Option.some.inj read)
  exact ⟨[], rfl, takes_done⟩

theorem delimiting_fail : Delimiting (fail : Parser B A) := by
  intro bytes a rest read
  exact absurd read (by simp [fail])

theorem delimiting_bind (first : Delimiting p) (second : ∀ a, Delimiting (f a)) :
    Delimiting (p.bind f) := by
  intro bytes c rest read
  obtain ⟨⟨a, middle⟩, one, two⟩ := Option.bind_eq_some_iff.mp read
  obtain ⟨front, rfl, takes⟩ := first _ _ _ one
  obtain ⟨more, rfl, takes'⟩ := second a _ _ _ two
  exact ⟨front ++ more, by rw [List.append_assoc], takes_bind takes takes'⟩

theorem delimiting_next (n : Nat) : Delimiting (next n : Parser B (List B)) := by
  intro bytes a rest read
  unfold next at read
  split at read
  · rename_i enough
    obtain ⟨rfl, rfl⟩ := Prod.mk.inj (Option.some.inj read)
    refine ⟨bytes.take n, (List.take_append_drop n bytes).symm, ?_⟩
    have length : (bytes.take n).length = n := by rw [List.length_take]; omega
    have takes := takes_next (bytes.take n)
    rwa [length] at takes
  · simp at read

/-- What two parsers take one after the other splits between them. -/
theorem takes_bind_iff (first : Delimiting p) (second : ∀ a, Delimiting (f a)) {bytes : List B} :
    Takes (p.bind f) c bytes ↔
      ∃ a front more, bytes = front ++ more ∧ Takes p a front ∧ Takes (f a) c more := by
  constructor
  · intro takes
    obtain ⟨⟨a, middle⟩, one, two⟩ := Option.bind_eq_some_iff.mp takes.whole
    obtain ⟨front, rfl, taken⟩ := first _ _ _ one
    exact ⟨a, front, middle, rfl, taken, (second a).takes_iff.mpr two⟩
  · rintro ⟨a, front, more, rfl, one, two⟩
    exact takes_bind one two

theorem takes_next_iff {n : Nat} {bytes : List B} :
    Takes (next n) more bytes ↔ more = bytes ∧ bytes.length = n := by
  constructor
  · intro takes
    have read := takes.whole
    unfold next at read
    split at read
    · obtain ⟨rfl, empty⟩ := Prod.mk.inj (Option.some.inj read)
      have short := List.drop_eq_nil_iff.mp empty
      exact ⟨List.take_of_length_le short, by omega⟩
    · simp at read
  · rintro ⟨rfl, rfl⟩
    exact takes_next more

theorem takes_done_iff {bytes : List B} : Takes (done a : Parser B A) a' bytes ↔ a' = a ∧ bytes = [] := by
  constructor
  · intro takes
    obtain ⟨rfl, rfl⟩ := Prod.mk.inj (Option.some.inj takes.whole)
    exact ⟨rfl, rfl⟩
  · rintro ⟨rfl, rfl⟩
    exact takes_done

end Parsing
