import Mathlib.Data.List.Basic

/- Texts that are written alike up to where they part: of two of them, whether they are
   one is told by what their pieces are, as long as pieces that differ part. -/
namespace Parsing
variable {B : Type} {x y s t : List B} {p q : Prop}

/-- Neither text goes on as the other does. -/
def Part (x y : List B) : Prop := ∀ rest rest', x ++ rest ≠ y ++ rest'

/-- The texts are one if p, and part if not. -/
structure Tells (p : Prop) (x y : List B) : Prop where
  same : p → x = y
  part : ¬ p → Part x y

theorem Part.append (parts : Part x y) (s t : List B) : Part (x ++ s) (y ++ t) := by
  intro rest rest'
  rw [List.append_assoc, List.append_assoc]
  exact parts (s ++ rest) (t ++ rest')

theorem Part.prepend (parts : Part x y) (front : List B) : Part (front ++ x) (front ++ y) := by
  intro rest rest' same
  rw [List.append_assoc, List.append_assoc] at same
  exact parts rest rest' (List.append_cancel_left same)

theorem Part.ne (parts : Part x y) : x ≠ y := by
  rintro rfl
  exact parts [] [] rfl

theorem Tells.of (x : List B) (holds : p) : Tells p x x where
  same _ := rfl
  part fails := absurd holds fails

theorem Tells.same_iff (tells : Tells p x y) : x = y ↔ p := by
  constructor
  · intro same
    by_contra fails
    exact (tells.part fails).ne same
  · exact tells.same

theorem Tells.append (one : Tells p x y) (two : Tells q s t) : Tells (p ∧ q) (x ++ s) (y ++ t) where
  same both := by rw [one.same both.1, two.same both.2]
  part fails := by
    by_cases first : p
    · rw [one.same first]
      exact (two.part fun second => fails ⟨first, second⟩).prepend y
    · exact (one.part first).append s t

theorem Tells.congr (tells : Tells p x y) (iff : q ↔ p) : Tells q x y where
  same holds := tells.same (iff.mp holds)
  part fails := tells.part fun holds => fails (iff.mpr holds)

theorem Tells.between (front back : List B) (tells : Tells p x y) :
    Tells p (front ++ x ++ back) (front ++ y ++ back) :=
  (((Tells.of front trivial).append tells).append (Tells.of back trivial)).congr (by simp)

/-- Pieces that tell, one by one. -/
inductive AllTell : Prop → List (List B) → List (List B) → Prop where
  | nil : AllTell True [] []
  | cons {p q x y xs ys} (tells : Tells p x y) (later : AllTell q xs ys) :
    AllTell (p ∧ q) (x :: xs) (y :: ys)

theorem AllTell.intercalate {xs ys : List (List B)} (all : AllTell p xs ys) (sep : List B) :
    Tells p (sep.intercalate xs) (sep.intercalate ys) := by
  induction all with
  | nil => exact Tells.of _ trivial
  | @cons p q x y xs ys tells later ih =>
    cases later with
    | nil => simpa using tells
    | cons next rest =>
      rw [List.intercalate_cons_cons, List.intercalate_cons_cons, List.append_assoc,
        List.append_assoc]
      refine tells.append (((Tells.of sep trivial).append ih).congr ?_)
      rw [true_and]

end Parsing
