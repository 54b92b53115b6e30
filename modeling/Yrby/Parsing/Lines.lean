import Mathlib.Data.List.Basic

/- Texts of lines that end in a stop. A text is only ever appended to, a line with its end
   or no more than the front of one, and what is left open runs into what comes next. -/
namespace Parsing
variable {B : Type} [DecidableEq B]

section
variable (stop : B)

/-- The lines of a text, without their ends, after what is open; past the last end there
    is a line only if there is something. -/
def linesFrom : List B → List B → List (List B)
  | line, [] => if line = [] then [] else [line]
  | line, b :: rest => if b = stop then line :: linesFrom [] rest else linesFrom (line ++ [b]) rest

/- The lines that have their end -/
def endedFrom : List B → List B → List (List B)
  | _, [] => []
  | line, b :: rest => if b = stop then line :: endedFrom [] rest else endedFrom (line ++ [b]) rest

/- What follows the last end -/
def openFrom : List B → List B → List B
  | line, [] => line
  | line, b :: rest => if b = stop then openFrom [] rest else openFrom (line ++ [b]) rest

def linesOf (text : List B) : List (List B) := linesFrom stop [] text

def endedOf (text : List B) : List (List B) := endedFrom stop [] text

def openOf (text : List B) : List B := openFrom stop [] text

def textOf (lines : List (List B)) : List B := (lines.map (· ++ [stop])).flatten

end

variable {stop : B} {front : List B}

omit [DecidableEq B] in
theorem textOf_append (lines more : List (List B)) :
    textOf stop (lines ++ more) = textOf stop lines ++ textOf stop more := by
  simp [textOf]

theorem linesFrom_append (line some more : List B) : linesFrom stop line (some ++ more) =
    endedFrom stop line some ++ linesFrom stop (openFrom stop line some) more := by
  induction some generalizing line with
  | nil => rfl
  | cons b rest ih =>
    rw [List.cons_append, linesFrom, endedFrom, openFrom]
    split
    · rw [ih [], List.cons_append]
    · exact ih (line ++ [b])

theorem openFrom_append (line some more : List B) :
    openFrom stop line (some ++ more) = openFrom stop (openFrom stop line some) more := by
  induction some generalizing line with
  | nil => rfl
  | cons b rest ih =>
    rw [List.cons_append, openFrom, openFrom]
    split
    · exact ih []
    · exact ih (line ++ [b])

theorem linesFrom_line (plain : stop ∉ front) (line rest : List B) :
    linesFrom stop line (front ++ stop :: rest) = (line ++ front) :: linesFrom stop [] rest := by
  induction front generalizing line with
  | nil => rw [List.nil_append, linesFrom, if_pos rfl, List.append_nil]
  | cons b front ih =>
    have other : b ≠ stop := fun same => plain (same ▸ List.mem_cons_self ..)
    have later := ih (fun mem => plain (List.mem_cons_of_mem b mem)) (line ++ [b])
    rw [List.append_assoc, List.singleton_append] at later
    rw [List.cons_append, linesFrom, if_neg other, later]

theorem openFrom_line (plain : stop ∉ front) (line rest : List B) :
    openFrom stop line (front ++ stop :: rest) = openFrom stop [] rest := by
  induction front generalizing line with
  | nil => rw [List.nil_append, openFrom, if_pos rfl]
  | cons b front ih =>
    have other : b ≠ stop := fun same => plain (same ▸ List.mem_cons_self ..)
    have later := ih (fun mem => plain (List.mem_cons_of_mem b mem)) (line ++ [b])
    rw [List.cons_append, openFrom, if_neg other, later]

/-- A line appended to a text is read back behind what was open, whatever comes after. -/
theorem linesOf_line (plain : stop ∉ front) (text rest : List B) :
    linesOf stop (text ++ (front ++ stop :: rest)) =
      endedOf stop text ++ (openOf stop text ++ front) :: linesOf stop rest := by
  rw [linesOf, linesFrom_append, linesFrom_line plain]
  rfl

theorem openOf_line (plain : stop ∉ front) (text rest : List B) :
    openOf stop (text ++ (front ++ stop :: rest)) = openOf stop rest := by
  rw [openOf, openFrom_append, openFrom_line plain]
  rfl

theorem openFrom_mem {line text : List B} {b : B} (mem : b ∈ openFrom stop line text) :
    b ∈ line ∨ b ∈ text ∧ b ≠ stop := by
  induction text generalizing line with
  | nil => exact Or.inl mem
  | cons c rest ih =>
    rw [openFrom] at mem
    split at mem
    · rcases ih mem with none | later
      · simp at none
      · exact Or.inr ⟨List.mem_cons_of_mem c later.1, later.2⟩
    · rename_i other
      rcases ih mem with here | later
      · rcases List.mem_append.mp here with old | new
        · exact Or.inl old
        · obtain rfl := List.mem_singleton.mp new
          exact Or.inr ⟨List.mem_cons_self .., other⟩
      · exact Or.inr ⟨List.mem_cons_of_mem c later.1, later.2⟩

/- As long as nothing is open, the ended lines are all there is. -/
theorem linesOf_closed {text : List B} (closed : openOf stop text = []) :
    linesOf stop text = endedOf stop text := by
  have all : linesFrom stop [] (text ++ []) =
      endedOf stop text ++ linesFrom stop (openOf stop text) [] := linesFrom_append [] text []
  rw [List.append_nil] at all
  change linesOf stop text = _ at all
  rw [all, closed]
  exact List.append_nil _

/-- Whole lines are read back as they were written. -/
theorem linesOf_textOf {lines : List (List B)} (plain : ∀ line ∈ lines, stop ∉ line) {text : List B}
    (closed : openOf stop text = []) :
    linesOf stop (text ++ textOf stop lines) = linesOf stop text ++ lines ∧
      openOf stop (text ++ textOf stop lines) = [] := by
  induction lines generalizing text with
  | nil =>
    have nothing : text ++ textOf stop [] = text := List.append_nil text
    rw [nothing, List.append_nil]
    exact ⟨rfl, closed⟩
  | cons line rest ih =>
    have here := plain line (List.mem_cons_self ..)
    have regrouped : text ++ textOf stop (line :: rest) =
        (text ++ (line ++ stop :: [])) ++ textOf stop rest := by
      rw [List.append_assoc]
      rfl
    have once : linesOf stop (text ++ (line ++ stop :: [])) = linesOf stop text ++ [line] := by
      rw [linesOf_line here, closed, linesOf_closed closed]
      rfl
    have open_ : openOf stop (text ++ (line ++ stop :: [])) = [] := openOf_line here text []
    obtain ⟨read, closed'⟩ := ih (fun other mem => plain other (List.mem_cons_of_mem line mem)) open_
    rw [regrouped]
    refine ⟨?_, closed'⟩
    rw [read, once, List.append_assoc, List.singleton_append]

end Parsing
