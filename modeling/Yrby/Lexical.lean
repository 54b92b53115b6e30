import Mathlib.Data.List.Basic

/- Reading a Lexical document as text (read.rs): every node is an XmlText, and blocks
   are nested in blocks as embedded ones. -/
namespace Yrby.Lexical

abbrev Text := List Char

/-- What Text::diff lists: text runs, node maps and child nodes with their __type where it
    is a string, and embeds that are read for no text. -/
inductive Out where
  | string (s : Text)
  | yMap (type : Option String)
  | yXmlText (type : Option String) (diff : List Out)
  | other

def isInlineLexicalType (ty : String) : Bool :=
  ty ∈ ["text", "link", "autolink", "linebreak", "tab", "hashtag", "mark", "overflow"]

def lexicalType (type : Option String) : String := type.getD ""

def lexicalMapType (type : Option String) : String := type.getD ""

/- linebreak and tab carry no text, but a character; other maps stay silent. -/
def pushMap (type : Option String) (buf : Text) : Text :=
  match lexicalMapType type with
  | "linebreak" => buf ++ ['\n']
  | "tab" => buf ++ ['\t']
  | _ => buf

mutual

def pushInline : Out → Text → Text
  | .string s, buf => buf ++ s
  | .yXmlText _ diff, buf => inlineLexicalText diff buf
  | .yMap type, buf => pushMap type buf
  | .other, buf => buf

def inlineLexicalText : List Out → Text → Text
  | [], buf => buf
  | d :: rest, buf => inlineLexicalText rest (pushInline d buf)

end

def pushLine (line : Text) (out : List Text) : List Text := if line.isEmpty then out else out ++ [line]

mutual

/- One turn of the loop, on the line begun and the lines pushed. A block child takes the
   line as it is, and is walked like the block itself. -/
def walkInsert : Out → Text × List Text → Text × List Text
  | .string s, (line, out) => (line ++ s, out)
  | .yMap type, (line, out) => (pushMap type line, out)
  | .yXmlText type diff, (line, out) =>
    let ty := lexicalType type
    if ty = "linebreak" then (line ++ ['\n'], out)
    else if ty = "tab" then (line ++ ['\t'], out)
    else if isInlineLexicalType ty then (inlineLexicalText diff line, out)
    else
      let (last, out) := walkDiff diff ([], pushLine line out)
      ([], pushLine last out)
  | .other, state => state

def walkDiff : List Out → Text × List Text → Text × List Text
  | [], state => state
  | d :: rest, state => walkDiff rest (walkInsert d state)

end

def walkLexicalBlock (diff : List Out) (out : List Text) : List Text :=
  let (line, out) := walkDiff diff ([], out)
  pushLine line out

/-- A child of the root: an XmlText, an element with or without a __type, a fragment; of
    the last two what get_string makes of them. -/
inductive XmlOut where
  | text (diff : List Out)
  | element (typed : Bool) (string : Text)
  | fragment (string : Text)

def pushBlock (out : List Text) : XmlOut → List Text
  | .text diff => walkLexicalBlock diff out
  | .element typed string => if typed then out else out ++ [string]
  | .fragment string => out ++ [string]

def xmlBlocksText (children : List XmlOut) : Text :=
  ['\n'].intercalate (children.foldl pushBlock [])

mutual

def insertRuns : Out → Text
  | .string s => s
  | .yMap type => pushMap type []
  | .yXmlText _ diff => runs diff
  | .other => []

def runs : List Out → Text
  | [] => []
  | d :: rest => insertRuns d ++ runs rest

end

/-- A block by the positions that lead to it, the last one first. -/
abbrev Path := List Nat

mutual

/-- The text in a node, each character with the block that owns it: a block owns its runs
    and everything below its inline children. -/
def insertOwned (owner : Path) (i : Nat) : Out → List (Path × Char)
  | .string s => s.map (owner, ·)
  | .yMap type => (pushMap type []).map (owner, ·)
  | .yXmlText type diff =>
    if isInlineLexicalType (lexicalType type) then (runs diff).map (owner, ·)
    else owned (i :: owner) 0 diff
  | .other => []

def owned (owner : Path) (i : Nat) : List Out → List (Path × Char)
  | [] => []
  | d :: rest => insertOwned owner i d ++ owned owner (i + 1) rest

end

/-- A child that starts lines of its own. -/
def IsBlock : Out → Prop
  | .yXmlText type _ => isInlineLexicalType (lexicalType type) = false
  | _ => False

mutual

/-- Line breaks and tabs are node maps, never XmlText children. -/
def StoredInsert : Out → Prop
  | .yXmlText type diff => type ≠ some "linebreak" ∧ type ≠ some "tab" ∧ Stored diff
  | _ => True

def Stored : List Out → Prop
  | [] => True
  | d :: rest => StoredInsert d ∧ Stored rest

end

theorem diff_induction {motive : List Out → Prop} (nil : motive [])
    (string : ∀ s rest, motive rest → motive (.string s :: rest))
    (yMap : ∀ type rest, motive rest → motive (.yMap type :: rest))
    (yXmlText : ∀ type diff rest, motive diff → motive rest → motive (.yXmlText type diff :: rest))
    (other : ∀ rest, motive rest → motive (.other :: rest)) : ∀ diff, motive diff
  | [] => nil
  | .string s :: rest => string s rest (diff_induction nil string yMap yXmlText other rest)
  | .yMap type :: rest => yMap type rest (diff_induction nil string yMap yXmlText other rest)
  | .yXmlText type diff :: rest =>
    yXmlText type diff rest (diff_induction nil string yMap yXmlText other diff)
      (diff_induction nil string yMap yXmlText other rest)
  | .other :: rest => other rest (diff_induction nil string yMap yXmlText other rest)

theorem pushMap_eq (type : Option String) (buf : Text) : pushMap type buf = buf ++ pushMap type [] := by
  unfold pushMap
  split
  · rfl
  · rfl
  · rw [List.append_nil]

theorem inlineLexicalText_eq (diff : List Out) (buf : Text) :
    inlineLexicalText diff buf = buf ++ runs diff := by
  induction diff using diff_induction generalizing buf with
  | nil => simp [inlineLexicalText, runs]
  | string s rest ih => rw [inlineLexicalText, pushInline, ih, runs, insertRuns, List.append_assoc]
  | yMap type rest ih =>
    rw [inlineLexicalText, pushInline, ih, pushMap_eq, runs, insertRuns, List.append_assoc]
  | yXmlText type diff rest inner ih =>
    rw [inlineLexicalText, pushInline, ih, inner, runs, insertRuns, List.append_assoc]
  | other rest ih => rw [inlineLexicalText, pushInline, ih, runs, insertRuns, List.nil_append]

section
variable {d : Out} {diff stretch rest : List Out} {type : Option String} {line : Text} {out : List Text}

theorem typeNe {name : String} (some_ : type ≠ some name) (named : name ≠ "") :
    lexicalType type ≠ name := by
  cases type with
  | none => exact fun same => named same.symm
  | some ty => exact fun same => some_ (congrArg some same)

theorem walkInsert_flat (stored : StoredInsert d) (flat : ¬ IsBlock d) :
    walkInsert d (line, out) = (line ++ insertRuns d, out) := by
  cases d with
  | string s => rfl
  | yMap type => rw [walkInsert, pushMap_eq, insertRuns]
  | yXmlText type diff =>
    have breaks := typeNe stored.1 (by decide)
    have tabs := typeNe stored.2.1 (by decide)
    have inline : isInlineLexicalType (lexicalType type) = true := by
      rwa [IsBlock, Bool.not_eq_false] at flat
    simp only [walkInsert, if_neg breaks, if_neg tabs, inline, ↓reduceIte, inlineLexicalText_eq,
      insertRuns]
  | other => simp [walkInsert, insertRuns]

theorem walkInsert_block (block : IsBlock (.yXmlText type diff)) :
    walkInsert (.yXmlText type diff) (line, out) =
      ([], walkLexicalBlock diff (pushLine line out)) := by
  rw [IsBlock] at block
  have breaks : lexicalType type ≠ "linebreak" := by
    intro same
    simp [same, isInlineLexicalType] at block
  have tabs : lexicalType type ≠ "tab" := by
    intro same
    simp [same, isInlineLexicalType] at block
  simp only [walkInsert, if_neg breaks, if_neg tabs, block, Bool.false_eq_true, ↓reduceIte,
    walkLexicalBlock]

theorem insertOwned_flat (flat : ¬ IsBlock d) (owner : Path) (i : Nat) :
    insertOwned owner i d = (insertRuns d).map (owner, ·) := by
  cases d with
  | string s => rfl
  | yMap type => rfl
  | yXmlText type diff =>
    rw [IsBlock, Bool.not_eq_false] at flat
    rw [insertOwned, if_pos flat, insertRuns]
  | other => rfl

theorem insertOwned_block (block : IsBlock (.yXmlText type diff)) (owner : Path) (i : Nat) :
    insertOwned owner i (.yXmlText type diff) = owned (i :: owner) 0 diff := by
  rw [IsBlock] at block
  simp [insertOwned, block]

abbrev Segment := Path × Text

def marked (segment : Segment) : List (Path × Char) := segment.2.map (segment.1, ·)

/-- Lines of which none is empty, and of which each holds text of one block. -/
structure Cuts (segments : List Segment) (text : List (Path × Char)) : Prop where
  filled : ∀ segment ∈ segments, segment.2 ≠ []
  whole : segments.flatMap marked = text

theorem Cuts.append {segments segments' : List Segment} {text text' : List (Path × Char)}
    (one : Cuts segments text) (two : Cuts segments' text') :
    Cuts (segments ++ segments') (text ++ text') where
  filled segment mem := (List.mem_append.mp mem).elim (one.filled segment) (two.filled segment)
  whole := by rw [List.flatMap_append, one.whole, two.whole]

theorem pushLine_cuts (owner : Path) (line : Text) :
    ∃ segments, (∀ out, pushLine line out = out ++ segments.map Prod.snd) ∧
      Cuts segments (line.map (owner, ·)) := by
  cases line with
  | nil => exact ⟨[], fun out => (List.append_nil out).symm, by simp, rfl⟩
  | cons c line =>
    refine ⟨[(owner, c :: line)], fun out => rfl, ?_, ?_⟩
    · simp
    · simp [marked]

/-- What the loop pushes and what it leaves on the line cut the text it went over. -/
def Walked (diff : List Out) : Prop := ∀ owner i line, ∃ segments last text,
  (∀ out, walkDiff diff (line, out) = (last, out ++ segments.map Prod.snd)) ∧ Cuts segments text ∧
    text ++ last.map (owner, ·) = line.map (owner, ·) ++ owned owner i diff

theorem Walked.nil : Walked [] := by
  intro owner i line
  exact ⟨[], line, [], by simp [walkDiff], ⟨by simp, rfl⟩, by simp [owned]⟩

theorem Walked.onLine (stored : StoredInsert d) (flat : ¬ IsBlock d) (later : Walked rest) :
    Walked (d :: rest) := by
  intro owner i line
  obtain ⟨segments, last, text, walk, cuts, whole⟩ := later owner (i + 1) (line ++ insertRuns d)
  refine ⟨segments, last, text, fun out => ?_, cuts, ?_⟩
  · rw [walkDiff, walkInsert_flat stored flat, walk]
  · rw [whole, owned, insertOwned_flat flat, List.map_append, List.append_assoc]

theorem Walked.lines (walked : Walked diff) (owner : Path) :
    ∃ segments, (∀ out, walkLexicalBlock diff out = out ++ segments.map Prod.snd) ∧
      Cuts segments (owned owner 0 diff) := by
  obtain ⟨segments, last, text, walk, cuts, whole⟩ := walked owner 0 []
  obtain ⟨ending, push, closes⟩ := pushLine_cuts owner last
  refine ⟨segments ++ ending, fun out => ?_, ?_⟩
  · rw [walkLexicalBlock, walk]
    dsimp only
    rw [push, List.map_append, List.append_assoc]
  · rw [List.map_nil, List.nil_append] at whole
    rw [← whole]
    exact cuts.append closes

theorem Walked.block (block : IsBlock (.yXmlText type diff)) (inner : Walked diff)
    (later : Walked rest) : Walked (.yXmlText type diff :: rest) := by
  intro owner i line
  obtain ⟨before, push, begun⟩ := pushLine_cuts owner line
  obtain ⟨nested, lines, inside⟩ := inner.lines (i :: owner)
  obtain ⟨segments, last, text, walk, cuts, whole⟩ := later owner (i + 1) []
  refine ⟨before ++ (nested ++ segments), last, _, fun out => ?_,
    begun.append (inside.append cuts), ?_⟩
  · rw [walkDiff, walkInsert_block block, walk, lines, push]
    simp only [List.map_append, List.append_assoc]
  · rw [List.map_nil, List.nil_append] at whole
    rw [owned, insertOwned_block block, List.append_assoc, List.append_assoc, whole]

theorem walked (stored : Stored diff) : Walked diff := by
  induction diff using diff_induction with
  | nil => exact Walked.nil
  | string s rest ih => exact (ih stored.2).onLine stored.1 (by simp [IsBlock])
  | yMap type rest ih => exact (ih stored.2).onLine stored.1 (by simp [IsBlock])
  | yXmlText type diff rest inner ih =>
    by_cases block : IsBlock (.yXmlText type diff)
    · exact Walked.block block (inner stored.1.2.2) (ih stored.2)
    · exact (ih stored.2).onLine stored.1 block
  | other rest ih => exact (ih stored.2).onLine stored.1 (by simp [IsBlock])

theorem map_owner (owner : Path) (s : Text) : (s.map (owner, ·)).map Prod.snd = s := by
  rw [List.map_map]
  exact List.map_id s

theorem owned_runs (diff : List Out) (owner : Path) (i : Nat) :
    (owned owner i diff).map Prod.snd = runs diff := by
  have onLine : ∀ d : Out, ¬ IsBlock d → ∀ owner i, (insertOwned owner i d).map Prod.snd = insertRuns d :=
    fun d flat owner i => by rw [insertOwned_flat flat, map_owner]
  induction diff using diff_induction generalizing owner i with
  | nil => simp [owned, runs]
  | string s rest ih =>
    rw [owned, List.map_append, ih, onLine _ (by simp [IsBlock]), runs]
  | yMap type rest ih =>
    rw [owned, List.map_append, ih, onLine _ (by simp [IsBlock]), runs]
  | yXmlText type diff rest inner ih =>
    rw [owned, List.map_append, ih, runs]
    by_cases block : IsBlock (.yXmlText type diff)
    · rw [insertOwned_block block, inner, insertRuns]
    · rw [onLine _ block]
  | other rest ih =>
    rw [owned, List.map_append, ih, onLine _ (by simp [IsBlock]), runs]

theorem walkDiff_append (before after : List Out) (state : Text × List Text) :
    walkDiff (before ++ after) state = walkDiff after (walkDiff before state) := by
  induction before generalizing state with
  | nil => rfl
  | cons d before ih => rw [List.cons_append, walkDiff, walkDiff, ih]

theorem stored_append {before after : List Out} :
    Stored (before ++ after) ↔ Stored before ∧ Stored after := by
  induction before with
  | nil => simp [Stored]
  | cons d before ih => rw [List.cons_append, Stored, Stored, ih, and_assoc]

/-- A stretch without block children goes on one line. -/
theorem walkDiff_stretch (stored : Stored stretch) (flat : ∀ d ∈ stretch, ¬ IsBlock d) :
    walkDiff stretch (line, out) = (line ++ runs stretch, out) := by
  induction stretch generalizing line with
  | nil => simp [walkDiff, runs]
  | cons d rest ih =>
    rw [walkDiff, walkInsert_flat stored.1 (flat d (by simp)),
      ih stored.2 fun d' mem => flat d' (by simp [mem]), runs, List.append_assoc]

theorem walkLexicalBlock_eq (stored : Stored diff) (out : List Text) :
    walkLexicalBlock diff out = out ++ walkLexicalBlock diff [] := by
  obtain ⟨segments, lines, _⟩ := (walked stored).lines []
  rw [lines out, lines [], List.nil_append]

theorem walkLexicalBlock_stretch (stored : Stored stretch) (flat : ∀ d ∈ stretch, ¬ IsBlock d) :
    walkLexicalBlock stretch [] = pushLine (runs stretch) [] := by
  rw [walkLexicalBlock, walkDiff_stretch stored flat, List.nil_append]

theorem walkLexicalBlock_block {child : List Out} (block : IsBlock (.yXmlText type child))
    (stored : Stored (stretch ++ .yXmlText type child :: rest))
    (flat : ∀ d ∈ stretch, ¬ IsBlock d) :
    walkLexicalBlock (stretch ++ .yXmlText type child :: rest) [] =
      pushLine (runs stretch) [] ++ walkLexicalBlock child [] ++ walkLexicalBlock rest [] := by
  obtain ⟨before, this, after⟩ := stored_append.mp stored
  have walk : walkLexicalBlock (stretch ++ .yXmlText type child :: rest) [] =
      walkLexicalBlock rest (walkLexicalBlock child (pushLine (runs stretch) [])) := by
    rw [walkLexicalBlock, walkDiff_append, walkDiff_stretch before flat, List.nil_append, walkDiff,
      walkInsert_block block]
    rfl
  rw [walk, walkLexicalBlock_eq after, walkLexicalBlock_eq this.2.2]

/-- The lines that a block appends hold all of its text in order and none is empty, each is
    text of one block, and nothing but a block child ends a line before the text does. -/
theorem walk_lexical_block_lines (stored : Stored diff) :
    ∃ lines : List Segment, (∀ out, walkLexicalBlock diff out = out ++ lines.map Prod.snd) ∧
      (lines.map Prod.snd).flatten = runs diff ∧
      (∀ line ∈ lines, line.2 ≠ []) ∧
      lines.flatMap marked = owned [] 0 diff ∧
      ∀ stretch, (∀ d ∈ stretch, ¬ IsBlock d) →
        (diff = stretch → lines.map Prod.snd = pushLine (runs stretch) []) ∧
        ∀ type child rest, IsBlock (.yXmlText type child) →
          diff = stretch ++ .yXmlText type child :: rest →
          lines.map Prod.snd = pushLine (runs stretch) [] ++ walkLexicalBlock child [] ++
            walkLexicalBlock rest [] := by
  obtain ⟨lines, walk, cuts⟩ := (walked stored).lines []
  have own : lines.map Prod.snd = walkLexicalBlock diff [] := by rw [walk, List.nil_append]
  refine ⟨lines, walk, ?_, cuts.filled, cuts.whole, fun stretch flat => ⟨?_, ?_⟩⟩
  · rw [← owned_runs diff [] 0, ← cuts.whole, List.map_flatMap]
    simp only [marked, map_owner, List.flatMap_def]
  · rintro rfl
    rw [own, walkLexicalBlock_stretch stored flat]
  · rintro type child rest block rfl
    rw [own, walkLexicalBlock_block block stored flat]

def nestedList : List Out :=
  [.yMap (some "text"), .string "see ".toList, .yXmlText (some "link") [.string "it".toList],
    .yXmlText (some "listitem") [.string "one".toList, .yMap (some "linebreak")],
    .other, .string "end".toList]

theorem nestedList_lines : ∃ lines : List Segment,
    (∀ out, walkLexicalBlock nestedList out = out ++ lines.map Prod.snd) ∧
      (lines.map Prod.snd).flatten = runs nestedList := by
  have stored : Stored nestedList := by simp [nestedList, Stored, StoredInsert]
  obtain ⟨lines, walk, whole, _⟩ := walk_lexical_block_lines stored
  exact ⟨lines, walk, whole⟩

example : walkLexicalBlock nestedList [] = ["see it".toList, "one\n".toList, "end".toList] := by
  decide

end

end Yrby.Lexical
