import Mathlib.Data.List.DropRight
import Yrby.Lexical

/- Y::Decoder.text (decoder.rb): the text of a stored document for search and previews.
   Of the native readers only what they return is here. -/
namespace Yrby.Decoder
open Lexical

/- The white space of String#strip. -/
def isSpace (c : Char) : Bool :=
  c ∈ ['\x00', '\t', '\n', '\x0b', '\x0c', '\r', ' ']

def strip (text : Text) : Text := (text.dropWhile isSpace).rdropWhile isSpace

/- gsub(/<[^>]*>/, " "): from a "<" to the first ">" after it, when there is one. -/
def stripFrom (inside : Bool) : Text → Text
  | [] => []
  | c :: rest =>
    if inside then stripFrom (c != '>') rest
    else if c = '<' ∧ '>' ∈ rest then ' ' :: stripFrom true rest
    else c :: stripFrom false rest

def stripTags (markup : Text) : Text := stripFrom false markup

/- gsub(/[ \t]+/, " ") -/
def collapseBlanks (after : Bool) : Text → Text
  | [] => []
  | c :: rest =>
    if c = ' ' ∨ c = '\t' then
      if after then collapseBlanks true rest else ' ' :: collapseBlanks true rest
    else c :: collapseBlanks false rest

/- gsub(/ *\n */, "\n") -/
def trimBreaks (after : Bool) : Text → Text
  | [] => []
  | c :: rest =>
    if c = '\n' then '\n' :: trimBreaks true rest
    else if c = ' ' ∧ (after ∨ (rest.dropWhile (· = ' ')).head? = some '\n') then
      trimBreaks after rest
    else c :: trimBreaks false rest

/- gsub(/\n{3,}/, "\n\n") -/
def capBreaks (count : Nat) : Text → Text
  | [] => []
  | c :: rest =>
    if c = '\n' then
      if count < 2 then '\n' :: capBreaks (count + 1) rest else capBreaks count rest
    else c :: capBreaks 0 rest

def normalize (text : Text) : Text :=
  strip (capBreaks 0 (trimBreaks false (collapseBlanks false text)))

structure Loaded where
  rootNames : List String
  readText : String → Option Text
  readXml : String → Option Text

def text (doc : Loaded) (field : Option String) : Text :=
  match field <|> doc.rootNames.head? with
  | none => []
  | some field =>
    match doc.readText field with
    | none => fromXml field
    | some direct => if strip direct = [] then fromXml field else normalize direct
where fromXml (field : String) : Text :=
  match doc.readXml field with
  | none => []
  | some markup => normalize (stripTags markup)

def visible (text : Text) : Text := text.filter (! isSpace ·)

mutual

def insertStrings : Out → Text
  | .string s => s
  | .yXmlText _ diff => strings diff
  | _ => []

def strings : List Out → Text
  | [] => []
  | d :: rest => insertStrings d ++ strings rest

end

/-- A child that is read as the one character it stands for. -/
def Silent (type : Option String) : Prop :=
  lexicalType type = "linebreak" ∨ lexicalType type = "tab"

instance (type : Option String) : Decidable (Silent type) :=
  inferInstanceAs (Decidable (_ ∨ _))

mutual

/-- Children that are line breaks and tabs have nothing to say. -/
def InsertHeard : Out → Prop
  | .yXmlText type diff =>
    if Silent type then visible (strings diff) = []
    else isInlineLexicalType (lexicalType type) = true ∨ Heard diff
  | _ => True

def Heard : List Out → Prop
  | [] => True
  | d :: rest => InsertHeard d ∧ Heard rest

end

/-- No "<" has a ">" anywhere after it. -/
def Tagless (text : Text) : Prop := text.Pairwise fun c later => c = '<' → later ≠ '>'

instance (text : Text) : Decidable (Tagless text) :=
  inferInstanceAs (Decidable (text.Pairwise fun c later => c = '<' → later ≠ '>'))

theorem visible_append (before after : Text) :
    visible (before ++ after) = visible before ++ visible after := List.filter_append before after

theorem visible_cons_of_space {c : Char} (space : isSpace c = true) (rest : Text) :
    visible (c :: rest) = visible rest := by
  simp [visible, space]

theorem visible_cons (c : Char) (rest : Text) : visible (c :: rest) = visible [c] ++ visible rest :=
  visible_append [c] rest

theorem visible_dropWhile (text : Text) : visible (text.dropWhile isSpace) = visible text := by
  induction text with
  | nil => rfl
  | cons c rest ih =>
    by_cases space : isSpace c = true
    · rw [List.dropWhile_cons_of_pos space, ih, visible_cons_of_space space]
    · rw [List.dropWhile_cons_of_neg space]

theorem visible_strip (text : Text) : visible (strip text) = visible text := by
  have reversed : ∀ text : Text, visible text.reverse = (visible text).reverse :=
    fun text => List.filter_reverse
  rw [strip, List.rdropWhile, reversed, visible_dropWhile, reversed, List.reverse_reverse,
    visible_dropWhile]

theorem visible_collapseBlanks (after : Bool) (text : Text) :
    visible (collapseBlanks after text) = visible text := by
  induction text generalizing after with
  | nil => rfl
  | cons c rest ih =>
    rw [collapseBlanks]
    split
    · rename_i blank
      have space : isSpace c = true := by rcases blank with rfl | rfl <;> rfl
      rw [visible_cons_of_space space]
      split
      · exact ih true
      · rw [visible_cons_of_space (by rfl), ih]
    · rw [visible_cons, ih, ← visible_cons]

theorem visible_trimBreaks (after : Bool) (text : Text) :
    visible (trimBreaks after text) = visible text := by
  induction text generalizing after with
  | nil => rfl
  | cons c rest ih =>
    rw [trimBreaks]
    split
    · rename_i newline
      rw [visible_cons, ih, newline, ← visible_cons]
    · split
      · rename_i blank
        rw [ih, blank.1, visible_cons_of_space (by rfl)]
      · rw [visible_cons, ih, ← visible_cons]

theorem visible_capBreaks (count : Nat) (text : Text) :
    visible (capBreaks count text) = visible text := by
  induction text generalizing count with
  | nil => rfl
  | cons c rest ih =>
    rw [capBreaks]
    split
    · rename_i newline
      rw [newline, visible_cons_of_space (by rfl)]
      split
      · rw [visible_cons_of_space (by rfl), ih]
      · exact ih count
    · rw [visible_cons, ih, ← visible_cons]

theorem visible_normalize (text : Text) : visible (normalize text) = visible text := by
  rw [normalize, visible_strip, visible_capBreaks, visible_trimBreaks, visible_collapseBlanks]

theorem tagless_visible (text : Text) : Tagless (visible text) ↔ Tagless text := by
  have plain : ∀ c d : Char, ((! isSpace c) = true → (! isSpace d) = true → c = '<' → d ≠ '>') ↔
      (c = '<' → d ≠ '>') := by
    intro c d
    constructor
    · rintro apart rfl rfl
      exact apart rfl rfl rfl rfl
    · exact fun apart _ _ => apart
  rw [Tagless, visible, List.pairwise_filter]
  simp only [plain, Tagless]

theorem stripTags_tagless {markup : Text} (tagless : Tagless markup) : stripTags markup = markup := by
  unfold stripTags
  induction markup with
  | nil => rfl
  | cons c rest ih =>
    obtain ⟨first, later⟩ := List.pairwise_cons.mp tagless
    have open_ : ¬ (c = '<' ∧ '>' ∈ rest) := fun tag => first '>' tag.2 tag.1 rfl
    rw [stripFrom, if_neg Bool.false_ne_true, if_neg open_, ih later]

theorem visible_stripFrom (inside : Bool) (markup : Text) :
    (visible (stripFrom inside markup)).length ≤ (visible markup).length := by
  induction markup generalizing inside with
  | nil => exact le_refl _
  | cons c rest ih =>
    have grows : (visible rest).length ≤ (visible (c :: rest)).length := by
      rw [visible_cons c, List.length_append]
      omega
    rw [stripFrom]
    split
    · exact (ih _).trans grows
    · split
      · rw [visible_cons_of_space (by rfl)]
        exact (ih true).trans grows
      · rw [visible_cons c, visible_cons c rest, List.length_append, List.length_append]
        exact Nat.add_le_add_left (ih false) _

/-- A "<" with a ">" after it is lost with what stands between them. -/
theorem visible_stripTags {markup : Text} (tag : ¬ Tagless markup) :
    (visible (stripTags markup)).length < (visible markup).length := by
  unfold stripTags
  induction markup with
  | nil => exact absurd List.Pairwise.nil tag
  | cons c rest ih =>
    rw [stripFrom, if_neg Bool.false_ne_true]
    by_cases opens : c = '<' ∧ '>' ∈ rest
    · rw [if_pos opens, visible_cons_of_space (by rfl), opens.1, visible_cons '<', List.length_append]
      have shorter := visible_stripFrom true rest
      have bracket : (visible ['<']).length = 1 := rfl
      omega
    · have tag : ¬ Tagless rest := by
        intro tagless
        refine tag (List.pairwise_cons.mpr ⟨?_, tagless⟩)
        rintro later mem rfl rfl
        exact opens ⟨rfl, mem⟩
      rw [if_neg opens, visible_cons c, visible_cons c rest, List.length_append, List.length_append]
      exact Nat.add_lt_add_left (ih tag) _

/-- What was taken of a text, and when it is all of it. -/
structure Takes (taken all : Text) (whole : Prop) : Prop where
  sub : List.Sublist taken all
  whole : taken = all ↔ whole

theorem Takes.all (text : Text) : Takes text text True where
  sub := List.Sublist.refl text
  whole := ⟨fun _ => trivial, fun _ => rfl⟩

theorem Takes.append {taken taken' all all' : Text} {whole whole' : Prop}
    (one : Takes taken all whole) (two : Takes taken' all' whole') :
    Takes (taken ++ taken') (all ++ all') (whole ∧ whole') where
  sub := one.sub.append two.sub
  whole := by
    rw [← one.whole, ← two.whole]
    constructor
    · intro same
      have lengths := congrArg List.length same
      have first := one.sub.length_le
      have second := two.sub.length_le
      rw [List.length_append, List.length_append] at lengths
      exact List.append_inj same (by omega)
    · rintro ⟨rfl, rfl⟩
      rfl

def Adds (diff : List Out) (taken : Text) : Prop := ∀ state : Text × List Text,
  visible ((walkDiff diff state).2.flatten ++ (walkDiff diff state).1) =
    visible (state.2.flatten ++ state.1) ++ taken

theorem visible_pushMap (type : Option String) : visible (pushMap type []) = [] := by
  unfold pushMap
  split
  · rfl
  · rfl
  · rfl

theorem visible_runs (diff : List Out) : visible (runs diff) = visible (strings diff) := by
  induction diff using diff_induction with
  | nil => rfl
  | string s rest ih => rw [runs, strings, visible_append, visible_append, ih, insertRuns, insertStrings]
  | yMap type rest ih =>
    rw [runs, strings, visible_append, ih, insertRuns, visible_pushMap]
    rfl
  | yXmlText type diff rest inner ih =>
    rw [runs, strings, visible_append, visible_append, ih, insertRuns, inner, insertStrings]
  | other rest ih =>
    rw [runs, strings, visible_append, ih]
    rfl

theorem pushLine_flatten (line : Text) (out : List Text) :
    (pushLine line out).flatten = out.flatten ++ line := by
  cases line with
  | nil => exact (List.append_nil _).symm
  | cons c line => simp [pushLine]

theorem walkLexicalBlock_adds {diff : List Out} {taken : Text} (adds : Adds diff taken)
    (out : List Text) :
    visible (walkLexicalBlock diff out).flatten = visible out.flatten ++ taken := by
  rw [walkLexicalBlock]
  dsimp only
  rw [pushLine_flatten, adds ([], out), List.append_nil]

section
variable {d : Out} {diff rest : List Out} {type : Option String} {line : Text} {out : List Text}

theorem Adds.onLine {text taken : Text}
    (turn : ∀ line out, walkInsert d (line, out) = (line ++ text, out)) (later : Adds rest taken) :
    Adds (d :: rest) (visible text ++ taken) := by
  intro state
  rw [walkDiff, turn state.1 state.2, later, ← List.append_assoc, visible_append, List.append_assoc]

theorem Adds.block {inside taken : Text} (block : IsBlock (.yXmlText type diff))
    (inner : Adds diff inside) (later : Adds rest taken) :
    Adds (.yXmlText type diff :: rest) (inside ++ taken) := by
  intro state
  rw [walkDiff, walkInsert_block block, later, List.append_nil, walkLexicalBlock_adds inner,
    pushLine_flatten, List.append_assoc]

theorem walkInsert_silent (silent : Silent type) :
    ∃ text, visible text = [] ∧
      ∀ line out, walkInsert (.yXmlText type diff) (line, out) = (line ++ text, out) := by
  rcases silent with breaks | tabs
  · exact ⟨['\n'], rfl, fun line out => by simp only [walkInsert, if_pos breaks]⟩
  · have other : lexicalType type ≠ "linebreak" := by
      rw [tabs]
      decide
    exact ⟨['\t'], rfl, fun line out => by simp only [walkInsert, if_neg other, if_pos tabs]⟩

theorem walkInsert_inline (heard : ¬ Silent type)
    (inline : isInlineLexicalType (lexicalType type) = true) :
    walkInsert (.yXmlText type diff) (line, out) = (line ++ runs diff, out) := by
  rw [Silent, not_or] at heard
  simp only [walkInsert, if_neg heard.1, if_neg heard.2, inline, ↓reduceIte, inlineLexicalText_eq]

/-- The loop takes the text runs in order, all of them where no line break or tab hides one. -/
theorem walkDiff_takes (diff : List Out) :
    ∃ taken, Adds diff taken ∧ Takes taken (visible (strings diff)) (Heard diff) := by
  induction diff using diff_induction with
  | nil =>
    refine ⟨[], fun state => ?_, Takes.all []⟩
    rw [walkDiff, List.append_nil]
  | string s rest ih =>
    obtain ⟨taken, adds, takes⟩ := ih
    refine ⟨visible s ++ taken, Adds.onLine (fun line out => rfl) adds, ?_⟩
    rw [strings, visible_append]
    exact (Takes.all _).append takes
  | yMap type rest ih =>
    obtain ⟨taken, adds, takes⟩ := ih
    refine ⟨_, Adds.onLine (fun line out => by rw [walkInsert, pushMap_eq]) adds, ?_⟩
    rw [visible_pushMap, strings, visible_append]
    exact (Takes.all []).append takes
  | yXmlText type diff rest inner ih =>
    obtain ⟨taken, adds, takes⟩ := ih
    rw [strings, visible_append, insertStrings, Heard, InsertHeard]
    by_cases silent : Silent type
    · obtain ⟨text, hidden, turn⟩ := @walkInsert_silent diff type silent
      refine ⟨visible text ++ taken, adds.onLine turn, ?_⟩
      rw [if_pos silent, hidden]
      exact Takes.append ⟨List.nil_sublist _, eq_comm⟩ takes
    · rw [if_neg silent]
      by_cases inline : isInlineLexicalType (lexicalType type) = true
      · refine ⟨_, adds.onLine fun line out => walkInsert_inline silent inline, ?_⟩
        rw [visible_runs]
        simp only [inline, true_or]
        exact (Takes.all _).append takes
      · have block : IsBlock (.yXmlText type diff) := eq_false_of_ne_true inline
        obtain ⟨inside, walk, all⟩ := inner
        refine ⟨_, Adds.block block walk adds, ?_⟩
        simp only [inline, Bool.false_eq_true, false_or]
        exact all.append takes
  | other rest ih =>
    obtain ⟨taken, adds, takes⟩ := ih
    refine ⟨_, Adds.onLine (fun line out => by rw [walkInsert, List.append_nil]) adds, ?_⟩
    rw [strings, visible_append]
    exact (Takes.all []).append takes

end

theorem pushBlocks_takes (blocks : List (List Out)) :
    ∃ taken, (∀ out, visible ((blocks.map XmlOut.text).foldl pushBlock out).flatten =
        visible out.flatten ++ taken) ∧
      Takes taken (visible (blocks.flatMap strings)) (∀ diff ∈ blocks, Heard diff) := by
  induction blocks with
  | nil =>
    exact ⟨[], fun out => (List.append_nil _).symm, List.Sublist.refl [], by simp [visible]⟩
  | cons diff blocks ih =>
    obtain ⟨taken, adds, takes⟩ := walkDiff_takes diff
    obtain ⟨others, pushes, all⟩ := ih
    refine ⟨taken ++ others, fun out => ?_, ?_⟩
    · rw [List.map_cons, List.foldl_cons, pushes, pushBlock, walkLexicalBlock_adds adds,
        List.append_assoc]
    · rw [List.flatMap_cons, visible_append, List.forall_mem_cons]
      exact takes.append all

theorem visible_join (lines : List Text) :
    visible (['\n'].intercalate lines) = visible lines.flatten := by
  induction lines with
  | nil => rfl
  | cons line rest ih =>
    cases rest with
    | nil => simp [List.intercalate]
    | cons next rest =>
      have newline : visible ['\n'] = [] := rfl
      rw [List.intercalate_cons_cons, visible_append, visible_append, ih, newline, List.append_nil]
      exact (visible_append _ _).symm

theorem xmlBlocksText_takes (blocks : List (List Out)) :
    Takes (visible (xmlBlocksText (blocks.map XmlOut.text))) (visible (blocks.flatMap strings))
      (∀ diff ∈ blocks, Heard diff) := by
  obtain ⟨taken, pushes, takes⟩ := pushBlocks_takes blocks
  rw [xmlBlocksText, visible_join, pushes []]
  exact takes

theorem text_blocks {doc : Loaded} {root : String} {markup : Text}
    (noText : ∀ direct, doc.readText root = some direct → strip direct = [])
    (xml : doc.readXml root = some markup) :
    visible (text doc (some root)) = visible (stripTags markup) := by
  have markupText : text.fromXml doc root = normalize (stripTags markup) := by
    rw [text.fromXml, xml]
  have same : text doc (some root) = normalize (stripTags markup) := by
    cases direct : doc.readText root with
    | none => simp only [text, Option.orElse_eq_orElse, Option.orElse_some, direct, markupText]
    | some direct' =>
      simp only [text, Option.orElse_eq_orElse, Option.orElse_some, direct, noText _ direct,
        ↓reduceIte, markupText]
  rw [same, visible_normalize]

/-- The text of a Lexical root has the characters of its text runs exactly where no "<" in
    them has a ">" after it and no line break or tab hides any. -/
theorem text_keeps_runs_iff {doc : Loaded} {root : String} {blocks : List (List Out)}
    (noText : ∀ direct, doc.readText root = some direct → strip direct = [])
    (xml : doc.readXml root = some (xmlBlocksText (blocks.map XmlOut.text))) :
    visible (text doc (some root)) = visible (blocks.flatMap strings) ↔
      Tagless (blocks.flatMap strings) ∧ ∀ diff ∈ blocks, Heard diff := by
  have takes := xmlBlocksText_takes blocks
  rw [text_blocks noText xml]
  constructor
  · intro kept
    have taken := takes.sub.length_le
    have tagless : Tagless (xmlBlocksText (blocks.map XmlOut.text)) := by
      by_contra tag
      have shorter := visible_stripTags tag
      rw [kept] at shorter
      omega
    rw [stripTags_tagless tagless] at kept
    refine ⟨?_, takes.whole.mp kept⟩
    rw [← tagless_visible, ← kept, tagless_visible]
    exact tagless
  · rintro ⟨tagless, heard⟩
    have kept := takes.whole.mpr heard
    rw [stripTags_tagless, kept]
    rw [← tagless_visible, kept, tagless_visible]
    exact tagless

def letter (link last : String) : List (List Out) :=
  [[.string "see ".toList, .yXmlText (some "link") [.string link.toList]], [.string last.toList]]

def lexicalRoot (blocks : List (List Out)) : Loaded where
  rootNames := ["root"]
  readText _ := some []
  readXml _ := some (xmlBlocksText (blocks.map XmlOut.text))

theorem letter_keeps_runs :
    visible (text (lexicalRoot (letter "a > b" "c < d")) (some "root")) =
      visible ((letter "a > b" "c < d").flatMap strings) := by
  have empty : ∀ direct, (lexicalRoot (letter "a > b" "c < d")).readText "root" = some direct →
      strip direct = [] := by
    rintro direct same
    cases same
    rfl
  refine (text_keeps_runs_iff empty rfl).mpr ⟨by decide, ?_⟩
  simp [letter, Heard, InsertHeard, Silent, lexicalType, isInlineLexicalType]

/-- Two comparisons, in two paragraphs, that look like a tag together: "see x" and "z" are left. -/
theorem comparison_lost :
    visible (text (lexicalRoot (letter "x<y" "y>z")) (some "root")) ≠
      visible ((letter "x<y" "y>z").flatMap strings) := by
  decide

end Yrby.Decoder
