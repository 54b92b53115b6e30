import Mathlib.Data.List.Chain
import Yrby.Decoder

/- The form that Y::Decoder.text returns text in, and the one line of it that preview shows. -/
namespace Yrby.Preview
open Lexical Decoder

/-- Not two blanks, and no blank beside a break. -/
def Beside (a b : Char) : Prop := (a = ' ' → b ≠ ' ' ∧ b ≠ '\n') ∧ (a = '\n' → b ≠ ' ')

/- At most two breaks in a row, the ones before counted in -/
def Capped (count : Nat) : Text → Prop
  | [] => True
  | c :: rest => if c = '\n' then count < 2 ∧ Capped (count + 1) rest else Capped 0 rest

/-- Single blanks, none at the end of a line or the beginning of one, no more than one empty
    line at a time, and nothing to strip. -/
structure Normal (text : Text) : Prop where
  noTab : '\t' ∉ text
  spaced : text.IsChain Beside
  capped : ¬ ['\n', '\n', '\n'] <:+: text
  stripped : strip text = text

theorem capped_iff (count : Nat) (le : count ≤ 2) (text : Text) : Capped count text ↔
    ¬ ['\n', '\n', '\n'] <:+: text ∧ ¬ List.replicate (3 - count) '\n' <+: text := by
  induction text generalizing count with
  | nil =>
    have some_ : List.replicate (3 - count) '\n' ≠ [] := by
      rw [ne_eq, List.replicate_eq_nil_iff]
      omega
    simp [Capped, some_]
  | cons c rest ih =>
    have head : List.replicate (3 - count) '\n' = '\n' :: List.replicate (2 - count) '\n' := by
      rw [show 3 - count = (2 - count) + 1 by omega, List.replicate_succ]
    rw [Capped, List.infix_cons_iff, head]
    by_cases break_ : c = '\n'
    · subst break_
      rw [if_pos rfl]
      simp only [List.cons_prefix_cons, true_and]
      by_cases small : count < 2
      · have three : ['\n', '\n'] = List.replicate (2 - count) '\n' ++ List.replicate count '\n' := by
          rw [← List.replicate_add, show 2 - count + count = 2 by omega]
          rfl
        have weaker : ['\n', '\n'] <+: rest → List.replicate (2 - count) '\n' <+: rest := by
          intro two
          rw [three] at two
          exact (List.prefix_append _ _).trans two
        rw [ih (count + 1) (by omega), show 3 - (count + 1) = 2 - count by omega]
        tauto
      · obtain rfl : count = 2 := by omega
        simp
    · rw [if_neg break_, ih 0 (Nat.zero_le 2)]
      have whole : List.replicate (3 - 0) '\n' <+: rest → ['\n', '\n', '\n'] <:+: rest :=
        fun sub => sub.isInfix
      simp only [List.cons_prefix_cons, Ne.symm break_, false_and, false_or, not_false_eq_true, and_true]
      tauto

theorem capBreaks_capped (count : Nat) (text : Text) : Capped count (capBreaks count text) := by
  induction text generalizing count with
  | nil => trivial
  | cons c rest ih =>
    rw [capBreaks]
    split
    · split
      · rename_i small
        rw [Capped, if_pos rfl]
        exact ⟨small, ih (count + 1)⟩
      · exact ih count
    · rename_i other
      rw [Capped, if_neg other]
      exact ih 0

theorem capBreaks_eq {count : Nat} {text : Text} (capped : Capped count text) :
    capBreaks count text = text := by
  induction text generalizing count with
  | nil => rfl
  | cons c rest ih =>
    rw [Capped] at capped
    rw [capBreaks]
    split
    · rename_i break_
      rw [if_pos break_] at capped
      rw [if_pos capped.1, ih capped.2, break_]
    · rename_i other
      rw [if_neg other] at capped
      rw [ih capped]

/- Breaks that are dropped stand next to breaks that are not. -/
theorem capBreaks_chain {R : Char → Char → Prop} {count : Nat} {text : Text} {before : Char}
    (chain : (before :: text).IsChain R) (run : 0 < count → before = '\n') :
    (before :: capBreaks count text).IsChain R := by
  induction text generalizing count before with
  | nil => exact chain
  | cons c rest ih =>
    obtain ⟨first, later⟩ := List.isChain_cons_cons.mp chain
    rw [capBreaks]
    split
    · rename_i break_
      subst break_
      split
      · exact List.isChain_cons_cons.mpr ⟨first, ih later fun _ => rfl⟩
      · obtain rfl := run (by omega)
        exact ih later run
    · exact List.isChain_cons_cons.mpr ⟨first, ih later fun positive => absurd positive (Nat.lt_irrefl 0)⟩

theorem capBreaks_subset (count : Nat) (text : Text) : capBreaks count text ⊆ text := by
  induction text generalizing count with
  | nil => exact List.Subset.refl _
  | cons c rest ih =>
    rw [capBreaks]
    split
    · split
      · rename_i break_ _
        rw [break_]
        exact List.cons_subset_cons _ (ih _)
      · exact List.subset_cons_of_subset c (ih _)
    · exact List.cons_subset_cons _ (ih _)

def Single (a b : Char) : Prop := a = ' ' → b ≠ ' '

theorem collapseBlanks_spec (after : Bool) (text : Text) : '\t' ∉ collapseBlanks after text ∧
    (collapseBlanks after text).IsChain Single ∧
    (after = true → ∀ c ∈ (collapseBlanks after text).head?, c ≠ ' ') := by
  induction text generalizing after with
  | nil => simp [collapseBlanks]
  | cons c rest ih =>
    rw [collapseBlanks]
    split
    · split
      · rename_i blank done
        obtain ⟨noTab, chain, head⟩ := ih true
        exact ⟨noTab, chain, fun _ => head rfl⟩
      · rename_i blank first
        obtain ⟨noTab, chain, head⟩ := ih true
        refine ⟨?_, chain.cons fun d there _ => head rfl d there, fun done => absurd done first⟩
        rw [List.mem_cons, not_or]
        exact ⟨by decide, noTab⟩
    · rename_i plain
      rw [not_or] at plain
      obtain ⟨noTab, chain, _⟩ := ih false
      refine ⟨?_, chain.cons fun d there blank => absurd blank plain.1, fun _ d there => ?_⟩
      · rw [List.mem_cons, not_or]
        exact ⟨Ne.symm plain.2, noTab⟩
      · obtain rfl : c = d := by simpa using there
        exact plain.1

theorem collapseBlanks_eq {after : Bool} {text : Text} (noTab : '\t' ∉ text)
    (chain : text.IsChain Single) (head : after = true → ∀ c ∈ text.head?, c ≠ ' ') :
    collapseBlanks after text = text := by
  induction text generalizing after with
  | nil => rfl
  | cons c rest ih =>
    rw [List.mem_cons, not_or] at noTab
    obtain ⟨first, later⟩ := List.isChain_cons.mp chain
    rw [collapseBlanks]
    split
    · rename_i blank
      obtain rfl : c = ' ' := blank.resolve_right (Ne.symm noTab.1)
      split
      · rename_i done
        exact absurd rfl (head done ' ' rfl)
      · rw [ih noTab.2 later fun _ d there => first d there rfl]
    · rw [ih noTab.2 later fun none => absurd none Bool.false_ne_true]

theorem trimBreaks_subset (after : Bool) (text : Text) : trimBreaks after text ⊆ text := by
  induction text generalizing after with
  | nil => exact List.Subset.refl _
  | cons c rest ih =>
    rw [trimBreaks]
    split
    · rename_i break_
      rw [break_]
      exact List.cons_subset_cons _ (ih _)
    · split
      · exact List.subset_cons_of_subset c (ih _)
      · exact List.cons_subset_cons _ (ih _)

/- Of single blanks the ones that stay are not beside a break. -/
theorem trimBreaks_spec (after : Bool) {text : Text} (chain : text.IsChain Single) :
    (trimBreaks after text).IsChain Beside ∧
      (after = true → ∀ c ∈ (trimBreaks after text).head?, c ≠ ' ') := by
  induction text generalizing after with
  | nil => simp [trimBreaks]
  | cons c rest ih =>
    obtain ⟨first, later⟩ := List.isChain_cons.mp chain
    rw [trimBreaks]
    split
    · obtain ⟨spaced, head⟩ := ih true later
      refine ⟨spaced.cons fun d there => ⟨fun none => absurd none (by decide), fun _ => head rfl d there⟩,
        fun _ d there => ?_⟩
      obtain rfl : '\n' = d := by simpa using there
      decide
    · split
      · exact ih after later
      · rename_i noBreak stays
        obtain ⟨spaced, _⟩ := ih false later
        refine ⟨spaced.cons fun d there => ⟨fun blank => ?_, fun break_ => absurd break_ noBreak⟩, ?_⟩
        · -- what follows a blank that stays is neither a blank nor a break, so it stays too
          cases rest with
          | nil => simp [trimBreaks] at there
          | cons e more =>
            have noBlank : e ≠ ' ' := first e rfl blank
            have noNext : e ≠ '\n' := by
              rintro rfl
              exact stays ⟨blank, Or.inr (by simp)⟩
            rw [trimBreaks, if_neg noNext, if_neg (fun both => noBlank both.1)] at there
            obtain rfl : e = d := by simpa using there
            exact ⟨noBlank, noNext⟩
        · intro done d there blank
          obtain rfl : c = d := by simpa using there
          exact stays ⟨blank, Or.inl done⟩

theorem trimBreaks_eq {after : Bool} {text : Text} (chain : text.IsChain Beside)
    (head : after = true → ∀ c ∈ text.head?, c ≠ ' ') : trimBreaks after text = text := by
  induction text generalizing after with
  | nil => rfl
  | cons c rest ih =>
    obtain ⟨first, later⟩ := List.isChain_cons.mp chain
    rw [trimBreaks]
    split
    · rename_i break_
      rw [ih later fun _ d there => (first d there).2 break_, break_]
    · split
      · rename_i noBreak dropped
        obtain ⟨blank, done | next⟩ := dropped
        · exact absurd blank (head done c rfl)
        · cases rest with
          | nil => simp at next
          | cons e more =>
            have beside := (first e rfl).1 blank
            have kept : (e :: more).dropWhile (· = ' ') = e :: more := by simp [beside.1]
            rw [kept] at next
            exact absurd (Option.some.inj next) beside.2
      · rw [ih later fun none => absurd none Bool.false_ne_true]

theorem strip_infix (text : Text) : strip text <:+: text := by
  rw [strip]
  exact (List.rdropWhile_prefix _ _).isInfix.trans (List.dropWhile_suffix _).isInfix

structure Bare (text : Text) : Prop where
  first : ∀ c ∈ text.head?, isSpace c = false
  last : ∀ c ∈ text.getLast?, isSpace c = false

theorem rdropWhile_last (text : Text) : ∀ c ∈ (text.rdropWhile isSpace).getLast?, isSpace c = false := by
  intro c last
  obtain ⟨full, rfl⟩ := List.mem_getLast?_eq_getLast last
  simpa using List.rdropWhile_last_not isSpace text full

theorem prefix_first {front text : Text} (sub : front <+: text)
    (first : ∀ c ∈ text.head?, isSpace c = false) : ∀ c ∈ front.head?, isSpace c = false := by
  obtain ⟨rest, rfl⟩ := sub
  intro c there
  cases front with
  | nil => simp at there
  | cons d more => exact first c there

theorem strip_bare (text : Text) : Bare (strip text) where
  first := by
    apply prefix_first (List.rdropWhile_prefix _ _)
    intro c there
    have dropped := List.head?_dropWhile_not isSpace text
    rw [Option.mem_def.mp there] at dropped
    exact dropped
  last := rdropWhile_last _

theorem Bare.strip {text : Text} (bare : Bare text) : strip text = text := by
  have front : text.dropWhile isSpace = text := by
    cases text with
    | nil => rfl
    | cons c rest => rw [List.dropWhile_cons, if_neg (by simp [bare.first c rfl])]
  rw [Decoder.strip, front, List.rdropWhile_eq_self_iff]
  intro full
  simp [bare.last _ (List.getLast?_eq_some_getLast full)]

theorem normalize_normal (text : Text) : Normal (normalize text) := by
  obtain ⟨noTab, single, _⟩ := collapseBlanks_spec false text
  obtain ⟨spaced, _⟩ := trimBreaks_spec false single
  have capped := capBreaks_capped 0 (trimBreaks false (collapseBlanks false text))
  have chain : (capBreaks 0 (trimBreaks false (collapseBlanks false text))).IsChain Beside := by
    cases eq : trimBreaks false (collapseBlanks false text) with
    | nil => simp [capBreaks]
    | cons c rest =>
      rw [eq] at spaced
      rw [capBreaks]
      split
      · rename_i break_
        rw [if_pos Nat.two_pos]
        exact break_ ▸ capBreaks_chain spaced fun _ => break_
      · exact capBreaks_chain spaced fun positive => absurd positive (Nat.lt_irrefl 0)
  have inner := strip_infix (capBreaks 0 (trimBreaks false (collapseBlanks false text)))
  refine ⟨fun tab => ?_, chain.infix inner, fun three => ?_, (strip_bare _).strip⟩
  · exact noTab (trimBreaks_subset _ _ (capBreaks_subset _ _ (inner.subset tab)))
  · exact ((capped_iff 0 (Nat.zero_le 2) _).mp capped).1 (three.trans inner)

theorem normalize_eq {text : Text} (normal : Normal text) : normalize text = text := by
  have single : text.IsChain Single := normal.spaced.imp fun a b beside blank => (beside.1 blank).1
  have capped : Capped 0 text := by
    rw [capped_iff 0 (Nat.zero_le 2)]
    exact ⟨normal.capped, fun three => normal.capped three.isInfix⟩
  rw [Decoder.normalize, collapseBlanks_eq normal.noTab single fun none => absurd none Bool.false_ne_true,
    trimBreaks_eq normal.spaced fun none => absurd none Bool.false_ne_true, capBreaks_eq capped,
    normal.stripped]

/-- Whatever the document holds and however it is read, its text comes in the normal form;
    the texts in this form are those that normalize leaves as they are, so to normalize
    again changes nothing; and what is not white space stays, in order. -/
theorem text_normal (doc : Loaded) (field : Option String) :
    Normal (text doc field) ∧ (∀ raw, Normal raw ↔ normalize raw = raw) ∧
      ∀ raw, visible (normalize raw) = visible raw := by
  have fixed : ∀ raw, Normal raw ↔ normalize raw = raw := by
    intro raw
    exact ⟨normalize_eq, fun same => same ▸ normalize_normal raw⟩
  have empty : Normal [] := (fixed []).mpr rfl
  refine ⟨?_, fixed, visible_normalize⟩
  have fromXml : ∀ field, Normal (text.fromXml doc field) := by
    intro field
    unfold text.fromXml
    split
    · exact empty
    · exact normalize_normal _
  unfold text
  split
  · exact empty
  · split
    · exact fromXml _
    · split
      · exact fromXml _
      · exact normalize_normal _

/- What \s matches -/
def isBlank (c : Char) : Bool := c ∈ [' ', '\t', '\n', '\x0b', '\x0c', '\r']

/- gsub(/\s+/, " ") -/
def squeeze (after : Bool) : Text → Text
  | [] => []
  | c :: rest =>
    if isBlank c then if after then squeeze true rest else ' ' :: squeeze true rest
    else c :: squeeze false rest

def rstrip (text : Text) : Text := text.rdropWhile isSpace

def body (doc : Loaded) (field : Option String) : Text := strip (squeeze false (text doc field))

def preview (doc : Loaded) (limit : Nat) (field : Option String) : Text :=
  if limit < (body doc field).length then rstrip ((body doc field).take limit) ++ ['…']
  else body doc field

theorem isBlank_space {c : Char} (blank : isBlank c = true) : isSpace c = true := by
  unfold isBlank at blank
  unfold isSpace
  simp only [List.mem_cons, List.not_mem_nil, or_false, decide_eq_true_eq] at blank ⊢
  tauto

/-- Single blanks, and no other white space that \s matches. -/
structure OneLine (text : Text) : Prop where
  blanks : ∀ c ∈ text, isBlank c = true → c = ' '
  single : text.IsChain Single
  bare : Bare text

theorem squeeze_spec (after : Bool) (text : Text) :
    (∀ c ∈ squeeze after text, isBlank c = true → c = ' ') ∧ (squeeze after text).IsChain Single ∧
      (after = true → ∀ c ∈ (squeeze after text).head?, c ≠ ' ') := by
  induction text generalizing after with
  | nil => simp [squeeze]
  | cons c rest ih =>
    rw [squeeze]
    split
    · split
      · rename_i done
        obtain ⟨blanks, chain, head⟩ := ih true
        exact ⟨blanks, chain, fun _ => head rfl⟩
      · rename_i first
        obtain ⟨blanks, chain, head⟩ := ih true
        refine ⟨?_, chain.cons fun d there _ => head rfl d there, fun done => absurd done first⟩
        intro d mem blank
        rcases List.mem_cons.mp mem with here | later
        · exact here
        · exact blanks d later blank
    · rename_i plain
      obtain ⟨blanks, chain, _⟩ := ih false
      have other : c ≠ ' ' := by
        rintro rfl
        exact plain rfl
      refine ⟨?_, chain.cons fun d there blank => absurd blank other, fun _ d there => ?_⟩
      · intro d mem blank
        rcases List.mem_cons.mp mem with here | later
        · exact absurd (here ▸ blank) plain
        · exact blanks d later blank
      · obtain rfl : c = d := by simpa using there
        exact other

theorem visible_squeeze (after : Bool) (text : Text) : visible (squeeze after text) = visible text := by
  induction text generalizing after with
  | nil => rfl
  | cons c rest ih =>
    rw [squeeze]
    split
    · rename_i blank
      have space := isBlank_space blank
      split
      · rw [visible_cons_of_space space, ih]
      · rw [visible_cons_of_space space, visible_cons_of_space rfl, ih]
    · rw [visible_cons, visible_cons c rest, ih]

theorem visible_rstrip (text : Text) : visible (rstrip text) = visible text := by
  have reversed : ∀ text : Text, visible text.reverse = (visible text).reverse :=
    fun text => List.filter_reverse
  rw [rstrip, List.rdropWhile, reversed, visible_dropWhile, reversed, List.reverse_reverse]

theorem body_line (doc : Loaded) (field : Option String) : OneLine (body doc field) := by
  obtain ⟨blanks, chain, _⟩ := squeeze_spec false (text doc field)
  have inner := strip_infix (squeeze false (text doc field))
  exact ⟨fun c mem => blanks c (inner.subset mem), chain.infix inner, strip_bare _⟩

/-- A preview is one line of single blanks with nothing to strip: all of the text in one line
    if that is no longer than the limit, else an ellipsis behind what a prefix of it within
    the limit strips to, which shows the text from its beginning on. -/
theorem preview_line (doc : Loaded) (limit : Nat) (field : Option String) :
    OneLine (preview doc limit field) ∧ visible (body doc field) = visible (text doc field) ∧
    ((body doc field).length ≤ limit → preview doc limit field = body doc field) ∧
    (limit < (body doc field).length → ∃ front, preview doc limit field = front ++ ['…'] ∧
      front <+: body doc field ∧ front.length ≤ limit ∧
      visible front = visible ((body doc field).take limit)) := by
  have line := body_line doc field
  refine ⟨?_, ?_, ?_, ?_⟩
  · unfold preview
    split
    · have sub : rstrip ((body doc field).take limit) <+: body doc field :=
        (List.rdropWhile_prefix _ _).trans (List.take_prefix _ _)
      have single : (rstrip ((body doc field).take limit)).IsChain Single := line.single.prefix sub
      refine ⟨?_, ?_, ?_, ?_⟩
      · intro c mem blank
        rcases List.mem_append.mp mem with here | last
        · exact line.blanks c (sub.subset here) blank
        · obtain rfl := List.mem_singleton.mp last
          exact absurd blank (by decide)
      · apply single.append (List.isChain_singleton _)
        intro a _ b there _
        obtain rfl : '…' = b := by simpa using there
        decide
      · intro c there
        cases eq : rstrip ((body doc field).take limit) with
        | nil =>
          rw [eq] at there
          obtain rfl : '…' = c := by simpa using there
          decide
        | cons d more =>
          rw [eq] at there
          have head : c ∈ (rstrip ((body doc field).take limit)).head? := by
            rw [eq]
            exact there
          exact prefix_first sub line.bare.first c head
      · intro c there
        obtain rfl : '…' = c := by simpa using there
        decide
    · exact line
  · rw [body, visible_strip, visible_squeeze]
  · intro short
    rw [preview, if_neg (Nat.not_lt.mpr short)]
  · intro long
    refine ⟨rstrip ((body doc field).take limit), ?_, ?_, ?_, ?_⟩
    · rw [preview, if_pos long]
    · exact (List.rdropWhile_prefix _ _).trans (List.take_prefix _ _)
    · have shorter := (List.rdropWhile_prefix isSpace ((body doc field).take limit)).length_le
      rw [List.length_take] at shorter
      exact shorter.trans (Nat.min_le_left _ _)
    · exact visible_rstrip _

end Yrby.Preview
