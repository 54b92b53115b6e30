import Mathlib.Data.List.Sort
import Mathlib.Data.String.Basic
import Yrby.Parsing.Parting

/- A Y.Map root as a JSON object (read.rs). Of yrs only how a scalar and a string are
   written is left open; a hash map goes through its entries in an order of its own. -/
namespace Yrby.MapJson
open Parsing

abbrev Text := List Char

inductive Scalar where
  | null
  | undefined
  | bool (b : Bool)
  | number (bits : UInt64)
  | bigInt (n : Int)
  | buffer (bytes : List UInt8)

inductive Any where
  | scalar (s : Scalar)
  | string (s : String)
  | array (items : List Any)
  | map (entries : List (String × Any))

/-- An output value; YText and the XML types by what get_string makes of them. -/
inductive Out where
  | any (a : Any)
  | text (string : String)
  | yArray (items : List Out)
  | yMap (entries : List (String × Out))
  | other

inductive Step where
  | key (k : String)
  | index (i : Nat)

abbrev Path := List Step

/-- In what order the hash maps of one call go through their entries, each by its path. -/
structure Orders where
  order : Path → List (String × Any) → List (String × Any)
  perm : ∀ path entries, (order path entries).Perm entries

def listed : Orders where
  order _ entries := entries
  perm _ _ := List.Perm.refl _

def backward : Orders where
  order _ entries := entries.reverse
  perm _ entries := List.reverse_perm entries

section
variable (quote : String → Text) (scalar : Scalar → Text) (orders : Orders)

mutual

/-- A stored value with its hash maps as they go through their entries. -/
def held (path : Path) : Any → Any
  | .scalar s => .scalar s
  | .string s => .string s
  | .array items => .array (heldItems path 0 items)
  | .map entries => .map (orders.order path (heldEntries path entries))

def heldItems (path : Path) (i : Nat) : List Any → List Any
  | [] => []
  | a :: rest => held (.index i :: path) a :: heldItems path (i + 1) rest

def heldEntries (path : Path) : List (String × Any) → List (String × Any)
  | [] => []
  | (k, a) :: rest => (k, held (.key k :: path) a) :: heldEntries path rest

end

mutual

/- The entries of a Y.Map go into a new HashMap, which keeps no trace of the order in
   which they come. -/
def outToAny (path : Path) : Out → Any
  | .any a => held orders path a
  | .text string => .string string
  | .yArray items => .array (outsToAny path 0 items)
  | .yMap entries => .map (orders.order path (entriesToAny path entries))
  | .other => .scalar .null

def outsToAny (path : Path) (i : Nat) : List Out → List Any
  | [] => []
  | o :: rest => outToAny (.index i :: path) o :: outsToAny path (i + 1) rest

def entriesToAny (path : Path) : List (String × Out) → List (String × Any)
  | [] => []
  | (k, o) :: rest => (k, outToAny (.key k :: path) o) :: entriesToAny path rest

end

mutual

def toJson : Any → Text
  | .scalar s => scalar s
  | .string s => quote s
  | .array items => '[' :: [','].intercalate (itemTexts items) ++ [']']
  | .map entries => '{' :: [','].intercalate (memberTexts entries) ++ ['}']

def itemTexts : List Any → List Text
  | [] => []
  | a :: rest => toJson a :: itemTexts rest

def memberTexts : List (String × Any) → List Text
  | [] => []
  | (k, a) :: rest => (quote k ++ ':' :: toJson a) :: memberTexts rest

end

end

mutual

def mapKeys : Any → List (List String)
  | .scalar _ | .string _ => []
  | .array items => itemsKeys items
  | .map entries => entries.map Prod.fst :: entriesKeys entries

def itemsKeys : List Any → List (List String)
  | [] => []
  | a :: rest => mapKeys a ++ itemsKeys rest

def entriesKeys : List (String × Any) → List (List String)
  | [] => []
  | (_, a) :: rest => mapKeys a ++ entriesKeys rest

end

def Each (P : List String → Prop) (a : Any) : Prop := ∀ keys ∈ mapKeys a, P keys

def Keyed (a : Any) : Prop := Each List.Nodup a

def Ascending (a : Any) : Prop := Each (List.Pairwise (· < ·)) a

def Narrow (a : Any) : Prop := Each (List.length · ≤ 1) a

def plain (o : Out) : Any := outToAny listed [] o

/-- The content of a Y.Map, whose entries have one key each, at every level. -/
structure YMap where
  entries : List (String × Out)
  keyed : Keyed (plain (.yMap entries))

def sortByKey {V : Type} (entries : List (String × V)) : List (String × V) :=
  entries.insertionSort fun a b => a.1 ≤ b.1

def pairs (orders : Orders) (map : YMap) : List (String × Any) :=
  sortByKey (orders.order [] (entriesToAny orders [] map.entries))

def mapJson (quote : String → Text) (scalar : Scalar → Text) (orders : Orders) (map : YMap) : Text :=
  let members := (pairs orders map).map fun pair => quote pair.1 ++ ':' :: toJson quote scalar pair.2
  '{' :: [','].intercalate members ++ ['}']

theorem any_induction {motive : Any → Prop} (scalar : ∀ s, motive (.scalar s))
    (string : ∀ s, motive (.string s)) (array : ∀ items, (∀ a ∈ items, motive a) → motive (.array items))
    (map : ∀ entries, (∀ e ∈ entries, motive e.2) → motive (.map entries)) (a : Any) : motive a := by
  refine Any.rec (motive_2 := fun items => ∀ a ∈ items, motive a)
    (motive_3 := fun entries => ∀ e ∈ entries, motive e.2) (motive_4 := fun e => motive e.2)
    scalar string array map ?_ ?_ ?_ ?_ (fun _ _ value => value) a
  · exact List.forall_mem_nil _
  · exact fun a rest this later => List.forall_mem_cons.mpr ⟨this, later⟩
  · exact List.forall_mem_nil _
  · exact fun e rest this later => List.forall_mem_cons.mpr ⟨this, later⟩

theorem out_induction {motive : Out → Prop} (any : ∀ a, motive (.any a))
    (text : ∀ s, motive (.text s)) (yArray : ∀ items, (∀ o ∈ items, motive o) → motive (.yArray items))
    (yMap : ∀ entries, (∀ e ∈ entries, motive e.2) → motive (.yMap entries)) (other : motive .other)
    (o : Out) : motive o := by
  refine Out.rec (motive_2 := fun items => ∀ o ∈ items, motive o)
    (motive_3 := fun entries => ∀ e ∈ entries, motive e.2) (motive_4 := fun e => motive e.2)
    any text yArray yMap other ?_ ?_ ?_ ?_ (fun _ _ value => value) o
  · exact List.forall_mem_nil _
  · exact fun o rest this later => List.forall_mem_cons.mpr ⟨this, later⟩
  · exact List.forall_mem_nil _
  · exact fun e rest this later => List.forall_mem_cons.mpr ⟨this, later⟩

section
variable {P : List String → Prop} {orders : Orders}

theorem each_array (items : List Any) : Each P (.array items) ↔ ∀ a ∈ items, Each P a := by
  simp only [Each, mapKeys]
  induction items with
  | nil => simp [itemsKeys]
  | cons a rest ih => rw [itemsKeys, List.forall_mem_append, List.forall_mem_cons, ih]

theorem each_map (entries : List (String × Any)) :
    Each P (.map entries) ↔ P (entries.map Prod.fst) ∧ ∀ e ∈ entries, Each P e.2 := by
  have nested : (∀ keys ∈ entriesKeys entries, P keys) ↔ ∀ e ∈ entries, Each P e.2 := by
    induction entries with
    | nil => simp [entriesKeys]
    | cons e rest ih =>
      rw [entriesKeys, List.forall_mem_append, List.forall_mem_cons, ih]
      rfl
  rw [Each, mapKeys, List.forall_mem_cons, nested]

theorem narrow_map (entries : List (String × Any)) :
    Narrow (.map entries) ↔ entries.length ≤ 1 ∧ ∀ e ∈ entries, Narrow e.2 := by
  rw [Narrow, each_map, List.length_map]
  rfl

theorem heldEntries_eq (path : Path) (entries : List (String × Any)) :
    heldEntries orders path entries =
      entries.map fun e => (e.1, held orders (.key e.1 :: path) e.2) := by
  induction entries with
  | nil => rfl
  | cons e rest ih => rw [heldEntries, ih, List.map_cons]

theorem heldEntries_keys (path : Path) (entries : List (String × Any)) :
    (heldEntries orders path entries).map Prod.fst = entries.map Prod.fst := by
  rw [heldEntries_eq, List.map_map]
  rfl

theorem heldEntries_length (path : Path) (entries : List (String × Any)) :
    (heldEntries orders path entries).length = entries.length := by
  rw [heldEntries_eq, List.length_map]

theorem entriesToAny_eq (path : Path) (entries : List (String × Out)) :
    entriesToAny orders path entries =
      entries.map fun e => (e.1, outToAny orders (.key e.1 :: path) e.2) := by
  induction entries with
  | nil => rfl
  | cons e rest ih => rw [entriesToAny, ih, List.map_cons]

theorem heldItems_of {items : List Any} (same : ∀ a ∈ items, ∀ path, held orders path a = a)
    (path : Path) (i : Nat) : heldItems orders path i items = items := by
  induction items generalizing i with
  | nil => rfl
  | cons a rest ih =>
    obtain ⟨this, later⟩ := List.forall_mem_cons.mp same
    rw [heldItems, this, ih later]

theorem heldEntries_of {entries : List (String × Any)}
    (same : ∀ e ∈ entries, ∀ path, held orders path e.2 = e.2) (path : Path) :
    heldEntries orders path entries = entries := by
  rw [heldEntries_eq]
  refine (List.map_congr_left fun e mem => ?_).trans (List.map_id entries)
  rw [same e mem, id]

theorem held_listed (a : Any) (path : Path) : held listed path a = a := by
  induction a using any_induction generalizing path with
  | scalar s => rfl
  | string s => rfl
  | array items ih => rw [held, heldItems_of ih]
  | map entries ih => rw [held, heldEntries_of ih, listed]

theorem outToAny_held (o : Out) (path from_ : Path) :
    outToAny orders path o = held orders path (outToAny listed from_ o) := by
  induction o using out_induction generalizing path from_ with
  | any a => rw [outToAny, outToAny, held_listed]
  | text s => rfl
  | yArray items ih =>
    have each : ∀ i, outsToAny orders path i items =
        heldItems orders path i (outsToAny listed from_ i items) := by
      intro i
      induction items generalizing i with
      | nil => rfl
      | cons o rest later =>
        obtain ⟨this, others⟩ := List.forall_mem_cons.mp ih
        rw [outsToAny, outsToAny, heldItems, this, later others]
    rw [outToAny, outToAny, held, each]
  | yMap entries ih =>
    rw [outToAny, outToAny, held, listed]
    dsimp only
    rw [entriesToAny_eq, entriesToAny_eq, heldEntries_eq, List.map_map]
    congr 2
    exact List.map_congr_left fun e mem => congrArg (Prod.mk e.1) (ih e mem _ _)
  | other => rfl

theorem plain_held (o : Out) (path : Path) : outToAny orders path o = held orders path (plain o) :=
  outToAny_held o path []

theorem perm_short {V : Type} {l l' : List V} (perm : l'.Perm l) (short : l.length ≤ 1) : l' = l := by
  match l with
  | [] => exact perm.eq_nil
  | [a] => exact perm.eq_singleton

theorem held_narrow {a : Any} (narrow : Narrow a) (path : Path) : held orders path a = a := by
  induction a using any_induction generalizing path with
  | scalar s => rfl
  | string s => rfl
  | array items ih =>
    rw [Narrow, each_array] at narrow
    rw [held, heldItems_of fun a mem => ih a mem (narrow a mem)]
  | map entries ih =>
    rw [narrow_map] at narrow
    rw [held, heldEntries_of fun e mem => ih e mem (narrow.2 e mem),
      perm_short (orders.perm path entries) narrow.1]

end

section
variable {quote : String → Text} {scalar : Scalar → Text} {orders : Orders}

theorem memberTexts_eq (entries : List (String × Any)) :
    memberTexts quote scalar entries =
      entries.map fun e => quote e.1 ++ ':' :: toJson quote scalar e.2 := by
  induction entries with
  | nil => rfl
  | cons e rest ih => rw [memberTexts, ih, List.map_cons]

/-- map_json writes what Any::to_json would of the sorted pairs. -/
theorem mapJson_eq (map : YMap) :
    mapJson quote scalar orders map = toJson quote scalar (.map (pairs orders map)) := by
  rw [toJson, memberTexts_eq]
  rfl

theorem sortByKey_perm {V : Type} (entries : List (String × V)) : (sortByKey entries).Perm entries :=
  List.perm_insertionSort _ entries

theorem sortByKey_sorted {V : Type} (entries : List (String × V)) :
    (sortByKey entries).Pairwise fun a b => a.1 ≤ b.1 :=
  have : Std.Total fun a b : String × V => a.1 ≤ b.1 := ⟨fun a b => le_total a.1 b.1⟩
  have : IsTrans (String × V) fun a b => a.1 ≤ b.1 := ⟨fun _ _ _ => le_trans⟩
  List.pairwise_insertionSort _ entries

theorem sorted_unique {V : Type} {l l' : List (String × V)} (perm : l.Perm l')
    (keyed : (l.map Prod.fst).Nodup) (sorted : l.Pairwise fun a b => a.1 ≤ b.1)
    (sorted' : l'.Pairwise fun a b => a.1 ≤ b.1) : l = l' := by
  refine List.Perm.eq_of_pairwise ?_ sorted sorted' perm
  intro a b mem mem' le ge
  exact List.inj_on_of_nodup_map keyed mem (perm.mem_iff.mpr mem') (le_antisymm le ge)

theorem plain_map (entries : List (String × Out)) :
    plain (.yMap entries) = .map (entries.map fun e => (e.1, plain e.2)) := by
  have same : entriesToAny listed [] entries = entries.map fun e => (e.1, plain e.2) := by
    rw [entriesToAny_eq]
    simp only [plain_held, held_listed]
  rw [plain, outToAny, same]
  rfl

theorem YMap.nodup (map : YMap) : (map.entries.map Prod.fst).Nodup := by
  have keyed := map.keyed
  rw [Keyed, plain_map, each_map, List.map_map] at keyed
  exact keyed.1

theorem YMap.keyed_value (map : YMap) {e : String × Out} (mem : e ∈ map.entries) : Keyed (plain e.2) := by
  have keyed := map.keyed
  rw [Keyed, plain_map, each_map, List.forall_mem_map] at keyed
  exact keyed.2 e mem

theorem pairs_eq (map : YMap) :
    pairs orders map =
      (sortByKey map.entries).map fun e => (e.1, held orders [.key e.1] (plain e.2)) := by
  have converted : entriesToAny orders [] map.entries =
      map.entries.map fun e => (e.1, held orders [.key e.1] (plain e.2)) := by
    rw [entriesToAny_eq]
    simp only [plain_held]
  have keys : ∀ l : List (String × Out),
      ((l.map fun e => (e.1, held orders [.key e.1] (plain e.2))).map Prod.fst) = l.map Prod.fst := by
    intro l
    rw [List.map_map]
    rfl
  have perm := (sortByKey_perm (orders.order [] (entriesToAny orders [] map.entries))).trans
    (orders.perm [] _)
  rw [converted] at perm
  rw [pairs, converted]
  refine sorted_unique ?_ ?_ (sortByKey_sorted _) ?_
  · exact perm.trans ((sortByKey_perm map.entries).symm.map _)
  · rw [(perm.map Prod.fst).nodup_iff, keys]
    exact map.nodup
  · rw [List.pairwise_map]
    exact sortByKey_sorted map.entries

/-- No string is written as the beginning of another. -/
def SelfDelimiting (quote : String → Text) : Prop :=
  ∀ k k', k ≠ k' → Part (quote k) (quote k')

theorem members_tell {V : Type} {value value' : String × V → Any} {decides : String × V → Prop}
    {entries : List (String × V)}
    (tell : ∀ e ∈ entries, Tells (decides e) (toJson quote scalar (value e)) (toJson quote scalar (value' e))) :
    AllTell (∀ e ∈ entries, decides e)
      (memberTexts quote scalar (entries.map fun e => (e.1, value e)))
      (memberTexts quote scalar (entries.map fun e => (e.1, value' e))) := by
  induction entries with
  | nil => simpa [memberTexts] using AllTell.nil
  | cons e rest ih =>
    obtain ⟨this, later⟩ := List.forall_mem_cons.mp tell
    rw [List.forall_mem_cons]
    refine AllTell.cons ?_ (ih later)
    have written := this.between (quote e.1 ++ [':']) []
    simpa using written

theorem items_tell {items : List Any} {path : Path}
    (tell : ∀ a ∈ items, ∀ path, Tells (Narrow a) (toJson quote scalar (held listed path a))
      (toJson quote scalar (held backward path a))) (i : Nat) :
    AllTell (∀ a ∈ items, Narrow a) (itemTexts quote scalar (heldItems listed path i items))
      (itemTexts quote scalar (heldItems backward path i items)) := by
  induction items generalizing i with
  | nil => simpa [heldItems, itemTexts] using AllTell.nil
  | cons a rest ih =>
    obtain ⟨this, later⟩ := List.forall_mem_cons.mp tell
    rw [List.forall_mem_cons]
    exact AllTell.cons (this _) (ih later (i + 1))

theorem toJson_first (quote : String → Text) (scalar : Scalar → Text) (e : String × Any) (rest : List (String × Any)) :
    ∃ tail, toJson quote scalar (.map (e :: rest)) = ['{'] ++ (quote e.1 ++ tail) := by
  cases rest with
  | nil => exact ⟨':' :: toJson quote scalar e.2 ++ ['}'], by simp [toJson, memberTexts]⟩
  | cons next rest =>
    refine ⟨':' :: toJson quote scalar e.2 ++ ([','] ++ [','].intercalate
      (memberTexts quote scalar (next :: rest))) ++ ['}'], ?_⟩
    rw [toJson, memberTexts, memberTexts, List.intercalate_cons_cons]
    simp

/-- Two entries or more show which way they are gone through. -/
theorem reversed_parts (ends : SelfDelimiting quote) {entries entries' : List (String × Any)}
    (keys : entries'.map Prod.fst = (entries.map Prod.fst).reverse)
    (keyed : (entries.map Prod.fst).Nodup) (wide : ¬ entries.length ≤ 1) :
    Part (toJson quote scalar (.map entries)) (toJson quote scalar (.map entries')) := by
  match entries with
  | [] => simp at wide
  | [_] => simp at wide
  | e :: next :: rest =>
    cases entries' with
    | nil => simp at keys
    | cons e' rest' =>
      have later : e'.1 ∈ (next :: rest).map Prod.fst := by
        rw [List.map_cons, List.map_cons, List.reverse_cons] at keys
        rw [← List.mem_reverse]
        cases front : ((next :: rest).map Prod.fst).reverse with
        | nil => simp at front
        | cons k others =>
          rw [front, List.cons_append] at keys
          rw [(List.cons.inj keys).1]
          exact List.mem_cons_self
      have differ : e.1 ≠ e'.1 := by
        intro same
        exact (List.nodup_cons.mp keyed).1 (same ▸ later)
      obtain ⟨tail, text⟩ := toJson_first quote scalar e (next :: rest)
      obtain ⟨tail', text'⟩ := toJson_first quote scalar e' rest'
      rw [text, text']
      exact ((ends _ _ differ).append tail tail').prepend ['{']

/-- The texts of a value gone through either way are one exactly where no map has two
    entries. -/
theorem value_tells (ends : SelfDelimiting quote) {a : Any} (keyed : Keyed a) (path : Path) :
    Tells (Narrow a) (toJson quote scalar (held listed path a))
      (toJson quote scalar (held backward path a)) := by
  induction a using any_induction generalizing path with
  | scalar s => exact Tells.of _ (by simp [Narrow, Each, mapKeys])
  | string s => exact Tells.of _ (by simp [Narrow, Each, mapKeys])
  | array items ih =>
    rw [Keyed, each_array] at keyed
    have items_ : AllTell _ (itemTexts quote scalar (heldItems listed path 0 items))
        (itemTexts quote scalar (heldItems backward path 0 items)) :=
      items_tell (fun a mem => ih a mem (keyed a mem)) 0
    rw [Narrow, each_array]
    exact (items_.intercalate [',']).between ['['] [']']
  | map entries ih =>
    rw [Keyed, each_map] at keyed
    rw [narrow_map]
    by_cases short : entries.length ≤ 1
    · have members := (members_tell fun e mem =>
        ih e mem (keyed.2 e mem) (.key e.1 :: path)).intercalate [',']
      have one : ∀ orders : Orders, orders.order path (heldEntries orders path entries) =
          entries.map fun e => (e.1, held orders (.key e.1 :: path) e.2) := by
        intro orders
        rw [perm_short (orders.perm path _) (by rwa [heldEntries_length]), heldEntries_eq]
      rw [held, held, one, one]
      exact (members.between ['{'] ['}']).congr (by simp only [short, true_and])
    · refine ⟨fun narrow => absurd narrow.1 short, fun _ => ?_⟩
      have keys : ((heldEntries backward path entries).reverse).map Prod.fst =
          ((heldEntries listed path entries).map Prod.fst).reverse := by
        rw [List.map_reverse, heldEntries_keys, heldEntries_keys]
      have one : ((heldEntries listed path entries).map Prod.fst).Nodup := by
        rw [heldEntries_keys]
        exact keyed.1
      have wide : ¬ (heldEntries listed path entries).length ≤ 1 := by rwa [heldEntries_length]
      exact reversed_parts ends keys one wide

theorem mapJson_tells (ends : SelfDelimiting quote) (map : YMap) :
    Tells (∀ e ∈ map.entries, Narrow (plain e.2)) (mapJson quote scalar listed map)
      (mapJson quote scalar backward map) := by
  have mem : ∀ e, e ∈ sortByKey map.entries ↔ e ∈ map.entries :=
    fun e => (sortByKey_perm map.entries).mem_iff
  have tell : ∀ e ∈ sortByKey map.entries, Tells (Narrow (plain e.2))
      (toJson quote scalar (held listed [.key e.1] (plain e.2)))
      (toJson quote scalar (held backward [.key e.1] (plain e.2))) := by
    intro e here
    exact value_tells ends (map.keyed_value ((mem e).mp here)) _
  have members := (members_tell tell).intercalate [',']
  rw [mapJson_eq, mapJson_eq, pairs_eq, pairs_eq]
  exact (members.between ['{'] ['}']).congr (by simp only [mem])

theorem pairs_ascending (map : YMap) : ((pairs orders map).map Prod.fst).Pairwise (· < ·) := by
  have keys : (pairs orders map).map Prod.fst = (sortByKey map.entries).map Prod.fst := by
    rw [pairs_eq, List.map_map]
    rfl
  have distinct : ((sortByKey map.entries).map Prod.fst).Nodup :=
    ((sortByKey_perm map.entries).map Prod.fst).nodup_iff.mpr map.nodup
  have sorted : ((sortByKey map.entries).map Prod.fst).Pairwise (· ≤ ·) :=
    List.pairwise_map.mpr (sortByKey_sorted map.entries)
  rw [keys]
  exact (sorted.and distinct).imp fun both => lt_of_le_of_ne both.1 both.2

theorem pairs_narrow {map : YMap} (narrow : ∀ e ∈ map.entries, Narrow (plain e.2)) :
    pairs orders map = (sortByKey map.entries).map fun e => (e.1, plain e.2) := by
  rw [pairs_eq]
  refine List.map_congr_left fun e mem => ?_
  rw [held_narrow (narrow e ((sortByKey_perm map.entries).mem_iff.mp mem))]

/-- The text is the same whatever the orders, and its keys ascend at every level, exactly
    where no map below the root has two entries. -/
theorem map_json_stable_iff (ends : SelfDelimiting quote) (map : YMap) :
    ((∀ orders orders', mapJson quote scalar orders map = mapJson quote scalar orders' map) ∧
        ∀ orders, Ascending (.map (pairs orders map))) ↔
      ∀ e ∈ map.entries, Narrow (plain e.2) := by
  constructor
  · rintro ⟨same, _⟩
    exact (mapJson_tells ends map).same_iff.mp (same listed backward)
  · intro narrow
    refine ⟨fun orders orders' => ?_, fun orders => ?_⟩
    · rw [mapJson_eq, mapJson_eq, pairs_narrow narrow, pairs_narrow narrow]
    · rw [Ascending, each_map]
      refine ⟨pairs_ascending map, ?_⟩
      rw [pairs_narrow narrow, List.forall_mem_map]
      intro e mem keys within
      have short := narrow e ((sortByKey_perm map.entries).mem_iff.mp mem) keys within
      match keys with
      | [] => exact List.Pairwise.nil
      | [k] => exact List.pairwise_singleton _ k

/- A string as serde_json writes it, of those without control characters -/
def escaped : Text → Text
  | [] => ['"']
  | c :: rest => if c = '"' ∨ c = '\\' then '\\' :: c :: escaped rest else c :: escaped rest

def quoted (s : String) : Text := '"' :: escaped s.toList

theorem escaped_ends {k k' rest rest' : Text} (same : escaped k ++ rest = escaped k' ++ rest') :
    k = k' := by
  induction k generalizing k' with
  | nil =>
    cases k' with
    | nil => rfl
    | cons c' k' =>
      rw [escaped, escaped] at same
      split at same
      · simp at same
      · rename_i plain'
        rw [List.cons_append, List.cons_append] at same
        exact absurd (Or.inl (List.cons.inj same).1.symm) plain'
  | cons c k ih =>
    cases k' with
    | nil =>
      rw [escaped, escaped] at same
      split at same
      · simp at same
      · rename_i plain'
        rw [List.cons_append, List.cons_append] at same
        exact absurd (Or.inl (List.cons.inj same).1) plain'
    | cons c' k' =>
      rw [escaped, escaped] at same
      split at same <;> split at same <;> rename_i first second
      · simp only [List.cons_append, List.cons.injEq, true_and] at same
        rw [same.1, ih same.2]
      · rw [List.cons_append, List.cons_append] at same
        exact absurd (Or.inr (List.cons.inj same).1.symm) second
      · rw [List.cons_append, List.cons_append] at same
        exact absurd (Or.inr (List.cons.inj same).1) first
      · simp only [List.cons_append, List.cons.injEq] at same
        rw [same.1, ih same.2]

theorem quoted_selfDelimiting : SelfDelimiting quoted := by
  intro k k' differ rest rest' same
  rw [quoted, quoted, List.cons_append, List.cons_append] at same
  exact differ (String.toList_injective (escaped_ends (List.cons.inj same).2))

def scalarText : Scalar → Text
  | .bool true => "true".toList
  | .bool false => "false".toList
  | _ => "null".toList

def oneFilter : YMap where
  entries := [("sort", .any (.string "asc")), ("filters", .yArray [.yMap [("name", .text "Ada")]])]
  keyed := by
    unfold Keyed Each
    decide

def limitedFilter : YMap where
  entries := [("sort", .any (.string "asc")),
    ("filters", .yArray [.yMap [("name", .text "Ada"), ("active", .any (.scalar (.bool true)))]])]
  keyed := by
    unfold Keyed Each
    decide

theorem oneFilter_stable :
    mapJson quoted scalarText listed oneFilter = mapJson quoted scalarText backward oneFilter ∧
      Ascending (.map (pairs listed oneFilter)) := by
  have narrow : ∀ e ∈ oneFilter.entries, Narrow (plain e.2) := by
    unfold Narrow Each
    decide
  obtain ⟨same, ascending⟩ := (map_json_stable_iff quoted_selfDelimiting oneFilter).mpr narrow
  exact ⟨same listed backward, ascending listed⟩

theorem filter_order_shows :
    mapJson quoted scalarText listed limitedFilter ≠ mapJson quoted scalarText backward limitedFilter := by
  decide +kernel

end

end Yrby.MapJson
