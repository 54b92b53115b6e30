import Yrby.Session

/- What is inside an awareness message: a count, and the clock and the state of as
   many clients. y-protocols applies the entries as it reads them; the session reads
   all of them before that. -/
namespace Yrby.Presence
open Document Wire Session

structure Entry where
  clientID : Number
  clock : Number
  state : String
  deriving DecidableEq, Repr

def readEntry : Reader Entry := do
  let clientID ← readVarUint
  let clock ← readVarUint
  let state ← Json.readVarString
  match Json.parse state with
  | .error e => throw e
  | .ok _ => return ⟨clientID, clock, state⟩

def readEntries : Nat → Reader (List Entry)
  | 0 => return []
  | count + 1 => do
    let entry ← readEntry
    let rest ← readEntries count
    return entry :: rest

theorem readEntry_consumes {bytes rest : Bytes} {entry : Entry} (read : readEntry bytes = .ok entry rest) :
    rest.length < bytes.length := by
  simp only [readEntry, bind, EStateM.bind] at read
  cases first : readVarUint bytes with
  | error e left => simp [first] at read
  | ok clientID left =>
    simp only [first] at read
    cases second : readVarUint left with
    | error e left => simp [second] at read
    | ok clock left' =>
      simp only [second] at read
      cases third : Json.readVarString left' with
      | error e left => simp [third] at read
      | ok state left'' =>
        have one := readVarUint_consumes first
        have two := readVarUint_consumes second
        have three := Json.readVarString_consumes third
        simp only [third] at read
        cases parsed : Json.parse state with
        | error e => simp [parsed, Effects.run_throw] at read
        | ok u =>
          simp only [parsed] at read
          obtain ⟨_, rfl⟩ := EStateM.Result.ok.inj read
          omega

theorem readEntries_consumes {count : Nat} {bytes rest : Bytes} {entries : List Entry}
    (read : readEntries count bytes = .ok entries rest) : count + rest.length ≤ bytes.length := by
  induction count generalizing bytes entries with
  | zero =>
    obtain ⟨_, rfl⟩ := EStateM.Result.ok.inj read
    omega
  | succ count ih =>
    simp only [readEntries, bind, EStateM.bind] at read
    cases first : readEntry bytes with
    | error e left => simp [first] at read
    | ok entry left =>
      simp only [first] at read
      cases others : readEntries count left with
      | error e left' => simp [others] at read
      | ok entries' left' =>
        simp only [others] at read
        obtain ⟨_, rfl⟩ := EStateM.Result.ok.inj read
        have one := readEntry_consumes first
        have more := ih others
        omega

/-- As many rounds as infinity stands for are never read. -/
theorem endless_fails (bytes rest : Bytes) (entries : List Entry) :
    readEntries (rounds .infinity bytes) bytes ≠ .ok entries rest := by
  intro read
  have consumed := readEntries_consumes read
  simp only [rounds] at consumed
  omega

def readPresence : Reader (Number × List Entry) := do
  let count ← readVarUint
  let entries ← readEntries (rounds count (← get))
  return (count, entries)

/- JSON.parse(state) === null -/
def isNull (state : String) : Bool :=
  match Json.readWord "null".toList (Json.skipSpace state.toList) with
  | some rest => (Json.skipSpace rest).isEmpty
  | none => false

/-- What follows the type of an awareness message, if that is a payload of entries and
    nothing more. -/
def presenceOf (rest : Bytes) : Option (Number × List Entry) :=
  match readVarUint8Array rest with
  | .ok payload [] =>
    match readPresence payload with
    | .ok found [] => some found
    | _ => none
  | _ => none

def Entry.isSound (entry : Entry) : Bool := entry.clientID.isFinite && entry.clock.isFinite

def isSound (found : Number × List Entry) : Bool := found.1.isFinite && found.2.all Entry.isSound

theorem readPresence_ok {found : Number × List Entry} {payload rest : Bytes}
    (read : readPresence payload = .ok found rest) : ∃ left, readVarUint payload = .ok found.1 left ∧
      readEntries (rounds found.1 left) left = .ok found.2 rest := by
  simp only [readPresence, bind, EStateM.bind] at read
  cases counted : readVarUint payload with
  | error e left => simp [counted] at read
  | ok count left =>
    simp only [counted, Effects.run_get] at read
    cases entries : readEntries (rounds count left) left with
    | error e more => simp [entries] at read
    | ok listed more =>
      simp only [entries] at read
      obtain ⟨rfl, rfl⟩ := EStateM.Result.ok.inj read
      exact ⟨left, rfl, entries⟩

section
variable {Awareness : Type} (hear : Awareness → Entry → Awareness)

/- An entry that cannot be read leaves the entries before it applied. -/
def hearEntries : Nat → Awareness → Bytes → Awareness × Except JsError Unit
  | 0, awareness, _ => (awareness, .ok ())
  | count + 1, awareness, update =>
    match readEntry update with
    | .error e _ => (awareness, .error e)
    | .ok entry rest => hearEntries count (hear awareness entry) rest

def documentedAwareness (awareness : Awareness) (update : Bytes) : Awareness × Except JsError Unit :=
  match readVarUint update with
  | .error e _ => (awareness, .error e)
  | .ok count rest => hearEntries hear (rounds count rest) awareness rest

theorem hearEntries_read {count : Nat} {entries : List Entry} {update rest : Bytes}
    (read : readEntries count update = .ok entries rest) (awareness : Awareness) :
    hearEntries hear count awareness update = (entries.foldl hear awareness, .ok ()) := by
  induction count generalizing entries update awareness with
  | zero =>
    obtain ⟨rfl, rfl⟩ := EStateM.Result.ok.inj read
    simp only [hearEntries, List.foldl_nil]
  | succ count ih =>
    simp only [readEntries, bind, EStateM.bind] at read
    simp only [hearEntries]
    cases first : readEntry update with
    | error e left => simp [first] at read
    | ok entry left =>
      simp only [first] at read
      cases others : readEntries count left with
      | error e left' => simp [others] at read
      | ok others' left' =>
        simp only [others] at read
        obtain ⟨rfl, rfl⟩ := EStateM.Result.ok.inj read
        exact ih others (hear awareness entry)

theorem documentedAwareness_read {found : Number × List Entry} {update rest : Bytes}
    (read : readPresence update = .ok found rest) (awareness : Awareness) :
    documentedAwareness hear awareness update = (found.2.foldl hear awareness, .ok ()) := by
  obtain ⟨left, counted, entries⟩ := readPresence_ok read
  simp only [documentedAwareness, counted]
  exact hearEntries_read hear entries awareness

end

/-- What the awareness of y-protocols does with each entry it hears. -/
structure Laws (js : Yjs) (hear : js.Awareness → Entry → js.Awareness) : Prop where
  applyAwarenessUpdate_eq : ∀ awareness update,
    js.applyAwarenessUpdate awareness update = documentedAwareness hear awareness update

/-- Whether a state vector can be read does not depend on the document. -/
def Readable (js : Yjs) : Prop := ∀ doc doc' stateVector,
  (js.encodeStateAsUpdate doc stateVector).isOk = (js.encodeStateAsUpdate doc' stateVector).isOk

theorem validateEntries_eq (count : Nat) (payload : Bytes) :
    validateEntries count payload = match readEntries count payload with
      | .error e rest => .error e rest
      | .ok _ rest => .ok () rest := by
  induction count generalizing payload with
  | zero => rfl
  | succ count ih =>
    simp only [validateEntries, readEntries, readEntry, bind, EStateM.bind]
    cases readVarUint payload with
    | error e rest => rfl
    | ok clientID rest =>
      dsimp only
      cases readVarUint rest with
      | error e rest => rfl
      | ok clock rest =>
        dsimp only
        cases Json.readVarString rest with
        | error e rest => rfl
        | ok state rest =>
          dsimp only
          cases Json.parse state with
          | error e => rfl
          | ok u =>
            simp only [ih rest, pure, EStateM.pure]
            cases readEntries count rest <;> rfl

theorem validateAwareness_eq (payload : Bytes) :
    validateAwareness payload = match readPresence payload with
      | .error e rest => .error e rest
      | .ok _ rest =>
        if hasContent rest then .error "awareness payload has trailing bytes" rest
        else .ok () rest := by
  simp only [validateAwareness, readPresence, bind, EStateM.bind]
  cases readVarUint payload with
  | error e rest => rfl
  | ok count rest =>
    simp only [Effects.run_get, validateEntries_eq]
    cases readEntries (rounds count rest) rest with
    | error e rest => rfl
    | ok entries rest =>
      simp only [pure, EStateM.pure]
      cases hasContent rest <;> rfl

theorem validate_awareness {js : Yjs} {frame rest : Bytes}
    (read : readVarUint frame = .ok messageAwareness rest) :
    validateFrame js frame = match readVarUint8Array rest with
      | .error e left => .error e left
      | .ok payload left =>
        match validateAwareness payload with
        | .error e _ => .error e left
        | .ok _ _ =>
          if hasContent left then .error "frame has trailing bytes after a complete message" left
          else .ok (some messageAwareness) left := by
  have other : (messageAwareness : Number) ≠ messageSync := by decide
  simp only [validateFrame, bind, EStateM.bind, read, other, ↓reduceIte]
  cases readVarUint8Array rest with
  | error e left => rfl
  | ok payload left =>
    dsimp only
    cases validateAwareness payload with
    | error e more => rfl
    | ok u more =>
      simp only [Effects.run_get, EStateM.bind]
      cases hasContent left <;> rfl

theorem presenceOf_some {rest : Bytes} {found : Number × List Entry} :
    presenceOf rest = some found ↔ ∃ payload, readVarUint8Array rest = .ok payload [] ∧
      readPresence payload = .ok found [] := by
  unfold presenceOf
  constructor
  · intro read
    split at read
    · rename_i payload body
      split at read
      · rename_i found' inside
        obtain rfl := Option.some.inj read
        exact ⟨payload, body, inside⟩
      · cases read
    · cases read
  · intro ⟨payload, body, inside⟩
    rw [body]
    dsimp only
    rw [inside]

theorem validate_presence {js : Yjs} {frame rest : Bytes} {found : Number × List Entry}
    (read : readVarUint frame = .ok messageAwareness rest) (presence : presenceOf rest = some found) :
    validateFrame js frame = .ok (some messageAwareness) [] := by
  obtain ⟨payload, body, inside⟩ := presenceOf_some.mp presence
  rw [validate_awareness read, body]
  simp only [validateAwareness_eq, inside]
  rfl

theorem validate_absent {js : Yjs} {frame rest : Bytes}
    (read : readVarUint frame = .ok messageAwareness rest) (absent : presenceOf rest = none) :
    ∃ e left, validateFrame js frame = .error e left := by
  rw [validate_awareness read]
  cases body : readVarUint8Array rest with
  | error e left => exact ⟨e, left, rfl⟩
  | ok payload left =>
    simp only [validateAwareness_eq]
    cases inside : readPresence payload with
    | error e more => exact ⟨e, left, rfl⟩
    | ok found more =>
      cases more with
      | cons b more => exact ⟨_, left, rfl⟩
      | nil =>
        cases left with
        | cons b left => exact ⟨_, b :: left, rfl⟩
        | nil =>
          rw [presenceOf_some.mpr ⟨payload, body, inside⟩] at absent
          cases absent

end Yrby.Presence
