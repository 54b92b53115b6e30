import Yrby.Presence
import Yrby.Reference.Crate

/- The reference documents as an instance of Yjs, with cursors for awareness. -/
namespace Yrby.Reference
open Causal Document Wire

/-- A client and its clock, and its state as JSON when it has one. -/
structure Cursor where
  client : Nat
  clock : Number
  state : Option String

structure Cursors where
  clientID : Nat
  entries : List Cursor

namespace Cursors

def find (a : Cursors) (client : Nat) : Option Cursor := a.entries.find? (·.client = client)

def put (a : Cursors) (cursor : Cursor) : Cursors :=
  { a with entries := a.entries.filter (·.client ≠ cursor.client) ++ [cursor] }

theorem find_put (a : Cursors) (cursor : Cursor) : (a.put cursor).find cursor.client = some cursor := by
  have others : (a.entries.filter (·.client ≠ cursor.client)).find? (·.client = cursor.client) = none := by
    simp [List.find?_eq_none]
  simp only [put, find, List.find?_append, others, Option.none_or]
  simp

theorem find_put_other (a : Cursors) {cursor : Cursor} {client : Nat} (other : client ≠ cursor.client) :
    (a.put cursor).find client = a.find client := by
  have apart : ([cursor].find? (·.client = client)) = none := by
    simp [Ne.symm other]
  simp only [put, find, List.find?_append, apart, Option.or_none, List.find?_filter]
  congr 1
  funext known
  by_cases here : known.client = client
  · simp [here, other]
  · simp [here]

def getLocalState (a : Cursors) : Option String := (a.find a.clientID).bind Cursor.state

def setLocalState (a : Cursors) (state : Option String) : Cursors × List Nat :=
  (a.put ⟨a.clientID, ((a.find a.clientID).map (·.clock + .finite 1)).getD (.finite 0), state⟩, [a.clientID])

def getStates (a : Cursors) : List Nat :=
  (a.entries.filter (·.state.isSome)).map Cursor.client

def remove (a : Cursors) (clients : List Nat) : Cursors := { a with
  entries := a.entries.map fun c => if c.client ∈ clients then { c with state := none } else c }

def digits : Number → Nat
  | .finite n => n
  | _ => 0

def code (cursor : Cursor) : Bytes :=
  writeVarUint cursor.client ++ writeVarUint (digits cursor.clock) ++
    writeVarUint8Array (cursor.state.getD "null").toUTF8.data.toList

def encode (a : Cursors) (clients : List Nat) : Except JsError Bytes := do
  let listed ← clients.mapM fun client =>
    match a.find client with
    | some cursor => Except.ok cursor
    | none => .error "TypeError: no meta entry"
  return writeVarUint listed.length ++ listed.flatMap code

theorem encode_found {a : Cursors} {client : Nat} {cursor : Cursor} (found : a.find client = some cursor) :
    a.encode [client] = .ok (writeVarUint 1 ++ [cursor].flatMap code) := by
  simp only [encode, List.mapM_cons, List.mapM_nil, found]
  rfl

theorem mapM_inv {α β : Type} {f : α → Except JsError β} {xs : List α} {ys : List β}
    (mapped : xs.mapM f = .ok ys) : List.Forall₂ (fun x y => f x = .ok y) xs ys := by
  induction xs generalizing ys with
  | nil =>
    obtain rfl := Except.ok.inj mapped
    exact .nil
  | cons x xs ih =>
    rw [List.mapM_cons] at mapped
    cases first : f x with
    | error e =>
      rw [first] at mapped
      cases mapped
    | ok y =>
      rw [first] at mapped
      cases others : xs.mapM f with
      | error e =>
        rw [others] at mapped
        cases mapped
      | ok ys' =>
        rw [others] at mapped
        obtain rfl := Except.ok.inj mapped
        exact .cons first (ih others)

theorem encode_inv {a : Cursors} {clients : List Nat} {update : Bytes}
    (encoded : a.encode clients = .ok update) :
    ∃ listed, List.Forall₂ (fun client cursor => a.find client = some cursor) clients listed ∧
      update = writeVarUint listed.length ++ listed.flatMap code := by
  unfold encode at encoded
  cases mapped : clients.mapM fun client =>
      match a.find client with
      | some cursor => Except.ok cursor
      | none => .error "TypeError: no meta entry" with
  | error e =>
    rw [mapped] at encoded
    cases encoded
  | ok listed =>
    rw [mapped] at encoded
    refine ⟨listed, (mapM_inv mapped).imp ?_, (Except.ok.inj encoded).symm⟩
    intro client cursor found
    split at found
    · rename_i known
      rw [known, Except.ok.inj found]
    · cases found

theorem find_client {a : Cursors} {client : Nat} {cursor : Cursor} (found : a.find client = some cursor) :
    cursor.client = client := by
  have named := List.find?_some found
  simpa using named

theorem code_ends {cursor cursor' : Cursor} {rest rest' : Bytes}
    (same : code cursor ++ rest = code cursor' ++ rest') : cursor.client = cursor'.client ∧ rest = rest' := by
  simp only [code, List.append_assoc] at same
  obtain ⟨client, same⟩ := (write_varUint _).ends (write_varUint _) same
  obtain ⟨_, same⟩ := (write_varUint _).ends (write_varUint _) same
  exact ⟨client, (writeVarUint8Array_ends same).2⟩

theorem codes_tell {listed listed' : List Cursor} (lengths : listed.length = listed'.length)
    (same : listed.flatMap code = listed'.flatMap code) :
    listed.map Cursor.client = listed'.map Cursor.client := by
  induction listed generalizing listed' with
  | nil =>
    obtain rfl := List.length_eq_zero_iff.mp lengths.symm
    rfl
  | cons cursor rest ih =>
    cases listed' with
    | nil => simp at lengths
    | cons cursor' rest' =>
      rw [List.flatMap_cons, List.flatMap_cons] at same
      obtain ⟨client, same⟩ := code_ends same
      rw [List.map_cons, List.map_cons, client, ih (Nat.succ.inj lengths) same]

theorem encode_tells {a a' : Cursors} {clients clients' : List Nat} {update : Bytes}
    (encoded : a.encode clients = .ok update) (encoded' : a'.encode clients' = .ok update) :
    clients = clients' := by
  have named : ∀ {a : Cursors} {clients : List Nat} {listed : List Cursor},
      List.Forall₂ (fun client cursor => a.find client = some cursor) clients listed →
        listed.map Cursor.client = clients := by
    intro a clients listed found
    induction found with
    | nil => rfl
    | cons known _ ih => rw [List.map_cons, find_client known, ih]
  obtain ⟨listed, found, rfl⟩ := encode_inv encoded
  obtain ⟨listed', found', same⟩ := encode_inv encoded'
  obtain ⟨lengths, codes⟩ := (write_varUint _).ends (write_varUint _) same
  rw [← named found, ← named found', codes_tell lengths codes]

/- A clock counted up, as far as it can be. -/
def next (clock : Number) : Number := if clock < clock + .finite 1 then clock + .finite 1 else clock

/- A newer clock wins, and nobody else removes the local state. -/
def hear (a : Cursors) (heard : Cursor) : Cursors :=
  let known := a.find heard.client
  let clock := (known.map Cursor.clock).getD (.finite 0)
  let shown := (known.bind Cursor.state).isSome
  if clock < heard.clock ∨ clock = heard.clock ∧ heard.state.isNone ∧ shown then
    if heard.state.isNone ∧ heard.client = a.clientID ∧ shown then
      a.put ⟨heard.client, next heard.clock, known.bind Cursor.state⟩
    else a.put heard
  else a

def cursorOf (client : Nat) (entry : Presence.Entry) : Cursor :=
  ⟨client, entry.clock, if Presence.isNull entry.state then none else some entry.state⟩

/- An id that is no number is of no client here. -/
def heard (a : Cursors) (entry : Presence.Entry) : Cursors :=
  match entry.clientID with
  | .finite client => a.hear (cursorOf client entry)
  | _ => a

def clock (a : Cursors) : Number := ((a.find a.clientID).map Cursor.clock).getD (.finite 0)

/-- What the own entry gives way to: a newer one, or a removal at a clock that counts up. -/
def Newer (a : Cursors) (heard : Cursor) : Prop :=
  a.clock < heard.clock ∨ a.clock = heard.clock ∧ heard.state.isNone ∧ a.getLocalState.isSome ∧
    a.clock < a.clock + .finite 1

theorem lt_next {clock : Number} (counts : clock < clock + .finite 1) : clock < next clock := by
  rwa [next, if_pos counts]

theorem lt_next_of_lt {before clock : Number} (later : before < clock) : before < next clock := by
  unfold next
  split
  · rename_i counts
    exact Number.lt_trans later counts
  · exact later

theorem hear_clientID (a : Cursors) (heard : Cursor) : (a.hear heard).clientID = a.clientID := by
  unfold hear
  dsimp only
  split
  · split <;> rfl
  · rfl

theorem hear_other (a : Cursors) {heard : Cursor} {client : Nat} (other : client ≠ heard.client) :
    (a.hear heard).find client = a.find client := by
  unfold hear
  dsimp only
  split
  · split
    · exact a.find_put_other other
    · exact a.find_put_other other
  · rfl

theorem hear_mine {a : Cursors} {heard : Cursor} (mine : heard.client = a.clientID) :
    a.hear heard =
      if a.clock < heard.clock ∨ a.clock = heard.clock ∧ heard.state.isNone ∧ a.getLocalState.isSome then
        if heard.state.isNone ∧ a.getLocalState.isSome then
          a.put ⟨a.clientID, next heard.clock, a.getLocalState⟩
        else a.put heard
      else a := by
  unfold hear
  rw [mine]
  simp only [true_and]
  rfl

theorem clock_put {a : Cursors} {cursor : Cursor} (mine : cursor.client = a.clientID) :
    (a.put cursor).clock = cursor.clock := by
  have found : (a.put cursor).find a.clientID = some cursor := mine ▸ a.find_put cursor
  have same : (a.put cursor).clientID = a.clientID := rfl
  simp only [clock, same, found, Option.map_some, Option.getD_some]

theorem state_put {a : Cursors} {cursor : Cursor} (mine : cursor.client = a.clientID) :
    (a.put cursor).getLocalState = cursor.state := by
  have found : (a.put cursor).find a.clientID = some cursor := mine ▸ a.find_put cursor
  have same : (a.put cursor).clientID = a.clientID := rfl
  simp only [getLocalState, same, found, Option.bind_some]

theorem hear_newer {a : Cursors} {heard : Cursor} (mine : heard.client = a.clientID)
    (newer : a.Newer heard) : a.clock < (a.hear heard).clock := by
  have taken : a.clock < heard.clock ∨
      a.clock = heard.clock ∧ heard.state.isNone ∧ a.getLocalState.isSome :=
    newer.imp_right fun same => ⟨same.1, same.2.1, same.2.2.1⟩
  rw [hear_mine mine, if_pos taken]
  split
  · rw [clock_put rfl]
    rcases newer with later | ⟨same, _, _, counts⟩
    · exact lt_next_of_lt later
    · rw [← same]
      exact lt_next counts
  · rename_i plain
    rw [clock_put mine]
    rcases newer with later | ⟨_, absent, shown, _⟩
    · exact later
    · exact absurd ⟨absent, shown⟩ plain

theorem hear_stale {a : Cursors} {heard : Cursor} (mine : heard.client = a.clientID)
    (stale : ¬ a.Newer heard) :
    (a.hear heard).clock = a.clock ∧ (a.hear heard).getLocalState = a.getLocalState := by
  obtain ⟨early, removal⟩ := not_or.mp stale
  rw [hear_mine mine]
  split
  · rename_i taken
    obtain ⟨same, absent, shown⟩ := taken.resolve_left early
    have stuck : ¬ heard.clock < heard.clock + .finite 1 := by
      intro counts
      exact removal ⟨same, absent, shown, same ▸ counts⟩
    rw [if_pos ⟨absent, shown⟩, clock_put rfl, state_put rfl]
    refine ⟨?_, rfl⟩
    rw [next, if_neg stuck, same]
  · exact ⟨rfl, rfl⟩

theorem own_found {a b : Cursors} (same : b.clientID = a.clientID)
    (found : b.find a.clientID = a.find a.clientID) :
    b.clock = a.clock ∧ b.getLocalState = a.getLocalState := by
  rw [clock, clock, getLocalState, getLocalState, same, found]
  exact ⟨rfl, rfl⟩

theorem heard_clientID (a : Cursors) (entry : Presence.Entry) : (a.heard entry).clientID = a.clientID := by
  unfold heard
  split
  · exact hear_clientID a _
  · rfl

theorem heard_keeps {a : Cursors} {entry : Presence.Entry}
    (stale : ¬ (entry.clientID = .finite a.clientID ∧ a.Newer (cursorOf a.clientID entry))) :
    (a.heard entry).clock = a.clock ∧ (a.heard entry).getLocalState = a.getLocalState := by
  unfold heard
  split
  · rename_i client named
    by_cases mine : client = a.clientID
    · subst mine
      exact hear_stale rfl fun newer => stale ⟨named, newer⟩
    · exact own_found (hear_clientID a _) (hear_other a (Ne.symm mine))
  · exact ⟨rfl, rfl⟩

theorem heard_newer {a : Cursors} {entry : Presence.Entry} (mine : entry.clientID = .finite a.clientID)
    (newer : a.Newer (cursorOf a.clientID entry)) : a.clock < (a.heard entry).clock := by
  unfold heard
  rw [mine]
  exact hear_newer rfl newer

end Cursors

/-- A document in a browser: its content, and the client id it writes under. -/
structure Tab where
  replica : Replica
  clientID : Nat

namespace Tab

def applyUpdate (tab : Tab) (update : Bytes) : Tab × Except JsError Unit :=
  match decodeDelta update with
  | .error e => (tab, .error e)
  | .ok u => ({ tab with replica := tab.replica.apply u }, .ok ())

def encodeStateVector (tab : Tab) : Bytes := encodeVector (vectorOf tab.replica.ids)

/- What is parked is cut as what is integrated is. -/
def since (tab : Tab) (sv : StateVector) : Delta where
  blocks := (tab.replica.integrated ++ tab.replica.parked).filter fun b =>
    decide (sv.get b.id.client ≤ b.id.clock)
  deletes := tab.replica.deletes ++ tab.replica.parkedDeletes

theorem since_content (tab : Tab) (sv : StateVector) :
    (tab.since sv).content = Yjs.diff tab.replica.state sv := by
  ext x <;> simp [since, Delta.content, Yjs.diff, Replica.state, or_and_right]

def encodeStateAsUpdate (tab : Tab) (encoded : Bytes) : Except JsError Bytes :=
  (decodeVector encoded).map fun sv => encodeDelta (tab.since sv)

theorem applyUpdate_decoded {tab : Tab} {update : Bytes} {u : Delta}
    (decoded : decodeDelta update = .ok u) :
    tab.applyUpdate update = ({ tab with replica := tab.replica.apply u }, .ok ()) := by
  rw [applyUpdate, decoded]

theorem encodeStateAsUpdate_decoded {tab : Tab} {encoded : Bytes} {sv : StateVector}
    (decoded : decodeVector encoded = .ok sv) :
    tab.encodeStateAsUpdate encoded = .ok (encodeDelta (tab.since sv)) := by
  rw [encodeStateAsUpdate, decoded]
  rfl

end Tab

/- Everything but readSyncMessage, which is defined from the rest. -/
def tabs : Yjs where
  Doc := Tab
  Awareness := Cursors
  Presence := String
  newDoc := ⟨.empty, 0⟩
  clientID := Tab.clientID
  applyUpdate := Tab.applyUpdate
  encodeStateVector := Tab.encodeStateVector
  encodeStateAsUpdate := Tab.encodeStateAsUpdate
  mergeUpdates := mergeDeltas
  readSyncMessage := throw "not a client yet"
  writeSyncStep1 tab := writeVarUint messageYjsSyncStep1 ++ writeVarUint8Array tab.encodeStateVector
  writeUpdate update := writeVarUint messageYjsUpdate ++ writeVarUint8Array update
  newAwareness tab := ⟨tab.clientID, [⟨tab.clientID, .finite 0, some "[]"⟩]⟩
  getLocalState := Cursors.getLocalState
  setLocalState := Cursors.setLocalState
  getStates := Cursors.getStates
  removeAwarenessStates := Cursors.remove
  encodeAwarenessUpdate := Cursors.encode
  applyAwarenessUpdate := Presence.documentedAwareness Cursors.heard
  view tab := tab.replica.state

def client : Yjs := { tabs with readSyncMessage := tabs.documentedSync }

theorem client_laws : client.Laws crate where
  apply_integrates tab update content carried := by
    obtain ⟨u, decoded, rfl⟩ := Yrs.contentOf_some carried
    have applied : client.applyUpdate tab update = _ := Tab.applyUpdate_decoded decoded
    rw [applied]
    exact Replica.apply_integrates tab.replica u
  stateVector_counts tab := by
    refine ⟨vectorOf tab.replica.ids, decode_encodeVector _, fun client clock => ?_⟩
    exact crate_laws.stateVector_counts tab.replica client clock
  encode_decodes tab encoded sv decoded := by
    refine ⟨_, Tab.encodeStateAsUpdate_decoded decoded, ?_⟩
    rw [contentOf_encodeDelta]
    exact congrArg some (Tab.since_content tab sv)
  merge_joins := crate_laws.merge_joins
  readSyncMessage_eq := rfl
  writeSyncStep1_eq _ := rfl
  writeUpdate_eq _ := rfl

/- Yjs gives the document another id when a remote update adds content under its own. -/
def Tab.applyRemote (tab : Tab) (update : Bytes) : Tab × Except JsError Unit :=
  let (applied, result) := tab.applyUpdate update
  let written (tab' : Tab) : Nat := (vectorOf tab'.replica.ids).get tab.clientID
  if written applied = written tab then (applied, result)
  else ({ applied with clientID := tab.clientID + 1 }, result)

theorem Tab.applyRemote_replica (tab : Tab) (update : Bytes) :
    (tab.applyRemote update).1.replica = (tab.applyUpdate update).1.replica := by
  unfold applyRemote
  dsimp only
  split <;> rfl

def renamerTabs : Yjs := { tabs with applyUpdate := Tab.applyRemote }

def renamer : Yjs := { renamerTabs with readSyncMessage := renamerTabs.documentedSync }

theorem renamer_laws : renamer.Laws crate where
  apply_integrates tab update content carried := by
    have applied : renamer.view (renamer.applyUpdate tab update).1 =
        client.view (client.applyUpdate tab update).1 :=
      congrArg Replica.state (Tab.applyRemote_replica tab update)
    rw [applied]
    exact client_laws.apply_integrates tab update content carried
  stateVector_counts := client_laws.stateVector_counts
  encode_decodes := client_laws.encode_decodes
  merge_joins := client_laws.merge_joins
  readSyncMessage_eq := rfl
  writeSyncStep1_eq _ := rfl
  writeUpdate_eq _ := rfl

theorem client_hears : Presence.Laws client Cursors.heard := ⟨fun _ _ => rfl⟩

theorem client_readable : Presence.Readable client := by
  intro tab tab' encoded
  simp only [client, tabs, Tab.encodeStateAsUpdate]
  cases decodeVector encoded <;> rfl

end Yrby.Reference
