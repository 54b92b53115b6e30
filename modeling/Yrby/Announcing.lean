import Yrby.AllOrNothing
import Yrby.Identity

/- Whose presence a session sends. The handler of awareness events goes by their origin:
   it passes over the events of the session itself, and of any other one it sends the
   clients that the event names. -/
namespace Yrby.Announcing
open Document Wire Effects ReliableSync Session Client Presence

variable {js : Yjs} {y : Yrs} {own : js.Awareness → Nat} {clock : js.Awareness → Number}
  {hear : js.Awareness → Entry → js.Awareness}

def ownEntry (clock : js.Awareness → Number) (awareness : js.Awareness) : Number × Option js.Presence :=
  (clock awareness, js.getLocalState awareness)

/-- The awareness takes an entry about its own client that is newer, or that removes the
    state at the same clock, as long as that clock can be counted up. -/
def Taken (own : js.Awareness → Nat) (clock : js.Awareness → Number) (awareness : js.Awareness)
    (entry : Entry) : Prop :=
  entry.clientID = own awareness ∧ (clock awareness < entry.clock ∨
    clock awareness = entry.clock ∧ isNull entry.state = true ∧
      (js.getLocalState awareness).isSome = true ∧ clock awareness < clock awareness + .finite 1)

/-- What is documented of an awareness, own being its clientID and clock that of its
    own entry. -/
structure Documented (js : Yjs) (own : js.Awareness → Nat) (clock : js.Awareness → Number)
    (hear : js.Awareness → Entry → js.Awareness) : Prop where
  hears : ∀ awareness entry, own (hear awareness entry) = own awareness
  keeps : ∀ awareness entry, ¬ Taken own clock awareness entry →
    ownEntry clock (hear awareness entry) = ownEntry clock awareness
  takes : ∀ awareness entry, Taken own clock awareness entry →
    clock awareness < clock (hear awareness entry)
  removes : ∀ awareness clients, own (js.removeAwarenessStates awareness clients) = own awareness
  sets : ∀ awareness state, own (js.setLocalState awareness state).1 = own awareness ∧
    (js.setLocalState awareness state).2 = [own awareness] ∧
    ∃ update, js.encodeAwarenessUpdate (js.setLocalState awareness state).1 [own awareness] = .ok update
  /-- An update says which clients it is about. -/
  tells : ∀ awareness awareness' clients clients' update,
    js.encodeAwarenessUpdate awareness clients = .ok update →
    js.encodeAwarenessUpdate awareness' clients' = .ok update → clients = clients'

/-- An event of the awareness names the clients it changed, each with a meta entry. -/
def Genuine (own : js.Awareness → Nat) (clock : js.Awareness → Number) (s : Client.Session js) : Input js → Prop
  | .changePresence changed clients => ∀ awareness, s.2.1.awareness = some awareness →
      own changed = own awareness ∧
      (ownEntry clock changed ≠ ownEntry clock awareness → own awareness ∈ clients) ∧
      ∃ update, js.encodeAwarenessUpdate changed clients = .ok update
  | _ => True

def isAwareness (frame : Bytes) : Bool := frame.head? = some 1

/-- The frame carries the presence of no other client. -/
def NamesOnly (js : Yjs) (client : Nat) (frame : Bytes) : Prop :=
  ∃ (awareness : js.Awareness) (clients : List Nat), frameAwareness awareness clients = .ok frame ∧
    ∀ c ∈ clients, c = client

/-- The frame carries this presence of the client, and of no other. -/
def Announces (awareness : js.Awareness) (client : Nat) (frame : Bytes) : Prop :=
  ∃ clients, frameAwareness awareness clients = .ok frame ∧ client ∈ clients ∧ ∀ c ∈ clients, c = client

def Connected (s : Client.Session js) : Prop := s.2.2.connection.isSome ∧ s.2.1.attached = true

def Allowed (js : Yjs) (client : Nat) (frame : Bytes) : Prop :=
  isAwareness frame = true → NamesOnly js client frame

/-- From s to t the frames went out, none of them with the presence of another client, and
    where the own entry changed while connected, one of them says what it is now. -/
structure Faithful (clock : js.Awareness → Number) (client : Nat) (s t : Client.Session js)
    (frames : List Sent) : Prop where
  sent : t.2.2.sent = s.2.2.sent ++ frames
  only : ∀ e ∈ frames, Allowed js client e.frame
  told : ∀ before later, s.2.1.awareness = some before → t.2.1.awareness = some later → Connected t →
    ownEntry clock later ≠ ownEntry clock before →
      ∃ e ∈ frames, e.connection = t.2.2.connection ∧ Announces later client e.frame

def entriesOf (frame : Bytes) : List Entry :=
  match readVarUint frame with
  | .error _ _ => []
  | .ok type rest =>
    if type = messageAwareness then ((presenceOf rest).map Prod.snd).getD [] else []

/-- An event of another origin names the own client alone, a frame received while connected
    has no entry that the own one gives way to, and a connect announces the own id. -/
def Met (own : js.Awareness → Nat) (clock : js.Awareness → Number) (s : Client.Session js)
    (awareness : js.Awareness) : Input js → Prop
  | .changePresence _ clients => s.2.1.attached = true → ∀ c ∈ clients, c = own awareness
  | .connect _ => s.2.2.faults.headD false = false → (js.getLocalState awareness).isSome →
      ∀ update, js.encodeAwarenessUpdate awareness [js.clientID s.2.1.doc] = .ok update →
        js.clientID s.2.1.doc = own awareness
  | .receive frame => Connected s →
      ∀ entry ∈ entriesOf frame, ¬ Taken own clock awareness entry
  | _ => True

def Grows (allowed : Bytes → Prop) (s t : Client.Session js) : Prop :=
  t.2.1.awareness = s.2.1.awareness ∧
    ∃ l, t.2.2.sent = s.2.2.sent ++ l ∧ ∀ e ∈ l, allowed e.frame

section
variable {allowed : Bytes → Prop}

theorem Grows.same {s t : Client.Session js} (awareness : t.2.1.awareness = s.2.1.awareness)
    (sent : t.2.2.sent = s.2.2.sent) : Grows allowed s t :=
  ⟨awareness, [], by rw [sent, List.append_nil], by simp⟩

theorem Grows.refl (s : Client.Session js) : Grows allowed s s := Grows.same rfl rfl

theorem Grows.trans (s t u : Client.Session js) (one : Grows allowed s t) (two : Grows allowed t u) :
    Grows allowed s u := by
  obtain ⟨awareness, l, sent, kind⟩ := one
  obtain ⟨awareness', l', sent', kind'⟩ := two
  refine ⟨awareness'.trans awareness, l ++ l', by rw [sent', sent, List.append_assoc], ?_⟩
  intro e mem
  exact (List.mem_append.mp mem).elim (kind e) (kind' e)

theorem this_within : Within (Grows allowed) (this : Session.Method js Host ReliableSync) := Grows.refl

theorem assign_within (change : ReliableSync → ReliableSync) :
    Within (Grows allowed) (assign change : Session.Method js Host Unit) :=
  fun _ => Grows.same rfl rfl

theorem core_within : Within (Grows allowed) (core : Session.Method js Host (Core js)) := Grows.refl

theorem assignCore_within {change : Core js → Core js} (kept : ∀ self, (change self).awareness = self.awareness) :
    Within (Grows allowed) (assignCore change : Session.Method js Host Unit) :=
  fun s => Grows.same (kept s.2.1) rfl

theorem transmit_within {frame : Bytes} (kind : allowed frame) (id : Option Nat) :
    Within (Grows allowed) (transmit transport frame id : Session.Method js Host Unit) := by
  intro s
  have handed : Grows allowed s (hand s frame id) := by
    refine ⟨rfl, [⟨s.2.2.connection, frame, id⟩], rfl, fun e mem => ?_⟩
    obtain rfl := List.mem_singleton.mp mem
    exact kind
  rw [Leaves, ends_transmit]
  split <;> exact handed

theorem stopTimer_within : Within (Grows allowed) (stopTimer (delivery transport js)) := by
  intro s
  rw [Leaves, Identity.ends_stopTimer]
  unfold Identity.stopped
  split <;> exact Grows.same rfl rfl

theorem onAck_within (id : Value) : Within (Grows allowed) (onAck (delivery transport js) id) := by
  unfold onAck
  refine Within.bind Grows.trans this_within fun self => ?_
  split
  · exact Grows.refl
  · split
    · exact Grows.refl
    · refine Within.bind Grows.trans (assign_within _) fun _ => ?_
      refine Within.bind Grows.trans this_within fun self => ?_
      split
      · exact stopTimer_within
      · exact Grows.refl

theorem destroy_within : Within (Grows allowed) (Session.destroy transport : Session.Method js Host Unit) := by
  unfold Session.destroy ReliableSync.destroy
  refine Within.bind Grows.trans (assignCore_within fun _ => rfl) fun _ => ?_
  refine Within.bind Grows.trans (assign_within _) fun _ => ?_
  exact Within.bind Grows.trans stopTimer_within fun _ => assign_within _

theorem applyRemoteUpdate_within (update : Bytes) :
    Within (Grows allowed) (applyRemoteUpdate update : Session.Method js Host Unit) := by
  unfold applyRemoteUpdate
  refine Within.bind Grows.trans core_within fun self => ?_
  refine Within.bind Grows.trans (assignCore_within fun _ => rfl) fun _ => ?_
  split <;> exact Grows.refl

variable (updates : ∀ tail, allowed (frameUpdate js tail))
include updates

theorem delivery_within : DeliveryFree (delivery transport js) (Grows allowed) where
  refl := Grows.refl
  trans := Grows.trans
  memo _ _ _ := Grows.same rfl rfl
  connect _ _ := Grows.same rfl rfl
  start _ _ _ _ taken := by
    obtain ⟨_, rfl⟩ := Prod.mk.inj taken
    exact Grows.same rfl rfl
  send tail seq := transmit_within (updates tail) (some seq)

theorem enqueue_within (update : Bytes) :
    Within (Grows allowed) (enqueue (delivery transport js) update) := by
  unfold enqueue
  refine Within.bind Grows.trans (assign_within _) fun _ => ?_
  refine Within.bind Grows.trans this_within fun self => ?_
  dsimp only
  split
  · exact Within.bind Grows.trans (delivery_within updates).startTimer fun _ => (delivery_within updates).flush
  · exact (delivery_within updates).flush

theorem transact_within (doc : js.Doc) (update : Bytes) :
    Within (Grows allowed) (transact transport doc update) := by
  unfold transact
  refine Within.bind Grows.trans (assignCore_within fun _ => rfl) fun _ => ?_
  refine Within.bind Grows.trans core_within fun self => ?_
  split
  · exact enqueue_within updates update
  · exact Grows.refl

end

/-- The awareness is still that of the client, and what went out was faithful exactly where
    the condition holds. -/
structure Shows (own : js.Awareness → Nat) (clock : js.Awareness → Number) (before : js.Awareness) (s t : Client.Session js)
    (condition : Prop) : Prop where
  stays : ∃ later, t.2.1.awareness = some later ∧ own later = own before
  faithful_iff : (∃ frames, Faithful clock (own before) s t frames) ↔ condition

section
variable {s t u : Client.Session js} {before later : js.Awareness} {frames : List Sent} {p q : Prop}

theorem Shows.congr (shows : Shows own clock before s t p) (same : p ↔ q) : Shows own clock before s t q :=
  ⟨shows.stays, shows.faithful_iff.trans same⟩

theorem shows_of (here : s.2.1.awareness = some before) (there : t.2.1.awareness = some later)
    (same : own later = own before) (sent : t.2.2.sent = s.2.2.sent ++ frames) :
    Shows own clock before s t ((∀ e ∈ frames, Allowed js (own before) e.frame) ∧
      (Connected t → ownEntry clock later ≠ ownEntry clock before →
        ∃ e ∈ frames, e.connection = t.2.2.connection ∧ Announces later (own before) e.frame)) := by
  refine ⟨⟨later, there, same⟩, ?_⟩
  constructor
  · intro ⟨frames', faithful⟩
    have frames_eq : frames = frames' := List.append_cancel_left (sent.symm.trans faithful.sent)
    rw [frames_eq]
    exact ⟨faithful.only, faithful.told before later here there⟩
  · intro ⟨only, told⟩
    refine ⟨frames, sent, only, ?_⟩
    intro before' later' here' there'
    obtain rfl := Option.some.inj (here.symm.trans here')
    obtain rfl := Option.some.inj (there.symm.trans there')
    exact told

theorem shows_same (here : s.2.1.awareness = some before) (same : t.2.1.awareness = s.2.1.awareness)
    (sent : t.2.2.sent = s.2.2.sent ++ frames) :
    Shows own clock before s t (∀ e ∈ frames, Allowed js (own before) e.frame) := by
  apply (shows_of here (same.trans here) rfl sent).congr
  rw [and_iff_left]
  intro _ changed
  exact absurd rfl changed

theorem Grows.shows (here : s.2.1.awareness = some before) (same : u.2.1.awareness = s.2.1.awareness)
    (sent : u.2.2.sent = s.2.2.sent ++ frames) (grows : Grows (Allowed js (own before)) u t) :
    Shows own clock before s t (∀ e ∈ frames, Allowed js (own before) e.frame) := by
  obtain ⟨same', l, sent', kinds⟩ := grows
  have all : t.2.2.sent = s.2.2.sent ++ (frames ++ l) := by rw [sent', sent, List.append_assoc]
  apply (shows_same here (same'.trans same) all).congr
  constructor
  · intro allowed e mem
    exact allowed e (List.mem_append_left l mem)
  · intro allowed e mem
    exact (List.mem_append.mp mem).elim (allowed e) (kinds e)

theorem within_shows {program : Session.Method js Host Unit} (here : s.2.1.awareness = some before)
    (within : Within (Grows (Allowed js (own before))) program) :
    Shows own clock before s (after program s) True := by
  apply (Grows.shows here rfl (List.append_nil _).symm (within.leaves s)).congr
  simp

theorem sync_allowed (client : Nat) (rest : Bytes) : Allowed js client (writeVarUint messageSync ++ rest) := by
  intro presence
  have other : isAwareness (writeVarUint messageSync ++ rest) = false := rfl
  rw [other] at presence
  cases presence

theorem updates_allowed (client : Nat) (tail : Bytes) : Allowed js client (frameUpdate js tail) :=
  sync_allowed client _

theorem allowed_iff (documented : Documented js own clock hear) {awareness : js.Awareness}
    {clients : List Nat} {update : Bytes}
    (encoded : js.encodeAwarenessUpdate awareness clients = .ok update) (client : Nat) :
    Allowed js client (awarenessFrame update) ↔ ∀ c ∈ clients, c = client := by
  constructor
  · intro allowed
    obtain ⟨awareness', clients', framed, alone⟩ := allowed rfl
    obtain ⟨update', encoded', same⟩ := frameAwareness_inv framed
    obtain rfl := awarenessFrame_injective same
    rw [documented.tells _ _ _ _ _ encoded encoded']
    exact alone
  · intro alone _
    exact ⟨awareness, clients, frameAwareness_ok encoded, alone⟩

def present (s : Client.Session js) (awareness : js.Awareness) : Client.Session js :=
  (s.1, { s.2.1 with awareness := some awareness }, s.2.2)

theorem changePresence_shows (documented : Documented js own clock hear)
    (here : s.2.1.awareness = some before) {changed : js.Awareness} {clients : List Nat}
    (same : own changed = own before)
    (named : ownEntry clock changed ≠ ownEntry clock before → own before ∈ clients)
    (encodes : ∃ update, js.encodeAwarenessUpdate changed clients = .ok update) :
    Leaves (changePresence transport changed clients)
      (fun t => Shows own clock before s t (s.2.1.attached = true → ∀ c ∈ clients, c = own before)) s := by
  obtain ⟨update, encoded⟩ := encodes
  have framed := frameAwareness_ok encoded
  simp only [changePresence, onAwarenessUpdate, ends_bind, ends_assignCore, ends_core, ends_ite]
  split
  · rename_i attached
    have shows : Shows own clock before s (hand (present s changed) (awarenessFrame update) none)
        (s.2.1.attached = true → ∀ c ∈ clients, c = own before) := by
      have sent : _ = s.2.2.sent ++ [⟨s.2.2.connection, awarenessFrame update, none⟩] := rfl
      apply (shows_of here rfl same sent).congr
      simp only [List.mem_singleton, forall_eq, exists_eq_left, allowed_iff documented encoded]
      constructor
      · intro shown _
        exact shown.1
      · intro alone
        exact ⟨alone attached, fun _ moved => ⟨rfl, clients, framed, named moved, alone attached⟩⟩
    simp only [Bool.false_eq_true, ↓reduceIte, framed]
    rw [ends_transmit]
    split <;> exact shows
  · rename_i detached
    have sent : (present s changed).2.2.sent = s.2.2.sent ++ [] := (List.append_nil _).symm
    apply (shows_of here rfl same sent).congr
    constructor
    · intro _ attached
      exact absurd attached detached
    · intro _
      exact ⟨by simp, fun up => absurd up.2 detached⟩

theorem removePresence_shows (documented : Documented js own clock hear)
    (here : s.2.1.awareness = some before) :
    Leaves (removeLocalAwareness transport) (fun t => Shows own clock before s t True) s := by
  have unchanged : Shows own clock before s s True := by
    apply (shows_same here rfl (List.append_nil _).symm).congr
    simp
  simp only [removeLocalAwareness, ends_bind, ends_core, here, ends_ite]
  split
  · obtain ⟨same, named, encodes⟩ := documented.sets before none
    rw [← named] at encodes
    have shows := changePresence_shows documented here same (fun _ => by simp [named]) encodes
    refine shows.mono (fun _ t shown => shown.congr ?_) fun t shown => shown.congr ?_
    all_goals simp [named]
  · exact unchanged

def parted (s : Client.Session js) : Client.Session js :=
  let still := Identity.stopped ({ s.1 with connected := false }, { s.2.1 with synced := false },
    { s.2.2 with connection := none })
  (still.1, { still.2.1 with awareness := still.2.1.awareness.map (Identity.cleared still.2.1.doc) }, still.2.2)

theorem ends_disconnect {post : Unit → Client.Session js → Prop} {raised : Client.Session js → Prop} :
    Ends (run .disconnect) post raised s ↔ post () (parted s) := by
  simp only [run, assignHost, Session.onDisconnect, ReliableSync.onDisconnect, ends_bind, ends_modify,
    ends_assignCore, ends_assign, Identity.ends_stopTimer]
  exact Iff.rfl

theorem stopped_host (s : Client.Session js) : (Identity.stopped s).2.2.sent = s.2.2.sent ∧
    (Identity.stopped s).2.2.connection = s.2.2.connection := by
  unfold Identity.stopped
  split <;> exact ⟨rfl, rfl⟩

theorem cleared_own (documented : Documented js own clock hear) (doc : js.Doc) (awareness : js.Awareness) :
    own (Identity.cleared doc awareness) = own awareness := by
  unfold Identity.cleared
  dsimp only
  split
  · rfl
  · exact documented.removes awareness _

theorem disconnect_shows (documented : Documented js own clock hear)
    (here : s.2.1.awareness = some before) :
    Leaves (run .disconnect) (fun t => Shows own clock before s t True) s := by
  rw [Leaves, ends_disconnect]
  have there : (parted s).2.1.awareness = some (Identity.cleared s.2.1.doc before) := by
    simp only [parted, Identity.stopped_core, here, Option.map_some]
  have sent : (parted s).2.2.sent = s.2.2.sent ++ [] := by
    rw [List.append_nil]
    exact (stopped_host _).1
  have down : ¬ Connected (parted s) := by
    intro up
    have none : (parted s).2.2.connection = none := (stopped_host _).2
    simp [Connected, none] at up
  apply (shows_of here there (cleared_own documented s.2.1.doc before) sent).congr
  simp [down]

theorem Taken.congr {entry : Entry} (same : own later = own before)
    (unchanged : ownEntry clock later = ownEntry clock before) :
    Taken own clock later entry ↔ Taken own clock before entry := by
  obtain ⟨clocks, states⟩ := Prod.mk.inj unchanged
  simp only [Taken, same, clocks, states]

section
variable (documented : Documented js own clock hear)
include documented

theorem heard_own (entries : List Entry) (awareness : js.Awareness) :
    own (entries.foldl hear awareness) = own awareness := by
  induction entries generalizing awareness with
  | nil => rfl
  | cons entry rest ih =>
    rw [List.foldl_cons, ih]
    exact documented.hears awareness entry

theorem clock_grows (entries : List Entry) (awareness : js.Awareness) :
    clock (entries.foldl hear awareness) = clock awareness ∨
      clock awareness < clock (entries.foldl hear awareness) := by
  induction entries generalizing awareness with
  | nil => exact .inl rfl
  | cons entry rest ih =>
    have later := ih (hear awareness entry)
    rw [List.foldl_cons]
    by_cases taken : Taken own clock awareness entry
    · have moved := documented.takes awareness entry taken
      rcases later with same | more
      · exact .inr (same ▸ moved)
      · exact .inr (Number.lt_trans moved more)
    · have kept : clock (hear awareness entry) = clock awareness :=
        congrArg Prod.fst (documented.keeps awareness entry taken)
      rwa [kept] at later

/-- Entries leave the own one as it is exactly where it gives way to none of them. -/
theorem heard_iff (entries : List Entry) (awareness : js.Awareness) :
    ownEntry clock (entries.foldl hear awareness) = ownEntry clock awareness ↔
      ∀ entry ∈ entries, ¬ Taken own clock awareness entry := by
  induction entries generalizing awareness with
  | nil => simp
  | cons entry rest ih =>
    rw [List.foldl_cons, List.forall_mem_cons]
    by_cases taken : Taken own clock awareness entry
    · have moved := documented.takes awareness entry taken
      constructor
      · intro unchanged
        exfalso
        have same : clock (rest.foldl hear (hear awareness entry)) = clock awareness :=
          congrArg Prod.fst unchanged
        rcases clock_grows documented rest (hear awareness entry) with stays | grown
        · rw [← stays, same] at moved
          exact Number.lt_irrefl _ moved
        · rw [same] at grown
          exact Number.lt_irrefl _ (Number.lt_trans moved grown)
      · intro none
        exact absurd taken none.1
    · have kept := documented.keeps awareness entry taken
      have alike : ∀ next, Taken own clock (hear awareness entry) next ↔ Taken own clock awareness next :=
        fun next => Taken.congr (documented.hears awareness entry) kept
      rw [← kept, ih]
      simp only [alike, taken, not_false_eq_true, true_and]

end

theorem receiveSync_keeps (decoder : Bytes) : Leaves (receiveSync decoder : Session.Method js Host _)
    (fun t => t.2.1.awareness = s.2.1.awareness) s := by
  simp only [receiveSync, ends_bind, ends_core]
  split <;> simp only [ends_bind, ends_assignCore, ends_throw, ends_pure]

theorem receive_keeps {frame : Bytes} (other : ∀ rest, readVarUint frame ≠ .ok messageAwareness rest) :
    Leaves (receive transport frame) (fun t => t.2.1.awareness = s.2.1.awareness) s := by
  have dispatched : Leaves (dispatch frame) (fun t => t.2.1.awareness = s.2.1.awareness) s := by
    unfold dispatch
    split
    · exact rfl
    · exact rfl
    · split
      · exact rfl
      · rename_i type rest read
        split
        · exact receiveSync_keeps rest
        · split
          · rename_i awareness
            exact absurd (awareness ▸ read) (other rest)
          · exact rfl
  unfold Leaves Ends at dispatched
  simp only [receive, ends_tryCatch]
  split
  · rename_i reply t returned
    rw [returned] at dispatched
    exact dispatched
  · rename_i e t thrown
    rw [thrown] at dispatched
    exact dispatched

theorem receive_hears (hears : Presence.Laws js hear) (frame : Bytes) (s : Client.Session js) :
    Leaves (receive transport frame) (fun t =>
      t.2.1.awareness = s.2.1.awareness.map ((entriesOf frame).foldl hear)) s := by
  have unheard : ∀ t : Client.Session js, t.2.1.awareness = s.2.1.awareness →
      t.2.1.awareness = s.2.1.awareness.map (([] : List Entry).foldl hear) := by
    intro t same
    simp only [same, List.foldl_nil, Option.map_id']
  by_cases awareness : ∃ rest, readVarUint frame = .ok messageAwareness rest
  · obtain ⟨rest, read⟩ := awareness
    have entries : entriesOf frame = ((presenceOf rest).map Prod.snd).getD [] := by
      simp only [entriesOf, read, ↓reduceIte]
    rw [entries]
    cases presence : presenceOf rest with
    | some found =>
      refine (AllOrNothing.receive_presence hears read presence).mono (fun reply t applied => ?_)
        fun _ => False.elim
      rw [applied.2]
      rfl
    | none =>
      obtain ⟨e, left, invalid⟩ := @validate_absent js _ _ read presence
      refine (AllOrNothing.receive_drops invalid).mono (fun reply t dropped => ?_) fun _ => False.elim
      obtain ⟨_, e, same⟩ := dropped
      exact unheard t (by rw [same])
  · have nothing : entriesOf frame = [] := by
      unfold entriesOf
      split
      · rfl
      · rename_i type rest read
        apply if_neg
        intro same
        rw [same] at read
        exact awareness ⟨rest, read⟩
    rw [nothing]
    have keeps : Leaves (receive transport frame) _ s := receive_keeps fun rest read => awareness ⟨rest, read⟩
    exact keeps.mono (fun _ => unheard) unheard

theorem sync_unannounced {awareness : js.Awareness} {client : Nat} (rest : Bytes) :
    ¬ Announces awareness client (writeVarUint messageSync ++ rest) := by
  intro ⟨clients, framed, _⟩
  obtain ⟨update, _, same⟩ := frameAwareness_inv framed
  have kinds : false = true := congrArg isAwareness same
  cases kinds

theorem quiet_shows (documented : Documented js own clock hear) (here : s.2.1.awareness = some before)
    {entries : List Entry} (there : t.2.1.awareness = s.2.1.awareness.map (entries.foldl hear))
    (sent : t.2.2.sent = s.2.2.sent ++ frames)
    (quiet : ∀ e ∈ frames, ∃ rest, e.frame = writeVarUint messageSync ++ rest)
    (up : Connected t ↔ Connected s) :
    Shows own clock before s t (Connected s → ∀ entry ∈ entries, ¬ Taken own clock before entry) := by
  rw [here, Option.map_some] at there
  apply (shows_of here there (heard_own documented entries before) sent).congr
  rw [up]
  constructor
  · intro ⟨_, told⟩ connected
    apply (heard_iff documented entries before).mp
    by_contra changed
    obtain ⟨e, mem, _, announces⟩ := told connected changed
    obtain ⟨rest, same⟩ := quiet e mem
    rw [same] at announces
    exact sync_unannounced rest announces
  · intro kept
    constructor
    · intro e mem
      obtain ⟨rest, same⟩ := quiet e mem
      rw [same]
      exact sync_allowed _ rest
    · intro connected changed
      exact absurd ((heard_iff documented entries before).mpr (kept connected)) changed

theorem receive_shows (laws : js.Laws y) (hears : Presence.Laws js hear)
    (documented : Documented js own clock hear) (here : s.2.1.awareness = some before) (frame : Bytes) :
    Leaves (run (.receive frame)) (fun t => Shows own clock before s t
      (Connected s → ∀ entry ∈ entriesOf frame, ¬ Taken own clock before entry)) s := by
  have received := (Frames.receive_ends laws frame s).and (receive_hears hears frame s)
  simp only [run, ends_bind]
  refine received.mono (fun answer t both => ?_) fun _ both => both.1.elim
  obtain ⟨received, there⟩ := both
  have host := received_host received
  have up : Connected t ↔ Connected s := by
    rw [Connected, Connected, host.2, received.attached]
  cases answer with
  | none =>
    have sent : t.2.2.sent = s.2.2.sent ++ [] := by rw [host.1, List.append_nil]
    exact quiet_shows documented here there sent (by simp) up
  | some answer =>
    obtain ⟨update, same⟩ := received.reply answer rfl
    have sent : (hand t answer none).2.2.sent =
        s.2.2.sent ++ [⟨t.2.2.connection, answer, none⟩] := by
      rw [← host.1]
      rfl
    have quiet : ∀ e ∈ [(⟨t.2.2.connection, answer, none⟩ : Sent)],
        ∃ rest, e.frame = writeVarUint messageSync ++ rest := by
      intro e mem
      obtain rfl := List.mem_singleton.mp mem
      exact ⟨_, same.trans (List.append_assoc _ _ _)⟩
    have shows := quiet_shows documented here (t := hand t answer none) there sent quiet up
    unfold reply
    rw [ends_transmit]
    split <;> exact shows

theorem resume_shows (here : s.2.1.awareness = some before) (same : u.2.1.awareness = s.2.1.awareness)
    (sent : u.2.2.sent = s.2.2.sent ++ frames) :
    Leaves (ReliableSync.onConnect (delivery transport js)) (fun t => Shows own clock before s t
      (∀ e ∈ frames, Allowed js (own before) e.frame)) u := by
  have within := (delivery_within (@updates_allowed js (own before))).onConnect u
  exact within.mono (fun _ _ grows => Grows.shows here same sent grows) fun _ grows =>
    Grows.shows here same sent grows

theorem opening_allowed (client connection : Nat) (s : Client.Session js) :
    Allowed js client (Identity.opening s connection).frame := sync_allowed client _

theorem announce_shows (documented : Documented js own clock hear) (here : s.2.1.awareness = some before)
    {connection : Nat} (same : u.2.1.awareness = s.2.1.awareness)
    (sent : u.2.2.sent = s.2.2.sent ++ [Identity.opening s connection])
    {client : Nat} {update : Bytes} (encoded : js.encodeAwarenessUpdate before [client] = .ok update) :
    Leaves (do
        transmit transport (awarenessFrame update) none
        ReliableSync.onConnect (delivery transport js))
      (fun t => Shows own clock before s t (client = own before)) u := by
  have sent' : (hand u (awarenessFrame update) none).2.2.sent = s.2.2.sent ++
      [Identity.opening s connection, ⟨u.2.2.connection, awarenessFrame update, none⟩] := by
    rw [← List.singleton_append, ← List.append_assoc, ← sent]
    rfl
  have same' : (hand u (awarenessFrame update) none).2.1.awareness = s.2.1.awareness := same
  have alone : (∀ e ∈ [Identity.opening s connection, ⟨u.2.2.connection, awarenessFrame update, none⟩],
      Allowed js (own before) e.frame) ↔ client = own before := by
    simp only [List.forall_mem_cons, List.not_mem_nil, false_implies, implies_true, and_true,
      opening_allowed, true_and, allowed_iff documented encoded]
  rw [Leaves, ends_bind, ends_transmit]
  split
  · exact (shows_same here same' sent').congr alone
  · exact (resume_shows here same' sent').mono (fun _ _ shows => shows.congr alone) fun _ shows =>
      shows.congr alone

theorem connect_shows (documented : Documented js own clock hear) (here : s.2.1.awareness = some before)
    (connection : Nat) :
    Leaves (run (.connect connection)) (fun t => Shows own clock before s t
      (Met own clock s before (.connect connection))) s := by
  have first : (s.1, s.2.1, Identity.opened s connection).2.2.sent =
      s.2.2.sent ++ [Identity.opening s connection] := rfl
  have kept : (s.1, s.2.1, Identity.opened s connection).2.1.awareness = s.2.1.awareness := rfl
  have opened : ∀ e ∈ [Identity.opening s connection], Allowed js (own before) e.frame := by
    simp [opening_allowed]
  simp only [run, assignHost, Session.onConnect]
  rw [Leaves, ends_bind, ends_modify, ends_bind, ends_core, ends_bind, ends_transmit]
  change if s.2.2.faults.headD false = true then Shows own clock before s (s.1, s.2.1, Identity.opened s connection) _
    else _
  split
  · rename_i failed
    apply (shows_same here kept first).congr
    apply iff_of_true opened
    intro delivered
    rw [failed] at delivered
    cases delivered
  · rename_i delivered
    rw [Bool.not_eq_true] at delivered
    simp only [here]
    split
    · rename_i there
      cases encoded : js.encodeAwarenessUpdate before [js.clientID s.2.1.doc] with
      | error e =>
        have framed : frameAwareness before [js.clientID s.2.1.doc] = .error e := by
          rw [frameAwareness, encoded]
          rfl
        rw [framed]
        apply (shows_same here kept first).congr
        apply iff_of_true opened
        intro _ _ update other
        rw [encoded] at other
        cases other
      | ok update =>
        rw [frameAwareness_ok encoded]
        have met : js.clientID s.2.1.doc = own before ↔ Met own clock s before (.connect connection) := by
          constructor
          · intro same _ _ _ _
            exact same
          · intro met
            exact met delivered there update encoded
        exact (announce_shows documented here kept first encoded).mono
          (fun _ _ shows => shows.congr met) fun _ shows => shows.congr met
    · rename_i absent
      have met : Met own clock s before (.connect connection) := fun _ there => absurd there absent
      exact (resume_shows here kept first).mono (fun _ _ shows => shows.congr (iff_of_true opened met))
        fun _ shows => shows.congr (iff_of_true opened met)

theorem step_shows (laws : js.Laws y) (hears : Presence.Laws js hear)
    (documented : Documented js own clock hear) (here : s.2.1.awareness = some before) (input : Input js)
    (genuine : Genuine own clock s input) :
    Shows own clock before s (Identity.step input s) (Met own clock s before input) := by
  have updates := @updates_allowed js (own before)
  cases input with
  | transact doc update => exact within_shows here (transact_within updates doc update)
  | changePresence changed clients =>
    obtain ⟨same, named, encodes⟩ := genuine before here
    exact leaves_iff.mp (changePresence_shows documented here same named encodes)
  | removePresence => exact leaves_iff.mp (removePresence_shows documented here)
  | connect connection => exact leaves_iff.mp (connect_shows documented here connection)
  | disconnect => exact leaves_iff.mp (disconnect_shows documented here)
  | tick => exact within_shows here (delivery_within updates).onTick
  | ack id => exact within_shows here (onAck_within id)
  | receive frame => exact leaves_iff.mp (receive_shows laws hears documented here frame)
  | applyRemoteUpdate update => exact within_shows here (applyRemoteUpdate_within update)
  | destroy => exact within_shows here destroy_within
  | fail faults => exact within_shows here fun _ => Grows.same rfl rfl

end

def Owned (own : js.Awareness → Nat) (client : Nat) (s : Client.Session js) : Prop :=
  ∃ awareness, s.2.1.awareness = some awareness ∧ own awareness = client

theorem owned_step (laws : js.Laws y) (hears : Presence.Laws js hear)
    (documented : Documented js own clock hear) {client : Nat} (s : Client.Session js) (input : Input js)
    (owned : Owned own client s) (genuine : Genuine own clock s input) :
    Owned own client (Identity.step input s) := by
  obtain ⟨before, here, rfl⟩ := owned
  exact (step_shows laws hears documented here input genuine).stays

/-- Every input of a run shows presence faithfully exactly where each of them meets the
    condition. -/
theorem presence_faithful_iff (laws : js.Laws y) (hears : Presence.Laws js hear)
    (documented : Documented js own clock hear) {doc : js.Doc} {awareness : js.Awareness}
    {history : List (Client.Session js × Input js)} {s : Client.Session js}
    (ran : Ran Identity.step (Identity.fresh doc awareness) history s)
    (genuine : ∀ moment ∈ history, Genuine own clock moment.1 moment.2) :
    (∀ moment ∈ history, ∃ frames,
        Faithful clock (own awareness) moment.1 (Identity.step moment.2 moment.1) frames) ↔
      ∀ moment ∈ history, ∀ before, moment.1.2.1.awareness = some before →
        Met own clock moment.1 before moment.2 := by
  have start : Owned own (own awareness) (Identity.fresh doc awareness) := ⟨awareness, rfl, rfl⟩
  have owned := (ran.throughout start (owned_step laws hears documented) genuine).2
  refine forall_congr' fun moment => forall_congr' fun mem => ?_
  obtain ⟨before, here, same⟩ := owned moment mem
  have shows := step_shows laws hears documented here moment.2 (genuine moment mem)
  rw [← same, shows.faithful_iff, here]
  simp only [Option.some.injEq, forall_eq']

theorem taken_iff {a : Reference.Cursors} {entry : Entry} :
    @Taken Reference.client Reference.Cursors.clientID Reference.Cursors.clock a entry ↔
      entry.clientID = .finite a.clientID ∧ a.Newer (Reference.Cursors.cursorOf a.clientID entry) := by
  have removal : (if isNull entry.state then none else some entry.state).isNone = isNull entry.state := by
    cases isNull entry.state <;> rfl
  simp only [Taken, Reference.Cursors.Newer, Reference.Cursors.cursorOf, removal]
  exact Iff.rfl

theorem cursors_documented : Documented Reference.client Reference.Cursors.clientID
    Reference.Cursors.clock Reference.Cursors.heard where
  hears := Reference.Cursors.heard_clientID
  keeps a entry stays := by
    have stale : ¬ _ := fun newer => stays (taken_iff.mpr newer)
    have kept := Reference.Cursors.heard_keeps stale
    exact Prod.ext kept.1 kept.2
  takes a entry taken := by
    obtain ⟨mine, newer⟩ := taken_iff.mp taken
    exact Reference.Cursors.heard_newer mine newer
  removes a clients := rfl
  sets a state := by
    refine ⟨rfl, rfl, _, Reference.Cursors.encode_found (a.find_put _)⟩
  tells a a' clients clients' update one two := Reference.Cursors.encode_tells one two

def document : Reference.client.Doc := (⟨.empty, 1⟩ : Reference.Tab)

def pair : Reference.client.Awareness := (⟨1, [⟨1, .finite 0, some "[]"⟩, ⟨2, .finite 0, some "[]"⟩]⟩ : Reference.Cursors)

def online : Client.Session Reference.client := Identity.step (.connect 0) (Identity.fresh document pair)

/- The reaper removes the client that was not heard of for too long. -/
def reaped : Input Reference.client := .changePresence (Reference.Cursors.remove pair [2]) [2]

/- A peer removes the own client, at the clock that it has. -/
def removal : Bytes := awarenessFrame (writeVarUint 1 ++ Reference.Cursors.code ⟨1, .finite 0, none⟩)

def moved : Input Reference.client :=
  .changePresence (Reference.Cursors.setLocalState pair (some "[1]")).1 [1]

theorem online_presence : online.2.1.awareness = some pair := rfl

theorem reaped_unmet : ¬ Met Reference.Cursors.clientID Reference.Cursors.clock online pair reaped := by
  intro met
  have alone := met rfl 2 (by simp)
  exact absurd alone (by decide)

theorem removal_unmet :
    ¬ Met Reference.Cursors.clientID Reference.Cursors.clock online pair (.receive removal) := by
  intro met
  have entries : entriesOf removal = [⟨.finite 1, .finite 0, "null"⟩] := by decide +kernel
  have stays := met ⟨rfl, rfl⟩ ⟨.finite 1, .finite 0, "null"⟩ (by simp [entries])
  exact stays ⟨rfl, Or.inr ⟨rfl, by decide +kernel, rfl, by decide +kernel⟩⟩

/-- In some run the input comes to the session online, and what it shows is not faithful. -/
def Unfaithful (input : Input Reference.client) : Prop :=
  ∃ history s, Ran Identity.step (Identity.fresh document pair) history s ∧
    (∀ moment ∈ history, Genuine Reference.Cursors.clientID Reference.Cursors.clock moment.1 moment.2) ∧
    (online, input) ∈ history ∧
    ¬ ∃ frames, Faithful Reference.Cursors.clock 1 online (Identity.step input online) frames

theorem unfaithful {input : Input Reference.client}
    (genuine : Genuine Reference.Cursors.clientID Reference.Cursors.clock online input)
    (unmet : ¬ Met Reference.Cursors.clientID Reference.Cursors.clock online pair input) :
    Unfaithful input := by
  refine ⟨_, _, (Ran.start.next (.connect 0)).next input, ?_, by simp [online], ?_⟩
  · simp only [List.nil_append, List.cons_append, List.forall_mem_cons]
    exact ⟨trivial, genuine, by simp⟩
  · intro faithful
    have shows := step_shows Reference.client_laws Reference.client_hears cursors_documented online_presence input genuine
    exact unmet (shows.faithful_iff.mp faithful)

theorem others_told_own_untold : Unfaithful reaped ∧ Unfaithful (.receive removal) := by
  constructor
  · apply unfaithful _ reaped_unmet
    intro awareness here
    obtain rfl := Option.some.inj (online_presence.symm.trans here)
    exact ⟨rfl, fun changed => absurd rfl changed, _, Reference.Cursors.encode_found rfl⟩
  · exact unfaithful trivial removal_unmet

theorem own_move_faithful :
    (∃ frames, Faithful Reference.Cursors.clock 1 (Identity.fresh document pair) online frames) ∧
      ∃ frames, Faithful Reference.Cursors.clock 1 online (Identity.step moved online) frames := by
  have ran : Ran Identity.step (Identity.fresh document pair) _ _ :=
    (Ran.start.next (.connect 0)).next moved
  have faithful := (presence_faithful_iff Reference.client_laws Reference.client_hears cursors_documented ran ?_).mpr ?_
  · simp only [List.nil_append, List.cons_append, List.forall_mem_cons] at faithful
    exact ⟨faithful.1, faithful.2.1⟩
  · simp only [List.nil_append, List.cons_append, List.forall_mem_cons]
    refine ⟨trivial, fun awareness here => ?_, by simp⟩
    obtain rfl := Option.some.inj (online_presence.symm.trans here)
    exact ⟨rfl, fun _ => by decide, _, Reference.Cursors.encode_found rfl⟩
  · simp only [List.nil_append, List.cons_append, List.forall_mem_cons]
    refine ⟨fun before here _ _ _ _ => ?_, fun before here _ => ?_, by simp⟩
    · obtain rfl := Option.some.inj here
      rfl
    · obtain rfl := Option.some.inj (online_presence.symm.trans here)
      decide

end Yrby.Announcing
