import Yrby.History
import Yrby.Readiness

/- What every action of every call owes, whatever the other calls do meanwhile:
   an append is ready over the log as it is then, a relay or an ack follows a
   durable record, and every reply is built from some earlier state of the log. -/
namespace Yrby.DurableLog
open Causal Document Wire Yrs Protocol Serving Readiness Channel Effects History

variable (y : Yrs) (stored : String → List Bytes)

/-- The frame that a call received, under the key it works on. -/
structure Received (h : Trace) (c : Nat) (key encoded : String) (bytes : Bytes) (id : Value) :
    Prop where
  began : ∃ call : Call, (c, .began call) ∈ h ∧ call.Carries encoded bytes ∧ call.key = some key ∧
    call.id = id

/-- Nothing relayed, and no on_change that raised. -/
def Quiet (h : Trace) (c : Nat) : Prop :=
  (∀ stream message reply, (c, Event.did (.broadcast stream message) reply) ∉ h) ∧
    ∀ key update e, (c, Event.did (.onChange key update) (.error e)) ∉ h

def NoChangeRaised (h : Trace) (c : Nat) : Prop :=
  ∀ key update e, (c, Event.did (.onChange key update) (.error e)) ∉ h

/-- What a message to one connection says, and why. -/
inductive Transmits (h : Trace) (c : Nat) (message : Value) : Prop where
  | ack {key encoded bytes id update before after}
    (received : Received h c key encoded bytes id) (frame : IsDocFrame y bytes update)
    (content : message = ackEnvelope id)
    (relayed : h = before ++
      (c, .did (.broadcast (syncStreamName key) (syncEnvelope encoded)) (.ok ())) :: after)
    (held : Durable y stored before key update) (unraised : NoChangeRaised h c)
  | opening {key call doc before state after}
    (began : (c, .began call) ∈ before) (requested : call.request = .subscribed key)
    (split : h = before ++ (c, .did (.onLoad key) (.ok state)) :: after) (loaded : y.view doc = durable y stored before key)
    (content : message = syncEnvelope (Base64.strictEncode64 (syncStep1 y doc)))
  | resync {key encoded bytes id update u doc before state after}
    (received : Received before c key encoded bytes id) (frame : IsDocFrame y bytes update)
    (split : h = before ++ (c, .did (.onLoad key) (.ok state)) :: after) (loaded : y.view doc = durable y stored before key)
    (decoded : y.decodeV1 update = .ok u)
    (gap : ¬ (durable y stored before key).Ready (y.content u))
    (content : message = syncEnvelope (Base64.strictEncode64 (syncStep1 y doc)))
  | answer {key encoded bytes id sv doc served before state after}
    (received : Received before c key encoded bytes id)
    (frame : y.messageDecode bytes = .ok (.sync (.syncStep1 sv), []))
    (split : h = before ++ (c, .did (.onLoad key) (.ok state)) :: after) (loaded : y.view doc = durable y stored before key)
    (integrated : integratedUpdate y doc sv = .ok served)
    (content : message = syncEnvelope (Base64.strictEncode64
      (y.messageEncode (.sync (.syncStep2 served)))))

/-- A frame for all subscribers: presence, or document content that is durable. -/
def Relayable (h : Trace) (key : String) (bytes : Bytes) : Prop :=
  (∃ clients, y.messageDecode bytes = .ok (.awareness clients, [])) ∨
    ∃ update, IsDocFrame y bytes update ∧ Durable y stored h key update

/-- What an action owes at the moment a call performs it. -/
def Justified (c : Nat) (h : Trace) : Action → Prop
  | .onChange key update =>
    (∃ encoded bytes id, Received h c key encoded bytes id ∧ IsDocFrame y bytes update) ∧
      (∃ content, y.contentOf update = some content ∧ (durable y stored h key).Ready content) ∧
      Quiet h c
  | .broadcast stream message =>
    (∃ key encoded bytes id, Received h c key encoded bytes id ∧ stream = syncStreamName key ∧
      message = syncEnvelope encoded ∧ Relayable y stored h key bytes) ∧ NoChangeRaised h c
  | .transmit message => Transmits y stored h c message
  | _ => True

structure InOrder (h : Trace) : Prop where
  justified : ∀ before c action reply after, h = before ++ (c, .did action reply) :: after →
    Justified y stored c before action
  ready : ∀ before c key update after, h = before ++ (c, .recorded key update) :: after →
    ∃ content, y.contentOf update = some content ∧ (durable y stored before key).Ready content
  single : ∀ c call call', (c, .began call) ∈ h → (c, .began call') ∈ h → call = call'

/-- Between two of its actions, a call sees only what other calls did. -/
def Others (c : Nat) (h h' : Trace) : Prop := ∃ ext, h' = h ++ ext ∧ ∀ e ∈ ext, e.1 ≠ c

def discipline : Discipline Action Nat Trace where
  rely := Others
  owes := Justified y stored
  holds := InOrder y stored

variable {y stored} {h h' : Trace} {c : Nat}

theorem Others.refl (c : Nat) (h : Trace) : Others c h h := ⟨[], by simp, by simp⟩

theorem Others.trans {h'' : Trace} (one : Others c h h') (two : Others c h' h'') :
    Others c h h'' := by
  obtain ⟨ext, rfl, apart⟩ := one
  obtain ⟨ext', rfl, apart'⟩ := two
  refine ⟨ext ++ ext', by simp, fun e mem => ?_⟩
  rcases List.mem_append.mp mem with first | second
  · exact apart e first
  · exact apart' e second

theorem steady : Steady (discipline y stored) := ⟨Others.refl, fun _ _ _ _ => Others.trans⟩

theorem Others.mem {e : Nat × Event} (others : Others c h h') (mem : e ∈ h) : e ∈ h' := by
  obtain ⟨ext, rfl, _⟩ := others
  exact List.mem_append_left _ mem

theorem Others.own {event : Event} (others : Others c h h') (mem : (c, event) ∈ h') :
    (c, event) ∈ h := by
  obtain ⟨ext, rfl, apart⟩ := others
  rcases List.mem_append.mp mem with old | new
  · exact old
  · exact absurd rfl (apart _ new)

theorem Others.quiet (others : Others c h h') (quiet : Quiet h c) : Quiet h' c :=
  ⟨fun _ _ _ mem => quiet.1 _ _ _ (others.own mem), fun _ _ _ mem => quiet.2 _ _ _ (others.own mem)⟩

theorem Others.noChangeRaised (others : Others c h h') (none : NoChangeRaised h c) :
    NoChangeRaised h' c := fun _ _ _ mem => none _ _ _ (others.own mem)

theorem Received.later {key encoded : String} {bytes : Bytes} {id : Value}
    (received : Received h c key encoded bytes id) (sub : ∀ e ∈ h, e ∈ h') :
    Received h' c key encoded bytes id := by
  obtain ⟨call, mem, rest⟩ := received.began
  exact ⟨call, sub _ mem, rest⟩

theorem split_last {A : Type} {l before after : List A} {e x : A}
    (eq : l ++ [e] = before ++ x :: after) :
    (after = [] ∧ x = e ∧ before = l) ∨ ∃ rest, after = rest ++ [e] ∧ l = before ++ x :: rest := by
  rcases List.eq_nil_or_concat after with rfl | ⟨rest, last, rfl⟩
  · obtain ⟨rfl, same⟩ := List.append_inj' eq rfl
    exact Or.inl ⟨rfl, (List.cons.inj same).1.symm, rfl⟩
  · have regrouped : l ++ [e] = (before ++ x :: rest) ++ [last] := by simpa using eq
    obtain ⟨rfl, same⟩ := List.append_inj' regrouped rfl
    obtain rfl := (List.cons.inj same).1
    exact Or.inr ⟨rest, by simp, rfl⟩

theorem Relayable.held {key : String} {bytes update : Bytes}
    (relayable : Relayable y stored h key bytes) (frame : IsDocFrame y bytes update) :
    Durable y stored h key update := by
  rcases relayable with ⟨clients, presence⟩ | ⟨update', frame', held⟩
  · rcases frame with decoded | decoded <;> simp [decoded] at presence
  · exact docFrame_unique frame frame' ▸ held

theorem InOrder.empty : InOrder y stored [] where
  justified _ _ _ _ _ eq := by simp at eq
  ready _ _ _ _ _ eq := by simp at eq
  single _ _ _ mem := by simp at mem

theorem InOrder.did (order : InOrder y stored h) {action : Action}
    (reply : Except String (Reply action)) (owes : Justified y stored c h action) :
    InOrder y stored (h ++ [(c, .did action reply)]) where
  justified before c' action' reply' after eq := by
    rcases split_last eq with ⟨rfl, same, rfl⟩ | ⟨rest, rfl, rfl⟩
    · obtain ⟨rfl, inner⟩ := Prod.mk.inj same
      obtain ⟨rfl, _⟩ := Event.did.inj inner
      exact owes
    · exact order.justified before c' action' reply' rest rfl
  ready before c' key update after eq := by
    rcases split_last eq with ⟨rfl, same, rfl⟩ | ⟨rest, rfl, rfl⟩
    · simp at same
    · exact order.ready before c' key update rest rfl
  single c' call call' mem mem' := by
    simp only [List.mem_append, List.mem_singleton, Prod.mk.injEq, reduceCtorEq, and_false,
      or_false] at mem mem'
    exact order.single c' call call' mem mem'

theorem InOrder.recorded (order : InOrder y stored h) {key : String} {update : Bytes}
    (ready : ∃ content, y.contentOf update = some content ∧
      (durable y stored h key).Ready content) :
    InOrder y stored (h ++ [(c, .recorded key update)]) where
  justified before c' action' reply' after eq := by
    rcases split_last eq with ⟨rfl, same, rfl⟩ | ⟨rest, rfl, rfl⟩
    · simp at same
    · exact order.justified before c' action' reply' rest rfl
  ready before c' key' update' after eq := by
    rcases split_last eq with ⟨rfl, same, rfl⟩ | ⟨rest, rfl, rfl⟩
    · obtain ⟨rfl, inner⟩ := Prod.mk.inj same
      obtain ⟨rfl, rfl⟩ := Event.recorded.inj inner
      exact ready
    · exact order.ready before c' key' update' rest rfl
  single c' call call' mem mem' := by
    simp only [List.mem_append, List.mem_singleton, Prod.mk.injEq, reduceCtorEq, and_false,
      or_false] at mem mem'
    exact order.single c' call call' mem mem'

theorem InOrder.began (order : InOrder y stored h) (fresh : ∀ e ∈ h, e.1 ≠ c) (call : Call) :
    InOrder y stored (h ++ [(c, .began call)]) where
  justified before c' action' reply' after eq := by
    rcases split_last eq with ⟨rfl, same, rfl⟩ | ⟨rest, rfl, rfl⟩
    · simp at same
    · exact order.justified before c' action' reply' rest rfl
  ready before c' key update after eq := by
    rcases split_last eq with ⟨rfl, same, rfl⟩ | ⟨rest, rfl, rfl⟩
    · simp at same
    · exact order.ready before c' key update rest rfl
  single c' call₁ call₂ mem mem' := by
    simp only [List.mem_append, List.mem_singleton, Prod.mk.injEq, Event.began.injEq] at mem mem'
    rcases mem with old | ⟨rfl, rfl⟩ <;> rcases mem' with old' | ⟨same, rfl⟩
    · exact order.single c' call₁ call₂ old old'
    · exact absurd same (fresh _ old)
    · exact absurd rfl (fresh _ old')
    · rfl

theorem durable_did (h : Trace) (c : Nat) (action : Action) (reply : Except String (Reply action))
    (key : String) :
    durable y stored (h ++ [(c, .did action reply)]) key = durable y stored h key := by
  have none : recordedUnder key (c, .did action reply) = none := rfl
  rw [durable, durable, logOf_append, List.filterMap_cons_none none, List.filterMap_nil,
    List.append_nil]

theorem InOrder.serves (order : InOrder y stored h) {action : Action}
    {reply : Except String (Reply action)} (owes : Justified y stored c h action)
    (served : Serves y stored c h action reply h') : InOrder y stored h' := by
  rcases serves_cases served with rfl | ⟨key, update, rfl, rfl⟩
  · exact order.did reply owes
  · have first := order.did reply owes
    have ready := owes.2.1
    rw [← durable_did h c (.onChange key update) reply key] at ready
    have both := first.recorded (c := c) ready
    simpa using both

theorem others_serves {c' : Nat} {action : Action} {reply : Except String (Reply action)}
    (apart : c ≠ c') (served : Serves y stored c' h action reply h') : Others c h h' := by
  rcases serves_cases served with rfl | ⟨key, update, rfl, rfl⟩
  · exact ⟨_, rfl, by simpa using apart.symm⟩
  · exact ⟨_, rfl, by simpa using apart.symm⟩

/-- Facts that a longer history keeps. -/
def Lasting (fact : Trace → Prop) : Prop := ∀ h h', (∀ e ∈ h, e ∈ h') → fact h → fact h'

theorem lasting_received (c : Nat) (key encoded : String) (bytes : Bytes) (id : Value) :
    Lasting (fun h => Received h c key encoded bytes id) :=
  fun _ _ sub received => received.later sub

theorem lasting_began (c : Nat) (call : Call) : Lasting (fun h => (c, .began call) ∈ h) :=
  fun _ _ sub mem => sub _ mem

theorem Lasting.others {fact : Trace → Prop} (lasting : Lasting fact) (others : Others c h h')
    (there : fact h) : fact h' := lasting h h' (fun _ => others.mem) there

def Loaded (y : Yrs) (stored : String → List Bytes) (h : Trace) (c : Nat) (key : String)
    (fact : Trace → Prop) (doc : y.Doc) : Prop :=
  ∃ before state after, h = before ++ (c, .did (.onLoad key) (.ok state)) :: after ∧ fact before ∧
    y.view doc = durable y stored before key

theorem Loaded.others {key : String} {fact : Trace → Prop} {doc : y.Doc} (others : Others c h h')
    (loaded : Loaded y stored h c key fact doc) : Loaded y stored h' c key fact doc := by
  obtain ⟨ext, rfl, _⟩ := others
  obtain ⟨before, state, after, rfl, there, same⟩ := loaded
  exact ⟨before, state, after ++ ext, by simp, there, same⟩

def Relayed (y : Yrs) (stored : String → List Bytes) (h : Trace) (c : Nat) (key encoded : String)
    (update : Bytes) : Prop :=
  ∃ before after, h = before ++
    (c, .did (.broadcast (syncStreamName key) (syncEnvelope encoded)) (.ok ())) :: after ∧
      Durable y stored before key update

theorem Relayed.others {key encoded : String} {update : Bytes} (others : Others c h h')
    (relayed : Relayed y stored h c key encoded update) :
    Relayed y stored h' c key encoded update := by
  obtain ⟨ext, rfl, _⟩ := others
  obtain ⟨before, after, rfl, held⟩ := relayed
  exact ⟨before, after ++ ext, by simp, held⟩

structure Settled (y : Yrs) (stored : String → List Bytes) (h : Trace) (c : Nat)
    (key encoded : String) (bytes : Bytes) (id : Value) (update : Bytes) : Prop where
  received : Received h c key encoded bytes id
  relayed : Relayed y stored h c key encoded update
  unraised : NoChangeRaised h c

theorem Settled.others {key encoded : String} {bytes : Bytes} {id : Value} {update : Bytes}
    (others : Others c h h') (settled : Settled y stored h c key encoded bytes id update) :
    Settled y stored h' c key encoded bytes id update where
  received := settled.received.later fun _ => others.mem
  relayed := settled.relayed.others others
  unraised := others.noChangeRaised settled.unraised

theorem durable_others (laws : y.Laws) {key : String} {update : Bytes} (others : Others c h h')
    (held : Durable y stored h key update) : Durable y stored h' key update := by
  obtain ⟨ext, rfl, _⟩ := others
  exact held.later laws ext

abbrev Keeps (y : Yrs) (stored : String → List Bytes) (c : Nat) {β : Type}
    (post : Trace → β → Prop) (h : Trace) (p : Handler β) : Prop :=
  Safe (host y stored) (discipline y stored) c post h p

theorem keeps_load (key : String)
    {fact : Trace → Prop} (lasting : Lasting fact) (order : InOrder y stored h) (there : fact h)
    (quiet : Quiet h c) :
    Keeps y stored c (fun t doc => Quiet t c ∧ fact t ∧ Loaded y stored t c key fact doc) h
      (syncLoadDoc y key) := by
  apply Safe.bind (fun t state => Quiet t c ∧ fact t ∧ ∀ doc, docOfState y state = .ok doc →
    Loaded y stored t c key fact doc) steady order
  · apply Safe.act
    · exact fun _ _ _ => trivial
    · intro h' state h'' t before _ served _ later _
      obtain ⟨rfl, doc, ok, same⟩ := serves_load served
      have quiet' := before.quiet quiet
      have there' := lasting.others before there
      refine ⟨later.quiet ⟨?_, ?_⟩, lasting.others later ?_, fun doc' ok' => ?_⟩
      · intro stream message reply mem
        exact quiet'.1 stream message reply (by simpa using mem)
      · intro k update e mem
        exact quiet'.2 k update e (by simpa using mem)
      · exact lasting _ _ (fun _ mem => List.mem_append_left _ mem) there'
      · obtain rfl : doc = doc' := Except.ok.inj (ok.symm.trans ok')
        exact Loaded.others later ⟨h', state, [], rfl, there', same⟩
  · intro t state order' mid
    apply Safe.ofExcept
    intro doc t' ok later _
    exact ⟨later.quiet mid.1, lasting.others later mid.2.1, (mid.2.2 doc ok).others later⟩

theorem keeps_transmit {bytes : Bytes}
    (reason : ∀ t, Others c h t → Transmits y stored t c
      (syncEnvelope (Base64.strictEncode64 bytes))) :
    Keeps y stored c (fun _ _ => True) h (syncTransmit bytes) := by
  apply Safe.act
  · exact fun t later _ => reason t later
  · exact fun _ _ _ _ _ _ _ _ _ _ => trivial

theorem keeps_distribute (laws : y.Laws) {key encoded : String} {bytes : Bytes} {id : Value}
    {update : Bytes} (received : Received h c key encoded bytes id)
    (frame : IsDocFrame y bytes update) (held : Durable y stored h key update)
    (unraised : NoChangeRaised h c) :
    Keeps y stored c (fun t _ => Settled y stored t c key encoded bytes id update) h
      (syncDistribute key encoded) := by
  apply Safe.act
  · intro t later _
    exact ⟨⟨key, encoded, bytes, id, received.later fun _ => later.mem, rfl, rfl,
      Or.inr ⟨update, frame, durable_others laws later held⟩⟩, later.noChangeRaised unraised⟩
  · intro t reply t' t'' later _ served _ onward _
    obtain rfl : t' = t ++ [_] := served
    apply Settled.others onward
    refine ⟨?_, ⟨t, [], rfl, durable_others laws later held⟩, ?_⟩
    · exact (received.later fun _ => later.mem).later fun _ mem => List.mem_append_left _ mem
    · intro k u e mem
      exact later.noChangeRaised unraised k u e (by simpa using mem)

theorem durable_recorded (laws : y.Laws) {key : String} {update : Bytes} {u : y.Update}
    (decoded : y.decodeV1 update = .ok u) (ready : (durable y stored h key).Ready (y.content u))
    (reply : Except String Unit) :
    Durable y stored (h ++ [(c, .did (.onChange key update) reply), (c, .recorded key update)]) key
      update := by
  have none : recordedUnder key (c, .did (.onChange key update) reply) = none := rfl
  have entry : recordedUnder key (c, .recorded key update) = some update := by simp [recordedUnder]
  refine ⟨y.content u, contentOf_ok decoded, ?_⟩
  rw [durable, logOf_append, List.filterMap_cons_none none, List.filterMap_cons_some entry,
    List.filterMap_nil]
  exact (replay_content laws _ (contentOf_ok decoded)).ready_contains ready

theorem keeps_record (laws : y.Laws) {key encoded : String} {bytes : Bytes} {id : Value}
    {update : Bytes} {u : y.Update} (received : Received h c key encoded bytes id)
    (frame : IsDocFrame y bytes update) (decoded : y.decodeV1 update = .ok u)
    (ready : (durable y stored h key).Ready (y.content u)) (quiet : Quiet h c) :
    Keeps y stored c (fun t _ => Received t c key encoded bytes id ∧
      Durable y stored t key update ∧ NoChangeRaised t c) h (syncRecordChange key update) := by
  have still : ∀ t, Others c h t → (durable y stored t key).Ready (y.content u) := by
    rintro t ⟨ext, rfl, _⟩
    exact ready_mono (durable_grows laws stored h ext key).1 ready
  apply Safe.act
  · intro t later _
    exact ⟨⟨encoded, bytes, id, received.later fun _ => later.mem, frame⟩,
      ⟨_, contentOf_ok decoded, still t later⟩, later.quiet quiet⟩
  · intro t reply t' t'' later _ served _ onward _
    obtain rfl := (show t' = _ from @serves_change y stored _ _ _ _ _ _ served)
    have there : Received t c key encoded bytes id := received.later fun _ => later.mem
    refine ⟨?_, durable_others laws onward (durable_recorded laws decoded (still t later) _),
      onward.noChangeRaised ?_⟩
    · exact there.later fun e mem => onward.mem (List.mem_append_left _ mem)
    · intro k update' e mem
      exact (later.quiet quiet).2 k update' e (by simpa using mem)

theorem keeps_settling (laws : y.Laws) {key encoded : String} {bytes : Bytes} {id : Value}
    {update : Bytes} (order : InOrder y stored h) (received : Received h c key encoded bytes id)
    (frame : IsDocFrame y bytes update) (held : Durable y stored h key update)
    (unraised : NoChangeRaised h c) (outcome : Outcome) :
    Keeps y stored c (fun t outcome => outcome = .recorded ∨ outcome = .applied →
      Settled y stored t c key encoded bytes id update) h (do
        syncDistribute key encoded
        return outcome) := by
  apply Safe.bind _ steady order (keeps_distribute laws received frame held unraised)
  intro t _ _ settled
  exact Safe.pure fun t' later _ _ => settled.others later

theorem loaded_gap (laws : y.Laws) {update : Bytes} {u : y.Update} {doc : y.Doc} {d : DocState}
    (decoded : y.decodeV1 update = .ok u) (unready : updateIsReady y doc update = .ok false)
    (same : y.view doc = d) : ¬ d.Ready (y.content u) := by
  obtain ⟨verdict, ok, exact⟩ := updateIsReady_eq laws.toRules decoded (triable laws doc _).ready
  obtain rfl : false = verdict := Except.ok.inj (unready.symm.trans ok)
  rw [← same]
  exact fun ready => Bool.noConfusion (exact.mpr ready)

theorem loaded_ready (laws : y.Laws) {key : String} {fact : Trace → Prop} {update : Bytes}
    {u : y.Update} {doc : y.Doc} (decoded : y.decodeV1 update = .ok u)
    (isReady : updateIsReady y doc update = .ok true) (loaded : Loaded y stored h c key fact doc) :
    (durable y stored h key).Ready (y.content u) := by
  obtain ⟨before, state, after, rfl, _, same⟩ := loaded
  obtain ⟨u', decoded', ready⟩ := updateIsReady_true laws isReady
  obtain rfl : u = u' := Except.ok.inj (decoded.symm.trans decoded')
  exact ready_mono (durable_grows laws stored before _ key).1 (same ▸ ready)

theorem loaded_durable (laws : y.Laws) {key : String} {fact : Trace → Prop} {update : Bytes}
    {u : y.Update} {doc : y.Doc} (decoded : y.decodeV1 update = .ok u)
    (isReady : updateIsReady y doc update = .ok true)
    (known : updateAdvancesDoc y doc update = .ok false)
    (loaded : Loaded y stored h c key fact doc) : Durable y stored h key update := by
  obtain ⟨before, state, after, rfl, _, same⟩ := loaded
  obtain ⟨u', advances, decoded', ok, exact⟩ := ready_advances laws isReady
  obtain rfl : u = u' := Except.ok.inj (decoded.symm.trans decoded')
  obtain rfl : false = advances := Except.ok.inj (known.symm.trans ok)
  have there : Durable y stored before key update :=
    ⟨y.content u, contentOf_ok decoded, same ▸ exact.mp rfl⟩
  exact there.later laws _

theorem keeps_update (laws : y.Laws) {key encoded : String} {bytes : Bytes} {id : Value}
    {update : Bytes} {u : y.Update} (order : InOrder y stored h) (received : Received h c key encoded bytes id)
    (frame : IsDocFrame y bytes update) (decoded : y.decodeV1 update = .ok u)
    (quiet : Quiet h c) :
    Keeps y stored c (fun t outcome => outcome = .recorded ∨ outcome = .applied →
      Settled y stored t c key encoded bytes id update) h
      (syncHandleUpdate y key encoded update) := by
  apply Safe.bind _ steady order
    (keeps_load key (lasting_received c key encoded bytes id) order received quiet)
  rintro t doc order ⟨quiet, received, loaded⟩
  apply Safe.bind (fun t' ready => updateIsReady y doc update = .ok ready ∧ Quiet t' c ∧
    Received t' c key encoded bytes id ∧
    Loaded y stored t' c key (fun h => Received h c key encoded bytes id) doc) steady order
  · apply Safe.ofExcept
    intro ready t' ok later _
    exact ⟨ok, later.quiet quiet, received.later fun _ => later.mem, loaded.others later⟩
  rintro t' ready order ⟨isReady, quiet, received, loaded⟩
  cases ready with
  | false =>
    obtain ⟨before, state, after, rfl, received', same⟩ := loaded
    have gap := loaded_gap laws decoded isReady same
    apply Safe.bind (fun _ _ => True) steady order
    · apply keeps_transmit
      rintro t'' ⟨ext, rfl, _⟩
      exact .resync received' frame (List.append_assoc ..) same decoded gap rfl
    · intro t'' _ _ _
      exact Safe.pure fun _ _ _ isOutcome => by simp at isOutcome
  | true =>
    apply Safe.bind (fun t'' advances => updateAdvancesDoc y doc update = .ok advances ∧
      Quiet t'' c ∧ Received t'' c key encoded bytes id ∧
      Loaded y stored t'' c key (fun h => Received h c key encoded bytes id) doc) steady order
    · apply Safe.ofExcept
      intro advances t'' ok later _
      exact ⟨ok, later.quiet quiet, received.later fun _ => later.mem, loaded.others later⟩
    rintro t'' advances order ⟨advance, quiet, received, loaded⟩
    cases advances with
    | false =>
      have held := loaded_durable laws decoded isReady advance loaded
      exact keeps_settling laws order received frame held quiet.2 .applied
    | true =>
      have ready := loaded_ready laws decoded isReady loaded
      apply Safe.bind (fun t _ => Received t c key encoded bytes id ∧
        Durable y stored t key update ∧ NoChangeRaised t c) steady order
      · exact keeps_record laws received frame decoded ready quiet
      rintro t _ order ⟨received, held, unraised⟩
      exact keeps_settling laws order received frame held unraised .recorded

theorem syncValidateKey_ok {self : Instance} {key : String}
    (ok : syncValidateKey self = .ok key) : self.syncKey = some key := by
  unfold syncValidateKey at ok
  split at ok
  · rename_i key' named
    split at ok
    · simp at ok
    · rw [named, Except.ok.inj ok]
  · simp at ok

def Ackable (y : Yrs) (stored : String → List Bytes) (c : Nat) (encoded : String) (bytes : Bytes)
    (id : Value) (h : Trace) (outcome : Outcome) : Prop :=
  outcome = .recorded ∨ outcome = .applied → ∃ key update, IsDocFrame y bytes update ∧
    Settled y stored h c key encoded bytes id update

theorem keeps_noop {encoded : String} {bytes : Bytes} {id : Value} :
    Keeps y stored c (Ackable y stored c encoded bytes id) h (pure .noop) :=
  Safe.pure fun _ _ _ acked => by simp at acked

theorem keeps_syncStep1 {key encoded : String} {bytes : Bytes} {id : Value} {sv : StateVector}
    (order : InOrder y stored h) (received : Received h c key encoded bytes id)
    (asked : y.messageDecode bytes = .ok (.sync (.syncStep1 sv), [])) (quiet : Quiet h c) :
    Keeps y stored c (Ackable y stored c encoded bytes id) h (do
      let doc ← syncLoadDoc y key
      let result ← Program.ofExcept (handleSyncMessage y doc bytes).2
      syncTransmit result.2.2
      return .noop) := by
  apply Safe.bind _ steady order (keeps_load key
    (lasting_received c key encoded bytes id) order received quiet)
  rintro t doc order ⟨_, _, loaded⟩
  apply Safe.bind (fun t result => (handleSyncMessage y doc bytes).2 = .ok result ∧
    Loaded y stored t c key (fun h => Received h c key encoded bytes id) doc) steady order
  · exact Safe.ofExcept fun result t' ok later _ => ⟨ok, loaded.others later⟩
  rintro t result order ⟨ok, loaded⟩
  apply Safe.bind (fun _ _ => True) steady order
  · apply keeps_transmit
    intro t' later
    obtain ⟨before, state, after, split, received', same⟩ := loaded.others later
    simp only [handleSyncMessage, asked] at ok
    cases integrated : integratedUpdate y doc sv with
    | error e => simp [integrated, Except.map] at ok
    | ok served =>
      obtain rfl := Except.ok.inj ((integrated ▸ ok : Except.map _ (Except.ok served) = _))
      exact .answer received' asked split same integrated rfl
  · exact fun _ _ _ _ => keeps_noop

theorem keeps_frame (laws : y.Laws) (self : Instance) {call : Call} {encoded : String}
    {bytes : Bytes} (order : InOrder y stored h) (began : (c, .began call) ∈ h)
    (carries : call.Carries encoded bytes) (named : call.key = self.syncKey) (quiet : Quiet h c) :
    Keeps y stored c (Ackable y stored c encoded bytes call.id) h
      (syncHandleFrame y self encoded bytes) := by
  apply Safe.bind (fun t _ => (c, .began call) ∈ t ∧ Quiet t c) steady order
  · exact Safe.ofExcept fun _ t _ later _ => ⟨later.mem began, later.quiet quiet⟩
  rintro t _ order ⟨began, quiet⟩
  apply Safe.bind (fun t key => Received t c key encoded bytes call.id ∧ Quiet t c)
    steady order
  · apply Safe.ofExcept
    intro key t' ok later _
    exact ⟨⟨call, later.mem began, carries, named.trans (syncValidateKey_ok ok), rfl⟩,
      later.quiet quiet⟩
  rintro t key order ⟨received, quiet⟩
  dsimp only
  split
  · rename_i kind
    obtain ⟨sv, asked⟩ := classifyMessage_syncStep1 kind
    exact keeps_syncStep1 order received asked quiet
  · split
    · rename_i kind
      obtain ⟨update, frame⟩ := classifyMessage_update kind
      apply Safe.bind (fun t merged => mergedDocUpdate y bytes = .ok merged ∧
        Received t c key encoded bytes call.id ∧ Quiet t c) steady order
      · exact Safe.ofExcept fun merged t' ok later _ =>
          ⟨ok, received.later fun _ => later.mem, later.quiet quiet⟩
      rintro t merged order ⟨ok, received, quiet⟩
      obtain ⟨u, decoded, rfl | rfl⟩ := mergedDocUpdate_docFrame laws.toRules frame ok
      · apply (keeps_update laws order received frame decoded quiet).weaken
        exact fun t outcome _ settled acked => ⟨key, update, frame, settled acked⟩
      · exact keeps_noop
    · split
      · rename_i kind
        obtain ⟨clients, presence⟩ := classifyMessage_awareness kind
        apply Safe.bind (fun _ _ => True) steady order
        · apply Safe.act
          · intro t' later _
            exact ⟨⟨key, encoded, bytes, call.id, received.later fun _ => later.mem, rfl, rfl,
              Or.inl ⟨clients, presence⟩⟩, later.noChangeRaised quiet.2⟩
          · exact fun _ _ _ _ _ _ _ _ _ _ => trivial
        · exact fun _ _ _ _ => keeps_noop
      · exact keeps_noop

theorem keeps_log {level : Level} {reason : String} {id : Value} :
    Keeps y stored c (fun _ _ => True) h (Program.act (Action.logDrop level reason id)) :=
  Safe.act (fun _ _ _ => trivial) fun _ _ _ _ _ _ _ _ _ _ => trivial

theorem keeps_ack {encoded : String} {bytes : Bytes} {id : Value} {outcome : Outcome}
    (ackable : Ackable y stored c encoded bytes id h outcome) :
    Keeps y stored c (fun _ _ => True) h (syncSendAck id outcome) := by
  unfold syncSendAck
  split
  · exact Safe.pure fun _ _ _ => trivial
  · split
    · rename_i acked
      obtain ⟨key, update, frame, settled⟩ := ackable acked
      apply Safe.act
      · intro t later _
        obtain ⟨received, ⟨before, after, split, held⟩, unraised⟩ := settled.others later
        exact .ack received frame rfl split held unraised
      · exact fun _ _ _ _ _ _ _ _ _ _ => trivial
    · exact Safe.pure fun _ _ _ => trivial

theorem keeps_receive (laws : y.Laws) {call : Call} {data : Value} {key : Option String}
    (order : InOrder y stored h) (began : (c, .began call) ∈ h)
    (request : call.request = .receive data key) (quiet : Quiet h c) :
    Keeps y stored c (fun _ _ => True) h (syncReceive y call.channel data key) := by
  unfold syncReceive
  dsimp only
  split
  · rename_i encoded carried
    split
    · exact keeps_log
    · split
      · exact keeps_log
      · rename_i bytes decoded
        split
        · exact keeps_log
        · have carries : call.Carries encoded bytes := ⟨data, key, request, carried, decoded⟩
          have id : call.id = data.fetch "id" := by simp [Call.id, request]
          have framed := keeps_frame laws { call.channel with
            syncKey := key.or call.channel.syncKey } order began carries
            (by simp [Call.key, request]) quiet
          apply Safe.bind _ steady order framed
          intro t outcome _ ackable
          rw [id] at ackable
          exact keeps_ack ackable
  · exact Safe.pure fun _ _ _ => trivial

theorem keeps_stream {call : Call} {name : String} {whisper : Bool} (began : (c, .began call) ∈ h)
    (quiet : Quiet h c) : Keeps y stored c (fun t _ => (c, .began call) ∈ t ∧ Quiet t c) h
      (Program.act (Action.streamFrom name whisper)) := by
  apply Safe.act
  · exact fun _ _ _ => trivial
  · intro t reply t' t'' later _ served _ onward _
    obtain rfl : t' = t ++ [_] := served
    refine ⟨onward.mem (List.mem_append_left _ (later.mem began)), onward.quiet ⟨?_, ?_⟩⟩
    · intro stream message r mem
      exact (later.quiet quiet).1 stream message r (by simpa using mem)
    · intro k update e mem
      exact (later.quiet quiet).2 k update e (by simpa using mem)

theorem keeps_opening {call : Call} {key : String} (order : InOrder y stored h)
    (began : (c, .began call) ∈ h) (request : call.request = .subscribed key) (quiet : Quiet h c) :
    Keeps y stored c (fun _ _ => True) h (do
      let doc ← syncLoadDoc y key
      syncTransmit (syncStep1 y doc)) := by
  apply Safe.bind _ steady order (keeps_load key (lasting_began c call) order began quiet)
  rintro t doc _ ⟨_, _, loaded⟩
  apply keeps_transmit
  intro t' later
  obtain ⟨before, state, after, split, began', same⟩ := loaded.others later
  exact .opening began' request split same rfl

theorem keeps_subscribed {call : Call} {key : String} (order : InOrder y stored h)
    (began : (c, .began call) ∈ h) (request : call.request = .subscribed key) (quiet : Quiet h c) :
    Keeps y stored c (fun _ _ => True) h (syncSubscribed y call.channel key) := by
  apply Safe.bind (fun t _ => (c, .began call) ∈ t ∧ Quiet t c) steady order
  · exact Safe.ofExcept fun _ t _ later _ => ⟨later.mem began, later.quiet quiet⟩
  rintro t _ order ⟨began, quiet⟩
  apply Safe.bind _ steady order (keeps_stream began quiet)
  rintro t _ order ⟨began, quiet⟩
  split
  · apply Safe.bind _ steady order (keeps_stream began quiet)
    rintro t _ order ⟨began, quiet⟩
    exact keeps_opening order began request quiet
  · exact keeps_opening order began request quiet

theorem sound (laws : y.Laws) : Sound (host y stored) (discipline y stored) where
  toSteady := steady
  others_serve _ _ _ _ _ _ apart served := others_serves apart served
  others_start c c' s p s' apart started := by
    obtain ⟨call, _, _, rfl⟩ := started
    exact ⟨_, rfl, by simpa using apart.symm⟩
  serve_holds _ _ _ _ _ order owes served := InOrder.serves order owes served
  start_holds c s p s' order started := by
    obtain ⟨call, _, fresh, rfl⟩ := started
    exact InOrder.began order fresh call
  start_safe c s p s' _ started order := by
    obtain ⟨call, rfl, fresh, rfl⟩ := started
    have began : (c, Event.began call) ∈ s ++ [(c, .began call)] := by simp
    have quiet : Quiet (s ++ [(c, .began call)]) c := by
      constructor
      · intro stream message reply mem
        exact absurd rfl (fresh _ (by simpa using mem))
      · intro key update e mem
        exact absurd rfl (fresh _ (by simpa using mem))
    unfold Call.program
    split
    · rename_i key request
      exact keeps_subscribed order began request quiet
    · rename_i data key request
      exact keeps_receive laws order began request quiet

/-- In every history a server can reach, every action was justified. -/
theorem reached_inOrder (laws : y.Laws) {server : Server} (reached : Reached y stored server) :
    InOrder y stored server.world :=
  have initial : Orderly (host y stored) (discipline y stored) (Pool.initial []) :=
    Orderly.initial InOrder.empty
  (initial.run (sound laws) reached).holds

theorem InOrder.transmitted {h before after : Trace} {c : Nat} {message : Value}
    {reply : Except String Unit} (order : InOrder y stored h)
    (eq : h = before ++ (c, .did (.transmit message) reply) :: after) :
    Transmits y stored before c message := order.justified _ _ _ _ _ eq

theorem InOrder.distributed {h before after : Trace} {c : Nat} {stream : String} {message : Value}
    {reply : Except String Unit} (order : InOrder y stored h)
    (eq : h = before ++ (c, .did (.broadcast stream message) reply) :: after) :
    (∃ key encoded bytes id, Received before c key encoded bytes id ∧
      stream = syncStreamName key ∧ message = syncEnvelope encoded ∧
      Relayable y stored before key bytes) ∧ NoChangeRaised before c := order.justified _ _ _ _ _ eq

theorem InOrder.changed {h before after : Trace} {c : Nat} {key : String} {update : Bytes}
    {reply : Except String Unit} (order : InOrder y stored h)
    (eq : h = before ++ (c, .did (.onChange key update) reply) :: after) : Quiet before c :=
  (order.justified _ _ _ _ _ eq).2.2

end Yrby.DurableLog
