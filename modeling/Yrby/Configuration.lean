import Mathlib.Data.List.Induction
import Yrby.Calls
import Yrby.Effects.Refines

/- What a channel class was told (Sync::ClassMethods), and what an instance keeps of it
   between calls. Hooks and cap are looked up along the superclasses; the key is kept by
   the instance, or handed over with each message where nothing is kept. -/
namespace Yrby.Configuration
open Effects Channel History Calls

variable {C Block V : Type}

/- The variables of a class itself, none where undefined -/
structure ClassVars (Block : Type) where
  onLoad : Option Block
  onChange : Option Block
  maxFrameBytes : Option (Option Nat)

abbrev Classes (C Block : Type) := C → ClassVars Block

/- Its own variable if it is set, else what the superclass says. The chain is the class and
   its superclasses, as far up as they respond. -/
def inherited (read : ClassVars Block → Option V) (classes : Classes C Block) : List C → Option V
  | [] => none
  | self :: superclasses =>
    match read (classes self) with
    | some value => some value
    | none => inherited read classes superclasses

def onLoad (classes : Classes C Block) (chain : List C) : Option Block :=
  inherited ClassVars.onLoad classes chain

def onChange (classes : Classes C Block) (chain : List C) : Option Block :=
  inherited ClassVars.onChange classes chain

def maxFrameBytes (classes : Classes C Block) (chain : List C) : Option Nat :=
  (inherited ClassVars.maxFrameBytes classes chain).getD (some defaultMaxFrameBytes)

def instanceOf (classes : Classes C Block) (chain : List C) (syncKey : Option String)
    (respondsToWhispersTo : Bool) : Instance where
  syncKey := syncKey
  onLoad := (onLoad classes chain).isSome
  onChange := (onChange classes chain).isSome
  maxFrameBytes := maxFrameBytes classes chain
  respondsToWhispersTo := respondsToWhispersTo

theorem inherited_nearest {read : ClassVars Block → Option V} {told : C → Option V}
    {classes : Classes C Block} (own : ∀ self, read (classes self) = told self) (chain : List C) :
    inherited read classes chain = chain.findSome? told := by
  induction chain with
  | nil => rfl
  | cons self superclasses ih =>
    rw [inherited, ih, own, List.findSome?_cons]
    cases told self <;> rfl

variable [DecidableEq C]

/- A call of a class method. on_load and on_change may come without a block. -/
inductive Declaration (Block : Type) where
  | onLoad (block : Option Block)
  | onChange (block : Option Block)
  | maxFrameBytes (bytes : Option Nat)

/- A block replaces the one before; no block leaves it. nil is a cap like any other. -/
def declare (classes : Classes C Block) (self : C) : Declaration Block → Classes C Block
  | .onLoad block =>
    Function.update classes self { classes self with onLoad := block.or (classes self).onLoad }
  | .onChange block =>
    Function.update classes self { classes self with onChange := block.or (classes self).onChange }
  | .maxFrameBytes bytes =>
    Function.update classes self { classes self with maxFrameBytes := some bytes }

def undeclared : Classes C Block := fun _ => ⟨none, none, none⟩

def configured (history : List (C × Declaration Block)) : Classes C Block :=
  history.foldl (fun classes d => declare classes d.1 d.2) undeclared

def loads : Declaration Block → Option Block
  | .onLoad block => block
  | _ => none

def changes : Declaration Block → Option Block
  | .onChange block => block
  | _ => none

def caps : Declaration Block → Option (Option Nat)
  | .maxFrameBytes bytes => some bytes
  | _ => none

/-- What a class was told last, by itself and not through a superclass. -/
def toldLast (pick : Declaration Block → Option V) (history : List (C × Declaration Block))
    (self : C) : Option V :=
  (history.filterMap fun d => if d.1 = self then pick d.2 else none).getLast?

theorem toldLast_append (pick : Declaration Block → Option V)
    (history : List (C × Declaration Block)) (d : C × Declaration Block) (self : C) :
    toldLast pick (history ++ [d]) self =
      if d.1 = self then (pick d.2).or (toldLast pick history self)
      else toldLast pick history self := by
  unfold toldLast
  rw [List.filterMap_append]
  by_cases own : d.1 = self
  · cases told : pick d.2 with
    | none => simp [own, told]
    | some value => simp [own, told]
  · simp [own]

theorem configured_told (history : List (C × Declaration Block)) (self : C) :
    configured history self = ⟨toldLast loads history self, toldLast changes history self,
      toldLast caps history self⟩ := by
  induction history using List.reverseRecOn with
  | nil => rfl
  | append_singleton history d ih =>
    obtain ⟨cls, declaration⟩ := d
    have stepped : configured (history ++ [(cls, declaration)]) =
        declare (configured history) cls declaration := by simp [configured]
    rw [stepped, toldLast_append, toldLast_append, toldLast_append]
    by_cases own : cls = self
    · subst own
      cases declaration <;> simp [declare, ih, loads, changes, caps]
    · have other : ∀ vars : ClassVars Block,
          Function.update (configured history) cls vars self = configured history self :=
        fun vars => Function.update_of_ne (Ne.symm own) ..
      cases declaration <;> simp [declare, other, own, ih]

theorem toldLast_mem {pick : Declaration Block → Option V} {history : List (C × Declaration Block)}
    {self : C} {value : V} (told : toldLast pick history self = some value) :
    ∃ declaration, (self, declaration) ∈ history ∧ pick declaration = some value := by
  have listed := List.mem_of_getLast? told
  obtain ⟨⟨cls, declaration⟩, mem, picked⟩ := List.mem_filterMap.mp listed
  by_cases own : cls = self
  · subst own
    rw [if_pos rfl] at picked
    exact ⟨declaration, mem, picked⟩
  · rw [if_neg own] at picked
    cases picked

theorem inherited_given {read : ClassVars Block → Option V} {pick : Declaration Block → Option V}
    {history : List (C × Declaration Block)}
    (own : ∀ self, read (configured history self) = toldLast pick history self) {chain : List C}
    (has : (inherited read (configured history) chain).isSome = true) :
    ∃ cls ∈ chain, ∃ declaration, (cls, declaration) ∈ history ∧ (pick declaration).isSome = true := by
  obtain ⟨value, found⟩ := Option.isSome_iff_exists.mp has
  rw [inherited_nearest own] at found
  obtain ⟨cls, mem, told⟩ := List.exists_of_findSome?_eq_some found
  obtain ⟨declaration, given, picked⟩ := toldLast_mem told
  exact ⟨cls, mem, declaration, given, by rw [picked]; rfl⟩

variable {y : Yrs} {stored : String → List Document.Bytes}

/-- What a call may do: log what it drops, or anything where both hooks are there and the
    frame is within the cap. -/
def May (call : Call) (action : Action) : Prop :=
  (∃ level reason id, action = .logDrop level reason id) ∨
    (call.channel.onLoad = true ∧ call.channel.onChange = true ∧
      ∀ encoded bytes, call.Carries encoded bytes → exceedsDecoded call.channel bytes = false)

theorem hooks_there {self : Instance} (valid : syncValidateRequiredHooks self = .ok ()) :
    self.onLoad = true ∧ self.onChange = true := by
  unfold syncValidateRequiredHooks at valid
  cases onLoad : self.onLoad <;> cases onChange : self.onChange <;> simp [onLoad, onChange] at valid
  exact ⟨rfl, rfl⟩

theorem program_may (call : Call) : (call.program y).Only (May call) := by
  have unlocked : ∀ {α : Type} (p : Handler α), syncValidateRequiredHooks call.channel = .ok () →
      (∀ encoded bytes, call.Carries encoded bytes → exceedsDecoded call.channel bytes = false) →
      p.Only (May call) := by
    intro α p valid within
    have hooks := hooks_there valid
    exact Program.only_of_all (fun action => Or.inr ⟨hooks.1, hooks.2, within⟩) p
  cases request : call.request with
  | subscribed key =>
    have uncarried : ∀ encoded bytes, ¬ call.Carries encoded bytes := by
      rintro encoded bytes ⟨data, named, received, _⟩
      cases request.symm.trans received
    rw [Call.program, request]
    apply Program.only_checked
    intro _ valid
    exact unlocked _ valid fun encoded bytes carries => absurd carries (uncarried encoded bytes)
  | receive data named =>
    by_cases read : ∃ encoded bytes, Reads call encoded bytes
    · obtain ⟨encoded, bytes, reads⟩ := read
      have within : ∀ encoded' bytes', call.Carries encoded' bytes' →
          exceedsDecoded call.channel bytes' = false := by
        rintro encoded' bytes' ⟨data', named', received, carried, decoded⟩
        obtain ⟨data'', named'', received', carried', decoded'⟩ := reads.carries
        obtain ⟨rfl, _⟩ := Request.receive.inj (received.symm.trans received')
        obtain rfl := Value.str.inj (carried.symm.trans carried')
        obtain rfl := Option.some.inj (decoded.symm.trans decoded')
        exact reads.small
      rw [program_reads reads]
      cases valid : syncValidateRequiredHooks (keyed call) with
      | error e =>
        have raised : syncHandleFrame y (keyed call) encoded bytes = Program.raise e := by
          rw [syncHandleFrame, valid]
          rfl
        rw [raised]
        trivial
      | ok _ => exact unlocked _ valid within
    · rcases program_drops request fun encoded bytes reads => read ⟨encoded, bytes, reads⟩ with
        nothing | ⟨level, reason, id, logged⟩
      · rw [nothing]
        exact Program.only_pure _
      · rw [logged]
        exact Program.only_act (Or.inl ⟨level, reason, id, rfl⟩)

variable {server : Server} {c : Nat} {call : Call} {history : List (C × Declaration Block)}
  {chain : List C} {syncKey : Option String} {respondsToWhispersTo : Bool}

/-- A channel acts as its class was told. In every run of the server, whatever was declared on
    which class in which order: a call that does more than log a drop is one of a class that
    was given both hooks, itself or through its superclasses, and the frame it carries is
    within the cap that the nearest of these named last, if that is not nil. -/
theorem acts_as_told (reached : Reached y stored server) (began : (c, .began call) ∈ server.world)
    (of : call.channel = instanceOf (configured history) chain syncKey respondsToWhispersTo)
    {action : Action} {reply : Except String (Reply action)}
    (did : (c, .did action reply) ∈ server.world) :
    (∃ level reason id, action = .logDrop level reason id) ∨
      ((∃ cls ∈ chain, ∃ declaration, (cls, declaration) ∈ history ∧ (loads declaration).isSome = true) ∧
        (∃ cls ∈ chain, ∃ declaration, (cls, declaration) ∈ history ∧
          (changes declaration).isSome = true) ∧
        ∀ encoded bytes, call.Carries encoded bytes → ∀ cap,
          (chain.findSome? (toldLast caps history)).getD (some defaultMaxFrameBytes) = some cap →
          bytes.length ≤ cap) := by
  rcases reached_only program_may reached began did with logged | ⟨loads, changes, within⟩
  · exact Or.inl logged
  · right
    rw [of] at loads changes
    refine ⟨inherited_given (fun self => by rw [configured_told]) loads,
      inherited_given (fun self => by rw [configured_told]) changes, ?_⟩
    intro encoded bytes carries cap named
    have small := within encoded bytes carries
    have same : call.channel.maxFrameBytes = some cap := by
      rw [of, ← named, instanceOf, maxFrameBytes, inherited_nearest fun self => by rw [configured_told]]
    simpa [exceedsDecoded, same] using small

def family : List (Nat × Declaration Nat) :=
  [(0, .onLoad (some 7)), (1, .maxFrameBytes none), (0, .onChange (some 8)), (0, .onLoad none)]

def joining : Call := ⟨0, instanceOf (configured family) [1, 0] none false, .subscribed "doc"⟩

theorem joining_told : (∃ cls ∈ [1, 0], ∃ declaration, (cls, declaration) ∈ family ∧
      (loads declaration).isSome = true) ∧
    ∃ cls ∈ [1, 0], ∃ declaration, (cls, declaration) ∈ family ∧ (changes declaration).isSome = true := by
  obtain ⟨tasks, reached, _⟩ := @reached_handled _ (fun _ => []) Reference.crate_laws (Pool.initial [])
    Relation.ReflTransGen.refl 0 joining rfl (by simp [Pool.initial])
  have trace : handled Reference.crate (fun _ => []) 0 joining [] = [(0, .began joining),
      (0, .did (.streamFrom (syncStreamName "doc") false) (.ok ())),
      (0, .did (.onLoad "doc") (.ok none)),
      (0, .did (.transmit (syncEnvelope (Base64.strictEncode64
        (Protocol.syncStep1 Reference.crate Reference.crate.newDoc)))) (.ok ()))] := by rfl
  have streams : (0, Event.did (.streamFrom (syncStreamName "doc") false) (.ok ())) ∈
      handled Reference.crate (fun _ => []) 0 joining [] := by
    rw [trace]
    simp
  have began : (0, Event.began joining) ∈ handled Reference.crate (fun _ => []) 0 joining [] := by
    rw [trace]
    simp
  rcases acts_as_told reached began rfl streams with ⟨_, _, _, dropped⟩ | ⟨loads, changes, _⟩
  · cases dropped
  · exact ⟨loads, changes⟩

/- What an instance keeps of a request for the next one -/
def keep (self : Instance) : Request → Instance
  | .subscribed key => { self with syncKey := some key }
  | .receive _ key => { self with syncKey := key.or self.syncKey }

def onOne (connection : Nat) : Instance → List Request → List Call
  | _, [] => []
  | self, request :: rest => ⟨connection, self, request⟩ :: onOne connection (keep self request) rest

/-- The call on an instance that kept nothing, handed the key with its message. -/
def handing (call : Call) : Call where
  connection := call.connection
  channel := { call.channel with syncKey := none }
  request := match call.request with
    | .subscribed key => .subscribed key
    | .receive data key => .receive data (key.or call.channel.syncKey)

def handingOver (e : Nat × Event) : Nat × Event :=
  match e.2 with
  | .began call => (e.1, .began (handing call))
  | _ => e

theorem handing_program (call : Call) : (handing call).program y = call.program y := by
  obtain ⟨connection, channel, request⟩ := call
  cases request with
  | subscribed key => rfl
  | receive data key =>
    cases key with
    | some key => rfl
    | none =>
      obtain ⟨syncKey, onLoad, onChange, maxFrameBytes, respondsToWhispersTo⟩ := channel
      cases syncKey <;> rfl

theorem handing_recorded (e : Nat × Event) (key : String) :
    recordedUnder key (handingOver e) = recordedUnder key e := by
  obtain ⟨c, event⟩ := e
  cases event <;> rfl

theorem handing_log (h : Trace) (key : String) :
    logOf stored (h.map handingOver) key = logOf stored h key := by
  have same : recordedUnder key ∘ handingOver = recordedUnder key :=
    funext fun e => handing_recorded e key
  rw [logOf, logOf, List.filterMap_map, same]

theorem handing_did (action : Action) (reply : Except String (Reply action)) :
    handingOver (c, .did action reply) = (c, .did action reply) := rfl

theorem handing_refines : Refines (host y stored) (host y stored) (List.map handingOver)
    (fun _ => True) fun _ => True where
  serve c h action reply h' _ _ served := by
    refine ⟨trivial, ?_⟩
    have durable : ∀ key, durable y stored (h.map handingOver) key = durable y stored h key := by
      intro key
      rw [History.durable, History.durable, handing_log]
    have alone : ∀ {action : Action} {reply : Except String (Reply action)},
        h' = h ++ [(c, .did action reply)] →
        h'.map handingOver = h.map handingOver ++ [(c, .did action reply)] := by
      rintro action reply rfl
      simp [handing_did]
    cases action with
    | onLoad key =>
      cases reply with
      | ok state =>
        obtain ⟨grown, doc, read, view⟩ := served
        exact ⟨alone grown, doc, read, view.trans (durable key).symm⟩
      | error e => exact alone served
    | onChange key update =>
      cases reply with
      | ok reply =>
        have grown : h' = h ++ [(c, .did (.onChange key update) (.ok reply)), (c, .recorded key update)] :=
          served
        have both : h'.map handingOver = h.map handingOver ++
            [(c, .did (.onChange key update) (.ok reply)), (c, .recorded key update)] := by
          rw [grown]
          simp [handingOver]
        exact both
      | error e =>
        rcases served with only | both
        · exact Or.inl (alone only)
        · right
          rw [both]
          simp [handingOver]
    | _ => exact alone served
  start c h p h' _ _ started := by
    obtain ⟨call, program, fresh, rfl⟩ := started
    refine ⟨trivial, handing call, program.trans (handing_program call).symm, ?_, by simp [handingOver]⟩
    intro e mem
    obtain ⟨e', mem', rfl⟩ := List.mem_map.mp mem
    have own := fresh e' mem'
    obtain ⟨c', event⟩ := e'
    cases event <;> exact own
  serve_fits _ _ _ _ _ _ _ := trivial
  start_fits _ _ _ _ _ _ := trivial

theorem onOne_handing (connection : Nat) (self : Instance) (key : String) (messages : List Value) :
    (onOne connection self (.subscribed key :: messages.map (.receive · none))).map handing =
      (.subscribed key :: messages.map (.receive · (some key))).map fun request =>
        ⟨connection, { self with syncKey := none }, request⟩ := by
  have receives : ∀ kept : Instance, kept.syncKey = some key →
      (onOne connection kept (messages.map (.receive · none))).map handing =
        (messages.map (.receive · (some key))).map fun request =>
          ⟨connection, { kept with syncKey := none }, request⟩ := by
    induction messages with
    | nil => exact fun _ _ => rfl
    | cons message rest ih =>
      intro kept under
      have still : keep kept (.receive message none) = kept := by simp [keep]
      simp only [List.map_cons, onOne, still, ih kept under]
      simp [handing, under]
  simp only [onOne, List.map_cons, receives (keep self (.subscribed key)) rfl]
  rfl

/-- It makes no difference whether the transport keeps an instance between calls. Every run of
    calls on instances that keep their key is, action by action, one of calls on instances that
    keep nothing and are handed the key, over the same logs; and the calls that a subscription
    under a key and messages without one make on one instance are handed just that key. -/
theorem handed_key_suffices (reached : Reached y stored server) :
    Reached y stored ⟨server.world.map handingOver, server.tasks⟩ ∧
    (∀ c call, (c, .began call) ∈ server.world.map handingOver → call.channel.syncKey = none) ∧
    (∀ key, logOf stored (server.world.map handingOver) key = logOf stored server.world key) ∧
    ∀ (connection : Nat) (self : Instance) (key : String) (messages : List Value),
      (onOne connection self (.subscribed key :: messages.map (.receive · none))).map handing =
        (.subscribed key :: messages.map (.receive · (some key))).map fun request =>
          ⟨connection, { self with syncKey := none }, request⟩ := by
  refine ⟨(handing_refines.run reached trivial trivial).2, ?_, handing_log _, onOne_handing⟩
  intro c call mem
  obtain ⟨⟨c', event⟩, _, same⟩ := List.mem_map.mp mem
  cases event with
  | began call' =>
    obtain ⟨_, is⟩ := Prod.mk.inj same
    rw [← Event.began.inj is]
    rfl
  | did _ _ => cases (Prod.mk.inj same).2
  | recorded _ _ => cases (Prod.mk.inj same).2

def conversing : List Call :=
  onOne 0 (instanceOf (configured family) [1, 0] none false) [.subscribed "doc",
    .receive (.obj [("update", .str (Base64.toBase64 (Wire.syncFrame 2
      (Reference.encodeDelta ⟨[Reference.typed 1 0 none], []⟩)))), ("id", .int 1)]) none]

theorem conversing_handed : ∃ tasks, Reached Reference.crate (fun _ => [])
      ⟨(inTurn Reference.crate (fun _ => []) 0 conversing []).map handingOver, tasks⟩ ∧
    logOf (fun _ => []) ((inTurn Reference.crate (fun _ => []) 0 conversing []).map handingOver) "doc" =
      [Reference.encodeDelta ⟨[Reference.typed 1 0 none], []⟩] := by
  obtain ⟨tasks, reached⟩ := @reached_inTurn _ (fun _ => []) Reference.crate_laws conversing
    (Pool.initial []) 0 Relation.ReflTransGen.refl (by simp [Pool.initial]) fun _ _ => rfl
  obtain ⟨handed, _, logs, _⟩ := handed_key_suffices reached
  have recorded : logOf (fun _ => []) (inTurn Reference.crate (fun _ => []) 0 conversing []) "doc" =
      [Reference.encodeDelta ⟨[Reference.typed 1 0 none], []⟩] := by decide +kernel
  exact ⟨tasks, handed, (logs "doc").trans recorded⟩

end Yrby.Configuration
