import Yrby.Effects.Turns
import Yrby.Faults
import Yrby.Recording

/- The log when calls do not overlap: what on_change is handed is news to the log as
   it is then, and a frame that was recorded before is answered without an entry. -/
namespace Yrby.ExactlyOnce
open Causal Document Wire Yrs Protocol Serving Readiness Effects Channel History Calls
open DurableLog (split_last durable_did reached_inOrder syncValidateKey_ok)

/-- A block or a deletion of c that d has neither integrated nor parked. -/
def Lacks (d : DocState) (c : Content) : Prop :=
  (∃ b ∈ c.blocks, b.id ∉ d.ids ∧ b ∉ d.parked) ∨
    ∃ i ∈ c.deletes, i ∉ d.deletes ∧ i ∉ d.parkedDeletes

variable (y : Yrs) (stored : String → List Bytes)

def Lacking (h : Trace) (key : String) (update : Bytes) : Prop :=
  ∃ content, y.contentOf update = some content ∧ Lacks (durable y stored h key) content

/-- Whatever reached on_change, or the log, was news to the log before it. -/
structure Once (h : Trace) : Prop where
  changed : ∀ before c key update reply after,
    h = before ++ (c, .did (.onChange key update) reply) :: after → Lacking y stored before key update
  recorded : ∀ before c key update after, h = before ++ (c, .recorded key update) :: after →
    Lacking y stored before key update ∧ ∃ reply, (c, .did (.onChange key update) reply) ∈ before
  fresh : ∀ before c call after, h = before ++ (c, .began call) :: after → ∀ e ∈ before, e.1 ≠ c

def owes (h : Trace) : Action → Prop
  | .onChange key update => Lacking y stored h key update
  | _ => True

/- Nobody else acts between two actions of a call. -/
def turning : Discipline Action Nat Trace where
  rely _ h h' := h' = h
  owes _ h action := owes y stored h action
  holds := Once y stored

variable {y stored} {h h' : Trace} {c : Nat} {d : DocState} {content : Content}

/- Ready content with news has news that is not even parked: what can be integrated
   first of it, or a deletion of what is there. -/
theorem lacks_of_ready (ready : d.Ready content) (news : ¬ d.Contains content) : Lacks d content := by
  by_cases first : ∃ b ∈ content.blocks, Met d.ids b ∧ b.id ∉ d.ids
  · obtain ⟨b, mem, met, absent⟩ := first
    exact .inl ⟨b, mem, absent, fun parked => d.parked_inert b parked met⟩
  · have closed : closure d.ids content.blocks ⊆ d.ids := by
      apply closure_min subset_rfl
      intro b mem met
      by_contra absent
      exact first ⟨b, mem, met, absent⟩
    have blocks : keys content.blocks ⊆ d.ids := by
      rintro i ⟨b, mem, rfl⟩
      exact closed (closure_step mem (ready.1 b mem))
    obtain ⟨i, mem, absent⟩ : ∃ i ∈ content.deletes, i ∉ d.deletes := by
      by_contra none
      push Not at none
      exact news ⟨blocks, none⟩
    exact .inr ⟨i, mem, absent, fun parked => d.parkedDeletes_outside i parked (closed (ready.2 mem))⟩

theorem Lacks.news (lacks : Lacks d content) : ¬ d.Contains content := by
  rintro ⟨blocks, deletes⟩
  rcases lacks with ⟨b, mem, absent, _⟩ | ⟨i, mem, absent, _⟩
  · exact absent (blocks ⟨b, mem, rfl⟩)
  · exact absent (deletes mem)

theorem Once.empty : Once y stored [] where
  changed _ _ _ _ _ _ eq := by simp at eq
  recorded _ _ _ _ _ eq := by simp at eq
  fresh _ _ _ _ eq := by simp at eq

theorem Once.did (once : Once y stored h) {action : Action} (reply : Except String (Reply action))
    (owed : owes y stored h action) : Once y stored (h ++ [(c, .did action reply)]) where
  changed before c' key update reply' after eq := by
    rcases split_last eq with ⟨rfl, same, rfl⟩ | ⟨rest, rfl, rfl⟩
    · obtain ⟨rfl, inner⟩ := Prod.mk.inj same
      obtain ⟨rfl, _⟩ := Event.did.inj inner
      exact owed
    · exact once.changed before c' key update reply' rest rfl
  recorded before c' key update after eq := by
    rcases split_last eq with ⟨rfl, same, rfl⟩ | ⟨rest, rfl, rfl⟩
    · simp at same
    · exact once.recorded before c' key update rest rfl
  fresh before c' call after eq := by
    rcases split_last eq with ⟨rfl, same, rfl⟩ | ⟨rest, rfl, rfl⟩
    · simp at same
    · exact once.fresh before c' call rest rfl

theorem Once.record (once : Once y stored h) {key : String} {update : Bytes}
    (lacking : Lacking y stored h key update) {reply : Except String Unit}
    (did : (c, .did (.onChange key update) reply) ∈ h) :
    Once y stored (h ++ [(c, .recorded key update)]) where
  changed before c' key' update' reply' after eq := by
    rcases split_last eq with ⟨rfl, same, rfl⟩ | ⟨rest, rfl, rfl⟩
    · simp at same
    · exact once.changed before c' key' update' reply' rest rfl
  recorded before c' key' update' after eq := by
    rcases split_last eq with ⟨rfl, same, rfl⟩ | ⟨rest, rfl, rfl⟩
    · obtain ⟨rfl, inner⟩ := Prod.mk.inj same
      obtain ⟨rfl, rfl⟩ := Event.recorded.inj inner
      exact ⟨lacking, reply, did⟩
    · exact once.recorded before c' key' update' rest rfl
  fresh before c' call after eq := by
    rcases split_last eq with ⟨rfl, same, rfl⟩ | ⟨rest, rfl, rfl⟩
    · simp at same
    · exact once.fresh before c' call rest rfl

theorem Once.began (once : Once y stored h) (new : ∀ e ∈ h, e.1 ≠ c) (call : Call) :
    Once y stored (h ++ [(c, .began call)]) where
  changed before c' key update reply after eq := by
    rcases split_last eq with ⟨rfl, same, rfl⟩ | ⟨rest, rfl, rfl⟩
    · simp at same
    · exact once.changed before c' key update reply rest rfl
  recorded before c' key update after eq := by
    rcases split_last eq with ⟨rfl, same, rfl⟩ | ⟨rest, rfl, rfl⟩
    · simp at same
    · exact once.recorded before c' key update rest rfl
  fresh before c' call' after eq := by
    rcases split_last eq with ⟨rfl, same, rfl⟩ | ⟨rest, rfl, rfl⟩
    · obtain ⟨rfl, _⟩ := Prod.mk.inj same
      exact new
    · exact once.fresh before c' call' rest rfl

theorem Once.serves (once : Once y stored h) {action : Action}
    {reply : Except String (Reply action)} (owed : owes y stored h action)
    (served : Serves y stored c h action reply h') : Once y stored h' := by
  rcases serves_cases served with rfl | ⟨key, update, rfl, rfl⟩
  · exact once.did reply owed
  · have first := once.did (c := c) reply owed
    obtain ⟨content, carried, lacks⟩ : Lacking y stored h key update := owed
    rw [← durable_did h c (.onChange key update) reply key] at lacks
    have both := first.record ⟨content, carried, lacks⟩ (List.mem_append_right _ (List.mem_singleton_self _))
    simpa using both

section
variable {α : Type} {post : Trace → α → Prop}

theorem serves_extends {action : Action} {reply : Except String (Reply action)}
    (served : Serves y stored c h action reply h') : h <+: h' := by
  rcases serves_cases served with rfl | ⟨_, _, _, rfl⟩ <;> exact List.prefix_append _ _

theorem steady : Steady (turning y stored) := ⟨fun _ _ => rfl, fun _ _ _ _ one two => two.trans one⟩

theorem keeps_pure {a : α} (there : post h a) :
    Safe (host y stored) (turning y stored) c post h (pure a) := by
  rintro _ rfl _
  exact there

theorem keeps_ok {result : Except String α} (after : ∀ a, result = .ok a → post h a) :
    Safe (host y stored) (turning y stored) c post h (Program.ofExcept result) := by
  apply Safe.ofExcept
  rintro a _ ok rfl _
  exact after a ok

theorem keeps_act {action : Action} {post : Trace → Reply action → Prop}
    (owed : owes y stored h action)
    (after : ∀ reply h', Serves y stored c h action (.ok reply) h' → post h' reply) :
    Safe (host y stored) (turning y stored) c post h (Program.act action) := by
  apply Safe.act
  · rintro _ rfl _
    exact owed
  · rintro _ reply h' _ rfl _ served _ rfl _
    exact after reply _ served

end

def Holds (d : DocState) (content : Content) : Prop := d.Ready content ∧ d.Contains content

def Sent (h : Trace) (c : Nat) (key encoded : String) : Prop :=
  (c, Event.did (.broadcast (syncStreamName key) (syncEnvelope encoded)) (.ok ())) ∈ h

theorem keeps_load (key : String) (once : Once y stored h) :
    Safe (host y stored) (turning y stored) c (fun t doc => h <+: t ∧
      y.view doc = durable y stored t key ∧ durable y stored t key = durable y stored h key) h
      (syncLoadDoc y key) := by
  apply Safe.bind (fun t state => h <+: t ∧
    durable y stored t key = durable y stored h key ∧
    ∃ doc, docOfState y state = .ok doc ∧ y.view doc = durable y stored h key) steady once
  · refine keeps_act trivial fun state h' served => ?_
    obtain ⟨rfl, doc, read, view⟩ := serves_load served
    exact ⟨List.prefix_append _ _, durable_did h c (.onLoad key) (.ok state) key,
      doc, read, view⟩
  · rintro t state _ ⟨grows, same, doc, read, view⟩
    apply keeps_ok
    intro doc' read'
    obtain rfl := Except.ok.inj (read.symm.trans read')
    exact ⟨grows, view.trans same.symm, same⟩

theorem keeps_transmit {bytes : Bytes} : Safe (host y stored) (turning y stored) c
    (fun t _ => h <+: t) h (syncTransmit bytes) := by
  refine keeps_act trivial fun reply h' served => ?_
  exact serves_extends served

theorem keeps_distribute {key encoded : String} : Safe (host y stored) (turning y stored) c
    (fun t _ => h <+: t ∧ Sent t c key encoded) h (syncDistribute key encoded) := by
  refine keeps_act trivial fun reply h' served => ?_
  obtain rfl : h' = _ := served
  exact ⟨List.prefix_append _ _, List.mem_append_right _ (List.mem_singleton_self _)⟩

theorem keeps_update (laws : y.Laws) (once : Once y stored h) (key encoded : String)
    {update : Bytes} {u : y.Update} (decoded : y.decodeV1 update = .ok u) :
    Safe (host y stored) (turning y stored) c (fun t outcome => h <+: t ∧
      (Holds (durable y stored h key) (y.content u) → outcome = .applied ∧ Sent t c key encoded)) h
      (syncHandleUpdate y key encoded update) := by
  apply Safe.bind _ steady once (keeps_load key once)
  rintro t doc once ⟨grows, view, same⟩
  apply Safe.bind (fun t' ready => t' = t ∧ updateIsReady y doc update = .ok ready) steady once
  · exact keeps_ok fun ready ok => ⟨rfl, ok⟩
  rintro t' ready once ⟨rfl, isReady⟩
  obtain ⟨verdict, ok, exact⟩ := updateIsReady_eq laws.toRules decoded (triable laws doc _).ready
  obtain rfl := Except.ok.inj (isReady.symm.trans ok)
  rw [view, same] at exact
  cases ready with
  | false =>
    have gap := exact.not.mp (by simp)
    apply Safe.bind _ steady once keeps_transmit
    intro t'' _ _ later
    apply keeps_pure
    exact ⟨grows.trans later, fun holds => absurd holds.1 gap⟩
  | true =>
    have ready := exact.mp rfl
    apply Safe.bind (fun t'' advances => t'' = t' ∧
      updateAdvancesDoc y doc update = .ok advances) steady once
    · exact keeps_ok fun advances ok => ⟨rfl, ok⟩
    rintro t'' advances once ⟨rfl, judged⟩
    obtain ⟨u', advances', decoded', ok', news⟩ := ready_advances laws isReady
    obtain rfl := Except.ok.inj (decoded.symm.trans decoded')
    obtain rfl := Except.ok.inj (judged.symm.trans ok')
    rw [view, same] at news
    cases advances with
    | false =>
      apply Safe.bind _ steady once keeps_distribute
      rintro s _ _ ⟨later, sent⟩
      apply keeps_pure
      exact ⟨grows.trans later, fun _ => ⟨rfl, sent⟩⟩
    | true =>
      have lacking : ¬ (durable y stored h key).Contains (y.content u) := news.not.mp (by simp)
      apply Safe.bind (fun s _ => t'' <+: s) steady once
      · apply keeps_act
        · exact ⟨y.content u, contentOf_ok decoded, same ▸ lacks_of_ready ready lacking⟩
        · exact fun _ _ served => serves_extends served
      intro s _ once later
      apply Safe.bind _ steady once keeps_distribute
      rintro s' _ _ ⟨later', _⟩
      apply keeps_pure
      exact ⟨(grows.trans later).trans later', fun holds => absurd holds.2 lacking⟩

/-- The frame was recorded before under this key, as the log there was then says. -/
structure Repeated (y : Yrs) (stored : String → List Bytes) (h : Trace) (key : String)
    (bytes update : Bytes) : Prop where
  frame : IsDocFrame y bytes update
  held : ∃ content, y.contentOf update = some content ∧ ¬ content.IsEmpty ∧
    Holds (durable y stored h key) content

theorem keeps_frame (laws : y.Laws) (once : Once y stored h) (self : Instance) (encoded : String)
    (bytes : Bytes) : Safe (host y stored) (turning y stored) c (fun t outcome => h <+: t ∧
      ∀ key update, self.syncKey = some key → Repeated y stored h key bytes update →
        outcome = .applied ∧ Sent t c key encoded) h (syncHandleFrame y self encoded bytes) := by
  have apart : ∀ {kind : Nat}, classifyMessage y bytes = kind → kind ≠ 2 →
      ∀ key update, ¬ Repeated y stored h key bytes update := by
    intro kind same other key update repeated
    exact other (same.symm.trans (classifyMessage_docFrame repeated.frame))
  simp only [syncHandleFrame]
  apply Safe.bind (fun t _ => t = h) steady once (keeps_ok fun _ _ => rfl)
  rintro t _ once rfl
  apply Safe.bind (fun t' key => t' = t ∧ self.syncKey = some key) steady once
  · exact keeps_ok fun key ok => ⟨rfl, syncValidateKey_ok ok⟩
  rintro t' key once ⟨rfl, named⟩
  split
  · rename_i kind
    apply Safe.bind _ steady once (keeps_load key once)
    rintro s doc once ⟨grows, _, _⟩
    apply Safe.bind (fun s' _ => s' = s) steady once (keeps_ok fun _ _ => rfl)
    rintro s' result once rfl
    apply Safe.bind _ steady once keeps_transmit
    intro s'' _ _ later
    apply keeps_pure
    exact ⟨grows.trans later, fun key update _ repeated =>
      absurd repeated (apart kind (by decide) key update)⟩
  · split
    · rename_i kind
      obtain ⟨payload, frame⟩ := classifyMessage_update kind
      apply Safe.bind (fun s merged => s = t' ∧ mergedDocUpdate y bytes = .ok merged) steady once
      · exact keeps_ok fun merged ok => ⟨rfl, ok⟩
      rintro s merged once ⟨rfl, ok⟩
      obtain ⟨u, decoded, some | none⟩ := mergedDocUpdate_docFrame laws.toRules frame ok
      · subst some
        refine (keeps_update laws once key encoded decoded).weaken ?_
        rintro s' outcome _ ⟨grows, answers⟩
        refine ⟨grows, fun key' update' named' repeated => ?_⟩
        obtain rfl : key = key' := Option.some.inj (named.symm.trans named')
        obtain rfl := docFrame_unique frame repeated.frame
        obtain ⟨content, carried, _, holds⟩ := repeated.held
        obtain rfl := Option.some.inj ((contentOf_ok decoded).symm.trans carried)
        exact answers holds
      · subst none
        apply keeps_pure
        refine ⟨List.prefix_rfl, fun key' update' _ repeated => ?_⟩
        obtain rfl := docFrame_unique frame repeated.frame
        obtain ⟨content, carried, filled, _⟩ := repeated.held
        obtain rfl := Option.some.inj ((contentOf_ok decoded).symm.trans carried)
        rcases mergedDocUpdate_decoded laws.toRules frame decoded with some | ⟨_, empty⟩
        · simp [some] at ok
        · exact absurd empty filled
    · split
      · rename_i kind
        apply Safe.bind _ steady once keeps_distribute
        rintro s _ _ ⟨grows, _⟩
        apply keeps_pure
        exact ⟨grows, fun key update _ repeated =>
          absurd repeated (apart kind (by decide) key update)⟩
      · rename_i other _
        apply keeps_pure
        exact ⟨List.prefix_rfl, fun key update _ repeated =>
          absurd repeated (apart rfl other key update)⟩

def Acked (h : Trace) (c : Nat) (id : Value) : Prop :=
  id.isNil = false → (c, Event.did (.transmit (ackEnvelope id)) (.ok ())) ∈ h

/-- What a call that began at h₀ has done by its end, if its frame was recorded before. -/
def Answered (y : Yrs) (stored : String → List Bytes) (h₀ : Trace) (call : Call) (c : Nat)
    (h : Trace) : Prop :=
  ∀ encoded bytes key update, Reads call encoded bytes → call.key = some key →
    Repeated y stored h₀ key bytes update → Sent h c key encoded ∧ Acked h c call.id

theorem keeps_ack {id : Value} {outcome : Outcome} : Safe (host y stored) (turning y stored) c
    (fun t _ => h <+: t ∧ (outcome = .applied → Acked t c id)) h
    (syncSendAck id outcome) := by
  unfold syncSendAck
  split
  · rename_i nil
    apply keeps_pure
    refine ⟨List.prefix_rfl, fun _ some => ?_⟩
    rw [nil] at some
    exact Bool.noConfusion some
  · split
    · refine keeps_act trivial fun reply h' served => ?_
      obtain rfl : h' = _ := served
      exact ⟨List.prefix_append _ _,
        fun _ _ => List.mem_append_right _ (List.mem_singleton_self _)⟩
    · rename_i other
      apply keeps_pure
      exact ⟨List.prefix_rfl, fun applied => absurd (.inr applied) other⟩

theorem durable_began (h : Trace) (c : Nat) (call : Call) (key : String) :
    durable y stored (h ++ [(c, .began call)]) key = durable y stored h key := by
  have none : recordedUnder key (c, .began call) = none := rfl
  rw [durable, durable, logOf_append, List.filterMap_cons_none none, List.filterMap_nil,
    List.append_nil]

theorem Repeated.began {key : String} {bytes update : Bytes}
    (repeated : Repeated y stored h key bytes update) (call : Call) :
    Repeated y stored (h ++ [(c, .began call)]) key bytes update := by
  obtain ⟨frame, content, carried, filled, holds⟩ := repeated
  refine ⟨frame, content, carried, filled, ?_⟩
  rwa [durable_began]

theorem reads_unique {call : Call} {encoded encoded' : String} {bytes bytes' : Bytes}
    (one : Reads call encoded bytes) (two : Reads call encoded' bytes') :
    encoded = encoded' ∧ bytes = bytes' := by
  obtain ⟨data, named, request, carried, decoded⟩ := one.carries
  obtain ⟨data', named', request', carried', decoded'⟩ := two.carries
  obtain ⟨rfl, rfl⟩ := Request.receive.inj (request.symm.trans request')
  obtain rfl := Value.str.inj (carried.symm.trans carried')
  exact ⟨rfl, Option.some.inj (decoded.symm.trans decoded')⟩

theorem keeps_read (laws : y.Laws) (once : Once y stored h) {call : Call} {encoded : String}
    {bytes : Bytes} (reads : Reads call encoded bytes) :
    Safe (host y stored) (turning y stored) c
      (fun t _ => h <+: t ∧ Answered y stored h call c t) h (call.program y) := by
  rw [program_reads reads]
  apply Safe.bind _ steady once (keeps_frame laws once (keyed call) encoded bytes)
  rintro t outcome once ⟨grows, answers⟩
  refine keeps_ack.weaken ?_
  rintro t' _ _ ⟨later, acked⟩
  refine ⟨grows.trans later, fun encoded' bytes' key update reads' named repeated => ?_⟩
  obtain ⟨rfl, rfl⟩ := reads_unique reads reads'
  obtain ⟨applied, sent⟩ := answers key update named repeated
  exact ⟨later.subset sent, acked applied⟩

def Silent : Action → Prop
  | .onChange _ _ => False
  | _ => True

theorem subscribed_silent (self : Instance) (key : String) :
    (syncSubscribed y self key).Only Silent :=
  subscribed_only trivial (fun _ => trivial) trivial fun _ => trivial

theorem program_silent {call : Call} (none : ∀ encoded bytes, ¬ Reads call encoded bytes) :
    (call.program y).Only Silent := by
  cases request : call.request with
  | subscribed key =>
    rw [Call.program, request]
    exact subscribed_silent call.channel key
  | receive data named =>
    rcases program_drops request none with done | ⟨_, _, _, logged⟩
    · rw [done]
      exact Program.only_pure _
    · rw [logged]
      exact Program.only_act trivial

theorem keeps_program (laws : y.Laws) (once : Once y stored h) (call : Call) :
    Safe (host y stored) (turning y stored) c
      (fun t _ => h <+: t ∧ Answered y stored h call c t) h (call.program y) := by
  by_cases some : ∃ encoded bytes, Reads call encoded bytes
  · obtain ⟨encoded, bytes, reads⟩ := some
    exact keeps_read laws once reads
  · have none : ∀ encoded bytes, ¬ Reads call encoded bytes := fun encoded bytes reads =>
      some ⟨encoded, bytes, reads⟩
    apply Safe.of_only (F := fun t => h <+: t) _ _ _ _ (program_silent none) List.prefix_rfl
    · rintro t _ there rfl
      exact there
    · exact fun t action reply t' there served => there.trans (serves_extends served)
    · rintro t action _ silent
      cases action with
      | onChange key update => exact silent.elim
      | _ => trivial
    · exact fun t _ there => ⟨there, fun encoded bytes _ _ reads => absurd reads (none encoded bytes)⟩

def Ends (y : Yrs) (stored : String → List Bytes) (c : Nat) (h : Trace) : Prop :=
  ∃ before call after, h = before ++ (c, .began call) :: after ∧ Answered y stored before call c h

theorem Ends.later {ext : Trace} (ends : Ends y stored c h) : Ends y stored c (h ++ ext) := by
  obtain ⟨before, call, after, rfl, answered⟩ := ends
  refine ⟨before, call, after ++ ext, by simp, ?_⟩
  intro encoded bytes key update reads named repeated
  obtain ⟨sent, acked⟩ := answered encoded bytes key update reads named repeated
  exact ⟨List.mem_append_left _ sent, fun some => List.mem_append_left _ (acked some)⟩

theorem fit (laws : y.Laws) :
    Fit (host y stored) (turning y stored) fun c h _ => Ends y stored c h where
  toSteady := steady
  serve_holds _ _ _ _ _ once owed served := once.serves owed served
  start_holds c h p h' once started := by
    obtain ⟨call, _, fresh, rfl⟩ := started
    exact once.began fresh call
  start_safe c h p h' _ started once := by
    obtain ⟨call, rfl, _, rfl⟩ := started
    refine (keeps_program laws once call).weaken ?_
    rintro t _ _ ⟨⟨after, rfl⟩, answered⟩
    refine ⟨h, call, after, by simp, fun encoded bytes key update reads named repeated => ?_⟩
    exact answered encoded bytes key update reads named (repeated.began call)
  serve_ends _ _ _ _ _ _ _ served ends := by
    obtain ⟨ext, rfl⟩ := serves_extends served
    exact ends.later
  start_ends _ _ _ _ _ _ started ends := by
    obtain ⟨_, _, _, rfl⟩ := started
    exact ends.later

def ReachedInTurn (y : Yrs) (stored : String → List Bytes) (server : Server) : Prop :=
  Turns (host y stored) (Pool.initial []) server

variable {server : Server}

theorem reached_inTurn_once (laws : y.Laws) (turns : ReachedInTurn y stored server) :
    InTurn (host y stored) (turning y stored) (fun c h _ => Ends y stored c h) server :=
  (InTurn.initial Once.empty).turns (fit laws) turns

theorem first_unique {A : Type} {P : A → Prop} {before before' after after' : List A} {x x' : A}
    (eq : before ++ x :: after = before' ++ x' :: after') (is : P x) (is' : P x')
    (apart : ∀ e ∈ before, ¬ P e) (apart' : ∀ e ∈ before', ¬ P e) : before = before' ∧ x = x' := by
  induction before generalizing before' with
  | nil =>
    cases before' with
    | nil => exact ⟨rfl, (List.cons.inj eq).1⟩
    | cons e before' =>
      obtain ⟨rfl, _⟩ := List.cons.inj eq
      exact absurd is (apart' x List.mem_cons_self)
  | cons e before ih =>
    cases before' with
    | nil =>
      obtain ⟨rfl, _⟩ := List.cons.inj eq
      exact absurd is' (apart e List.mem_cons_self)
    | cons e' before' =>
      obtain ⟨rfl, rest⟩ := List.cons.inj eq
      obtain ⟨rfl, same⟩ := ih rest (fun e mem => apart e (List.mem_cons_of_mem _ mem))
        fun e mem => apart' e (List.mem_cons_of_mem _ mem)
      exact ⟨rfl, same⟩

theorem Lacks.filled (lacks : Lacks d content) : ¬ content.IsEmpty := by
  rintro ⟨blocks, deletes⟩
  rcases lacks with ⟨b, mem, _⟩ | ⟨i, mem, _⟩
  · rw [blocks] at mem
    exact mem
  · rw [deletes] at mem
    exact mem

theorem recorded_repeated (laws : y.Laws) (turns : ReachedInTurn y stored server) {before after : Trace}
    (split : server.world = before ++ after) {c₀ : Nat} {key : String} {bytes update : Bytes}
    (frame : IsDocFrame y bytes update) (entry : (c₀, .recorded key update) ∈ before) :
    Repeated y stored before key bytes update := by
  obtain ⟨first, rest, rfl⟩ := List.append_of_mem entry
  have whole : server.world = first ++ (c₀, .recorded key update) :: (rest ++ after) := by
    rw [split]
    simp
  obtain ⟨content, carried, ready⟩ :=
    (reached_inOrder laws turns.run).ready first c₀ key update _ whole
  obtain ⟨content', carried', lacks⟩ :=
    ((reached_inTurn_once laws turns).holds.recorded first c₀ key update _ whole).1
  obtain rfl := Option.some.inj (carried.symm.trans carried')
  have logged : recordedUnder key (c₀, .recorded key update) = some update := by simp [recordedUnder]
  have held : (durable y stored (first ++ [(c₀, .recorded key update)]) key).Contains content := by
    rw [durable, logOf_append, List.filterMap_cons_some logged, List.filterMap_nil]
    exact (replay_content laws _ carried).ready_contains ready
  have grown := durable_grows laws stored first ((c₀, .recorded key update) :: rest) key
  have later := durable_grows laws stored (first ++ [(c₀, .recorded key update)]) rest key
  rw [List.append_assoc, List.singleton_append] at later
  exact ⟨frame, content, carried, lacks.filled, ready_mono grown.1 ready,
    contains_mono later.1 later.2 held⟩

theorem repeated_silent (laws : y.Laws) (turns : ReachedInTurn y stored server) {before after : Trace}
    {call : Call} (split : server.world = before ++ (c, .began call) :: after) {encoded : String}
    {bytes update : Bytes} {key : String} (reads : Reads call encoded bytes)
    (named : call.key = some key) (repeated : Repeated y stored before key bytes update)
    (key' : String) (update' : Bytes) (reply : Except String Unit) :
    (c, .did (.onChange key' update') reply) ∉ server.world := by
  intro did
  have once := (reached_inTurn_once laws turns).holds
  have order := reached_inOrder laws turns.run
  obtain ⟨first, rest, eq⟩ := List.append_of_mem did
  obtain ⟨⟨encoded', bytes', id, received, frame'⟩, _⟩ :=
    order.justified first c (.onChange key' update') reply rest eq
  obtain ⟨call', began, ⟨data, arg, request, carried, decoded⟩, named', _⟩ := received.began
  obtain rfl : call = call' := by
    apply order.single c call call'
    · rw [split]
      simp
    · rw [eq]
      exact List.mem_append_left _ began
  obtain ⟨data', arg', request', carried', decoded'⟩ := reads.carries
  obtain ⟨rfl, rfl⟩ := Request.receive.inj (request.symm.trans request')
  obtain rfl := Value.str.inj (carried.symm.trans carried')
  obtain rfl := Option.some.inj (decoded.symm.trans decoded')
  obtain rfl := docFrame_unique frame' repeated.frame
  obtain rfl := Option.some.inj (named.symm.trans named')
  obtain ⟨content, carried, lacks⟩ := once.changed first c key update' reply rest eq
  obtain ⟨content', carried', _, holds⟩ := repeated.held
  obtain rfl := Option.some.inj (carried.symm.trans carried')
  -- the call began before it could have done this
  obtain ⟨ext, rfl⟩ : before <+: first := by
    rcases List.prefix_or_prefix_of_prefix (split ▸ List.prefix_append before _)
        (eq ▸ List.prefix_append first _) with inside | beyond
    · exact inside
    · exact absurd rfl (once.fresh before c call after split _ (beyond.subset began))
  have grown := durable_grows laws stored before ext key
  exact lacks.news (contains_mono grown.1 grown.2 holds.2)

/-- When calls take turns, whatever is recorded is news to the log as it is then, and
    a frame that was recorded before is sent on and acked without another entry. -/
theorem exactly_once (laws : y.Laws) (turns : ReachedInTurn y stored server) :
    (∀ before c key update reply after,
      server.world = before ++ (c, .did (.onChange key update) reply) :: after →
        Lacking y stored before key update) ∧
    (∀ before c key update after, server.world = before ++ (c, .recorded key update) :: after →
      Lacking y stored before key update) ∧
    ∀ before c call after encoded bytes key update c₀,
      server.world = before ++ (c, .began call) :: after → Reads call encoded bytes →
      call.key = some key → IsDocFrame y bytes update → (c₀, .recorded key update) ∈ before →
        (∀ key' update', (c, .recorded key' update') ∉ server.world ∧
          ∀ reply, (c, .did (.onChange key' update') reply) ∉ server.world) ∧
        (server.tasks c = some (.done ()) →
          Sent server.world c key encoded ∧ Acked server.world c call.id) ∧
        (Faults.Received call → ∀ e, server.tasks c = some (.raise e) →
          ∃ action, (c, .did action (.error e)) ∈ server.world) := by
  have inTurn := reached_inTurn_once laws turns
  refine ⟨inTurn.holds.changed, fun before c key update after split =>
    (inTurn.holds.recorded before c key update after split).1, ?_⟩
  intro before c call after encoded bytes key update c₀ split reads named frame entry
  have repeated := recorded_repeated laws turns split frame entry
  have silent := @repeated_silent y stored c server laws turns before after call split encoded bytes
    update key reads named repeated
  refine ⟨fun key' update' => ⟨fun mem => ?_, silent key' update'⟩, fun ended => ?_, ?_⟩
  · obtain ⟨first, rest, eq⟩ := List.append_of_mem mem
    obtain ⟨reply, did⟩ := (inTurn.holds.recorded first c key' update' rest eq).2
    apply silent key' update' reply
    rw [eq]
    exact List.mem_append_left _ did
  · obtain ⟨before', call', after', split', answered⟩ := inTurn.ended c () ended
    obtain ⟨rfl, same⟩ := first_unique (P := fun e => e.1 = c) (split.symm.trans split') rfl rfl
      (inTurn.holds.fresh before c call after split)
      (inTurn.holds.fresh before' c call' after' split')
    obtain rfl := Event.began.inj (Prod.mk.inj same).2
    exact answered encoded bytes key update reads named repeated
  · intro received e raised
    obtain ⟨call', began, sure⟩ := Faults.reached_sure laws.toRules turns.run c _ raised
    obtain rfl : call = call' := by
      apply reached_single turns.run _ began
      rw [split]
      simp
    have taken : Faults.PayloadsTaken y stored call := by
      intro encoded' bytes' update' reads' frame'
      obtain ⟨rfl, rfl⟩ := reads_unique reads reads'
      obtain rfl := docFrame_unique frame frame'
      obtain ⟨content, carried, _⟩ := repeated.held
      obtain ⟨u, decoded, _⟩ := contentOf_some carried
      exact ⟨u, decoded, fun _ _ doc _ _ => triable laws doc u⟩
    rcases sure received taken with relays | ⟨e', action, same, did⟩
    · exact relays.elim
    · obtain rfl := Program.raise.inj same
      exact ⟨action, did⟩

theorem ofExcept_ended (result : Except String Unit) :
    (Program.ofExcept result : Handler Unit).Ended := by
  cases result <;> trivial

theorem turns_handled (laws : y.Laws) (turns : ReachedInTurn y stored server)
    (idle : ∀ c' q, server.tasks c' = some q → q.Ended) {c : Nat} (call : Call)
    (absent : server.tasks c = none) (fresh : ∀ e ∈ server.world, e.1 ≠ c) :
    ∃ tasks, ReachedInTurn y stored ⟨handled y stored c call server.world, tasks⟩ ∧
      (∀ c' ≠ c, tasks c' = server.tasks c') ∧ ∀ c' q, tasks c' = some q → q.Ended := by
  have spawn : Turn (host y stored) server ⟨server.world ++ [(c, .began call)],
      Function.update server.tasks c (some (call.program y))⟩ :=
    Turn.spawn idle absent ⟨call, rfl, fresh, rfl⟩
  have alone := turns_alone (host y stored) (obey_serves laws c) (call.program y)
    (server.world ++ [(c, .began call)])
    (Function.update server.tasks c (some (call.program y))) (by simp)
  rw [Function.update_idem] at alone
  refine ⟨_, Relation.ReflTransGen.trans (Relation.ReflTransGen.tail turns spawn) alone, ?_, ?_⟩
  · intro c' other
    rw [Function.update_of_ne other]
  · intro c' q task
    by_cases same : c' = c
    · subst same
      rw [Function.update_self] at task
      obtain rfl := Option.some.inj task
      exact ofExcept_ended _
    · rw [Function.update_of_ne same] at task
      exact idle c' q task

theorem turns_inTurn (laws : y.Laws) (calls : List Call) {c : Nat}
    (turns : ReachedInTurn y stored server) (idle : ∀ c' q, server.tasks c' = some q → q.Ended)
    (below : ∀ e ∈ server.world, e.1 < c) (absent : ∀ c' ≥ c, server.tasks c' = none) :
    ∃ tasks, ReachedInTurn y stored ⟨inTurn y stored c calls server.world, tasks⟩ := by
  induction calls generalizing server c with
  | nil => exact ⟨server.tasks, turns⟩
  | cons call rest ih =>
    obtain ⟨tasks, onward, same, ended⟩ := turns_handled laws turns idle call
      (absent c (Nat.le_refl c)) fun e mem => (below e mem).ne
    apply ih onward ended
    · intro e mem
      rcases handled_labels laws c call server.world e mem with old | own
      · exact (below e old).trans (Nat.lt_succ_self c)
      · exact own ▸ Nat.lt_succ_self c
    · intro c' le
      exact (same c' (by omega)).trans (absent c' (by omega))

theorem conversed_news : ∃ before after,
    Recording.conversed = before ++ (1, .recorded "doc" (Reference.encodeDelta
      ⟨[Reference.typed 2 0 (some ⟨1, 0⟩)], []⟩)) :: after ∧
    Lacking Reference.crate (fun _ => []) before "doc" (Reference.encodeDelta
      ⟨[Reference.typed 2 0 (some ⟨1, 0⟩)], []⟩) := by
  obtain ⟨tasks, turns⟩ := @turns_inTurn Reference.crate (fun _ => []) (Pool.initial [])
    Reference.crate_laws Recording.conversation 0 Relation.ReflTransGen.refl
    (by simp [Pool.initial]) (by simp [Pool.initial]) fun _ _ => rfl
  have split : Recording.conversed = Recording.conversed.take 9 ++ (1, .recorded "doc"
      (Reference.encodeDelta ⟨[Reference.typed 2 0 (some ⟨1, 0⟩)], []⟩)) ::
      Recording.conversed.drop 10 := by rfl
  exact ⟨_, _, split, (exactly_once Reference.crate_laws turns).2.1 _ _ _ _ _ split⟩

end Yrby.ExactlyOnce
