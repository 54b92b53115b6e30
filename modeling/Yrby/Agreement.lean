import Yrby.CaughtUp

/- When the sessions of a document agree: a session that has caught up, whose queue is
   empty and that received all that was recorded since, holds the document of the log. -/
namespace Yrby.Agreement
open Causal Document Wire Yrs Protocol Serving Effects Session Frames Channel History DurableLog
open Client Delivery NoLoss Downstream CaughtUp

/-- All of c is in the document, or parked in it. -/
def Offered (d : DocState) (c : Content) : Prop :=
  (∀ b ∈ c.blocks, b.id ∈ d.ids ∨ b ∈ d.parked) ∧ ∀ i ∈ c.deletes, i ∈ d.deletes ∨ i ∈ d.parkedDeletes

section
variable {d e before after : DocState} {c c' : Content}

theorem offered_applied (step : Integrates before c after) : Offered after c := by
  constructor
  · intro b mem
    rw [step.ids, step.parked]
    by_cases met : Met (closure before.ids (before.parked ∪ c.blocks)) b
    · exact Or.inl (closure_step (Or.inr mem) met)
    · exact Or.inr ⟨Or.inr mem, met⟩
  · intro i mem
    rw [step.deletes, step.parkedDeletes]
    by_cases held : i ∈ after.ids
    · exact Or.inl ⟨Or.inr mem, held⟩
    · exact Or.inr ⟨Or.inr mem, held⟩

theorem Offered.later (offered : Offered before c') (step : Integrates before c after) :
    Offered after c' := by
  constructor
  · intro b mem
    rcases offered.1 b mem with held | waits
    · exact Or.inl (step.ids_grow held)
    · rw [step.ids, step.parked]
      by_cases met : Met (closure before.ids (before.parked ∪ c.blocks)) b
      · exact Or.inl (closure_step (Or.inl waits) met)
      · exact Or.inr ⟨Or.inl waits, met⟩
  · intro i mem
    rcases offered.2 i mem with held | waits
    · exact Or.inl (step.deletes_grow held)
    · rw [step.deletes, step.parkedDeletes]
      by_cases held : i ∈ after.ids
      · exact Or.inl ⟨Or.inl (Or.inr waits), held⟩
      · exact Or.inr ⟨Or.inl waits, held⟩

/-- A document that has all of another one is not left behind by an update that the other
    takes in whole, once it was offered that update as well. -/
theorem offered_follows (clean : d.NothingParked) (ready : d.Ready c)
    (step : Integrates d c after) (within : Within d e) (offered : Offered e c) : Within after e := by
  have reached : closure d.ids c.blocks ⊆ e.ids := by
    apply Causal.closure_min within.1
    intro b mem met
    rcases offered.1 b mem with held | waits
    · exact held
    · exact absurd met (e.parked_inert b waits)
  have marked : ∀ i ∈ c.deletes, i ∈ e.deletes := by
    intro i mem
    rcases offered.2 i mem with held | waits
    · exact held
    · exact absurd (reached (ready.2 mem)) (e.parkedDeletes_outside i waits)
  constructor
  · rw [step.clean_ids clean]
    exact reached
  · intro i mem
    rw [step.deletes, clean.2, Set.union_empty] at mem
    rcases mem.1 with held | new
    · exact within.2 held
    · exact marked i new

/-- What is in d, or waits in it, is in the server or was enqueued. -/
structure Backed (server : DocState) (enqueued : List Content) (d : DocState) : Prop where
  blocks : ∀ b ∈ d.integrated ∪ d.parked, b.id ∈ server.ids ∨ ∃ c ∈ enqueued, b ∈ c.blocks
  deletes : ∀ i ∈ d.deletes ∪ d.parkedDeletes, i ∈ server.deletes ∨ ∃ c ∈ enqueued, i ∈ c.deletes

theorem backed_empty (server : DocState) : Backed server [] .empty := by
  constructor
  · rintro b (none | none) <;> exact none.elim
  · rintro i (none | none) <;> exact none.elim

theorem Backed.grow {server server' : DocState} {enqueued : List Content}
    (backed : Backed server enqueued d) (within : Within server server') (more : List Content) :
    Backed server' (enqueued ++ more) d where
  blocks b mem := by
    rcases backed.blocks b mem with held | ⟨c, queued, carried⟩
    · exact Or.inl (within.1 held)
    · exact Or.inr ⟨c, List.mem_append_left _ queued, carried⟩
  deletes i mem := by
    rcases backed.deletes i mem with held | ⟨c, queued, carried⟩
    · exact Or.inl (within.2 held)
    · exact Or.inr ⟨c, List.mem_append_left _ queued, carried⟩

theorem Backed.applied {server : DocState} {enqueued : List Content}
    (backed : Backed server enqueued before) (step : Integrates before c after)
    (sourced : server.Contains c ∨ c ∈ enqueued) : Backed server enqueued after where
  blocks b mem := by
    have known : b ∈ before.integrated ∪ before.parked ∨ b ∈ c.blocks := by
      rcases mem with held | waits
      · exact step.integrated_bound held
      · rcases step.parked_bound waits with old | new
        · exact Or.inl (Or.inr old)
        · exact Or.inr new
    rcases known with old | new
    · exact backed.blocks b old
    · rcases sourced with held | queued
      · exact Or.inl (held.1 ⟨b, new, rfl⟩)
      · exact Or.inr ⟨c, queued, new⟩
  deletes i mem := by
    have known : i ∈ before.deletes ∪ before.parkedDeletes ∨ i ∈ c.deletes := by
      rcases mem with held | waits
      · rw [step.deletes] at held
        exact held.1
      · rw [step.parkedDeletes] at waits
        rcases waits.1 with old | new
        · exact Or.inl (Or.inr old)
        · exact Or.inr new
    rcases known with old | new
    · exact backed.deletes i old
    · rcases sourced with held | queued
      · exact Or.inl (held.2 new)
      · exact Or.inr ⟨c, queued, new⟩

structure Agrees (server d : DocState) : Prop where
  ids : d.ids = server.ids
  deletes : d.deletes = server.deletes
  noDeletes : d.parkedDeletes = ∅
  same : Set.InjOn Block.id (d.integrated ∪ d.parked ∪ server.integrated) →
    d.integrated = server.integrated ∧ d.parked = ∅

theorem Backed.agrees {server : DocState} {enqueued : List Content}
    (backed : Backed server enqueued d) (durable : ∀ c ∈ enqueued, server.Contains c)
    (within : Within server d) : Agrees server d := by
  have blocks : ∀ b ∈ d.integrated ∪ d.parked, b.id ∈ server.ids := by
    intro b mem
    rcases backed.blocks b mem with held | ⟨c, queued, carried⟩
    · exact held
    · exact (durable c queued).1 ⟨b, carried, rfl⟩
  have deletes : ∀ i ∈ d.deletes ∪ d.parkedDeletes, i ∈ server.deletes := by
    intro i mem
    rcases backed.deletes i mem with held | ⟨c, queued, carried⟩
    · exact held
    · exact (durable c queued).2 carried
  have ids : d.ids = server.ids := by
    apply Set.Subset.antisymm _ within.1
    rintro _ ⟨b, mem, rfl⟩
    exact blocks b (Or.inl mem)
  refine ⟨ids, ?_, ?_, ?_⟩
  · exact Set.Subset.antisymm (fun i mem => deletes i (Or.inl mem)) within.2
  · apply Set.eq_empty_of_forall_notMem
    intro i waits
    have held := server.deletes_integrated (deletes i (Or.inr waits))
    exact d.parkedDeletes_outside i waits (within.1 held)
  · intro agree
    have integrated : d.integrated = server.integrated := by
      ext b
      constructor
      · intro mem
        obtain ⟨b', mem', same⟩ := blocks b (Or.inl mem)
        exact agree (Or.inr mem') (Or.inl (Or.inl mem)) same ▸ mem'
      · intro mem
        obtain ⟨b', mem', same⟩ := within.1 ⟨b, mem, rfl⟩
        exact agree (Or.inl (Or.inl mem')) (Or.inr mem) same ▸ mem'
    refine ⟨integrated, Set.eq_empty_of_forall_notMem fun b waits => ?_⟩
    obtain ⟨b', mem', same⟩ := blocks b (Or.inr waits)
    have there : b ∈ d.integrated := by
      rw [integrated]
      exact agree (Or.inr mem') (Or.inl (Or.inr waits)) same ▸ mem'
    have met := d.grounded b there
    rw [grounded_closure d.grounded] at met
    exact d.parked_inert b waits met

end

/-- As ownAnswerFirst, and a session starts on content of the log and is handed content of
    the log as remote. -/
def settling (y : Yrs) (js : Yjs) (stored : String → List Bytes) (key : String) : Setting js :=
  { ownAnswerFirst y js key with
    born h doc := Backed (durable y stored h key) [] (js.view doc)
    remote h update := Durable y stored h key update }

variable {y : Yrs} {stored : String → List Bytes} {key : String} {js : Yjs}
  {holder : Nat → Option Nat} {setting : Setting js} {w : World js}
  {h : Trace}

theorem reached_weaken (reached : Delivery.Reached y stored key holder (settling y js stored key) w) :
    Delivery.Reached y stored key holder (ownAnswerFirst y js key) w := by
  induction reached with
  | refl => exact Relation.ReflTransGen.refl
  | tail _ step ih =>
    apply ih.tail
    cases step with
    | construct awareness absent born => exact .construct awareness absent trivial
    | input input there allowed =>
      refine .input input there ?_
      cases input with
      | applyRemoteUpdate update =>
        obtain ⟨content, carried, _⟩ := allowed
        exact ⟨content, carried⟩
      | _ => exact allowed
    | call call absent fresh admissible => exact .call call absent fresh admissible
    | act task served => exact .act task served
    | die c => exact .die c

theorem durable_entry (laws : y.Laws) {e : Nat × Event} {rest : Trace}
    (order : InOrder y stored (h ++ e :: rest)) (clean : (durable y stored h key).NothingParked) :
    durable y stored (h ++ [e]) key = durable y stored h key ∨ ∃ c update content,
      e = (c, .recorded key update) ∧ y.contentOf update = some content ∧
      (durable y stored h key).Ready content ∧
      Integrates (durable y stored h key) content (durable y stored (h ++ [e]) key) := by
  cases entry : recordedUnder key e with
  | none =>
    left
    rw [durable, durable, logOf_append, List.filterMap_cons_none entry, List.filterMap_nil,
      List.append_nil]
  | some update =>
    right
    obtain ⟨c, event⟩ := e
    cases event with
    | began call => simp [recordedUnder] at entry
    | did action reply => simp [recordedUnder] at entry
    | recorded k u =>
      obtain ⟨rfl, rfl⟩ : k = key ∧ u = update := by simpa [recordedUnder] using entry
      obtain ⟨content, carried, ready⟩ := order.ready h c k u rest rfl
      refine ⟨c, u, content, rfl, carried, ready, ?_⟩
      have step := replay_content laws (logOf stored h k) carried
      rw [durable, durable, logOf_append, List.filterMap_cons_some entry, List.filterMap_nil]
      exact step

theorem order_earlier {ext : Trace} (order : InOrder y stored (h ++ ext)) : InOrder y stored h where
  justified before c action reply after eq := by
    apply order.justified before c action reply (after ++ ext)
    rw [eq, List.append_assoc, List.cons_append]
  ready before c key update after eq := by
    apply order.ready before c key update (after ++ ext)
    rw [eq, List.append_assoc, List.cons_append]
  single c call call' began again :=
    order.single c call call' (List.mem_append_left _ began) (List.mem_append_left _ again)

theorem entry_clean (laws : y.Laws) {e : Nat × Event} {rest : Trace}
    (order : InOrder y stored (h ++ e :: rest)) (clean : (durable y stored h key).NothingParked) :
    (durable y stored (h ++ [e]) key).NothingParked := by
  rcases durable_entry laws order clean with same | ⟨c, update, content, _, _, ready, step⟩
  · rw [same]
    exact clean
  · exact (step.clean_iff_ready clean).mpr ready

theorem durable_clean (laws : y.Laws) (ext : Trace) (order : InOrder y stored (h ++ ext))
    (clean : (durable y stored h key).NothingParked) :
    (durable y stored (h ++ ext) key).NothingParked := by
  induction ext generalizing h with
  | nil => simpa using clean
  | cons e rest ih =>
    have next := entry_clean laws order clean
    have regrouped : h ++ e :: rest = (h ++ [e]) ++ rest := by simp
    rw [regrouped] at order ⊢
    exact ih order next

theorem order_clean (laws : y.Laws) (start : hasPending y (replay y (stored key)) = false)
    (order : InOrder y stored h) : (durable y stored h key).NothingParked := by
  have stored_clean : (durable y stored [] key).NothingParked := by
    rw [hasPending_eq_false_iff laws.toRules] at start
    simpa [durable, logOf] using start
  have whole : InOrder y stored ([] ++ h) := order
  exact durable_clean laws h whole stored_clean

/-- A document that had all of the log as it was before, and was offered every entry
    recorded since, has all of the log. -/
theorem offered_all (laws : y.Laws) (ext : Trace) (order : InOrder y stored (h ++ ext))
    (clean : (durable y stored h key).NothingParked) {d : DocState}
    (within : Within (durable y stored h key) d)
    (offered : ∀ c update content, (c, .recorded key update) ∈ ext →
      y.contentOf update = some content → Offered d content) :
    Within (durable y stored (h ++ ext) key) d := by
  induction ext generalizing h with
  | nil => simpa using within
  | cons e rest ih =>
    have rests : ∀ c update content, (c, .recorded key update) ∈ rest →
        y.contentOf update = some content → Offered d content :=
      fun c update content mem => offered c update content (List.mem_cons_of_mem _ mem)
    have next := entry_clean laws order clean
    have followed : Within (durable y stored (h ++ [e]) key) d := by
      rcases durable_entry laws order clean with same | ⟨c, update, content, rfl, carried, ready, step⟩
      · rw [same]
        exact within
      · exact offered_follows clean ready step within
          (offered c update content (List.mem_cons_self ..) carried)
    have regrouped : h ++ e :: rest = (h ++ [e]) ++ rest := by simp
    rw [regrouped] at order ⊢
    exact ih order next followed rests

/-- What an input applies to the document of a session: content of the log, or a local
    edit; of a document frame, what the frame carries. -/
structure Applies (y : Yrs) (server : DocState) {js : Yjs} (p : Participant js) (input : Input js)
    (content : Content) : Prop where
  step : Integrates (js.view p.doc) content (js.view (p.takes input).doc)
  sourced : server.Contains content ∨
    ∃ doc update, input = .transact doc update ∧ y.contentOf update = some content
  framed : ∀ frame update carried, input = .receive frame → IsDocFrame y frame update →
    y.contentOf update = some carried → content = carried

theorem contains_nothing (d : DocState) : d.Contains ⟨∅, ∅⟩ := by
  simp [DocState.Contains]

theorem applies_nothing {server : DocState} {p : Participant js} {input : Input js}
    (same : (p.takes input).doc = p.doc) (unframed : ∀ frame update, input = .receive frame →
      ¬ IsDocFrame y frame update) : Applies y server p input ⟨∅, ∅⟩ where
  step := by
    rw [same]
    exact Integrates.refl _
  sourced := Or.inl (contains_nothing server)
  framed frame update carried is framed := absurd framed (unframed frame update is)

theorem receive_applies (laws : y.Laws) (jsLaws : js.Laws y) {server : DocState}
    {p : Participant js} {frame : Bytes} (safe : frame.length ≤ maxSafeInteger)
    (doc : (p.takes (.receive frame)).doc = changedDoc js frame p.doc)
    (change : documentChange frame = none ∨ ∃ syncType update content,
      documentChange frame = some (syncType, some update) ∧ y.contentOf update = some content ∧
        server.Contains content) :
    ∃ content, Applies y server p (.receive frame) content := by
  rcases change with none | ⟨syncType, update, content, change, carried, held⟩
  · refine ⟨_, applies_nothing (by rw [doc, changedDoc, none]) ?_⟩
    intro frame' update is framed
    obtain rfl := Input.receive.inj is
    obtain ⟨syncType, change⟩ := docFrame_change laws framed safe
    simp [none] at change
  · refine ⟨content, ?_, Or.inl held, ?_⟩
    · have changed : changedDoc js frame p.doc = (js.applyUpdate p.doc update).1 := by
        simp [changedDoc, change]
      rw [doc, changed]
      exact jsLaws.apply_integrates p.doc update content carried
    · intro frame' update' carried' is framed carried''
      obtain rfl := Input.receive.inj is
      obtain ⟨syncType', change'⟩ := docFrame_change laws framed safe
      obtain ⟨_, same⟩ := Prod.mk.inj (Option.some.inj (change.symm.trans change'))
      obtain rfl := Option.some.inj same
      exact Option.some.inj (carried.symm.trans carried'')

theorem served_change (laws : y.Laws) (jsLaws : js.Laws y)
    (reached : Delivery.Reached y stored key holder setting w) {p : Nat}
    {participant : Participant js} (there : w.participants p = some participant) {frame : Bytes}
    (safe : frame.length ≤ maxSafeInteger)
    (served : (delivered y js key).frames w.server.world p participant frame) :
    documentChange frame = none ∨ ∃ syncType update content,
      documentChange frame = some (syncType, some update) ∧ y.contentOf update = some content ∧
        (durable y stored w.server.world key).Contains content := by
  have order := reached_order laws reached
  rcases served with broadcast | ⟨connection, on, direct⟩
  · rcases broadcast_frame laws order broadcast with ⟨payload, shape⟩ | ⟨update, doc, content, carried, held⟩
    · exact Or.inl (documentChange_awareness shape)
    · obtain ⟨syncType, change⟩ := docFrame_change laws doc safe
      exact Or.inr ⟨syncType, update, content, change, carried, held⟩
  · obtain ⟨c, call, encoded, reply, began, at_, transmitted, decoded⟩ := direct
    have held := at_ ▸ reached_owner laws jsLaws reached there connection on
    cases transmitted_frame laws order began transmitted decoded with
    | asks shape => exact Or.inl (documentChange_syncStep1 shape)
    | @answers key' asked bytes update sv before after state carries keyed read split _ is content _ =>
      have own : key' = key := by
        rcases (reached_sane jsLaws reached).owned c call p began held with
          subscribed | ⟨_, e, room, _, _, _, request, keyed'⟩
        · obtain ⟨_, _, received, _⟩ := carries
          simp [subscribed] at received
        · exact Option.some.inj (keyed.symm.trans keyed')
      subst own
      subst is
      obtain ⟨syncType, change⟩ := docFrame_change laws (docFrame_syncStep2 laws update) safe
      have grown := durable_grows laws stored before ((c, .did (.onLoad key') (.ok state)) :: after) key'
      rw [← split] at grown
      refine Or.inr ⟨syncType, update, _, change, content, ?_, ?_⟩
      · rintro _ ⟨b, mem | waits, rfl⟩
        · exact grown.1 ⟨b, mem.1, rfl⟩
        · exact waits.elim
      · rintro i (mem | waits)
        · exact grown.2 mem
        · exact waits.elim

/-- Documents, edits, remote updates and frames whose content can be traced. -/
structure Traced (y : Yrs) (stored : String → List Bytes) (key : String) {js : Yjs}
    (setting : Setting js) : Prop where
  born : ∀ h doc, setting.born h doc → Backed (durable y stored h key) [] (js.view doc)
  edits : ∀ h doc doc' update, setting.edits h doc doc' update → ∃ content,
    y.contentOf update = some content ∧ Integrates (js.view doc) content (js.view doc')
  remote : ∀ h update, setting.remote h update → Durable y stored h key update
  frames : ∀ h p participant frame, setting.frames h p participant frame →
    (delivered y js key).frames h p participant frame

theorem settling_traced : Traced y stored key (settling y js stored key) where
  born _ _ born := born
  edits _ _ _ _ edit := edit
  remote _ _ remote := remote
  frames _ _ _ _ frames := frames.imp_left And.left

theorem takes_applies (laws : y.Laws) (jsLaws : js.Laws y) (traced : Traced y stored key setting)
    (reached : Delivery.Reached y stored key holder setting w) {p : Nat}
    {participant : Participant js} (there : w.participants p = some participant) {input : Input js}
    (allowed : Allowed holder setting w p participant input) :
    ∃ content, Applies y (durable y stored w.server.world key) participant input content := by
  have memo := (reached_sane jsLaws reached).memo p participant there
  have doc : (participant.takes input).doc = (change input participant.session).2.1.doc :=
    (takes_emits jsLaws input memo).doc
  cases input with
  | receive frame =>
    obtain ⟨safe, served⟩ := allowed
    exact receive_applies laws jsLaws safe doc
      (served_change laws jsLaws reached there safe (traced.frames _ _ _ _ served))
  | transact edited update =>
    obtain ⟨content, carried, step⟩ := traced.edits _ _ _ _ allowed
    refine ⟨content, ?_, Or.inr ⟨edited, update, rfl, carried⟩, by simp⟩
    rw [doc]
    exact step
  | applyRemoteUpdate update =>
    obtain ⟨content, carried, held⟩ := traced.remote _ _ allowed
    refine ⟨content, ?_, Or.inl held, by simp⟩
    rw [doc]
    exact jsLaws.apply_integrates participant.doc update content carried
  | _ => exact ⟨_, applies_nothing doc (by simp)⟩

structure Sourced (y : Yrs) (stored : String → List Bytes) (key : String) {js : Yjs} (h : Trace)
    (p : Participant js) : Prop where
  backed : p.attached = true →
    Backed (durable y stored h key) (p.enqueued.filterMap y.contentOf) (js.view p.doc)
  offered : ∀ frame ∈ p.heard, ∀ update content, IsDocFrame y frame update →
    y.contentOf update = some content → Offered (js.view p.doc) content

theorem Sourced.later (laws : y.Laws) {p : Participant js} (sourced : Sourced y stored key h p)
    (ext : Trace) : Sourced y stored key (h ++ ext) p where
  backed attached := by
    have grown := (sourced.backed attached).grow (durable_grows laws stored h ext key) []
    rwa [List.append_nil] at grown
  offered := sourced.offered

theorem Sourced.takes (jsLaws : js.Laws y) {p : Participant js} (sourced : Sourced y stored key h p)
    (memo : ReliableSync.Memoized js.mergeUpdates p.session.1) {input : Input js} {content : Content}
    (applies : Applies y (durable y stored h key) p input content) :
    Sourced y stored key h (p.takes input) where
  backed attached := by
    have was := attached_before jsLaws memo attached
    have backed := sourced.backed was
    have queued : ∃ more, (p.takes input).enqueued = p.enqueued ++ more ∧
        ∀ doc update, input = .transact doc update → more = [update] := by
      cases input with
      | transact doc update =>
        refine ⟨[update], by simp [Participant.takes, was], ?_⟩
        rintro _ _ is
        rw [(Input.transact.inj is).2]
      | _ => exact ⟨[], by simp [Participant.takes], by simp⟩
    obtain ⟨more, enqueued, edit⟩ := queued
    rw [enqueued, List.filterMap_append]
    have grown := backed.grow (within_refl _) (more.filterMap y.contentOf)
    apply grown.applied applies.step
    rcases applies.sourced with held | ⟨doc, update, is, carried⟩
    · exact Or.inl held
    · rw [edit doc update is]
      exact Or.inr (by simp [carried])
  offered frame mem update carried framed carries := by
    have old : frame ∈ p.heard → Offered (js.view (p.takes input).doc) carried := fun mem =>
      (sourced.offered frame mem update carried framed carries).later applies.step
    cases input with
    | receive frame' =>
      rcases List.mem_append.mp mem with before | new
      · exact old before
      · obtain rfl := List.mem_singleton.mp new
        rw [← applies.framed frame update carried rfl framed carries]
        exact offered_applied applies.step
    | _ => exact old mem

theorem reached_sourced (laws : y.Laws) (jsLaws : js.Laws y) (traced : Traced y stored key setting)
    (reached : Delivery.Reached y stored key holder setting w) {p : Nat}
    {participant : Participant js} (there : w.participants p = some participant) :
    Sourced y stored key w.server.world participant := by
  refine reached.every (F := fun h _ participant => Sourced y stored key h participant)
    ?_ ?_ ?_ laws there
  · intro w p doc awareness _ born
    exact ⟨fun _ => traced.born _ _ born, by simp [Participant.fresh]⟩
  · exact fun _ ext _ _ _ _ _ sourced => sourced.later laws ext
  · intro w p participant input reached there allowed sourced
    obtain ⟨content, applies⟩ := takes_applies laws jsLaws traced reached there allowed
    exact sourced.takes jsLaws ((reached_sane jsLaws reached).memo p participant there) applies

theorem queue_durable {p : Participant js} (kept : Kept y stored key h p) (empty : p.pending = []) :
    ∀ u ∈ p.enqueued, Durable y stored h key u := by
  obtain ⟨front, rest, split, pending, held⟩ := kept.queue.rest
  have none : rest = [] := by
    have waiting : p.session.1.pending = [] := empty
    rw [waiting] at pending
    cases rest with
    | nil => rfl
    | cons first rest => simp [number] at pending
  intro u mem
  rw [split, none, List.append_nil] at mem
  exact held u mem

theorem kept_agrees {p : Participant js} (kept : Kept y stored key h p) (empty : p.pending = [])
    (backed : Backed (durable y stored h key) (p.enqueued.filterMap y.contentOf) (js.view p.doc))
    (within : Within (durable y stored h key) (js.view p.doc)) :
    Agrees (durable y stored h key) (js.view p.doc) := by
  apply backed.agrees _ within
  intro content mem
  obtain ⟨update, queued, carried⟩ := List.mem_filterMap.mp mem
  obtain ⟨content', carried', contains⟩ := queue_durable kept empty update queued
  rw [carried] at carried'
  exact Option.some.inj carried' ▸ contains

/-- In every settling run over a log that starts with nothing parked: a synced session in
    use whose queue is empty, and that received a frame for every update recorded since the
    call that answered its SyncStep1 loaded the log, holds exactly what the log replays to; so
    any two such sessions agree. -/
theorem sessions_agree (laws : y.Laws) (jsLaws : js.Laws y)
    (start : hasPending y (replay y (stored key)) = false)
    (reached : Delivery.Reached y stored key holder (settling y js stored key) w) {p : Nat}
    {participant : Participant js} (there : w.participants p = some participant)
    (attached : participant.attached = true) (empty : participant.pending = [])
    (synced : participant.synced = true) :
    ∃ connection before after, participant.connection = some connection ∧
      w.server.world = before ++ after ∧ Answered y w.server.world key connection before ∧
      ((∀ c update, (c, .recorded key update) ∈ after →
          ∃ frame ∈ participant.heard, IsDocFrame y frame update) →
        Agrees (durable y stored w.server.world key) (js.view participant.doc)) := by
  have order := reached_order laws reached
  obtain ⟨connection, before, on, answered, within⟩ :=
    (reached_inTouch laws jsLaws (reached_weaken reached) there).caughtUp synced
  obtain ⟨after, split⟩ : ∃ after, w.server.world = before ++ after := by
    obtain ⟨_, _, _, _, _, _, _, _, _, _, _, _, _, split, _⟩ := answered
    exact ⟨_, split⟩
  refine ⟨connection, before, after, on, split, answered, fun received => ?_⟩
  have sourced := reached_sourced laws jsLaws settling_traced reached there
  have kept : Kept y stored key w.server.world participant := by
    refine reached_kept laws jsLaws ?_ reached there attached
    rintro h doc doc' update ⟨content, carried, _⟩
    exact ⟨content, carried⟩
  rw [split] at order
  have clean := order_clean laws start (order_earlier order)
  have all : Within (durable y stored (before ++ after) key) (js.view participant.doc) := by
    apply offered_all laws after order clean within
    intro c update content mem carried
    obtain ⟨frame, mem', framed⟩ := received c update mem
    exact sourced.offered frame mem' update content framed carried
  rw [← split] at all
  exact kept_agrees kept empty (sourced.backed attached) all

/- Client 1 connects on an empty document, hears the log, types a character, and gets it
   back from the server with its ack. -/
def online : Participant Reference.client :=
  (Participant.fresh (blank : Reference.client.Doc) none).takes (.connect 0)

def asks : Call := ⟨0, channel, .receive (envelope ⟨some 0,
  syncFrame 0 (Reference.encodeVector ⟨[]⟩), none⟩) (some "doc")⟩

def answeredTrace : Trace := History.handled Reference.crate seeded 0 asks []

def caughtUp : Participant Reference.client := online.takes (.receive ownAnswer)

def edit : Input Reference.client :=
  .transact (⟨(Reference.Replica.after [⟨[Reference.typed 9 0 none], []⟩]).apply character, 1⟩ :
    Reference.Tab) (Reference.encodeDelta character)

def typing : Participant Reference.client := caughtUp.takes edit

def echo : Bytes := syncFrame 2 (Reference.encodeDelta character)

def posts : Call := ⟨0, channel, .receive (envelope ⟨some 0, echo, some 1⟩) (some "doc")⟩

def postedTrace : Trace := History.handled Reference.crate seeded 1 posts answeredTrace

def echoed : Participant Reference.client := typing.takes (.receive echo)

def acked : Participant Reference.client := echoed.takes (.ack (.int 1))

theorem answeredTrace_eq : answeredTrace = [(0, .began asks),
    (0, .did (.onLoad "doc") (.ok (loadState Reference.crate (seeded "doc")))),
    (0, .did (.transmit (syncEnvelope (Base64.strictEncode64 ownAnswer))) (.ok ()))] := by rfl

theorem postedTrace_eq : postedTrace = answeredTrace ++ [(1, .began posts),
    (1, .did (.onLoad "doc") (.ok (loadState Reference.crate (seeded "doc")))),
    (1, .did (.onChange "doc" (Reference.encodeDelta character)) (.ok ())),
    (1, .recorded "doc" (Reference.encodeDelta character)),
    (1, .did (.broadcast (syncStreamName "doc") (syncEnvelope (Base64.strictEncode64 echo)))
      (.ok ())),
    (1, .did (.transmit (ackEnvelope (.int 1))) (.ok ()))] := by rfl

theorem answered_sentTo : SentTo answeredTrace 0 ownAnswer := by
  refine ⟨0, asks, Base64.strictEncode64 ownAnswer, .ok (), ?_, rfl, ?_, Base64.fromBase64_encode _⟩
  · rw [answeredTrace_eq]
    simp
  · rw [answeredTrace_eq]
    simp

theorem echo_broadcast : Broadcast postedTrace "doc" echo := by
  refine ⟨1, Base64.strictEncode64 echo, .ok (), ?_, Base64.fromBase64_encode _⟩
  rw [postedTrace_eq]
  simp

theorem echo_acked : (1, .did (.transmit (ackEnvelope (.int 1))) (.ok ())) ∈ postedTrace := by
  rw [postedTrace_eq]
  simp

theorem posted_began : (1, .began posts) ∈ postedTrace := by
  rw [postedTrace_eq]
  simp

theorem acked_reached : ∃ w, Delivery.Reached Reference.crate seeded "doc" ofWriter
      (settling Reference.crate Reference.client seeded "doc") w ∧
    w.participants 0 = some acked ∧ w.server.world = postedTrace := by
  have start : Ahead Reference.crate seeded "doc" ofWriter
      (settling Reference.crate Reference.client seeded "doc") (World.initial _) [] _ [] 0 :=
    ahead_initial
  have born : (settling Reference.crate Reference.client seeded "doc").born [] blank := by
    have nothing : Reference.client.view blank = DocState.empty := Reference.Replica.state_empty
    change Backed _ [] (Reference.client.view blank)
    rw [nothing]
    exact backed_empty _
  have connected := (start.construct 0 none rfl born).input 0 (.fresh blank none) (.connect 0)
    (by simp) fun _ => ⟨rfl, by simp, rfl⟩
  have asked := connected.handled Reference.crate_laws asks fun _ =>
    .frame rfl (show _ = some online by simp [online]) (by decide +kernel) rfl rfl rfl
  have caught := asked.input 0 online (.receive ownAnswer) (by simp [online]) fun _ =>
    ⟨by decide +kernel, Or.inr ⟨0, by decide +kernel, answered_sentTo⟩⟩
  have edited := caught.input 0 caughtUp edit (by simp [caughtUp]) fun _ =>
    ⟨_, Reference.contentOf_encodeDelta character, Reference.Replica.apply_integrates _ character⟩
  have posted := edited.handled Reference.crate_laws posts fun _ =>
    .frame rfl (show _ = some typing by simp [typing]) (by decide +kernel) rfl rfl rfl
  have received := posted.input 0 typing (.receive echo) (by simp [typing]) fun _ =>
    ⟨by decide +kernel, Or.inl ⟨echo_broadcast, fun _ => by decide +kernel⟩⟩
  obtain ⟨tasks, reached, _⟩ := received.input 0 echoed (.ack (.int 1)) (by simp [echoed]) fun _ =>
    ⟨1, posts, .ok (), posted_began, rfl, echo_acked⟩
  exact ⟨_, reached, by simp [acked], rfl⟩

theorem acked_agrees : ∃ w : World Reference.client, w.participants 0 = some acked ∧
    Agrees (durable Reference.crate seeded w.server.world "doc") (Reference.client.view acked.doc) := by
  obtain ⟨w, reached, there, world⟩ := acked_reached
  obtain ⟨connection, before, after, _, split, _, agrees⟩ :=
    sessions_agree Reference.crate_laws Reference.client_laws (by decide +kernel) reached there
      (by decide +kernel) (by rfl) (by decide +kernel)
  have received : echo ∈ acked.heard := by simp [acked, echoed, Participant.takes]
  refine ⟨w, there, agrees fun c update mem => ⟨echo, received, ?_⟩⟩
  have recorded : (c, Event.recorded "doc" update) ∈ postedTrace := by
    rw [← world, split]
    exact List.mem_append_right _ mem
  rw [postedTrace_eq, answeredTrace_eq] at recorded
  simp at recorded
  rw [recorded.2]
  exact docFrame_update Reference.crate_laws _

end Yrby.Agreement
