import Yrby.Delivery
import Yrby.Reference.Client

/- Why no edit is lost: what a session has pruned is durable, and every frame of it in
   flight stands for a stretch of its edits whose earlier ones were pruned by then. -/
namespace Yrby.NoLoss
open Causal Document Wire Yrs Protocol Effects ReliableSync Session Channel History DurableLog
open Client Delivery

/-- Updates under consecutive seqs, the first one right after k. -/
def number : Nat → List Bytes → List Pending
  | _, [] => []
  | k, update :: rest => ⟨k + 1, update⟩ :: number (k + 1) rest

theorem number_append (k : Nat) (l : List Bytes) (update : Bytes) :
    number k (l ++ [update]) = number k l ++ [⟨k + l.length + 1, update⟩] := by
  induction l generalizing k with
  | nil => rfl
  | cons first rest ih =>
    simp only [number, List.cons_append, ih, List.length_cons]
    congr 4
    omega

theorem number_updates (k : Nat) (l : List Bytes) : (number k l).map Pending.update = l := by
  induction l generalizing k with
  | nil => rfl
  | cons first rest ih => simp [number, ih]

theorem number_last {k : Nat} {l : List Bytes} {last : Pending}
    (ends : (number k l).getLast? = some last) : last.seq = k + l.length := by
  rcases List.eq_nil_or_concat l with rfl | ⟨front, update, rfl⟩
  · simp [number] at ends
  · rw [List.concat_eq_append, number_append, List.getLast?_append] at ends
    simp only [List.getLast?_singleton, Option.some_or, Option.some.injEq] at ends
    rw [← ends]
    simp [Nat.add_assoc]

theorem number_mem {k i : Nat} {l : List Bytes} {update : Bytes} (nth : l[i]? = some update) :
    ⟨k + i + 1, update⟩ ∈ number k l := by
  induction l generalizing k i with
  | nil => simp at nth
  | cons first rest ih =>
    cases i with
    | zero =>
      obtain rfl : first = update := by simpa using nth
      simp [number]
    | succ i =>
      have inside := ih (k := k + 1) (i := i) (by simpa using nth)
      rw [number, show k + (i + 1) + 1 = k + 1 + i + 1 by omega]
      exact List.mem_cons_of_mem _ inside

/-- Pruning up to n drops as many updates as n is above k. -/
theorem prune_number (n k : Nat) (l : List Bytes) :
    (number k l).filter (n < ·.seq) = number (k + (n - k)) (l.drop (n - k)) := by
  induction l generalizing k with
  | nil => simp [number]
  | cons first rest ih =>
    by_cases kept : n ≤ k
    · have all : ∀ p ∈ number k (first :: rest), decide (n < p.seq) = true := by
        have above : ∀ (j : Nat) (l : List Bytes), n ≤ j → ∀ p ∈ number j l, n < p.seq := by
          intro j l
          induction l generalizing j with
          | nil => simp [number]
          | cons update l ih =>
            intro le p mem
            rcases List.mem_cons.mp mem with rfl | mem
            · exact Nat.lt_succ_of_le le
            · exact ih (j + 1) (by omega) p mem
        exact fun p mem => decide_eq_true (above k _ kept p mem)
      rw [List.filter_eq_self.mpr all, Nat.sub_eq_zero_of_le kept]
      rfl
    · have more : n - k = (n - (k + 1)) + 1 := by omega
      rw [number, List.filter_cons_of_neg (by simp; omega), ih, more, List.drop_succ_cons]
      congr 1
      omega

def Joins (y : Yrs) (updates : List Bytes) (tail : Bytes) : Prop :=
  ∃ contents, updates.map y.contentOf = contents.map some ∧
    y.contentOf tail = some (Content.join contents)

variable {y : Yrs} {stored : String → List Bytes} {key : String} {js : Yjs}
  {holder : Nat → Option Nat} {h : Trace}

theorem contents_exist {updates : List Bytes}
    (decode : ∀ u ∈ updates, ∃ c, y.contentOf u = some c) :
    ∃ contents : List Content, updates.map y.contentOf = contents.map some := by
  induction updates with
  | nil => exact ⟨[], rfl⟩
  | cons u rest ih =>
    obtain ⟨c, carried⟩ := decode u (by simp)
    obtain ⟨contents, all⟩ := ih fun u mem => decode u (List.mem_cons_of_mem _ mem)
    exact ⟨c :: contents, by simp [carried, all]⟩

theorem frameUpdate_eq (jsLaws : js.Laws y) (update : Bytes) :
    frameUpdate js update = syncFrame messageYjsUpdate update := by
  rw [frameUpdate, jsLaws.writeUpdate_eq, ← List.append_assoc]
  rfl

theorem mergeTail_joins (jsLaws : js.Laws y) {updates : List Bytes} {tail : Bytes}
    (decode : ∀ u ∈ updates, ∃ c, y.contentOf u = some c)
    (merged : mergeTail js.mergeUpdates updates = .ok tail) : Joins y updates tail := by
  obtain ⟨contents, carried⟩ := contents_exist decode
  refine ⟨contents, carried, ?_⟩
  unfold mergeTail at merged
  split at merged
  · obtain rfl := Except.ok.inj merged
    obtain ⟨c, rfl⟩ : ∃ c, contents = [c] := List.length_eq_one_iff.mp (by
      simpa using (congrArg List.length carried).symm)
    simpa [join_singleton] using carried
  · obtain ⟨other, ok, joined⟩ := jsLaws.merge_joins updates contents carried
    obtain rfl := Except.ok.inj (ok.symm.trans merged)
    exact joined

theorem Joins.held {updates : List Bytes} {tail : Bytes} (joins : Joins y updates tail)
    (held : Durable y stored h key tail) : ∀ u ∈ updates, Durable y stored h key u := by
  obtain ⟨contents, carried, joined⟩ := joins
  obtain ⟨content, same, contains⟩ := held
  obtain rfl := Option.some.inj (joined.symm.trans same)
  intro u mem
  have listed : y.contentOf u ∈ contents.map some := carried ▸ List.mem_map_of_mem mem
  obtain ⟨c, inside, eq⟩ := List.mem_map.mp listed
  refine ⟨c, eq.symm, ?_, ?_⟩
  · have part : c.blocks ⊆ (Content.join contents).blocks := fun b there => ⟨c, inside, there⟩
    exact (keys_mono part).trans contains.1
  · exact fun i there => contains.2 ⟨c, inside, there⟩

/-- A reliable frame stands for the edits up to its id; those it does not carry
    itself were durable when it was sent. -/
def Bundle (y : Yrs) (stored : String → List Bytes) (key : String) (h : Trace)
    (enqueued : List Bytes) (id : Nat) (frame : Bytes) : Prop :=
  ∃ front middle later tail, enqueued = front ++ middle ++ later ∧
    id = front.length + middle.length ∧ (∀ u ∈ front, Durable y stored h key u) ∧
    frame = syncFrame messageYjsUpdate tail ∧ Joins y middle tail

/-- The queue is the rest of the edits in order, and all before it is durable. -/
structure Queued (y : Yrs) (stored : String → List Bytes) (key : String) (h : Trace)
    (enqueued : List Bytes) (sync : ReliableSync) : Prop where
  rest : ∃ front rest, enqueued = front ++ rest ∧ sync.pending = number front.length rest ∧
    ∀ u ∈ front, Durable y stored h key u
  nextSeq : sync.nextSeq = enqueued.length + 1

structure Kept (y : Yrs) (stored : String → List Bytes) (key : String) {js : Yjs} (h : Trace)
    (p : Participant js) : Prop where
  queue : Queued y stored key h p.enqueued p.session.1
  decode : ∀ u ∈ p.enqueued, ∃ c, y.contentOf u = some c
  sent : ∀ e ∈ p.sent, ∀ id, e.id = some id → Bundle y stored key h p.enqueued id e.frame

theorem Bundle.later (laws : y.Laws) {enqueued : List Bytes} {id : Nat} {frame : Bytes}
    (bundle : Bundle y stored key h enqueued id frame) (ext : Trace) (more : List Bytes) :
    Bundle y stored key (h ++ ext) (enqueued ++ more) id frame := by
  obtain ⟨front, middle, later, tail, rfl, rfl, held, rest⟩ := bundle
  exact ⟨front, middle, later ++ more, tail, by simp, rfl, fun u mem => (held u mem).later laws ext,
    rest⟩

theorem Queued.later (laws : y.Laws) {enqueued : List Bytes} {self : ReliableSync}
    (queued : Queued y stored key h enqueued self) (ext : Trace) :
    Queued y stored key (h ++ ext) enqueued self := by
  obtain ⟨front, rest, split, pending, held⟩ := queued.rest
  exact ⟨⟨front, rest, split, pending, fun u mem => (held u mem).later laws ext⟩, queued.nextSeq⟩

theorem Kept.later (laws : y.Laws) {p : Participant js} (kept : Kept y stored key h p)
    (ext : Trace) : Kept y stored key (h ++ ext) p := by
  refine ⟨kept.queue.later laws ext, kept.decode, fun e mem id some => ?_⟩
  have bundle := (kept.sent e mem id some).later laws ext []
  rwa [List.append_nil] at bundle

/-- A frame whose content is durable confirms every edit up to its id. -/
theorem Bundle.confirms (laws : y.Laws) {enqueued : List Bytes} {id : Nat} {frame update : Bytes}
    (bundle : Bundle y stored key h enqueued id frame) (carries : IsDocFrame y frame update)
    (held : Durable y stored h key update) :
    id ≤ enqueued.length ∧ ∀ u ∈ enqueued.take id, Durable y stored h key u := by
  obtain ⟨front, middle, later, tail, rfl, rfl, before, rfl, joins⟩ := bundle
  obtain rfl := docFrame_unique (docFrame_update laws tail) carries
  refine ⟨by simp, fun u mem => ?_⟩
  rw [← List.length_append, List.take_left'] at mem
  · rcases List.mem_append.mp mem with old | new
    · exact before u old
    · exact joins.held held u new
  · rfl

def Confirmed (y : Yrs) (stored : String → List Bytes) (key : String) (h : Trace)
    (enqueued : List Bytes) (id : Value) : Prop :=
  ∀ n, ackedSeq id = some n → ∀ u ∈ enqueued.take n, Durable y stored h key u

theorem Queued.push {enqueued : List Bytes} {self : ReliableSync}
    (queued : Queued y stored key h enqueued self) (update : Bytes) :
    Queued y stored key h (enqueued ++ [update]) (push self update) := by
  obtain ⟨front, rest, rfl, pending, held⟩ := queued.rest
  have next := queued.nextSeq
  rw [List.length_append] at next
  refine ⟨⟨front, rest ++ [update], by simp, ?_, held⟩, by
    simp [Client.push, next, Nat.add_assoc]⟩
  rw [Client.push, number_append, pending, next]

theorem Queued.acked {enqueued : List Bytes} {self : ReliableSync} {id : Value}
    (queued : Queued y stored key h enqueued self)
    (confirmed : Confirmed y stored key h enqueued id) :
    Queued y stored key h enqueued (self.acked id) := by
  unfold ReliableSync.acked
  split
  · rename_i n acked
    split
    · exact queued
    · obtain ⟨front, rest, rfl, pending, held⟩ := queued.rest
      refine ⟨⟨front ++ rest.take (n - front.length), rest.drop (n - front.length), ?_, ?_, ?_⟩,
        queued.nextSeq⟩
      · rw [List.append_assoc, List.take_append_drop]
      · rw [prune, pending, prune_number]
        by_cases short : n - front.length ≤ rest.length
        · rw [List.length_append, List.length_take_of_le short]
        · rw [List.drop_eq_nil_of_le (by omega)]
          rfl
      · intro u mem
        rcases List.mem_append.mp mem with old | new
        · exact held u old
        · apply confirmed n acked
          rw [List.take_append]
          exact List.mem_append_right _ new
  · exact queued

theorem Queued.acked_split {enqueued : List Bytes} {sync : ReliableSync} {id : Value}
    (queued : Queued y stored key h enqueued sync)
    (confirmed : Confirmed y stored key h enqueued id) :
    ∃ pruned, sync.updates = pruned ++ (sync.acked id).updates ∧
      ∀ u ∈ pruned, Durable y stored h key u := by
  unfold ReliableSync.acked
  split
  · rename_i n acked
    split
    · exact ⟨[], rfl, by simp⟩
    · obtain ⟨front, rest, rfl, pending, _⟩ := queued.rest
      refine ⟨rest.take (n - front.length), ?_, fun u mem => confirmed n acked u ?_⟩
      · rw [updates, updates, prune, pending, prune_number, number_updates, number_updates,
          List.take_append_drop]
      · rw [List.take_append]
        exact List.mem_append_right _ mem
  · exact ⟨[], rfl, by simp⟩

theorem Queued.bundle (jsLaws : js.Laws y) {enqueued : List Bytes} {self : ReliableSync}
    {update : Bytes} {last : Pending} (queued : Queued y stored key h enqueued self)
    (decode : ∀ u ∈ enqueued, ∃ c, y.contentOf u = some c)
    (ends : self.pending.getLast? = some last)
    (merged : mergeTail js.mergeUpdates (self.pending.map Pending.update) = .ok update) :
    Bundle y stored key h enqueued last.seq (frameUpdate js update) := by
  obtain ⟨front, rest, rfl, pending, held⟩ := queued.rest
  rw [pending, number_updates] at merged
  rw [pending] at ends
  exact ⟨front, rest, [], update, by simp, number_last ends, held, frameUpdate_eq jsLaws update,
    mergeTail_joins jsLaws (fun u mem => decode u (List.mem_append_right _ mem)) merged⟩

def Fair (y : Yrs) (stored : String → List Bytes) (key : String) (h : Trace) (p : Participant js) :
    Input js → Prop
  | .transact _ update => ∃ c, y.contentOf update = some c
  | .ack id => Confirmed y stored key h p.enqueued id
  | _ => True

theorem Kept.change {p : Participant js} (kept : Kept y stored key h p) {input : Input js}
    (fair : Fair y stored key h p input)
    (attached : (Client.change input p.session).2.1.attached = true) :
    Queued y stored key h (p.takes input).enqueued (Client.change input p.session).1 ∧
    (∀ u ∈ (p.takes input).enqueued, ∃ c, y.contentOf u = some c) ∧
    ∃ more, (p.takes input).enqueued = p.enqueued ++ more := by
  have same : Queued y stored key h p.enqueued p.session.1 ∧
      (∀ u ∈ p.enqueued, ∃ c, y.contentOf u = some c) ∧ ∃ more, p.enqueued = p.enqueued ++ more :=
    ⟨kept.queue, kept.decode, [], by simp⟩
  cases input with
  | transact doc update =>
    have on : p.attached = true := attached
    have on' : p.session.2.1.attached = true := attached
    simp only [Participant.takes, Client.change, on, on', ↓reduceIte]
    refine ⟨kept.queue.push update, fun u mem => ?_, _, rfl⟩
    rcases List.mem_append.mp mem with old | new
    · exact kept.decode u old
    · exact List.mem_singleton.mp new ▸ fair
  | ack id => exact ⟨kept.queue.acked fair, same.2⟩
  | destroy => simp [Client.change] at attached
  | _ => exact same

/-- Step lemma: whatever a session takes, it keeps what it has to keep. -/
theorem Kept.takes (jsLaws : js.Laws y) {p : Participant js} (kept : Kept y stored key h p)
    (memo : Memoized js.mergeUpdates p.session.1) {input : Input js}
    (fair : Fair y stored key h p input) (attached : (p.takes input).attached = true) :
    Kept y stored key h (p.takes input) := by
  have emits := takes_emits jsLaws input memo
  rw [Participant.attached, emits.attached] at attached
  obtain ⟨queue, decode, more, grown⟩ := kept.change fair attached
  refine ⟨⟨?_, emits.nextSeq.trans queue.nextSeq⟩, decode, fun e mem id some => ?_⟩
  · obtain ⟨front, rest, split, pending, held⟩ := queue.rest
    exact ⟨front, rest, split, emits.pending.trans pending, held⟩
  · obtain ⟨l, sent, kinds⟩ := emits.sent
    rw [Participant.sent, sent, change_sent] at mem
    rcases List.mem_append.mp mem with old | new
    · have bundle := kept.sent e old id some
      obtain ⟨front, middle, later, tail, split, rest⟩ := bundle
      exact ⟨front, middle, later ++ more, tail, by simp [grown, split], rest⟩
    · cases (kinds e new).2 with
      | syncStep1 _ none => simp [none] at some
      | awareness _ none => simp [none] at some
      | answer _ none => simp [none] at some
      | tail ends merged frame is =>
        obtain rfl := Option.some.inj (is.symm.trans some)
        rw [frame]
        exact queue.bundle jsLaws decode ends merged

variable {setting : Setting js} {w : World js}

/-- An ack that comes back to a session confirms all edits up to its id. -/
theorem ack_confirms (laws : y.Laws) {p : Nat} {participant : Participant js} {id : Value}
    (order : InOrder y stored w.server.world) (sane : Sane w key holder)
    (there : w.participants p = some participant)
    (kept : Kept y stored key w.server.world participant)
    (acked : AckSent holder w.server.world p id) :
    Confirmed y stored key w.server.world participant.enqueued id := by
  obtain ⟨c, call, reply, began, held, sent⟩ := acked
  obtain ⟨before, after, split⟩ := List.append_of_mem sent
  obtain ⟨key', encoded, bytes, update, received, frame, ⟨earlier, between, rfl, durable⟩, _⟩ :=
    Recording.acked_because (order.transmitted split)
  obtain ⟨call', began', carries, keyed, sameId⟩ := received.began
  obtain rfl := order.single c call call' began (by rw [split]; exact List.mem_append_left _ began')
  intro n isSeq
  rcases sane.owned c call p began held with subscribed | ⟨participant', e, room, there', mem, on,
    request, keyed'⟩
  · obtain ⟨_, _, received, _⟩ := carries
    simp [subscribed] at received
  · obtain rfl := Option.some.inj (there.symm.trans there')
    obtain rfl := Option.some.inj (keyed.symm.trans keyed')
    obtain rfl := envelope_carries request carries
    have durable : Durable y stored w.server.world key' update := by
      rw [split, List.append_assoc]
      exact durable.later laws _
    have tagged : e.id = some n := by
      have same : (envelope e).fetch "id" = .int n := by
        rw [← ackedSeq_some isSeq, ← sameId, Call.id, request]
      rw [envelope_id] at same
      split at same
      · rename_i id tagged
        have : (id : Int) = n := Value.int.inj same
        rw [tagged, Int.ofNat.inj this]
      · simp at same
    exact ((kept.sent e mem n tagged).confirms laws frame durable).2

/-- Any document, any edits, any remote updates, any frames. An update that the
    document emits is an update. -/
def anything (y : Yrs) (js : Yjs) : Setting js where
  born _ _ := True
  edits _ _ _ update := ∃ c, y.contentOf update = some c
  remote _ _ := True
  frames _ _ _ _ := True

theorem attached_before {input : Input js} {participant : Participant js}
    (jsLaws : js.Laws y) (memo : Memoized js.mergeUpdates participant.session.1)
    (attached : (participant.takes input).attached = true) : participant.attached = true := by
  rw [Participant.attached, (takes_emits jsLaws input memo).attached] at attached
  cases input with
  | destroy => simp [Client.change] at attached
  | _ => exact attached

theorem kept_fresh (doc : js.Doc) (awareness : Option js.Awareness) :
    Kept y stored key h (Participant.fresh doc awareness) where
  queue := ⟨⟨[], [], rfl, rfl, by simp⟩, rfl⟩
  decode := by simp [Participant.fresh]
  sent := by simp [Participant.fresh, Participant.sent, Session.construct, Host.idle]

theorem reached_kept (laws : y.Laws) (jsLaws : js.Laws y)
    (edits : ∀ h doc doc' update, setting.edits h doc doc' update → ∃ c, y.contentOf update = some c)
    (reached : Reached y stored key holder setting w) {p : Nat} {participant : Participant js}
    (there : w.participants p = some participant) (attached : participant.attached = true) :
    Kept y stored key w.server.world participant := by
  refine reached.every (F := fun h _ participant => participant.attached = true →
    Kept y stored key h participant) ?_ ?_ ?_ laws there attached
  · exact fun _ _ doc awareness _ _ _ => kept_fresh doc awareness
  · exact fun _ ext _ _ _ _ _ kept attached => (kept attached).later laws ext
  · intro w p participant input reached there allowed kept attached
    have sane := reached_sane jsLaws reached
    have memo := sane.memo p participant there
    have kept := kept (attached_before jsLaws memo attached)
    refine kept.takes jsLaws memo ?_ attached
    cases input with
    | transact doc update => exact edits _ _ _ _ allowed
    | ack id => exact ack_confirms laws (reached_order laws reached) sane there kept allowed
    | _ => trivial

/-- No edit is lost end to end: at every moment of every run, every update that a
    session not destroyed has enqueued is still in its queue, or its whole content is
    integrated in the replay of the durable log. -/
theorem no_edit_lost (laws : y.Laws) (jsLaws : js.Laws y)
    (reached : Reached y stored key holder (anything y js) w) {p : Nat}
    {participant : Participant js} (there : w.participants p = some participant)
    (attached : participant.attached = true) {i : Nat} {update : Bytes}
    (nth : participant.enqueued[i]? = some update) :
    ⟨i + 1, update⟩ ∈ participant.pending ∨ Durable y stored w.server.world key update := by
  have kept := reached_kept laws jsLaws (fun _ _ _ _ edit => edit) reached there attached
  obtain ⟨front, rest, split, pending, held⟩ := kept.queue.rest
  rw [split] at nth
  by_cases pruned : i < front.length
  · rw [List.getElem?_append_left pruned] at nth
    exact Or.inr (held update (List.mem_of_getElem? nth))
  · rw [List.getElem?_append_right (by omega)] at nth
    have waiting := number_mem (k := front.length) nth
    rw [show front.length + (i - front.length) + 1 = i + 1 by omega, ← pending] at waiting
    exact Or.inl waiting

def blank : Reference.Tab := ⟨.empty, 1⟩

def character : Reference.Delta := ⟨[Reference.typed 1 0 none], []⟩

def keystroke : Input Reference.client :=
  .transact (⟨blank.replica.apply character, 1⟩ : Reference.Tab) (Reference.encodeDelta character)

def writer : Participant Reference.client :=
  ((Participant.fresh (blank : Reference.client.Doc) none).takes keystroke).takes (.connect 0)

def posted : Call where
  connection := 0
  channel := ⟨none, true, true, none, false⟩
  request := .receive (envelope ⟨some 0, syncFrame 2 (Reference.encodeDelta character), some 1⟩)
    (some "doc")

def posting : Trace := handled Reference.crate (fun _ => []) 0 posted []

def ofWriter (connection : Nat) : Option Nat := if connection = 0 then some 0 else none

def settled : Participant Reference.client := writer.takes (.ack (.int 1))

theorem posting_acked : (0, .did (.transmit (ackEnvelope (.int 1))) (.ok ())) ∈ posting := by
  have last : posting = posting.dropLast ++
      [(0, .did (.transmit (ackEnvelope (.int 1))) (.ok ()))] := by rfl
  rw [last]
  simp

theorem posting_began : (0, .began posted) ∈ posting := by
  have first : posting = (0, .began posted) :: posting.tail := by rfl
  rw [first]
  simp

theorem settled_reached (setting : Setting Reference.client)
    (connects : ∀ participant, setting.connects participant) (born : setting.born [] blank)
    (edits : setting.edits [] blank (⟨blank.replica.apply character, 1⟩ : Reference.Tab)
      (Reference.encodeDelta character)) :
    ∃ w, Reached Reference.crate (fun _ => []) "doc" ofWriter setting w ∧
      w.server.world = posting ∧ w.participants 0 = some settled := by
  have start : Ahead Reference.crate (fun _ => []) "doc" ofWriter setting (World.initial _) [] _ [] 0 :=
    ahead_initial
  have typed := (start.construct 0 none rfl born).input 0 (.fresh blank none) keystroke
    (by simp) fun _ => edits
  have connected := typed.input 0 _ (.connect 0) (Function.update_self _ _ _) fun _ =>
    ⟨rfl, by simp [claimed, keystroke], connects _⟩
  have handled := connected.handled Reference.crate_laws posted fun _ =>
    .frame (p := 0) rfl (show _ = some writer by simp [writer]) (by decide +kernel) rfl rfl rfl
  obtain ⟨tasks, reached, _⟩ := handled.input 0 writer (.ack (.int 1)) (by simp [writer])
    fun _ => ⟨0, posted, .ok (), posting_began, rfl, posting_acked⟩
  exact ⟨_, reached, rfl, by simp [settled]⟩

theorem settled_durable : ∃ w : World Reference.client, w.participants 0 = some settled ∧
    settled.pending = [] ∧ settled.enqueued = [Reference.encodeDelta character] ∧
    Durable Reference.crate (fun _ => []) w.server.world "doc" (Reference.encodeDelta character) := by
  obtain ⟨w, reached, _, there⟩ := settled_reached (anything Reference.crate Reference.client)
    (fun _ => trivial) trivial ⟨_, Reference.contentOf_encodeDelta character⟩
  have empty : settled.pending = [] := by rfl
  have either := no_edit_lost Reference.crate_laws Reference.client_laws reached there (by rfl)
    (show settled.enqueued[0]? = some (Reference.encodeDelta character) by rfl)
  refine ⟨w, there, empty, by rfl, either.resolve_left ?_⟩
  simp [empty]

end Yrby.NoLoss
