import Yrby.Effects.Runs
import Yrby.Provider
import Yrby.Reference.Client

/- What the status rests on. The handlers of every subscription share the provider's
   fields and do not know which subscription they belong to, and subscriptions.create
   may call them before the field holds the new one. -/
namespace Yrby.Status
open Document Wire Effects Session Frames Provider

variable {js : Yjs} {y : Yrs}

/-- The inputs so far, each with the state it came to. -/
abbrev Past (js : Yjs) := List (ActionCableProvider js × Input js)

/-- The subscription has reported connected and not disconnected since. -/
def Live (past : Past js) (sub : Nat) : Prop := ∃ before s after,
  past = before ++ (s, .callback sub .connected) :: after ∧
  ∀ moment ∈ after, moment.2 ≠ .callback sub .disconnected

/-- A SyncStep1 was handed to the subscription's send. -/
def Opened (s : ActionCableProvider js) (sub : Nat) : Prop := ∃ doc : js.Doc,
  ⟨sub, false, envelope (.str (Base64.toBase64 (frameSyncStep1 doc))) none⟩ ∈ s.2.2.cable.handed

/-- The subscription there is, or one that is being created while there is none. -/
def Current (s : ActionCableProvider js) (sub : Nat) : Prop :=
  match s.2.2.subscription with
  | some current => sub = current
  | none => sub ∈ s.2.2.cable.creating

def claims : ProviderStatus → Bool
  | .connected | .synced => true
  | .connecting | .disconnected => false

/-- A status that claims a transport has a subscription that is live and opened. -/
def Backed (past : Past js) (s : ActionCableProvider js) : Prop := claims s.2.2.status = true →
  ∃ sub, s.2.2.subscription = some sub ∧ Live past sub ∧ Opened s sub

/-- No callback of another subscription than the current one has changed the
    subscription, the flags or the status. -/
def Undisturbed (past : Past js) : Prop :=
  ∀ moment ∈ past, ∀ sub callback, moment.2 = .callback sub callback →
    ¬ Current moment.1 sub → link (step moment.2 moment.1) = link moment.1

/-- A callback that finds nothing to do: no flag to change, and the status computed
    already. -/
def Idle (s : ActionCableProvider js) : Callback → Prop
  | .connected => s.2.2.connected = true ∧ (link s).refreshed = link s
  | .disconnected => s.2.2.connected = false ∧ s.2.1.synced = false ∧ (link s).refreshed = link s
  | .rejected => s.2.2.subscription = none
  | .received _ message =>
    match openMessage message with
    | .frame frame => (isSyncStep2 frame = true → s.2.1.synced = true) ∧ (link s).refreshed = link s
    | _ => True

/-- A callback comes from the current subscription, or is idle; create returns while
    nothing has reported connected. -/
def Sound (s : ActionCableProvider js) : Input js → Prop
  | .callback sub callback => Current s sub ∨ Idle s callback
  | .created => s.2.2.cable.creating ≠ [] → s.2.2.connected = false
  | _ => True

theorem live_next {past : Past js} {sub : Nat} (live : Live past sub) {s : ActionCableProvider js}
    {input : Input js} (stays : input ≠ .callback sub .disconnected) :
    Live (past ++ [(s, input)]) sub := by
  obtain ⟨before, s', after, rfl, since⟩ := live
  refine ⟨before, s', after ++ [(s, input)], by simp, ?_⟩
  intro moment mem
  rcases List.mem_append.mp mem with old | new
  · exact since moment old
  · obtain rfl := List.mem_singleton.mp new
    exact stays

theorem live_now (past : Past js) (s : ActionCableProvider js) (sub : Nat) :
    Live (past ++ [(s, .callback sub .connected)]) sub := ⟨past, s, [], rfl, by simp⟩

theorem Opened.mono {s t : ActionCableProvider js} {sub : Nat} (opened : Opened s sub)
    (handed : s.2.2.cable.handed <+: t.2.2.cable.handed) : Opened t sub := by
  obtain ⟨doc, mem⟩ := opened
  exact ⟨doc, handed.subset mem⟩

theorem addressed_syncStep1 (self : Fields js) (sub : Nat) (doc : js.Doc) :
    self.addressed sub (frameSyncStep1 doc) none =
      ⟨sub, false, envelope (.str (Base64.toBase64 (frameSyncStep1 doc))) none⟩ := by
  have tag : writeVarUint messageSync = [0] := by decide
  have plain : isAwareness (frameSyncStep1 doc) = false := by
    simp [frameSyncStep1, tag, isAwareness, messageAwareness]
  simp only [Fields.addressed, plain, Bool.false_and, Bool.false_eq_true, ↓reduceIte]

theorem refreshed_claims {l : Link} (claimed : claims l.refreshed.status = true) :
    l.connected = true ∧ l.subscription.isSome = true := by
  obtain ⟨subscription, connected, synced, status⟩ := l
  cases subscription with
  | none => simp [Link.refreshed, computeStatus, claims] at claimed
  | some sub =>
    cases connected with
    | false => simp [Link.refreshed, computeStatus, claims] at claimed
    | true => exact ⟨rfl, rfl⟩

/-- Where the status claims a transport it was computed so, and a transport that is
    up belongs to the subscription there is, unless that is still being created. -/
structure Honest (past : Past js) (s : ActionCableProvider js) : Prop where
  claimed : claims (link s).status = true →
    (link s).connected = true ∧ (link s).subscription.isSome = true
  carried : (link s).connected = true →
    (∃ sub, (link s).subscription = some sub ∧ Live past sub ∧ Opened s sub) ∨
    (link s).subscription = none ∧ s.2.2.cable.creating ≠ []

theorem Honest.low {past : Past js} {s : ActionCableProvider js} (down : (link s).connected = false)
    (silent : claims (link s).status = false) : Honest past s where
  claimed claimed := by simp [silent] at claimed
  carried up := by simp [down] at up

theorem Honest.onward {past : Past js} {s t : ActionCableProvider js} (honest : Honest past s)
    {input : Input js} (subscription : (link t).subscription = (link s).subscription)
    (connected : (link t).connected = (link s).connected)
    (status : (link t).status = (link s).status ∨ (link t).refreshed = link t)
    (creating : s.2.2.cable.creating ≠ [] → t.2.2.cable.creating ≠ [])
    (handed : s.2.2.cable.handed <+: t.2.2.cable.handed)
    (stays : (link s).connected = true → ∀ sub, input ≠ .callback sub .disconnected) :
    Honest (past ++ [(s, input)]) t where
  claimed claimed := by
    rcases status with same | fresh
    · rw [same] at claimed
      rw [subscription, connected]
      exact honest.claimed claimed
    · rw [← fresh] at claimed
      exact refreshed_claims claimed
  carried up := by
    rw [connected] at up
    rw [subscription]
    rcases honest.carried up with ⟨sub, there, live, opened⟩ | ⟨none, creates⟩
    · exact Or.inl ⟨sub, there, live_next live (stays up sub), opened.mono handed⟩
    · exact Or.inr ⟨none, creating creates⟩

theorem Honest.letGo {past : Past js} {s t : ActionCableProvider js} (honest : Honest past s)
    {h : Holding js} {input : Input js} (stays : ∀ sub, input ≠ .callback sub .disconnected)
    (moves : Moves h (if s.2.2.subscription.isSome then Link.down else link s) s t) :
    Honest (past ++ [(s, input)]) t := by
  cases subscribed : s.2.2.subscription with
  | none =>
    have linked : link t = link s := by simpa [subscribed] using moves.link
    exact honest.onward (by rw [linked]) (by rw [linked]) (Or.inl (by rw [linked]))
      (by rw [moves.creating]; exact id) moves.handed fun _ => stays
  | some sub =>
    have linked : link t = Link.down := by simpa [subscribed] using moves.link
    exact Honest.low (by rw [linked]; rfl) (by rw [linked]; rfl)

theorem Honest.still {past : Past js} {s t : ActionCableProvider js} (honest : Honest past s)
    {h : Holding js} {input : Input js} (stays : ∀ sub, input ≠ .callback sub .disconnected)
    (moves : Moves h (link s) s t) : Honest (past ++ [(s, input)]) t :=
  honest.onward (by rw [moves.link]) (by rw [moves.link]) (Or.inl (by rw [moves.link]))
    (by rw [moves.creating]; exact id) moves.handed fun _ => stays

theorem Honest.connected {past : Past js} {s : ActionCableProvider js} (honest : Honest past s)
    {sub : Nat} (current : Current s sub) :
    Honest (past ++ [(s, .callback sub .connected)]) (step (.callback sub .connected) s) := by
  obtain ⟨⟨l, became, moves⟩, handed⟩ := leaves_iff.mp (connected_leaves s)
  have linked : link (step (.callback sub .connected) s) = l := moves.link
  have creating : (step (.callback sub .connected) s).2.2.cable.creating = s.2.2.cable.creating :=
    moves.creating
  have up : l.connected = true ∧ l.subscription = s.2.2.subscription := by
    rcases became with rfl | rfl <;> exact ⟨rfl, rfl⟩
  refine ⟨fun claimed => ?_, fun _ => ?_⟩
  · rw [linked] at claimed ⊢
    rcases became with rfl | rfl
    · exact ⟨rfl, (honest.claimed claimed).2⟩
    · exact refreshed_claims claimed
  · rw [linked, up.2]
    unfold Current at current
    cases subscribed : s.2.2.subscription with
    | none =>
      rw [subscribed] at current
      rw [creating]
      exact Or.inr ⟨rfl, List.ne_nil_of_mem current⟩
    | some sub' =>
      rw [subscribed] at current
      obtain rfl := current
      have sent := handed sub subscribed
      rw [addressed_syncStep1] at sent
      exact Or.inl ⟨sub, rfl, live_now past s sub, _, sent⟩

theorem Honest.received (laws : js.Laws y) {past : Past js} {s : ActionCableProvider js}
    (honest : Honest past s) (sub : Nat) (whispered : Bool) (message : Value) :
    Honest (past ++ [(s, .callback sub (.received whispered message))])
      (step (.callback sub (.received whispered message)) s) := by
  have moves : Moves _ (relinked message (link s)) s
      (step (.callback sub (.received whispered message)) s) :=
    leaves_iff.mp (received_leaves laws s sub whispered message)
  have relinks : (relinked message (link s)).subscription = (link s).subscription ∧
      (relinked message (link s)).connected = (link s).connected ∧
      ((relinked message (link s)).status = (link s).status ∨
        (relinked message (link s)).refreshed = relinked message (link s)) := by
    unfold relinked
    split
    · exact ⟨rfl, rfl, Or.inr rfl⟩
    · exact ⟨rfl, rfl, Or.inl rfl⟩
  rw [← moves.link] at relinks
  refine honest.onward relinks.1 relinks.2.1 relinks.2.2 ?_ moves.handed (by simp)
  rw [moves.creating]
  exact id

theorem idle_still (laws : js.Laws y) {s : ActionCableProvider js} {sub : Nat} {callback : Callback}
    (idle : Idle s callback) : link (step (.callback sub callback) s) = link s := by
  cases callback with
  | connected =>
    obtain ⟨up, fresh⟩ := idle
    have same : { link s with connected := true } = link s := by simp [link, up]
    obtain ⟨⟨l, became, moves⟩, _⟩ := leaves_iff.mp (connected_leaves s)
    rw [same, fresh, or_self] at became
    exact moves.link.trans became
  | disconnected =>
    obtain ⟨down, unsynced, fresh⟩ := idle
    have same : { link s with connected := false, synced := false } = link s := by
      simp [link, down, unsynced]
    have linked := (disconnected_ends s).returns.link
    rw [same, fresh] at linked
    exact linked
  | rejected =>
    have none : s.2.2.subscription = none := idle
    rcases leaves_iff.mp (rejected_leaves s) with thrown | moves
    · exact thrown.2.link
    · have linked := moves.link
      simp only [none, Option.isSome_none, Bool.false_eq_true, ↓reduceIte] at linked
      exact linked
  | received whispered message =>
    have moves := leaves_iff.mp (received_leaves laws s sub whispered message)
    refine moves.link.trans ?_
    unfold relinked
    simp only [Idle] at idle
    cases is : openMessage message with
    | frame frame =>
      rw [is] at idle
      have same : { link s with synced := (link s).synced || isSyncStep2 frame } = link s := by
        cases step2 : isSyncStep2 frame with
        | false => simp [link]
        | true => simp [link, idle.1 step2]
      exact (congrArg Link.refreshed same).trans idle.2
    | _ => rfl

theorem Honest.callback (laws : js.Laws y) {past : Past js} {s : ActionCableProvider js}
    (honest : Honest past s) {sub : Nat} {callback : Callback}
    (sound : Sound s (.callback sub callback)) :
    Honest (past ++ [(s, .callback sub callback)]) (step (.callback sub callback) s) := by
  cases callback with
  | connected =>
    rcases sound with current | idle
    · exact honest.connected current
    · have linked : link (step (.callback sub .connected) s) = link s := idle_still laws idle
      obtain ⟨⟨l, _, moves⟩, _⟩ := leaves_iff.mp (connected_leaves s)
      have there : link (after Provider.connected s) = link s := linked
      rw [moves.link] at there
      rw [there] at moves
      exact honest.still (by simp) moves
  | disconnected =>
    have moves : Moves _ _ s (step (.callback sub .disconnected) s) := (disconnected_ends s).returns
    have down : (link (step (.callback sub .disconnected) s)).connected = false := by
      rw [moves.link]
      rfl
    refine Honest.low down (Bool.eq_false_iff.mpr fun claimed => ?_)
    rw [moves.link] at claimed
    have up := (refreshed_claims claimed).1
    simp at up
  | rejected =>
    rcases leaves_iff.mp (rejected_leaves s) with thrown | moves
    · exact honest.still (by simp) thrown.2
    · exact honest.letGo (by simp) moves
  | received whispered message => exact honest.received laws sub whispered message

theorem Honest.created {past : Past js} {s : ActionCableProvider js} (honest : Honest past s)
    (sound : Sound s .created) : Honest (past ++ [(s, .created)]) (step .created s) := by
  obtain ⟨_, _, linked⟩ := leaves_iff.mp (created_leaves s)
  cases creating : s.2.2.cable.creating with
  | nil =>
    rw [creating] at linked
    have same : step .created s = s := linked
    rw [same]
    exact honest.still (by simp) (Still.refl s)
  | cons sub outer =>
    rw [creating] at linked
    have became : link (step .created s) = { link s with subscription := some sub }.refreshed := linked
    have down : s.2.2.connected = false := sound (by simp [creating])
    refine Honest.low (by rw [became]; exact down) (Bool.eq_false_iff.mpr fun claimed => ?_)
    rw [became] at claimed
    have up : s.2.2.connected = true := (refreshed_claims claimed).1
    simp [down] at up

theorem honest_step (laws : js.Laws y) (past : Past js) (s : ActionCableProvider js) (input : Input js)
    (honest : Honest past s) (sound : Sound s input) :
    Honest (past ++ [(s, input)]) (step input s) := by
  cases same : sameLink input with
  | true =>
    refine honest.still (fun sub is => ?_) (step_sameLink s input same)
    simp [is, sameLink] at same
  | false =>
    cases input with
    | connect =>
      obtain ⟨_, linked, creating, handed⟩ := leaves_iff.mp (connect_leaves s)
      refine honest.onward (congrArg Link.subscription linked) (congrArg Link.connected linked)
        (Or.inl (congrArg Link.status linked)) ?_ handed (by simp)
      intro creates none
      exact creates (List.suffix_nil.mp (none ▸ creating))
    | created => exact honest.created sound
    | disconnect =>
      rcases leaves_iff.mp (disconnect_leaves s) with thrown | moves
      · exact honest.still (by simp) thrown.2
      · exact honest.letGo (by simp) moves
    | destroy =>
      rcases leaves_iff.mp (destroy_leaves s) with thrown | moves
      · exact honest.still (by simp) thrown.2
      · exact honest.letGo (by simp) moves
    | callback sub callback => exact honest.callback laws sound
    | _ => simp [sameLink] at same

/-- In a run whose inputs are all sound, the status claims a transport only where the
    current subscription is live and opened, and no earlier one has changed anything. -/
theorem status_truthful (laws : js.Laws y) (doc : js.Doc) (whispers window : Bool) (past : Past js)
    (s : ActionCableProvider js) (run : Ran step (construct doc whispers window) past s)
    (sound : ∀ moment ∈ past, Sound moment.1 moment.2) : Backed past s ∧ Undisturbed past := by
  have initial : Honest [] (construct doc whispers window : ActionCableProvider js) :=
    Honest.low rfl rfl
  have honest := run.keeps initial (honest_step laws) sound
  refine ⟨fun claimed => ?_, ?_⟩
  · obtain ⟨up, subscribed⟩ := honest.claimed claimed
    rcases honest.carried up with there | ⟨none, _⟩
    · exact there
    · simp [none] at subscribed
  · intro moment mem sub callback is earlier
    have met := sound moment mem
    rw [is] at met ⊢
    rcases met with current | idle
    · exact absurd current earlier
    · exact idle_still laws idle

def offline : ActionCableProvider Reference.client := construct Reference.client.newDoc true true

def linked : ActionCableProvider Reference.client := step .created (step .connect offline)

theorem linked_backed : (step (.callback 0 .connected) linked).2.2.status = .connected ∧
    ∃ sub, (step (.callback 0 .connected) linked).2.2.subscription = some sub ∧
      Opened (step (.callback 0 .connected) linked) sub := by
  have run : Ran step offline [(offline, Input.connect), (step .connect offline, Input.created),
      (linked, .callback 0 .connected)] (step (.callback 0 .connected) linked) :=
    ((Ran.start.next Input.connect).next Input.created).next (.callback 0 .connected)
  have status : (step (.callback 0 .connected) linked).2.2.status = .connected := by decide +kernel
  have truthful := status_truthful Reference.client_laws _ true true _ _ run (by
    intro moment mem
    simp only [List.mem_cons, List.not_mem_nil, or_false] at mem
    rcases mem with rfl | rfl | rfl
    · trivial
    · exact fun _ => rfl
    · have current : linked.2.2.subscription = some 0 := by decide +kernel
      exact Or.inl (by simp [Current, current]))
  obtain ⟨sub, subscribed, _, opened⟩ := truthful.1 (by rw [status]; rfl)
  exact ⟨status, sub, subscribed, opened⟩

def renewed : ActionCableProvider Reference.client :=
  step .created (step .connect (step .disconnect (step (.callback 0 .connected) linked)))

/-- A subscription that reports connected while it is being created is never opened,
    and one that was let go raises the flag of its successor. -/
theorem connected_unfounded :
    (¬ ∀ past (s : ActionCableProvider Reference.client), Ran step offline past s → Backed past s) ∧
    ¬ ∀ past (s : ActionCableProvider Reference.client), Ran step offline past s →
      claims s.2.2.status = true → Undisturbed past := by
  constructor
  · intro backed
    have run : Ran step offline _ _ :=
      ((Ran.start.next Input.connect).next (.callback 0 .connected)).next Input.created
    obtain ⟨sub, _, _, doc, mem⟩ := backed _ _ run (by decide +kernel)
    have silent : (step .created (step (.callback 0 .connected) (step .connect offline))).2.2.cable.handed
        = [] := List.isEmpty_iff.mp (by decide +kernel)
    rw [silent] at mem
    simp at mem
  · intro undisturbed
    have run : Ran step offline _ (step (.callback 0 .connected) renewed) :=
      ((((((Ran.start.next Input.connect).next Input.created).next (.callback 0 .connected)).next
        Input.disconnect).next Input.connect).next Input.created).next (.callback 0 .connected)
    have other : renewed.2.2.subscription = some 1 := by decide +kernel
    have same := undisturbed _ _ run (by decide +kernel) (renewed, .callback 0 .connected)
      (by simp [renewed, linked]) 0 .connected rfl (by simp [Current, other])
    exact absurd same (by decide +kernel)

end Yrby.Status
