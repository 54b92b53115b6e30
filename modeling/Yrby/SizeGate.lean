import Mathlib.Data.String.Basic
import Yrby.Channel
import Yrby.Reference.Crate

/- max_frame_bytes (sync.rb): the cap is checked on the encoded text, before it is
   decoded, and once more on the bytes. -/
namespace Yrby.SizeGate
open Document Effects Base64 Channel

theorem charOf_ascii {n : Nat} (small : n < 64) : (charOf n).utf8Size = 1 := by
  have all : ∀ m : Fin 64, (charOf m).utf8Size = 1 := by decide
  exact all ⟨n, small⟩

theorem encodeChars_size (bytes : Bytes) :
    String.utf8Len (encodeChars bytes) = (bytes.length + 2) / 3 * 4 := by
  have pad : '='.utf8Size = 1 := by decide
  induction bytes using encodeChars.induct with
  | case1 => simp [encodeChars]
  | case2 a =>
    obtain ⟨one, two, _⟩ := sextets a 0 0
    simp only [UInt8.toNat_zero, Nat.zero_div, Nat.add_zero] at two
    simp [encodeChars, charOf_ascii one, charOf_ascii two, pad]
  | case3 a b =>
    obtain ⟨one, two, three, _⟩ := sextets a b 0
    simp only [UInt8.toNat_zero, Nat.zero_div, Nat.add_zero] at three
    simp [encodeChars, charOf_ascii one, charOf_ascii two, charOf_ascii three, pad]
  | case4 a b c rest ih =>
    obtain ⟨one, two, three, four⟩ := sextets a b c
    simp only [encodeChars, String.utf8Len_cons, charOf_ascii one, charOf_ascii two,
      charOf_ascii three, charOf_ascii four, ih, List.length_cons]
    omega

theorem strictEncode64_size (bytes : Bytes) :
    (strictEncode64 bytes).utf8ByteSize = (bytes.length + 2) / 3 * 4 := by
  rw [strictEncode64, String.utf8ByteSize_ofList, encodeChars_size]

section
variable {self : Instance} {cap : Nat}

theorem exceedsDecoded_iff (limited : self.maxFrameBytes = some cap) (bytes : Bytes) :
    exceedsDecoded self bytes = true ↔ cap < bytes.length := by
  simp [exceedsDecoded, limited]

/-- No residue of the length loses a frame within the cap. -/
theorem encoded_within (limited : self.maxFrameBytes = some cap) {bytes : Bytes}
    (within : bytes.length ≤ cap) : exceedsEncoded self (strictEncode64 bytes) = false := by
  simp only [exceedsEncoded, limited, strictEncode64_size, decide_eq_false_iff_not]
  omega

theorem let_through (limited : self.maxFrameBytes = some cap) {text : String} {bytes : Bytes}
    (short : exceedsEncoded self text = false) (decoded : strictDecode64 text = some bytes) :
    bytes.length ≤ cap + 3 := by
  have spelled : strictEncode64 bytes = text := by
    rw [strictEncode64, encode_strictDecode decoded, String.ofList_toList]
  simp only [exceedsEncoded, limited, ← spelled, strictEncode64_size,
    decide_eq_false_iff_not] at short
  omega

end

section
variable (y : Yrs)

def Unlogged (action : Action) : Prop := ∀ level reason id, action ≠ .logDrop level reason id

theorem permits_unlogged (key : String) : Permits Unlogged key where
  loads := by simp [Unlogged]
  records := by simp [Unlogged]
  broadcasts := by simp [Unlogged]
  transmits := by simp [Unlogged]

/-- What the size checks leave of a message with the text of these bytes. -/
def sized (self : Instance) (id : Value) (bytes : Bytes) : Handler Unit :=
  if exceedsEncoded self (strictEncode64 bytes) then
    Program.act (Action.logDrop .warn
      (capReason self "encoded" (strictEncode64 bytes).utf8ByteSize) id)
  else if exceedsDecoded self bytes then
    Program.act (Action.logDrop .warn (capReason self "decoded" bytes.length) id)
  else syncHandleFrame y self (strictEncode64 bytes) bytes >>= syncSendAck id

variable {y} {self : Instance} {data : Value} {key : Option String} {bytes : Bytes}

theorem receive_sized (carried : data.fetch "update" = .str (strictEncode64 bytes)) :
    syncReceive y self data key =
      sized y { self with syncKey := key.or self.syncKey } (data.fetch "id") bytes := by
  simp only [syncReceive, carried, strictDecode64_encode, sized]

/-- A frame gets past both checks exactly when it is no longer than the cap. Of any other
    text the first check leaves at most three bytes for the second to catch. -/
theorem size_gate {cap : Nat} (limited : self.maxFrameBytes = some cap)
    (carried : data.fetch "update" = .str (strictEncode64 bytes)) :
    ((syncReceive y self data key).Only Unlogged ↔ bytes.length ≤ cap) ∧
    (bytes.length ≤ cap → syncReceive y self data key =
      syncHandleFrame y { self with syncKey := key.or self.syncKey } (strictEncode64 bytes) bytes >>=
        syncSendAck (data.fetch "id")) ∧
    (bytes.length ≤ cap → exceedsEncoded self (strictEncode64 bytes) = false) ∧
    (∀ text decoded, exceedsEncoded self text = false → strictDecode64 text = some decoded →
      decoded.length ≤ cap + 3) ∧
    ∀ decoded, exceedsDecoded self decoded = true ↔ cap < decoded.length := by
  have keyed : { self with syncKey := key.or self.syncKey }.maxFrameBytes = some cap := limited
  have handled : bytes.length ≤ cap → syncReceive y self data key =
      syncHandleFrame y { self with syncKey := key.or self.syncKey } (strictEncode64 bytes) bytes >>=
        syncSendAck (data.fetch "id") := by
    intro within
    have small : ¬ exceedsDecoded { self with syncKey := key.or self.syncKey } bytes = true := by
      rw [exceedsDecoded_iff keyed]
      omega
    rw [receive_sized carried, sized, encoded_within keyed within, if_neg Bool.false_ne_true,
      if_neg small]
  refine ⟨⟨?_, ?_⟩, handled, encoded_within limited,
    fun text decoded => let_through limited, exceedsDecoded_iff limited⟩
  · intro silent
    by_contra beyond
    have large : exceedsDecoded { self with syncKey := key.or self.syncKey } bytes = true := by
      rw [exceedsDecoded_iff keyed]
      omega
    rw [receive_sized carried, sized, if_pos large] at silent
    split at silent
    · exact silent.1 _ _ _ rfl
    · exact silent.1 _ _ _ rfl
  · intro within
    rw [handled within]
    apply Program.only_bind (handleFrame_only (fun key _ => permits_unlogged key) _ _)
    exact fun outcome => sendAck_only (by simp [Unlogged]) _ outcome

def capped : Instance where
  syncKey := some "doc"
  onLoad := true
  onChange := true
  maxFrameBytes := some 4
  respondsToWhispersTo := false

theorem five_bytes_dropped :
    exceedsEncoded capped (strictEncode64 [0, 0, 0, 0, 0]) = false ∧
    ¬ (syncReceive Reference.crate capped
      (.obj [("update", .str (strictEncode64 [0, 0, 0, 0, 0])), ("id", .int 7)]) none).Only
        Unlogged := by
  constructor
  · simp [exceedsEncoded, capped, strictEncode64_size]
  · intro silent
    have within := (@size_gate Reference.crate capped _ none [0, 0, 0, 0, 0] 4 rfl rfl).1.mp silent
    simp at within

end

end Yrby.SizeGate
