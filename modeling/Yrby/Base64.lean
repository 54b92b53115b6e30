import Mathlib.Data.List.Basic
import Yrby.Document

/- base64 as the two ends use it: strict_encode64 and btoa write the same string,
   strict_decode64 takes only such strings, atob forgives white space, missing
   padding and leftover bits. -/
namespace Yrby.Base64
open Document

def charOf (n : Nat) : Char :=
  if n < 26 then Char.ofNat ('A'.toNat + n)
  else if n < 52 then Char.ofNat ('a'.toNat + (n - 26))
  else if n < 62 then Char.ofNat ('0'.toNat + (n - 52))
  else if n = 62 then '+'
  else '/'

def valueOf (c : Char) : Option Nat :=
  if 'A' ≤ c ∧ c ≤ 'Z' then some (c.toNat - 'A'.toNat)
  else if 'a' ≤ c ∧ c ≤ 'z' then some (c.toNat - 'a'.toNat + 26)
  else if '0' ≤ c ∧ c ≤ '9' then some (c.toNat - '0'.toNat + 52)
  else if c = '+' then some 62
  else if c = '/' then some 63
  else none

def encodeChars : Bytes → List Char
  | [] => []
  | [a] => [charOf (a.toNat / 4), charOf (a.toNat % 4 * 16), '=', '=']
  | [a, b] =>
    [charOf (a.toNat / 4), charOf (a.toNat % 4 * 16 + b.toNat / 16), charOf (b.toNat % 16 * 4), '=']
  | a :: b :: c :: rest =>
    charOf (a.toNat / 4) :: charOf (a.toNat % 4 * 16 + b.toNat / 16) ::
      charOf (b.toNat % 16 * 4 + c.toNat / 64) :: charOf (c.toNat % 64) :: encodeChars rest

def strictEncode64 (bytes : Bytes) : String := String.ofList (encodeChars bytes)

def byteOne (p q : Nat) : UInt8 := UInt8.ofNat (p * 4 + q / 16)

def byteTwo (q r : Nat) : UInt8 := UInt8.ofNat (q % 16 * 16 + r / 4)

def byteThree (r s : Nat) : UInt8 := UInt8.ofNat (r % 4 * 64 + s)

/- The bits that padding leaves over have to be zero. -/
def strictDecodeChars : List Char → Option Bytes
  | [] => some []
  | [p, q, '=', '='] => do
    let p ← valueOf p
    let q ← valueOf q
    if q % 16 = 0 then some [byteOne p q] else none
  | [p, q, r, '='] => do
    let p ← valueOf p
    let q ← valueOf q
    let r ← valueOf r
    if r % 4 = 0 then some [byteOne p q, byteTwo q r] else none
  | p :: q :: r :: s :: rest => do
    let p ← valueOf p
    let q ← valueOf q
    let r ← valueOf r
    let s ← valueOf s
    let bytes ← strictDecodeChars rest
    return byteOne p q :: byteTwo q r :: byteThree r s :: bytes
  | _ => none

def strictDecode64 (text : String) : Option Bytes := strictDecodeChars text.toList

def isSpace (c : Char) : Bool := c = '\t' || c = '\n' || c = '\x0c' || c = '\r' || c = ' '

/- Only a text whose length is a multiple of four loses its one or two pads. -/
def dropPadding : List Char → List Char
  | [p, q, '=', '='] => [p, q]
  | [p, q, r, '='] => [p, q, r]
  | p :: q :: r :: s :: rest => p :: q :: r :: s :: dropPadding rest
  | text => text

def forgiveChars : List Char → Option Bytes
  | [] => some []
  | [p, q] => do
    let p ← valueOf p
    let q ← valueOf q
    return [byteOne p q]
  | [p, q, r] => do
    let p ← valueOf p
    let q ← valueOf q
    let r ← valueOf r
    return [byteOne p q, byteTwo q r]
  | p :: q :: r :: s :: rest => do
    let p ← valueOf p
    let q ← valueOf q
    let r ← valueOf r
    let s ← valueOf s
    let bytes ← forgiveChars rest
    return byteOne p q :: byteTwo q r :: byteThree r s :: bytes
  | _ => none

def toBase64 (bytes : Bytes) : String := strictEncode64 bytes

def fromBase64 (text : String) : Option Bytes :=
  forgiveChars (dropPadding (text.toList.filter (!isSpace ·)))

theorem valueOf_charOf {n : Nat} (small : n < 64) : valueOf (charOf n) = some n := by
  have all : ∀ m : Fin 64, valueOf (charOf m) = some m.val := by decide
  exact all ⟨n, small⟩

theorem charOf_plain {n : Nat} (small : n < 64) : charOf n ≠ '=' ∧ isSpace (charOf n) = false := by
  have all : ∀ m : Fin 64, charOf m ≠ '=' ∧ isSpace (charOf m) = false := by decide
  exact all ⟨n, small⟩

theorem byteOne_eq (a : UInt8) (low : Nat) (small : low < 16) :
    byteOne (a.toNat / 4) (a.toNat % 4 * 16 + low) = a := by
  rw [← UInt8.toNat_inj, byteOne, UInt8.toNat_ofNat']
  have := a.toNat_lt
  omega

theorem byteTwo_eq (b : UInt8) (high low : Nat) (small : low < 4) :
    byteTwo (high * 16 + b.toNat / 16) (b.toNat % 16 * 4 + low) = b := by
  rw [← UInt8.toNat_inj, byteTwo, UInt8.toNat_ofNat']
  have := b.toNat_lt
  omega

theorem byteThree_eq (c : UInt8) (high : Nat) :
    byteThree (high * 4 + c.toNat / 64) (c.toNat % 64) = c := by
  rw [← UInt8.toNat_inj, byteThree, UInt8.toNat_ofNat']
  have := c.toNat_lt
  omega

theorem sextets (a b c : UInt8) : a.toNat / 4 < 64 ∧ a.toNat % 4 * 16 + b.toNat / 16 < 64 ∧
    b.toNat % 16 * 4 + c.toNat / 64 < 64 ∧ c.toNat % 64 < 64 := by
  have := a.toNat_lt
  have := b.toNat_lt
  have := c.toNat_lt
  omega

theorem strict_decode_encode (bytes : Bytes) : strictDecodeChars (encodeChars bytes) = some bytes := by
  induction bytes using encodeChars.induct with
  | case1 => rfl
  | case2 a =>
    obtain ⟨one, two, _⟩ := sextets a 0 0
    have first := byteOne_eq a 0 (by omega)
    simp only [UInt8.toNat_zero, Nat.zero_div, Nat.add_zero] at two first
    have even : a.toNat % 4 * 16 % 16 = 0 := by omega
    simp [encodeChars, strictDecodeChars, valueOf_charOf one, valueOf_charOf two, first, even]
  | case3 a b =>
    obtain ⟨one, two, three, _⟩ := sextets a b 0
    have first := byteOne_eq a (b.toNat / 16) (by have := b.toNat_lt; omega)
    have second := byteTwo_eq b (a.toNat % 4) 0 (by omega)
    simp only [UInt8.toNat_zero, Nat.zero_div, Nat.add_zero] at three second
    have even : b.toNat % 16 * 4 % 4 = 0 := by omega
    have pad := (charOf_plain three).1
    rw [encodeChars, strictDecodeChars]
    · simp [valueOf_charOf one, valueOf_charOf two, valueOf_charOf three, first, second, even]
    · exact pad
  | case4 a b c rest ih =>
    obtain ⟨one, two, three, four⟩ := sextets a b c
    have first := byteOne_eq a (b.toNat / 16) (by have := b.toNat_lt; omega)
    have second := byteTwo_eq b (a.toNat % 4) (c.toNat / 64)
      (by have := c.toNat_lt; omega)
    have third := byteThree_eq c (b.toNat % 16)
    have padThree := (charOf_plain three).1
    have padFour := (charOf_plain four).1
    rw [encodeChars, strictDecodeChars]
    · simp [valueOf_charOf one, valueOf_charOf two, valueOf_charOf three, valueOf_charOf four, ih,
        first, second, third]
    · exact fun eq => absurd eq padThree
    · exact fun eq => absurd eq padFour

theorem strictDecode64_encode (bytes : Bytes) : strictDecode64 (strictEncode64 bytes) = some bytes := by
  rw [strictDecode64, strictEncode64, String.toList_ofList]
  exact strict_decode_encode bytes

theorem encodeChars_not_space (bytes : Bytes) : ∀ c ∈ encodeChars bytes, isSpace c = false := by
  have pad : isSpace '=' = false := by decide
  induction bytes using encodeChars.induct with
  | case1 => simp [encodeChars]
  | case2 a =>
    obtain ⟨one, two, _⟩ := sextets a 0 0
    simp only [UInt8.toNat_zero, Nat.zero_div, Nat.add_zero] at two
    simp [encodeChars, (charOf_plain one).2, (charOf_plain two).2, pad]
  | case3 a b =>
    obtain ⟨one, two, three, _⟩ := sextets a b 0
    simp only [UInt8.toNat_zero, Nat.zero_div, Nat.add_zero] at three
    simp [encodeChars, (charOf_plain one).2, (charOf_plain two).2, (charOf_plain three).2, pad]
  | case4 a b c rest ih =>
    obtain ⟨one, two, three, four⟩ := sextets a b c
    simpa [encodeChars, (charOf_plain one).2, (charOf_plain two).2, (charOf_plain three).2,
      (charOf_plain four).2] using ih

theorem forgive_encode (bytes : Bytes) :
    forgiveChars (dropPadding (encodeChars bytes)) = some bytes := by
  induction bytes using encodeChars.induct with
  | case1 => rfl
  | case2 a =>
    obtain ⟨one, two, _⟩ := sextets a 0 0
    have first := byteOne_eq a 0 (by omega)
    simp only [UInt8.toNat_zero, Nat.zero_div, Nat.add_zero] at two first
    simp [encodeChars, dropPadding, forgiveChars, valueOf_charOf one, valueOf_charOf two, first]
  | case3 a b =>
    obtain ⟨one, two, three, _⟩ := sextets a b 0
    have first := byteOne_eq a (b.toNat / 16) (by have := b.toNat_lt; omega)
    have second := byteTwo_eq b (a.toNat % 4) 0 (by omega)
    simp only [UInt8.toNat_zero, Nat.zero_div, Nat.add_zero] at three second
    have pad := (charOf_plain three).1
    rw [encodeChars, dropPadding]
    · simp [forgiveChars, valueOf_charOf one, valueOf_charOf two, valueOf_charOf three, first,
        second]
    · exact pad
  | case4 a b c rest ih =>
    obtain ⟨one, two, three, four⟩ := sextets a b c
    have first := byteOne_eq a (b.toNat / 16) (by have := b.toNat_lt; omega)
    have second := byteTwo_eq b (a.toNat % 4) (c.toNat / 64)
      (by have := c.toNat_lt; omega)
    have third := byteThree_eq c (b.toNat % 16)
    have padThree := (charOf_plain three).1
    have padFour := (charOf_plain four).1
    rw [encodeChars, dropPadding, forgiveChars]
    · simp [valueOf_charOf one, valueOf_charOf two, valueOf_charOf three, valueOf_charOf four, ih,
        first, second, third]
    · exact fun eq => absurd eq padThree
    · exact fun eq => absurd eq padFour

theorem fromBase64_encode (bytes : Bytes) : fromBase64 (strictEncode64 bytes) = some bytes := by
  have kept : (encodeChars bytes).filter (!isSpace ·) = encodeChars bytes := by
    apply List.filter_eq_self.mpr
    intro c mem
    simp [encodeChars_not_space bytes c mem]
  rw [fromBase64, strictEncode64, String.toList_ofList, kept]
  exact forgive_encode bytes

theorem charOf_valueOf {c : Char} {n : Nat} (value : valueOf c = some n) : n < 64 ∧ charOf n = c := by
  have bound : ∀ {low high : Char}, low ≤ c ∧ c ≤ high → low.toNat ≤ c.toNat ∧ c.toNat ≤ high.toNat :=
    fun within => within
  unfold valueOf at value
  split at value
  · rename_i within
    obtain rfl := Option.some.inj value
    obtain ⟨low, high⟩ := bound within
    have lowest : 'A'.toNat = 65 := rfl
    have highest : 'Z'.toNat = 90 := rfl
    rw [charOf, if_pos (by omega), Nat.add_sub_cancel' low, Char.ofNat_toNat]
    exact ⟨by omega, rfl⟩
  · split at value
    · rename_i within
      obtain rfl := Option.some.inj value
      obtain ⟨low, high⟩ := bound within
      have lowest : 'a'.toNat = 97 := rfl
      have highest : 'z'.toNat = 122 := rfl
      rw [charOf, if_neg (by omega), if_pos (by omega), Nat.add_sub_cancel,
        Nat.add_sub_cancel' low, Char.ofNat_toNat]
      exact ⟨by omega, rfl⟩
    · split at value
      · rename_i within
        obtain rfl := Option.some.inj value
        obtain ⟨low, high⟩ := bound within
        have lowest : '0'.toNat = 48 := rfl
        have highest : '9'.toNat = 57 := rfl
        rw [charOf, if_neg (by omega), if_neg (by omega), if_pos (by omega), Nat.add_sub_cancel,
          Nat.add_sub_cancel' low, Char.ofNat_toNat]
        exact ⟨by omega, rfl⟩
      · split at value
        · rename_i plus
          obtain rfl := Option.some.inj value
          exact ⟨by decide, by rw [plus]; decide⟩
        · split at value
          · rename_i slash
            obtain rfl := Option.some.inj value
            exact ⟨by decide, by rw [slash]; decide⟩
          · simp at value

theorem bytes_toNat {p q r s : Nat} (hp : p < 64) (hq : q < 64) (hr : r < 64) (hs : s < 64) :
    (byteOne p q).toNat = p * 4 + q / 16 ∧ (byteTwo q r).toNat = q % 16 * 16 + r / 4 ∧
      (byteThree r s).toNat = r % 4 * 64 + s := by
  simp only [byteOne, byteTwo, byteThree, UInt8.toNat_ofNat']
  omega

/-- strict_decode64 takes only what strict_encode64 writes. -/
theorem encode_strictDecode {chars : List Char} {bytes : Bytes}
    (decoded : strictDecodeChars chars = some bytes) : encodeChars bytes = chars := by
  induction chars using strictDecodeChars.induct generalizing bytes with
  | case1 =>
    obtain rfl : bytes = [] := by simpa [strictDecodeChars] using decoded.symm
    rfl
  | case2 p q =>
    simp only [strictDecodeChars, Option.bind_eq_bind, Option.bind_eq_some_iff] at decoded
    obtain ⟨p', vp, q', vq, rest⟩ := decoded
    obtain ⟨hp, rfl⟩ := charOf_valueOf vp
    obtain ⟨hq, rfl⟩ := charOf_valueOf vq
    split at rest
    · rename_i even
      obtain rfl := Option.some.inj rest
      have one := (bytes_toNat hp hq hq hq).1
      rw [encodeChars, one, show (p' * 4 + q' / 16) / 4 = p' by omega,
        show (p' * 4 + q' / 16) % 4 * 16 = q' by omega]
    · simp at rest
  | case3 p q r pad =>
    rw [strictDecodeChars] at decoded
    · simp only [Option.bind_eq_bind, Option.bind_eq_some_iff] at decoded
      obtain ⟨p', vp, q', vq, r', vr, rest⟩ := decoded
      obtain ⟨hp, rfl⟩ := charOf_valueOf vp
      obtain ⟨hq, rfl⟩ := charOf_valueOf vq
      obtain ⟨hr, rfl⟩ := charOf_valueOf vr
      split at rest
      · rename_i even
        obtain rfl := Option.some.inj rest
        obtain ⟨one, two, _⟩ := bytes_toNat hp hq hr hr
        rw [encodeChars, one, two, show (p' * 4 + q' / 16) / 4 = p' by omega,
          show (p' * 4 + q' / 16) % 4 * 16 + (q' % 16 * 16 + r' / 4) / 16 = q' by omega,
          show (q' % 16 * 16 + r' / 4) % 16 * 4 = r' by omega]
      · simp at rest
    · exact pad
  | case4 p q r s rest padTwo padOne ih =>
    rw [strictDecodeChars] at decoded
    · simp only [Option.bind_eq_bind, Option.bind_eq_some_iff] at decoded
      obtain ⟨p', vp, q', vq, r', vr, s', vs, tail, inner, same⟩ := decoded
      obtain ⟨hp, rfl⟩ := charOf_valueOf vp
      obtain ⟨hq, rfl⟩ := charOf_valueOf vq
      obtain ⟨hr, rfl⟩ := charOf_valueOf vr
      obtain ⟨hs, rfl⟩ := charOf_valueOf vs
      obtain rfl := Option.some.inj same
      obtain ⟨one, two, three⟩ := bytes_toNat hp hq hr hs
      rw [encodeChars, one, two, three, ih inner, show (p' * 4 + q' / 16) / 4 = p' by omega,
        show (p' * 4 + q' / 16) % 4 * 16 + (q' % 16 * 16 + r' / 4) / 16 = q' by omega,
        show (q' % 16 * 16 + r' / 4) % 16 * 4 + (r' % 4 * 64 + s') / 64 = r' by omega,
        show (r' % 4 * 64 + s') % 64 = s' by omega]
    · exact padTwo
    · exact padOne
  | case5 text one two three four =>
    rw [strictDecodeChars] at decoded
    · simp at decoded
    all_goals assumption

theorem fromBase64_strictDecode {text : String} {bytes : Bytes}
    (decoded : strictDecode64 text = some bytes) : fromBase64 text = some bytes := by
  have same : strictEncode64 bytes = text := by
    rw [strictEncode64, encode_strictDecode decoded, String.ofList_toList]
  rw [← same, fromBase64_encode]

/-- The codecs of the two sides fit. The server takes a text exactly if it is the encoding of
    some bytes, and reads these; what the client encodes is read by the server and what the
    server encodes by the client, each as it was; and the client reads all that the server
    takes as the server does. -/
theorem codecs_fit :
    (∀ text bytes, strictDecode64 text = some bytes ↔ text = toBase64 bytes) ∧
    (∀ text, strictDecode64 text = none ↔ ∀ bytes, text ≠ toBase64 bytes) ∧
    (∀ bytes, fromBase64 (strictEncode64 bytes) = some bytes) ∧
    ∀ text bytes, strictDecode64 text = some bytes → fromBase64 text = some bytes := by
  have exactly : ∀ text bytes, strictDecode64 text = some bytes ↔ text = toBase64 bytes := by
    intro text bytes
    constructor
    · intro decoded
      rw [toBase64, strictEncode64, encode_strictDecode decoded, String.ofList_toList]
    · rintro rfl
      exact strictDecode64_encode bytes
  refine ⟨exactly, fun text => ?_, fromBase64_encode, fun _ _ => fromBase64_strictDecode⟩
  constructor
  · intro none bytes same
    rw [(exactly text bytes).mpr same] at none
    cases none
  · intro unlike
    cases decoded : strictDecode64 text with
    | none => rfl
    | some bytes => exact absurd ((exactly text bytes).mp decoded) (unlike bytes)

theorem encodeChars_length (bytes : Bytes) :
    (encodeChars bytes).length = (bytes.length + 2) / 3 * 4 := by
  induction bytes using encodeChars.induct with
  | case1 => rfl
  | case2 a => simp [encodeChars]
  | case3 a b => simp [encodeChars]
  | case4 a b c rest ih =>
    simp only [encodeChars, List.length_cons, ih]
    omega

theorem encodeChars_injective {bytes bytes' : Bytes}
    (same : encodeChars bytes = encodeChars bytes') : bytes = bytes' := by
  have read := strict_decode_encode bytes
  rw [same, strict_decode_encode bytes'] at read
  exact (Option.some.inj read).symm

/-- An encoding behind other characters is taken only if these are a whole encoding as
    well, and then both are taken for one. -/
theorem decode_behind {front : List Char} {bytes read : Bytes} (full : bytes ≠ [])
    (decoded : strictDecodeChars (front ++ encodeChars bytes) = some read) :
    ∃ before, read = before ++ bytes ∧ encodeChars before = front := by
  have whole := encode_strictDecode decoded
  clear decoded
  have positive := List.length_pos_of_ne_nil full
  induction read using encodeChars.induct generalizing front with
  | case4 a b c rest ih =>
    cases front with
    | nil => exact ⟨[], encodeChars_injective whole, rfl⟩
    | cons p front =>
      -- four characters go at a time, so that the front is as long as it has to be
      have lengths := congrArg List.length whole
      rw [encodeChars_length, List.length_append, List.length_cons, encodeChars_length] at lengths
      obtain ⟨q, r, s, front, rfl⟩ : ∃ q r s more, front = q :: r :: s :: more := by
        rcases front with _ | ⟨q, _ | ⟨r, _ | ⟨s, more⟩⟩⟩
        · simp at lengths
          omega
        · simp at lengths
          omega
        · simp at lengths
          omega
        · exact ⟨q, r, s, more, rfl⟩
      simp only [encodeChars, List.cons_append, List.cons.injEq] at whole
      obtain ⟨hp, hq, hr, hs, later⟩ := whole
      obtain ⟨before, rfl, same⟩ := ih later
      exact ⟨a :: b :: c :: before, rfl, by rw [encodeChars, same, hp, hq, hr, hs]⟩
  | _ =>
    have lengths := congrArg List.length whole
    rw [encodeChars_length, List.length_append, encodeChars_length] at lengths
    simp only [List.length_nil, List.length_cons] at lengths
    obtain rfl : front = [] := List.length_eq_zero_iff.mp (by omega)
    exact ⟨[], encodeChars_injective whole, rfl⟩

theorem encodeChars_all {P : Char → Prop} (pad : P '=') (letter : ∀ n < 64, P (charOf n))
    (bytes : Bytes) : ∀ c ∈ encodeChars bytes, P c := by
  induction bytes using encodeChars.induct with
  | case1 => simp [encodeChars]
  | case2 a =>
    obtain ⟨one, two, _⟩ := sextets a 0 0
    simp only [UInt8.toNat_zero, Nat.zero_div, Nat.add_zero] at two
    simp [encodeChars, pad, letter _ one, letter _ two]
  | case3 a b =>
    obtain ⟨one, two, three, _⟩ := sextets a b 0
    simp only [UInt8.toNat_zero, Nat.zero_div, Nat.add_zero] at three
    simp [encodeChars, pad, letter _ one, letter _ two, letter _ three]
  | case4 a b c rest ih =>
    obtain ⟨one, two, three, four⟩ := sextets a b c
    simpa [encodeChars, letter _ one, letter _ two, letter _ three, letter _ four] using ih

end Yrby.Base64
