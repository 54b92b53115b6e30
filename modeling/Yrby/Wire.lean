import Yrby.Document
import Yrby.Number

/- The y-protocols wire format, and lib0's readers for it. A reader keeps what is
   left of the buffer also when it throws, as a lib0 decoder keeps its pos. -/
namespace Yrby.Wire
open Document

abbrev JsError := String

abbrev Reader := EStateM JsError Bytes

def maxSafeInteger : Nat := 9007199254740991

def writeVarUintFuel : Nat → Nat → Bytes
  | 0, n => [UInt8.ofNat n]
  | fuel + 1, n =>
    if n < 128 then [UInt8.ofNat n]
    else UInt8.ofNat (n % 128 + 128) :: writeVarUintFuel fuel (n / 128)

def writeVarUint (n : Nat) : Bytes := writeVarUintFuel n n

def writeVarUint8Array (payload : Bytes) : Bytes := writeVarUint payload.length ++ payload

def readVarUintFrom (num mult : Number) : Bytes → EStateM.Result JsError Bytes Number
  | [] => .error "Unexpected end of array" []
  | r :: rest =>
    let num := num + Number.finite (r.toNat % 128) * mult
    if r.toNat < 128 then .ok num rest
    else if Number.finite maxSafeInteger < num then .error "Integer out of Range" rest
    else readVarUintFrom num (mult * Number.finite 128) rest

def readVarUint : Reader Number := readVarUintFrom (.finite 0) (.finite 1)

/- A view of NaN bytes is empty and leaves NaN for a position: hasContent holds of it, and
   whoever asked throws at an empty array. It is an error here that leaves something. -/
def readUint8Array : Number → Reader Bytes
  | .finite len, arr =>
    if len ≤ arr.length then .ok (arr.take len) (arr.drop len)
    else .error "Invalid typed array length" arr
  | .infinity, arr => .error "Invalid typed array length" arr
  | .nan, arr => .error "Unexpected end of array" (0 :: arr)

def readVarUint8Array : Reader Bytes := do
  let len ← readVarUint
  readUint8Array len

/- The rounds of a loop up to count that reads in each of them: up to infinity it goes on
   until a read fails. -/
def rounds : Number → Bytes → Nat
  | .finite count, _ => count
  | .infinity, arr => arr.length + 1
  | .nan, _ => 0

def hasContent (arr : Bytes) : Bool := !arr.isEmpty

/-- Byte strings that spell n as a varuint, the shortest one or a longer one. -/
inductive VarUint : Nat → Bytes → Prop where
  | last {r : UInt8} (small : r.toNat < 128) : VarUint r.toNat [r]
  | more {r : UInt8} {n : Nat} {rest : Bytes} (big : 128 ≤ r.toNat) (tail : VarUint n rest) :
      VarUint (r.toNat % 128 + 128 * n) (r :: rest)

/-- A spelling at most ten bytes longer than the shortest; the crate reads no others. -/
def Spelling (n : Nat) (bytes : Bytes) : Prop :=
  VarUint n bytes ∧ bytes.length ≤ (writeVarUint n).length + 10

/- message tag, sync sub-tag, length-prefixed payload -/
def syncFrame (syncType : Nat) (payload : Bytes) : Bytes :=
  writeVarUint 0 ++ writeVarUint syncType ++ writeVarUint8Array payload

def awarenessFrame (payload : Bytes) : Bytes := writeVarUint 1 ++ writeVarUint8Array payload

/-- A byte string carrying one sync message and nothing after it. -/
def IsSyncFrame (syncType : Nat) (payload frame : Bytes) : Prop :=
  ∃ tag sub len, Spelling 0 tag ∧ Spelling syncType sub ∧ Spelling payload.length len ∧
    frame = tag ++ (sub ++ (len ++ payload))

def IsAwarenessFrame (payload frame : Bytes) : Prop :=
  ∃ tag len, Spelling 1 tag ∧ Spelling payload.length len ∧ frame = tag ++ (len ++ payload)

theorem write_fuel_varUint {fuel n : Nat} (enough : n ≤ fuel) :
    VarUint n (writeVarUintFuel fuel n) := by
  induction fuel generalizing n with
  | zero =>
    obtain rfl : n = 0 := by omega
    exact VarUint.last (r := 0) (by decide)
  | succ fuel ih =>
    simp only [writeVarUintFuel]
    split
    · rename_i small
      have same : (UInt8.ofNat n).toNat = n := by rw [UInt8.toNat_ofNat']; omega
      have spelled := VarUint.last (r := UInt8.ofNat n) (by omega)
      rwa [same] at spelled
    · rename_i big
      have byte : (UInt8.ofNat (n % 128 + 128)).toNat = n % 128 + 128 := by
        rw [UInt8.toNat_ofNat']; omega
      have spelled := VarUint.more (r := UInt8.ofNat (n % 128 + 128)) (by omega)
        (ih (n := n / 128) (by omega))
      have same : (n % 128 + 128) % 128 + 128 * (n / 128) = n := by omega
      rwa [byte, same] at spelled

theorem write_varUint (n : Nat) : VarUint n (writeVarUint n) := write_fuel_varUint (Nat.le_refl n)

theorem write_spelling (n : Nat) : Spelling n (writeVarUint n) := ⟨write_varUint n, Nat.le_add_right _ _⟩

theorem write_fuel_length {fuel n k : Nat} (bound : n < 128 ^ (k + 1)) :
    (writeVarUintFuel fuel n).length ≤ k + 1 := by
  induction fuel generalizing n k with
  | zero => simp [writeVarUintFuel]
  | succ fuel ih =>
    rw [writeVarUintFuel]
    split
    · simp
    · rename_i big
      cases k with
      | zero => omega
      | succ k =>
        have split : 128 ^ (k + 1 + 1) = 128 * 128 ^ (k + 1) := by ring
        have rest := @ih (n / 128) k (by omega)
        rw [List.length_cons]
        omega

theorem Spelling.short {n : Nat} {bytes : Bytes} (spelled : Spelling n bytes)
    (safe : n ≤ maxSafeInteger) : bytes.length ≤ 18 := by
  have written : (writeVarUint n).length ≤ 7 + 1 := by
    apply write_fuel_length
    exact Nat.lt_of_le_of_lt safe (by decide)
  have length := spelled.2
  omega

theorem VarUint.ends {n m : Nat} {a b x y : Bytes} (one : VarUint n a) (two : VarUint m b)
    (same : a ++ x = b ++ y) : n = m ∧ x = y := by
  induction one generalizing m b with
  | @last r small =>
    cases two with
    | last small' =>
      obtain ⟨rfl, rest⟩ := List.cons.inj same
      exact ⟨rfl, rest⟩
    | more big tail =>
      obtain ⟨rfl, _⟩ := List.cons.inj same
      omega
  | @more r n rest big tail ih =>
    cases two with
    | last small =>
      obtain ⟨rfl, _⟩ := List.cons.inj same
      omega
    | more big' tail' =>
      obtain ⟨rfl, rest⟩ := List.cons.inj same
      obtain ⟨rfl, left⟩ := ih tail' rest
      exact ⟨rfl, left⟩

theorem writeVarUint8Array_ends {payload payload' x y : Bytes}
    (same : writeVarUint8Array payload ++ x = writeVarUint8Array payload' ++ y) : payload = payload' ∧ x = y := by
  simp only [writeVarUint8Array, List.append_assoc] at same
  obtain ⟨lengths, same⟩ := (write_varUint _).ends (write_varUint _) same
  exact List.append_inj same lengths

theorem writeVarUint8Array_injective {payload payload' : Bytes}
    (same : writeVarUint8Array payload = writeVarUint8Array payload') : payload = payload' :=
  (writeVarUint8Array_ends (congrArg (· ++ []) same)).1

theorem awarenessFrame_injective {payload payload' : Bytes}
    (same : awarenessFrame payload = awarenessFrame payload') : payload = payload' :=
  writeVarUint8Array_injective (List.append_cancel_left same)

theorem syncFrame_isSyncFrame (syncType : Nat) (payload : Bytes) :
    IsSyncFrame syncType payload (syncFrame syncType payload) :=
  ⟨_, _, _, write_spelling 0, write_spelling syncType, write_spelling payload.length,
    by simp [syncFrame, writeVarUint8Array]⟩

/- mult after k bytes; 128 ^ 146 is the last of its powers that a double holds. -/
def scale (k : Nat) : Number := .ofNat (128 ^ k)

theorem power_128 (k : Nat) : 128 ^ k = 2 ^ (7 * k) := by
  have seven : 128 = 2 ^ 7 := rfl
  rw [seven, ← Nat.pow_mul]

theorem scale_finite {k : Nat} (low : k ≤ 146) : scale k = .finite (128 ^ k) := by
  rw [scale, power_128, Number.ofNat_power, if_pos (by omega)]

theorem scale_overflown {k : Nat} (high : 147 ≤ k) : scale k = .infinity := by
  rw [scale, power_128, Number.ofNat_power, if_neg (by omega)]

theorem scale_next (k : Nat) : scale k * .finite 128 = scale (k + 1) := by
  by_cases low : k ≤ 146
  · rw [scale_finite low, Number.finite_mul, ← Nat.pow_succ, scale]
  · rw [scale_overflown (by omega), scale_overflown (by omega)]
    rfl

theorem add_digit {a d k : Nat} (digit : d < 128) (low : k ≤ 146) :
    .finite a + .finite d * scale k = Number.ofNat (a + d * 128 ^ k) := by
  rw [scale_finite low, Number.finite_mul, power_128]
  exact Number.add_scaled (Nat.lt_trans digit (by decide))

theorem readVarUintFrom_cons {a k : Nat} (r : UInt8) (rest : Bytes) (low : k ≤ 146) :
    readVarUintFrom (.finite a) (scale k) (r :: rest) =
      if r.toNat < 128 then .ok (.ofNat (a + r.toNat % 128 * 128 ^ k)) rest
      else if maxSafeInteger < a + r.toNat % 128 * 128 ^ k then .error "Integer out of Range" rest
      else readVarUintFrom (.finite (a + r.toNat % 128 * 128 ^ k)) (scale (k + 1)) rest := by
  have digit : r.toNat % 128 < 128 := Nat.mod_lt _ (by decide)
  have bits : maxSafeInteger < 2 ^ 53 := by decide
  simp only [readVarUintFrom, add_digit digit low, Number.lt_ofNat bits, scale_next]
  split
  · rfl
  · split
    · rfl
    · rename_i inRange
      rw [Number.ofNat_small (by omega)]

theorem digits_split {d n k : Nat} (digit : d < 128) :
    (d + 128 * n) % 128 ^ (k + 1) = d + 128 * (n % 128 ^ k) := by
  have bound : n % 128 ^ k < 128 ^ k := Nat.mod_lt _ (Nat.pow_pos (by decide))
  have whole := Nat.div_add_mod n (128 ^ k)
  have power : 128 ^ (k + 1) = 128 * 128 ^ k := by ring
  have split : d + 128 * n = d + 128 * (n % 128 ^ k) + 128 ^ (k + 1) * (n / 128 ^ k) := by
    rw [power, Nat.mul_assoc]
    omega
  rw [split, Nat.add_mul_mod_self_left]
  apply Nat.mod_eq_of_lt
  omega

theorem VarUint.positive {n : Nat} {bytes : Bytes} (spelled : VarUint n bytes) :
    ∃ k, bytes.length = k + 1 := by
  cases spelled <;> exact ⟨_, rfl⟩

/-- lib0 reads the spellings of at most 147 bytes of which what comes before the last byte
    is safe. -/
theorem readVarUintFrom_spells {n : Nat} {front : Bytes} (spelled : VarUint n front) (rest : Bytes)
    {a k : Nat} (short : k + front.length ≤ 147)
    (safe : a + n % 128 ^ (front.length - 1) * 128 ^ k ≤ maxSafeInteger) :
    readVarUintFrom (.finite a) (scale k) (front ++ rest) = .ok (.ofNat (a + n * 128 ^ k)) rest := by
  induction spelled generalizing a k with
  | @last r small =>
    rw [List.length_singleton] at short
    rw [List.cons_append, List.nil_append, readVarUintFrom_cons r rest (by omega), if_pos small,
      Nat.mod_eq_of_lt small]
  | @more r n tail big spelled ih =>
    obtain ⟨m, length⟩ := spelled.positive
    have digit : r.toNat % 128 < 128 := Nat.mod_lt _ (by decide)
    rw [List.length_cons] at short
    rw [List.length_cons, length, Nat.add_sub_cancel, digits_split digit] at safe
    have split : (r.toNat % 128 + 128 * (n % 128 ^ m)) * 128 ^ k =
        r.toNat % 128 * 128 ^ k + n % 128 ^ m * 128 ^ (k + 1) := by ring
    rw [split] at safe
    have inRange : ¬ maxSafeInteger < a + r.toNat % 128 * 128 ^ k := by omega
    rw [List.cons_append, readVarUintFrom_cons r _ (by omega), if_neg (by omega), if_neg inRange,
      ih (by omega) (by rw [length, Nat.add_sub_cancel]; omega)]
    congr 2
    ring

theorem readVarUint_consumes {bytes rest : Bytes} {n : Number} (read : readVarUint bytes = .ok n rest) :
    rest.length < bytes.length := by
  have from_any : ∀ (bytes : Bytes) (num mult : Number), readVarUintFrom num mult bytes = .ok n rest →
      rest.length < bytes.length := by
    intro bytes
    induction bytes with
    | nil =>
      intro num mult read
      simp [readVarUintFrom] at read
    | cons r tail ih =>
      intro num mult read
      rw [readVarUintFrom] at read
      split at read
      · obtain ⟨_, rfl⟩ := EStateM.Result.ok.inj read
        simp
      · split at read
        · simp at read
        · exact Nat.lt_succ_of_lt (ih _ _ read)
  exact from_any bytes _ _ read

theorem readVarUint_reads {n : Nat} {front : Bytes} (spelled : VarUint n front) (rest : Bytes)
    (short : front.length ≤ 147) (safe : n % 128 ^ (front.length - 1) ≤ maxSafeInteger) :
    readVarUint (front ++ rest) = .ok (.ofNat n) rest := by
  have read := @readVarUintFrom_spells n front spelled rest 0 0 (by omega) (by omega)
  rw [Nat.pow_zero, Nat.mul_one, Nat.zero_add, scale_finite (Nat.zero_le _)] at read
  exact read

theorem readVarUint_byte {r : UInt8} (small : r.toNat < 128) (rest : Bytes) :
    readVarUint (r :: rest) = .ok (.finite r.toNat) rest := by
  have read := readVarUint_reads (VarUint.last small) rest (by simp) (by simp [Nat.mod_one])
  rwa [Number.ofNat_small (Nat.lt_trans small (by decide))] at read

/-- lib0 reads back every spelling of a number it can represent. -/
theorem readVarUint_spells {n : Nat} {bytes : Bytes} (spelled : Spelling n bytes) (rest : Bytes)
    (safe : n ≤ maxSafeInteger) : readVarUint (bytes ++ rest) = .ok (.finite n) rest := by
  have short := spelled.short safe
  have front : n % 128 ^ (bytes.length - 1) ≤ n := Nat.mod_le _ _
  have bits : maxSafeInteger < 2 ^ 53 := by decide
  rw [readVarUint_reads spelled.1 rest (by omega) (by omega), Number.ofNat_small (by omega)]

theorem readVarUint8Array_consumes {bytes payload rest : Bytes}
    (read : readVarUint8Array bytes = .ok payload rest) : rest.length < bytes.length := by
  simp only [readVarUint8Array, bind, EStateM.bind] at read
  cases sized : readVarUint bytes with
  | error e left => simp [sized] at read
  | ok len left =>
    simp only [sized] at read
    have shorter := readVarUint_consumes sized
    cases len with
    | infinity => simp [readUint8Array] at read
    | nan => simp [readUint8Array] at read
    | finite len =>
      simp only [readUint8Array] at read
      split at read
      · obtain ⟨_, rfl⟩ := EStateM.Result.ok.inj read
        rw [List.length_drop]
        omega
      · simp at read

theorem readVarUint8Array_spells {payload len : Bytes} (spelled : Spelling payload.length len)
    (rest : Bytes) (safe : payload.length ≤ maxSafeInteger) :
    readVarUint8Array (len ++ (payload ++ rest)) = .ok payload rest := by
  simp only [readVarUint8Array, bind, EStateM.bind, readVarUint_spells spelled _ safe,
    readUint8Array, List.length_append, Nat.le_add_right, ↓reduceIte, List.take_left',
    List.drop_left']

end Yrby.Wire
