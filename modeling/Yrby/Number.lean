import Mathlib.Tactic.Ring

/- What JavaScript counts with: doubles that are integers from zero on, and what comes
   of them where they overflow. -/
namespace Yrby

inductive Number where
  | finite (n : Nat)
  | infinity
  | nan
  deriving DecidableEq, Repr

namespace Number

instance : Coe Nat Number := ⟨finite⟩

/- A double holds 53 bits: the nearest such number, and of two as near the even one. -/
def rounded (n : Nat) : Nat :=
  let unit := 2 ^ (n.log2 - 52)
  if unit < 2 * (n % unit) ∨ unit = 2 * (n % unit) ∧ n / unit % 2 = 1 then (n / unit + 1) * unit
  else n / unit * unit

def ofNat (n : Nat) : Number :=
  if (rounded n).log2 < 1024 then finite (rounded n) else infinity

def add : Number → Number → Number
  | finite a, finite b => ofNat (a + b)
  | nan, _ => nan
  | _, nan => nan
  | _, _ => infinity

def mul : Number → Number → Number
  | finite a, finite b => ofNat (a * b)
  | finite a, infinity => if a = 0 then nan else infinity
  | infinity, finite b => if b = 0 then nan else infinity
  | infinity, infinity => infinity
  | _, _ => nan

instance : Add Number := ⟨add⟩

instance : Mul Number := ⟨mul⟩

/- Every comparison with NaN fails. -/
def less : Number → Number → Bool
  | finite a, finite b => a < b
  | finite _, infinity => true
  | _, _ => false

instance : LT Number := ⟨fun a b => less a b = true⟩

instance (a b : Number) : Decidable (a < b) := inferInstanceAs (Decidable (less a b = true))

def isFinite : Number → Bool
  | finite _ => true
  | _ => false

theorem isFinite_iff {a : Number} : a.isFinite = true ↔ ∃ n : Nat, a = finite n := by
  cases a <;> simp [isFinite]

theorem finite_lt {a b : Nat} : finite a < finite b ↔ a < b := decide_eq_true_iff

theorem lt_irrefl (a : Number) : ¬ a < a := by
  intro less
  cases a with
  | finite n => exact Nat.lt_irrefl n (finite_lt.mp less)
  | infinity => cases less
  | nan => cases less

theorem lt_trans {a b c : Number} (one : a < b) (two : b < c) : a < c := by
  cases a with
  | finite a =>
    cases b with
    | finite b =>
      cases c with
      | finite c => exact finite_lt.mpr (Nat.lt_trans (finite_lt.mp one) (finite_lt.mp two))
      | infinity => rfl
      | nan => cases two
    | infinity => cases two
    | nan => cases one
  | infinity => cases one
  | nan => cases one

/-- Nothing is lost of a number that fits 53 bits and zeros after them. -/
theorem rounded_exact {q s : Nat} (bits : q < 2 ^ 53) : rounded (q * 2 ^ s) = q * 2 ^ s := by
  have bound : q * 2 ^ s < 2 ^ (53 + s) := by
    rw [Nat.pow_add]
    exact Nat.mul_lt_mul_of_pos_right bits (Nat.two_pow_pos s)
  have coarse : (q * 2 ^ s).log2 - 52 ≤ s := by
    by_cases zero : q * 2 ^ s = 0
    · rw [zero]
      simp
    · have log := (Nat.log2_lt zero).mpr bound
      omega
  have whole : q * 2 ^ s % 2 ^ ((q * 2 ^ s).log2 - 52) = 0 :=
    Nat.mod_eq_zero_of_dvd ((Nat.pow_dvd_pow 2 coarse).mul_left q)
  have positive := Nat.two_pow_pos ((q * 2 ^ s).log2 - 52)
  have nearest : ¬ (2 ^ ((q * 2 ^ s).log2 - 52) < 2 * 0 ∨
      2 ^ ((q * 2 ^ s).log2 - 52) = 2 * 0 ∧ q * 2 ^ s / 2 ^ ((q * 2 ^ s).log2 - 52) % 2 = 1) := by
    omega
  simp only [rounded, whole, nearest, ↓reduceIte]
  exact Nat.div_mul_cancel (Nat.dvd_of_mod_eq_zero whole)

theorem rounded_small {n : Nat} (bits : n < 2 ^ 53) : rounded n = n := by
  have exact := @rounded_exact n 0 bits
  rwa [Nat.pow_zero, Nat.mul_one] at exact

theorem log2_mono {a b : Nat} (le : a ≤ b) : a.log2 ≤ b.log2 := by
  by_cases zero : a = 0
  · rw [zero]
    simp
  · exact (Nat.le_log2 (by omega)).mpr (Nat.le_trans (Nat.log2_self_le zero) le)

/-- Rounding does not cross a power of two downwards. -/
theorem log2_rounded (n : Nat) : n.log2 ≤ (rounded n).log2 := by
  by_cases zero : n = 0
  · rw [zero]
    simp
  have power : 2 ^ n.log2 ≤ n / 2 ^ (n.log2 - 52) * 2 ^ (n.log2 - 52) := by
    have divides : 2 ^ (n.log2 - 52) ∣ 2 ^ n.log2 := Nat.pow_dvd_pow 2 (Nat.sub_le _ _)
    have below : 2 ^ n.log2 / 2 ^ (n.log2 - 52) ≤ n / 2 ^ (n.log2 - 52) :=
      Nat.div_le_div_right (Nat.log2_self_le zero)
    calc 2 ^ n.log2 = 2 ^ n.log2 / 2 ^ (n.log2 - 52) * 2 ^ (n.log2 - 52) :=
          (Nat.div_mul_cancel divides).symm
      _ ≤ n / 2 ^ (n.log2 - 52) * 2 ^ (n.log2 - 52) := Nat.mul_le_mul_right _ below
  have reached : 2 ^ n.log2 ≤ rounded n := by
    unfold rounded
    dsimp only
    split
    · exact Nat.le_trans power (Nat.mul_le_mul_right _ (Nat.le_succ _))
    · exact power
  calc n.log2 = (2 ^ n.log2).log2 := Nat.log2_two_pow.symm
    _ ≤ (rounded n).log2 := log2_mono reached

theorem ofNat_small {n : Nat} (bits : n < 2 ^ 53) : ofNat n = finite n := by
  have low : n.log2 < 1024 := by
    by_cases zero : n = 0
    · rw [zero]
      simp
    · have log := (Nat.log2_lt zero).mpr bits
      omega
  rw [ofNat, rounded_small bits, if_pos low]

theorem ofNat_large {n : Nat} (overflow : 1024 ≤ n.log2) : ofNat n = infinity := by
  have log := log2_rounded n
  rw [ofNat, if_neg (by omega)]

/-- A bound of 53 bits is exceeded by a number exactly where it is by the double. -/
theorem lt_ofNat {bound n : Nat} (bits : bound < 2 ^ 53) : finite bound < ofNat n ↔ bound < n := by
  by_cases small : n < 2 ^ 53
  · rw [ofNat_small small, finite_lt]
  have above : bound < n := by omega
  have log : 53 ≤ n.log2 := (Nat.le_log2 (by omega)).mpr (Nat.not_lt.mp small)
  have grown := Nat.le_trans log (log2_rounded n)
  have positive : rounded n ≠ 0 := by
    intro zero
    rw [zero] at grown
    simp at grown
  have large : 2 ^ 53 ≤ rounded n := (Nat.le_log2 positive).mp grown
  apply iff_of_true _ above
  unfold ofNat
  split
  · exact finite_lt.mpr (Nat.lt_of_lt_of_le bits large)
  · rfl

theorem ofNat_scaled {q s : Nat} (bits : q < 2 ^ 53) :
    ofNat (q * 2 ^ s) = if (q * 2 ^ s).log2 < 1024 then finite (q * 2 ^ s) else infinity := by
  rw [ofNat, rounded_exact bits]

theorem ofNat_power (s : Nat) : ofNat (2 ^ s) = if s < 1024 then finite (2 ^ s) else infinity := by
  have scaled := @ofNat_scaled 1 s (by decide)
  rwa [Nat.one_mul, Nat.log2_two_pow] at scaled

theorem finite_mul (a b : Nat) : finite a * finite b = ofNat (a * b) := rfl

/-- A sum is rounded once, when the last term is scaled by a power of two. -/
theorem add_scaled {a q s : Nat} (bits : q < 2 ^ 53) :
    finite a + ofNat (q * 2 ^ s) = ofNat (a + q * 2 ^ s) := by
  rw [ofNat_scaled bits]
  split
  · rfl
  · rename_i large
    have grown := log2_mono (Nat.le_add_left (q * 2 ^ s) a)
    rw [ofNat_large (by omega)]
    rfl

/-- With infinity for a factor nothing finite comes of a sum. -/
theorem add_overflown (a b : Number) : (a + b * infinity).isFinite = false := by
  have term : b * infinity = infinity ∨ b * infinity = nan := by
    cases b with
    | finite b =>
      by_cases zero : b = 0
      · exact .inr (if_pos zero)
      · exact .inl (if_neg zero)
    | infinity => exact .inl rfl
    | nan => exact .inr rfl
  rcases term with term | term <;> rw [term] <;> cases a <;> rfl

end Number

end Yrby
