import FairShare.Numeric.Binary64
import Mathlib

/-!
# Rounding

Rounding to a whole number keeps the order of numbers and leaves whole numbers alone. Numbers of 53 significant bits are
whole multiples of a unit that only the binade depends on, and the ends of a binade are multiples of its unit. So rounding
to such a number keeps the order within a binade and from one to the next, and with it the floating-point quotient does.
-/

namespace FairShare.Numeric

variable {p q : Rat}

/-! ## To a whole number -/

/-- What a number has above its floor decides, and for a half the parity of the floor does. -/
theorem roundEven_eq (q : Rat) :
    roundEven q = if 1 / 2 < Int.fract q ∨ (Int.fract q = 1 / 2 ∧ ⌊q⌋ % 2 = 1) then ⌊q⌋ + 1 else ⌊q⌋ := by
  have hfloor : q.floor = ⌊q⌋ := rfl
  have hfract : q - (⌊q⌋ : Rat) = Int.fract q := rfl
  have hparity := Int.emod_two_eq_zero_or_one ⌊q⌋
  simp only [roundEven, hfloor, hfract]
  rcases lt_trichotomy (Int.fract q) (1 / 2) with hlt | heq | hgt
  · rw [if_pos hlt, if_neg]
    rintro (hgt | ⟨heq, -⟩)
    · exact lt_asymm hlt hgt
    · exact absurd heq hlt.ne
  · rw [heq, if_neg (lt_irrefl _), if_neg (lt_irrefl _)]
    rcases hparity with heven | hodd
    · simp [heven]
    · simp [hodd]
  · rw [if_neg (lt_asymm hgt), if_pos hgt, if_pos (.inl hgt)]

theorem floor_le_roundEven (q : Rat) : ⌊q⌋ ≤ roundEven q := by
  rw [roundEven_eq]
  split <;> omega

theorem roundEven_le_floor_add_one (q : Rat) : roundEven q ≤ ⌊q⌋ + 1 := by
  rw [roundEven_eq]
  split <;> omega

theorem roundEven_intCast (n : Int) : roundEven n = n := by
  rw [roundEven_eq, Int.floor_intCast, Int.fract_intCast, if_neg]
  norm_num

theorem roundEven_mono (h : p ≤ q) : roundEven p ≤ roundEven q := by
  rcases (Int.floor_mono h).lt_or_eq with hlt | heq
  · have hp := roundEven_le_floor_add_one p
    have hq := floor_le_roundEven q
    omega
  · -- with one floor the number that is larger has more above it
    have hfract : Int.fract p ≤ Int.fract q := by
      rw [Int.fract, Int.fract, heq]
      linarith
    rw [roundEven_eq p, roundEven_eq q, heq]
    split_ifs with hp hq
    · exact le_rfl
    · refine absurd ?_ hq
      rcases hp with hgt | ⟨hhalf, hodd⟩
      · exact .inl (hgt.trans_le hfract)
      · exact (hhalf.symm.trans_le hfract).lt_or_eq.imp id fun heq' => ⟨heq'.symm, hodd⟩
    · omega
    · exact le_rfl

theorem abs_roundEven_sub_le (q : Rat) : |(roundEven q : Rat) - q| ≤ 1 / 2 := by
  have hself := Int.floor_add_fract q
  have hnonneg := Int.fract_nonneg q
  have hlt := Int.fract_lt_one q
  rw [roundEven_eq, abs_le]
  split
  case isTrue hup =>
    have hhalf : 1 / 2 ≤ Int.fract q := hup.elim le_of_lt fun h => h.1.ge
    push_cast
    constructor <;> linarith
  case isFalse hdown =>
    have hhalf : Int.fract q ≤ 1 / 2 := le_of_not_gt fun h => hdown (.inl h)
    constructor <;> linarith

theorem roundEven_nonneg (h : 0 ≤ q) : 0 ≤ roundEven q := (Int.floor_nonneg.2 h).trans (floor_le_roundEven q)

/-- The numbers that are rounded to an even number or beyond begin half below it. -/
theorem even_le_roundEven_iff {n : Int} (hn : n % 2 = 0) : n ≤ roundEven q ↔ (n : Rat) - 1 / 2 ≤ q := by
  have hself := Int.floor_add_fract q
  have hnonneg := Int.fract_nonneg q
  have hlt := Int.fract_lt_one q
  rw [roundEven_eq]
  rcases lt_trichotomy n (⌊q⌋ + 1) with hless | heq | hmore
  · have hle : (n : Rat) ≤ ⌊q⌋ := by exact_mod_cast Int.lt_add_one_iff.1 hless
    refine iff_of_true ?_ (by linarith)
    split <;> omega
  · have hcast : (n : Rat) = ⌊q⌋ + 1 := by exact_mod_cast heq
    have hodd : ⌊q⌋ % 2 = 1 := by omega
    split
    case isTrue hup =>
      have hhalf : 1 / 2 ≤ Int.fract q := hup.elim le_of_lt fun h => h.1.ge
      exact iff_of_true heq.le (by linarith)
    case isFalse hdown =>
      have hhalf : Int.fract q < 1 / 2 := by
        rcases lt_trichotomy (Int.fract q) (1 / 2) with hless | hmiddle | hmore
        · exact hless
        · exact absurd (.inr ⟨hmiddle, hodd⟩) hdown
        · exact absurd (.inl hmore) hdown
      exact iff_of_false (by omega) (by linarith)
  · have hle : (⌊q⌋ : Rat) + 2 ≤ n := by exact_mod_cast (show ⌊q⌋ + 2 ≤ n by omega)
    refine iff_of_false ?_ (by linarith)
    split <;> omega

/-! ## To 53 significant bits -/

theorem twoPow_pos (e : Int) : 0 < twoPow e := zpow_pos (by norm_num) e

theorem twoPow_add (d e : Int) : twoPow (d + e) = twoPow d * twoPow e := zpow_add₀ (by norm_num) d e

theorem twoPow_natCast (k : Nat) : twoPow k = (2 : Rat) ^ k := zpow_natCast 2 k

theorem twoPow_lt_iff {d e : Int} : twoPow d < twoPow e ↔ d < e := zpow_lt_zpow_iff_right₀ (by norm_num)

theorem twoPow_le_iff {d e : Int} : twoPow d ≤ twoPow e ↔ d ≤ e := zpow_le_zpow_iff_right₀ (by norm_num)

/-- A positive number lies within its binade. -/
theorem binade_bounds (h : 0 < q) : twoPow (binade q) ≤ q ∧ q < twoPow (binade q + 1) := by
  have hnum : 0 < q.num := Rat.num_pos.2 h
  have hq : q = (q.num.toNat : Rat) / (q.den : Rat) := by
    have hcast : ((q.num.toNat : Int) : Rat) = (q.num : Rat) := by rw [Int.toNat_of_nonneg hnum.le]
    rw [← Int.cast_natCast q.num.toNat, hcast, Rat.num_div_den]
  have hden : (0 : Rat) < q.den := by exact_mod_cast q.den_pos
  have hnumLow : (2 : Rat) ^ q.num.toNat.log2 ≤ q.num.toNat := by exact_mod_cast Nat.log2_self_le (by omega)
  have hnumHigh : (q.num.toNat : Rat) < 2 ^ (q.num.toNat.log2 + 1) := by exact_mod_cast Nat.lt_log2_self
  have hdenLow : (2 : Rat) ^ q.den.log2 ≤ q.den := by exact_mod_cast Nat.log2_self_le q.den_nz
  have hdenHigh : (q.den : Rat) < 2 ^ (q.den.log2 + 1) := by exact_mod_cast Nat.lt_log2_self
  set e : Int := (q.num.toNat.log2 : Int) - (q.den.log2 : Int) with he
  have hupper : q < twoPow (e + 1) := by
    have hsplit : twoPow (e + 1) * (2 : Rat) ^ q.den.log2 = 2 ^ (q.num.toNat.log2 + 1) := by
      rw [← twoPow_natCast, ← twoPow_natCast, ← twoPow_add]
      congr 1
      push_cast
      omega
    rw [hq, div_lt_iff₀ hden]
    calc (q.num.toNat : Rat) < 2 ^ (q.num.toNat.log2 + 1) := hnumHigh
      _ = twoPow (e + 1) * 2 ^ q.den.log2 := hsplit.symm
      _ ≤ twoPow (e + 1) * q.den := by gcongr; exact (twoPow_pos _).le
  have hlower : twoPow (e - 1) ≤ q := by
    have hsplit : twoPow (e - 1) * (2 : Rat) ^ (q.den.log2 + 1) = 2 ^ q.num.toNat.log2 := by
      rw [← twoPow_natCast, ← twoPow_natCast, ← twoPow_add]
      congr 1
      push_cast
      omega
    rw [hq, le_div_iff₀ hden]
    calc twoPow (e - 1) * q.den ≤ twoPow (e - 1) * 2 ^ (q.den.log2 + 1) := by gcongr; exact (twoPow_pos _).le
      _ = 2 ^ q.num.toNat.log2 := hsplit
      _ ≤ q.num.toNat := hnumLow
  have hbinade : binade q = if twoPow e ≤ q then e else e - 1 := rfl
  rw [hbinade]
  split
  case isTrue hle => exact ⟨hle, hupper⟩
  case isFalse hlt =>
    refine ⟨hlower, ?_⟩
    rw [Int.sub_add_cancel]
    exact lt_of_not_ge hlt

theorem nearest_of_pos (h : 0 < q) :
    nearest q = roundEven (q / twoPow (binade q - 52)) * twoPow (binade q - 52) :=
  if_neg (not_le.2 h)

theorem nearest_of_nonpos (h : q ≤ 0) : nearest q = 0 := if_pos h

/-- Whole multiples of the unit of a number's binade stay on their side of it. -/
theorem mul_unit_le_nearest (h : 0 < q) {m : Int} (hm : m * twoPow (binade q - 52) ≤ q) :
    m * twoPow (binade q - 52) ≤ nearest q := by
  rw [nearest_of_pos h]
  have hround := roundEven_mono ((le_div_iff₀ (twoPow_pos _)).2 hm)
  rw [roundEven_intCast] at hround
  gcongr
  · exact (twoPow_pos _).le

theorem nearest_le_mul_unit (h : 0 < q) {m : Int} (hm : q ≤ m * twoPow (binade q - 52)) :
    nearest q ≤ m * twoPow (binade q - 52) := by
  rw [nearest_of_pos h]
  have hround := roundEven_mono ((div_le_iff₀ (twoPow_pos _)).2 hm)
  rw [roundEven_intCast] at hround
  gcongr
  · exact (twoPow_pos _).le

/-- A number is not rounded out of its binade, except to its upper end. -/
theorem nearest_bounds (h : 0 < q) : twoPow (binade q) ≤ nearest q ∧ nearest q ≤ twoPow (binade q + 1) := by
  obtain ⟨hlow, hhigh⟩ := binade_bounds h
  have hlowEnd : ((2 ^ 52 : Int) : Rat) * twoPow (binade q - 52) = twoPow (binade q) := by
    have hpow : ((2 ^ 52 : Int) : Rat) = twoPow 52 := by norm_num [twoPow]
    rw [hpow, ← twoPow_add]
    congr 1
    omega
  have hhighEnd : ((2 ^ 53 : Int) : Rat) * twoPow (binade q - 52) = twoPow (binade q + 1) := by
    have hpow : ((2 ^ 53 : Int) : Rat) = twoPow 53 := by norm_num [twoPow]
    rw [hpow, ← twoPow_add]
    congr 1
    omega
  constructor
  · rw [← hlowEnd]
    exact mul_unit_le_nearest h (hlowEnd.trans_le hlow)
  · rw [← hhighEnd]
    exact nearest_le_mul_unit h (hhighEnd.symm ▸ hhigh.le)

theorem nearest_nonneg (q : Rat) : 0 ≤ nearest q := by
  rcases le_or_gt q 0 with hle | hpos
  · rw [nearest_of_nonpos hle]
  · exact (twoPow_pos _).le.trans (nearest_bounds hpos).1

theorem nearest_mono (h : p ≤ q) : nearest p ≤ nearest q := by
  rcases le_or_gt p 0 with hle | hpos
  · rw [nearest_of_nonpos hle]
    exact nearest_nonneg q
  have hposq := hpos.trans_le h
  have hbinade : binade p ≤ binade q := by
    have hlt := ((binade_bounds hpos).1.trans h).trans_lt (binade_bounds hposq).2
    rw [twoPow_lt_iff] at hlt
    omega
  rcases hbinade.lt_or_eq with hlt | heq
  · calc nearest p ≤ twoPow (binade p + 1) := (nearest_bounds hpos).2
      _ ≤ twoPow (binade q) := twoPow_le_iff.2 hlt
      _ ≤ nearest q := (nearest_bounds hposq).1
  · rw [nearest_of_pos hpos, nearest_of_pos hposq, heq]
    have hunit := twoPow_pos (binade q - 52)
    have hround := roundEven_mono (div_le_div_of_nonneg_right h hunit.le)
    gcongr

/-- Rounding errs by at most one part in 2⁵³. -/
theorem abs_nearest_sub_le (h : 0 ≤ q) : |nearest q - q| ≤ q / 2 ^ 53 := by
  rcases h.eq_or_lt with rfl | hpos
  · simp [nearest_of_nonpos]
  have hunit := twoPow_pos (binade q - 52)
  have hsplit : q = q / twoPow (binade q - 52) * twoPow (binade q - 52) := (div_mul_cancel₀ q hunit.ne').symm
  have hhalf : 1 / 2 * twoPow (binade q - 52) = twoPow (binade q) / 2 ^ 53 := by
    have hshift : twoPow (binade q) = 2 ^ 52 * twoPow (binade q - 52) := by
      rw [← twoPow_natCast, ← twoPow_add]
      congr 1
      push_cast
      omega
    rw [hshift]
    ring
  calc |nearest q - q|
      = |(roundEven (q / twoPow (binade q - 52)) : Rat) - q / twoPow (binade q - 52)| * twoPow (binade q - 52) := by
        rw [nearest_of_pos hpos, ← abs_of_pos hunit, ← abs_mul, abs_of_pos hunit, sub_mul, ← hsplit]
    _ ≤ 1 / 2 * twoPow (binade q - 52) := mul_le_mul_of_nonneg_right (abs_roundEven_sub_le _) hunit.le
    _ = twoPow (binade q) / 2 ^ 53 := hhalf
    _ ≤ q / 2 ^ 53 := div_le_div_of_nonneg_right (binade_bounds hpos).1 (by positivity)

/-- What has 53 significant bits is not rounded. -/
theorem nearest_eq_self {m : Nat} (hm : m < 2 ^ 53) (k : Int) : nearest (m * twoPow k) = m * twoPow k := by
  rcases Nat.eq_zero_or_pos m with rfl | hpos
  · simp [nearest_of_nonpos]
  have hcast : (0 : Rat) < m := by exact_mod_cast hpos
  have hq : 0 < (m : Rat) * twoPow k := mul_pos hcast (twoPow_pos k)
  have hbinade : binade ((m : Rat) * twoPow k) < 53 + k := by
    have hbits : (m : Rat) < twoPow 53 := by
      have hpow : twoPow 53 = ((2 ^ 53 : Nat) : Rat) := by norm_num [twoPow]
      rw [hpow]
      exact_mod_cast hm
    rw [← twoPow_lt_iff, twoPow_add]
    exact (binade_bounds hq).1.trans_lt (mul_lt_mul_of_pos_right hbits (twoPow_pos k))
  -- the number is a whole multiple of the unit
  obtain ⟨j, hj⟩ := Int.eq_ofNat_of_zero_le (show 0 ≤ k - (binade ((m : Rat) * twoPow k) - 52) by omega)
  have hmultiple : (m : Rat) * twoPow k =
      ((m * 2 ^ j : Int) : Rat) * twoPow (binade ((m : Rat) * twoPow k) - 52) := by
    have hsplit : twoPow k = (2 : Rat) ^ j * twoPow (binade ((m : Rat) * twoPow k) - 52) := by
      rw [← twoPow_natCast, ← twoPow_add]
      congr 1
      omega
    push_cast
    rw [mul_assoc, ← hsplit]
  refine le_antisymm ?_ ?_
  · calc nearest (m * twoPow k) ≤ _ := nearest_le_mul_unit hq hmultiple.le
      _ = _ := hmultiple.symm
  · calc m * twoPow k = _ := hmultiple
      _ ≤ nearest (m * twoPow k) := mul_unit_le_nearest hq hmultiple.ge

/-! ## Quotients -/

theorem quotient_nonneg (n d : Nat) : 0 ≤ quotient n d := nearest_nonneg _

theorem quotient_mono {m n : Nat} (h : m ≤ n) (d : Nat) : quotient m d ≤ quotient n d := by
  have hcast : (m : Rat) ≤ n := by exact_mod_cast h
  exact nearest_mono (div_le_div_of_nonneg_right (nearest_mono hcast) d.cast_nonneg)

/-- A whole number of at most 53 bits is divided by a power of two without rounding. -/
theorem quotient_two_pow {n : Nat} (hn : n < 2 ^ 53) (k : Nat) : quotient n (2 ^ k) = (n : Rat) / 2 ^ k := by
  have hwhole := nearest_eq_self hn 0
  have hscaled := nearest_eq_self hn (-k)
  have hone : twoPow 0 = 1 := zpow_zero 2
  have hinv : twoPow (-k) = ((2 : Rat) ^ k)⁻¹ := by rw [twoPow, zpow_neg, zpow_natCast]
  rw [hone, mul_one] at hwhole
  rw [hinv, ← div_eq_mul_inv] at hscaled
  rw [quotient, hwhole, Nat.cast_pow, Nat.cast_ofNat, hscaled]

/-- Of the two roundings of a quotient each errs by one part in 2⁵³. -/
theorem abs_quotient_sub_le (n : Nat) {d : Nat} (hd : 0 < d) : |quotient n d - n / d| ≤ n / d / 2 ^ 51 := by
  have hpos : (0 : Rat) < d := by exact_mod_cast hd
  have hn : (0 : Rat) ≤ n := n.cast_nonneg
  have hwhole := abs_le.1 (abs_nearest_sub_le hn)
  have hquotient := abs_le.1 (abs_nearest_sub_le (div_nonneg (nearest_nonneg n) hpos.le))
  -- the error of the first rounding is divided along
  have hfirst : |nearest n / d - n / d| ≤ n / d / 2 ^ 53 := by
    rw [← sub_div, abs_div, abs_of_pos hpos, div_right_comm]
    exact div_le_div_of_nonneg_right (abs_le.2 hwhole) hpos.le
  have hfirst' := abs_le.1 hfirst
  have hratio : (0 : Rat) ≤ n / d := div_nonneg hn hpos.le
  rw [quotient, abs_le]
  constructor <;> linarith

end FairShare.Numeric
