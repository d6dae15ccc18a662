import Mathlib.Algebra.Order.Ring.Nat
import Mathlib.Tactic.SplitIfs
import Mathlib.Tactic.ByContra
import DiskCut.Scalar

/-!
# Rounding to binary64

Without its sign a number is a multiple of the least positive one, `2^-1074`, and its bits, read as
a natural number, count the numbers below it.  Rounding is seen here as a map between the two: from
a count of units to the bits of the nearest number.

* `nearestEven n k`   `n / 2^k` rounded to a natural number, to the even one of two that are as near
* `nearest n`         the bits of the number nearest to `n` units
* `magnitude b`       the number with the bits `b`, in units
* `Parts b k m`       the bits `b` have the exponent `k` and the mantissa `m`
* `nearest_mono`, `nearest_magnitude`   rounding is monotone, and leaves a number as it is
* `packed_round`      rounding of a mantissa and an exponent, in these terms
-/

namespace DiskCut
namespace Binary64
open Float.Model UnpackedFloat

/-! ## rounding a quotient -/

/-- `n / 2^k` rounded to the nearest natural number, to the even one of two that are as near -/
def nearestEven (n k : Nat) : Nat :=
  if 2 * (n % 2^k) < 2^k then n / 2^k
  else if 2 * (n % 2^k) = 2^k then n / 2^k + n / 2^k % 2
  else n / 2^k + 1

theorem div_le_nearestEven (n k : Nat) : n / 2^k ≤ nearestEven n k := by
  unfold nearestEven
  split
  · exact Nat.le_refl _
  · split <;> omega

theorem nearestEven_le (n k : Nat) : nearestEven n k ≤ n / 2^k + 1 := by
  unfold nearestEven
  split
  · exact Nat.le_succ _
  · split <;> omega

theorem nearestEven_mono {n n' : Nat} (h : n ≤ n') (k : Nat) :
    nearestEven n k ≤ nearestEven n' k := by
  rcases Nat.lt_or_eq_of_le (Nat.div_le_div_right (c := 2^k) h) with hlt | heq
  · exact (nearestEven_le n k).trans (Nat.le_trans hlt (div_le_nearestEven n' k))
  · -- with equal quotients the remainders are in order
    have hn := Nat.div_add_mod n (2^k)
    have hn' := Nat.div_add_mod n' (2^k)
    rw [heq] at hn
    have hmod : n % 2^k ≤ n' % 2^k := by omega
    unfold nearestEven
    rw [heq]
    split_ifs <;> omega

theorem nearestEven_mul (m k : Nat) : nearestEven (m * 2^k) k = m := by
  unfold nearestEven
  rw [Nat.mul_mod_left, Nat.mul_div_cancel _ (Nat.two_pow_pos k)]
  exact if_pos (Nat.two_pow_pos k)

/-- bits that are dropped anyway may be missing from the start -/
theorem nearestEven_mul_add (m j k : Nat) : nearestEven (m * 2^j) (j + k) = nearestEven m k := by
  have hpos := Nat.two_pow_pos j
  have hscale : ∀ a b : Nat, a * 2^j < b * 2^j ↔ a < b := fun a b => Nat.mul_lt_mul_right hpos
  have hequal : ∀ a b : Nat, a * 2^j = b * 2^j ↔ a = b := fun a b => Nat.mul_left_inj hpos.ne'
  unfold nearestEven
  rw [Nat.add_comm, Nat.pow_add, Nat.mul_mod_mul_right, Nat.mul_div_mul_right _ _ hpos,
    ← Nat.mul_assoc]
  simp only [hscale, hequal]

/-! ## the bits of the nearest number -/

/-- the bits of infinity -/
def limit : Nat := 2047 * 2^52

/-- the bits of the number nearest to `n` units: all but 53 binary digits of `n` are dropped, and
the number of dropped digits is the exponent -/
def nearest (n : Nat) : Nat :=
  min limit ((n.log2 - 52) * 2^52 + nearestEven n (n.log2 - 52))

/-- the number with the bits `b`, in units; infinity counts as the number after the greatest -/
def magnitude (b : Nat) : Nat := (b - (b / 2^52 - 1) * 2^52) * 2^(b / 2^52 - 1)

/-- the bits `b` have the exponent `k` and the mantissa `m`, with all 53 digits unless `k = 0` -/
structure Parts (b k m : Nat) : Prop where
  eq : b = k * 2^52 + m
  lt : m < 2^53
  normal : k = 0 ∨ 2^52 ≤ m

theorem parts (b : Nat) : Parts b (b / 2^52 - 1) (b - (b / 2^52 - 1) * 2^52) where
  eq := by omega
  lt := by omega
  normal := by omega

theorem Parts.magnitude_eq {b k m : Nat} (h : Parts b k m) : magnitude b = m * 2^k := by
  obtain ⟨rfl, hlt, hnormal⟩ := h
  have hk : (k * 2^52 + m) / 2^52 - 1 = k := by omega
  unfold magnitude
  rw [hk, Nat.add_sub_cancel_left]

theorem log2_le_log2 {n n' : Nat} (h : n ≤ n') : n.log2 ≤ n'.log2 := by
  rcases Nat.eq_zero_or_pos n with rfl | hpos
  · exact Nat.zero_le _
  · have hpos' := Nat.lt_of_lt_of_le hpos h
    exact (Nat.le_log2 hpos'.ne').mpr ((Nat.log2_self_le hpos.ne').trans h)

theorem mul_two_pow_sub (m : Nat) {i k : Nat} (h : i ≤ k) : m * 2^(k - i) * 2^i = m * 2^k := by
  rw [Nat.mul_assoc, ← Nat.pow_add, Nat.sub_add_cancel h]

theorem log2_mul_two_pow {m : Nat} (hm : m ≠ 0) (k : Nat) : (m * 2^k).log2 = m.log2 + k := by
  have hlow := Nat.log2_self_le hm
  have hhigh := Nat.lt_log2_self (n := m)
  rw [Nat.log2_eq_iff (Nat.mul_ne_zero hm (Nat.two_pow_pos k).ne')]
  refine ⟨?_, ?_⟩
  · rw [Nat.pow_add]
    exact Nat.mul_le_mul_right _ hlow
  · rw [show m.log2 + k + 1 = m.log2 + 1 + k by omega, Nat.pow_add]
    exact Nat.mul_lt_mul_of_pos_right hhigh (Nat.two_pow_pos k)

/-- with at most 53 digits left the rounded quotient is at most `2^53` -/
theorem nearestEven_le_of_log2 {n k : Nat} (h : n.log2 ≤ k + 52) : nearestEven n k ≤ 2^53 := by
  have hlt : n < 2^53 * 2^k := by
    rw [← Nat.pow_add]
    exact Nat.lt_of_lt_of_le Nat.lt_log2_self (Nat.pow_le_pow_right (by omega) (by omega))
  have hdiv := (Nat.div_lt_iff_lt_mul (Nat.two_pow_pos k)).mpr hlt
  exact (nearestEven_le n k).trans hdiv

/-- with 53 digits left the rounded quotient has them all -/
theorem le_nearestEven_of_log2 {n k : Nat} (hn : n ≠ 0) (h : n.log2 = k + 52) :
    2^52 ≤ nearestEven n k := by
  have hle : 2^52 * 2^k ≤ n := by
    rw [← Nat.pow_add, Nat.add_comm, ← h]
    exact Nat.log2_self_le hn
  exact ((Nat.le_div_iff_mul_le (Nat.two_pow_pos k)).mpr hle).trans (div_le_nearestEven n k)

theorem nearest_mono {n n' : Nat} (h : n ≤ n') : nearest n ≤ nearest n' := by
  have hlog := log2_le_log2 h
  have hle : (n.log2 - 52) * 2^52 + nearestEven n (n.log2 - 52)
      ≤ (n'.log2 - 52) * 2^52 + nearestEven n' (n'.log2 - 52) := by
    rcases Nat.lt_or_eq_of_le (Nat.sub_le_sub_right hlog 52) with hlt | heq
    · have hupper := nearestEven_le_of_log2 (n := n) (k := n.log2 - 52) (by omega)
      have hne : n' ≠ 0 := by
        rintro rfl
        exact absurd hlt (by simp [Nat.log2_zero])
      have hlower := le_nearestEven_of_log2 (k := n'.log2 - 52) hne (by omega)
      omega
    · rw [heq]
      exact Nat.add_le_add_left (nearestEven_mono h _) _
  unfold nearest
  omega

theorem Parts.nearest_eq {b k m : Nat} (h : Parts b k m) : nearest (m * 2^k) = min limit b := by
  have hk : (m * 2^k).log2 - 52 = k := by
    rcases Nat.eq_zero_or_pos m with rfl | hpos
    · obtain rfl : k = 0 := by
        have := h.normal
        omega
      rfl
    · have hhigh := (Nat.log2_lt hpos.ne').mpr h.lt
      rw [log2_mul_two_pow hpos.ne']
      rcases h.normal with rfl | hnormal
      · omega
      · have hlow := (Nat.le_log2 hpos.ne').mpr hnormal
        omega
  unfold nearest
  rw [hk, nearestEven_mul, h.eq]

/-- a number is the nearest to itself -/
theorem nearest_magnitude {b : Nat} (h : b ≤ limit) : nearest (magnitude b) = b := by
  have hparts := parts b
  rw [hparts.magnitude_eq, hparts.nearest_eq]
  exact Nat.min_eq_right h

theorem magnitude_mono {b b' : Nat} (h : b ≤ b') (h' : b' ≤ limit) :
    magnitude b ≤ magnitude b' := by
  by_contra hlt
  have hle := nearest_mono (Nat.le_of_not_le hlt)
  rw [nearest_magnitude h', nearest_magnitude (h.trans h')] at hle
  exact hlt (Nat.le_antisymm hle h ▸ Nat.le_refl _)

/-! ## rounding of a mantissa and an exponent -/

/-- the digits dropped by a shift of two places or more collect in the sticky bit -/
theorem shiftRight_succ (m k : Nat) : (⟨m, false, false⟩ : ExtendedMantissa) >>> (k + 1) =
    ⟨m / 2^(k + 1), m / 2^k % 2 != 0, m % 2^k != 0⟩ := by
  induction k with
  | zero =>
    show ExtendedMantissa.mk (m / 2) (m % 2 != 0) false = _
    simp [Nat.mod_one]
  | succ k ih =>
    show ExtendedMantissa.shiftRightOne ((⟨m, false, false⟩ : ExtendedMantissa) >>> (k + 1)) = _
    have hmod : m % 2^(k + 1) = m % 2^k + 2^k * (m / 2^k % 2) := Nat.mod_pow_succ
    have hsticky : (m / 2^k % 2 != 0 || m % 2^k != 0) = (m % 2^(k + 1) != 0) := by
      have hpos := Nat.two_pow_pos k
      rw [Bool.eq_iff_iff]
      simp only [Bool.or_eq_true, bne_iff_ne, hmod]
      rcases Nat.mod_two_eq_zero_or_one (m / 2^k) with hbit | hbit <;> rw [hbit] <;> omega
    rw [ih]
    unfold ExtendedMantissa.shiftRightOne
    rw [hsticky, Nat.div_div_eq_div_mul, ← Nat.pow_succ]

theorem roundedMantissa_eq (q : Nat) (half rest : Bool) :
    (⟨q, half, rest⟩ : ExtendedMantissa).roundedMantissa =
      if half then if rest then q + 1 else q + q % 2 else q := by
  cases half <;> cases rest <;> rfl

/-- the two residual bits are what rounding to the nearest needs to know -/
theorem roundedMantissa_shiftRight (m k : Nat) :
    ((⟨m, false, false⟩ : ExtendedMantissa) >>> k).roundedMantissa = nearestEven m k := by
  cases k with
  | zero =>
    have hone := nearestEven_mul m 0
    rw [Nat.pow_zero, Nat.mul_one] at hone
    exact hone.symm
  | succ k =>
    have hlt := Nat.mod_lt m (Nat.two_pow_pos k)
    have hmod : m % 2^(k + 1) = m % 2^k + 2^k * (m / 2^k % 2) := Nat.mod_pow_succ
    have hpow : 2^(k + 1) = 2 * 2^k := Nat.pow_succ'
    rw [shiftRight_succ, roundedMantissa_eq]
    unfold nearestEven
    rw [hmod, hpow]
    rcases Nat.mod_two_eq_zero_or_one (m / 2^k) with hbit | hbit
    · rw [hbit]
      exact (if_pos (by omega)).symm
    · simp only [hbit, bne_iff_ne]
      split_ifs <;> omega

theorem mantissa_shiftRight (m k : Nat) :
    ((⟨m, false, false⟩ : ExtendedMantissa) >>> k).mantissa = m / 2^k := by
  cases k with
  | zero => exact (Nat.div_one m).symm
  | succ k => rw [shiftRight_succ]

theorem targetExponent_eq (m j : Nat) :
    Format.binary64.targetExponent (totalExponent m ((j : Int) - 1074)) =
      ((m.log2 + j - 52 : Nat) : Int) - 1074 := by
  have hbits : Format.binary64.mantissaBits = 53 := rfl
  simp only [Format.targetExponent, totalExponent, hbits, Format.minExponent]
  omega

theorem shiftToTargetExponent_eq (m j : Nat) :
    shiftToTargetExponent Format.binary64 m ((j : Int) - 1074) .exact =
      ((⟨m, false, false⟩ : ExtendedMantissa) >>> (m.log2 - 52),
        ((j + (m.log2 - 52) : Nat) : Int) - 1074) := by
  have hshift : (((m.log2 + j - 52 : Nat) : Int) - 1074 - ((j : Int) - 1074)).toNat
      = m.log2 - 52 := by omega
  unfold shiftToTargetExponent shiftToExponent
  simp only [targetExponent_eq, hshift]
  refine Prod.ext rfl ?_
  show (j : Int) - 1074 + ((m.log2 - 52 : Nat) : Int) = _
  omega

/-- the bits of an unpacked value as a natural number -/
def packed (u : UnpackedFloat) : Nat := (UnpackedFloat.pack Format.binary64 u).toNat

theorem toNat_packComponents (s : Sign) (k : BitVec 11) (m : BitVec 52) :
    (packComponents Format.binary64 s k m).toNat =
      (s.toBitVec.toNat * 2^11 + k.toNat) * 2^52 + m.toNat := by
  show ((s.toBitVec ++ k) ++ m : BitVec (1 + 11 + 52)).toNat = _
  rw [BitVec.toNat_append, ← Nat.shiftLeft_add_eq_or_of_lt m.isLt, BitVec.toNat_append,
    ← Nat.shiftLeft_add_eq_or_of_lt k.isLt, Nat.shiftLeft_eq, Nat.shiftLeft_eq]

/-- exponent and mantissa stand side by side, so a mantissa with all its digits counts as one more
in the place of the exponent -/
theorem packed_finite {k m : Nat} (hm : 0 < m) (lt : m < 2^53) (normal : k = 0 ∨ 2^52 ≤ m) :
    packed (.finite .positive m ((k : Int) - 1074) hm) = min limit (k * 2^52 + m) := by
  have hbiased : ((k : Int) - 1074 + Format.binary64.exponentBias
      + Format.binary64.mantissaBitsWithoutImplicit).toNat = k + 1 := by
    show ((k : Int) - 1074 + 1023 + 52).toNat = _
    omega
  unfold packed UnpackedFloat.pack
  simp only [hbiased]
  split_ifs with hinf hfull
  · replace hinf : 2^11 ≤ k + 1 + 1 := hinf
    show limit = _
    unfold limit
    omega
  · replace hinf : ¬ 2^11 ≤ k + 1 + 1 := hinf
    replace hfull : m.log2 + 1 = 53 := hfull
    have hle := (Nat.le_log2 hm.ne').mp (by omega : 52 ≤ m.log2)
    rw [toNat_packComponents, BitVec.toNat_ofNat, BitVec.toNat_ofNat]
    show (0 * 2^11 + (k + 1) % 2^11) * 2^52 + m % 2^52 = _
    unfold limit
    omega
  · replace hfull : ¬ m.log2 + 1 = 53 := hfull
    have hlog := (Nat.log2_lt hm.ne').mpr lt
    have hlt := (Nat.log2_lt hm.ne').mp (by omega : m.log2 < 52)
    rw [toNat_packComponents, BitVec.toNat_ofNat]
    show (0 * 2^11 + 0) * 2^52 + m % 2^52 = _
    unfold limit
    omega

/-- a mantissa that rounding has carried to `2^53` goes to the next exponent, with the same bits -/
theorem packed_carried {k q : Nat} (hq : 0 < q) (le : q ≤ 2^53) (normal : k = 0 ∨ 2^52 ≤ q) :
    packed (if h : q / 2^(q.log2 - 52) = 0 then .zero .positive else
      .finite .positive (q / 2^(q.log2 - 52)) (((k + (q.log2 - 52) : Nat) : Int) - 1074)
        (Nat.pos_of_ne_zero h)) = min limit (k * 2^52 + q) := by
  generalize hd : q.log2 - 52 = d
  generalize hq' : q / 2^d = q'
  rcases Nat.lt_or_eq_of_le le with hlt | rfl
  · obtain rfl : d = 0 := by
      have := (Nat.log2_lt hq.ne').mpr hlt
      omega
    rw [Nat.pow_zero, Nat.div_one] at hq'
    subst hq'
    rw [dif_neg hq.ne']
    exact packed_finite hq hlt normal
  · rw [Nat.log2_two_pow] at hd
    subst hd
    obtain rfl : q' = 2^52 := hq'.symm
    rw [dif_neg (by decide), packed_finite (by decide) (by decide) (.inr (by decide))]
    omega

theorem packed_roundWithAccuracy {m j : Nat} (hm : m ≠ 0) (hj : j = 0 ∨ 52 ≤ m.log2) :
    packed (roundWithAccuracy Format.binary64 .positive m ((j : Int) - 1074) .exact) =
      nearest (m * 2^j) := by
  have hlog : (m * 2^j).log2 - 52 = j + (m.log2 - 52) := by
    rw [log2_mul_two_pow hm]
    omega
  have hle := nearestEven_le_of_log2 (n := m) (k := m.log2 - 52) (by omega)
  have hfull : 52 ≤ m.log2 → 2^52 ≤ nearestEven m (m.log2 - 52) :=
    fun h => le_nearestEven_of_log2 hm (by omega)
  have hpos : 0 < nearestEven m (m.log2 - 52) := by
    rcases Nat.lt_or_ge m.log2 52 with h | h
    · rw [Nat.sub_eq_zero_of_le h.le]
      have hone := nearestEven_mul m 0
      rw [Nat.pow_zero, Nat.mul_one] at hone
      omega
    · have := hfull h
      omega
  have hnormal : j + (m.log2 - 52) = 0 ∨ 2^52 ≤ nearestEven m (m.log2 - 52) := by
    rcases Nat.lt_or_ge m.log2 52 with h | h
    · exact .inl (by omega)
    · exact .inr (hfull h)
  unfold nearest
  rw [hlog, nearestEven_mul_add]
  unfold roundWithAccuracy
  rw [shiftToTargetExponent_eq]
  dsimp only
  rw [roundedMantissa_shiftRight, shiftToTargetExponent_eq]
  dsimp only
  rw [mantissa_shiftRight]
  exact packed_carried hpos hle hnormal

/-- the bits of a rounded value are those of the number nearest to it -/
theorem packed_round {m : Nat} (hm : m ≠ 0) (j : Nat) :
    packed (UnpackedFloat.round Format.binary64 .positive m ((j : Int) - 1074)) =
      nearest (m * 2^j) := by
  have hdown : ((j : Int) - 1074 - (((m.log2 + j - 52 : Nat) : Int) - 1074)).toNat
      = min j (52 - m.log2) := by omega
  have hexp : (j : Int) - 1074 - (min j (52 - m.log2) : Nat)
      = ((j - min j (52 - m.log2) : Nat) : Int) - 1074 := by omega
  unfold UnpackedFloat.round decreaseExponent
  simp only [targetExponent_eq, hdown, hexp, Nat.shiftLeft_eq]
  rw [← mul_two_pow_sub m (Nat.min_le_left j (52 - m.log2)), Nat.mul_right_comm]
  refine packed_roundWithAccuracy (Nat.mul_ne_zero hm (Nat.two_pow_pos _).ne') ?_
  rw [log2_mul_two_pow hm]
  omega

end Binary64
end DiskCut
