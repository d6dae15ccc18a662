import DiskCut.Proofs.Binary64.Rounding
import DiskCut.Proofs.Distance.Lengths

/-!
# Binary64 numbers as lengths

The bits of a length, read as a natural number, are its place among the lengths.  In these terms
addition is rounding of a sum, and every law of lengths is monotonicity of rounding.

* `Stands u b`          the unpacked value `u` is the length with the bits `b`
* `Stands.lt_iff`       the order of lengths is that of their bits
* `packed_add`          the bits of a sum are those of the number nearest to it
* `Unsigned u`          `u` has no sign, or is not a number: squares, their sums and roots
* `sub_abs_comm`        two differences that differ in order differ in sign only
-/

namespace DiskCut
namespace Binary64
open Float.Model UnpackedFloat

/-! ## lengths and their bits -/

/-- the bits of a number as a natural number -/
def bits (x : Float) : Nat := x.toBits.toNat

theorem floatPlace_eq (x : Float) :
    floatPlace x = if bits x < 2^63 then (bits x : Int) else 2^63 - 1 - (bits x : Int) := rfl

theorem noMore_iff {x y : Float} : NoMore x y ↔ floatPlace x ≤ floatPlace y := Int.isLE_compare

theorem limit_lt : limit < 2^63 := by decide

theorem isLength_iff {x : Float} : IsLength x ↔ bits x ≤ limit := by
  have hlimit := limit_lt
  have hzero : floatPlace (0.0 : Float) = 0 := by decide
  have hinfinity : floatPlace (Extended.infinity : Float) = limit := by decide
  have hlength : IsLength x ↔ 0 ≤ floatPlace x ∧ floatPlace x ≤ limit := by
    rw [← hzero, ← hinfinity, ← noMore_iff, ← noMore_iff]
    exact ⟨fun h => ⟨h.zero_noMore, h.noMore_infinity⟩, fun h => ⟨h.1, h.2⟩⟩
  rw [hlength, floatPlace_eq]
  split <;> omega

/-- the order of all values is on lengths the order of their bits -/
theorem noMore_iff_bits {x y : Float} (hx : bits x ≤ limit) (hy : bits y ≤ limit) :
    NoMore x y ↔ bits x ≤ bits y := by
  have hlimit := limit_lt
  rw [noMore_iff, floatPlace_eq, floatPlace_eq, if_pos (by omega), if_pos (by omega)]
  exact Int.ofNat_le

/-! ## what the bits stand for -/

/-- the unpacked value `u` is the length with the bits `b` -/
inductive Stands : UnpackedFloat → Nat → Prop
  | zero : Stands (.zero .positive) 0
  | finite {b k m : Nat} (hm : 0 < m) : Parts b k m → b < limit →
      Stands (.finite .positive m ((k : Int) - 1074) hm) b
  | infinity : Stands (.infinity .positive) limit

/-- the value that stands in the bits `b` -/
def unpacked (b : BitVec 64) : UnpackedFloat := UnpackedFloat.unpack Format.binary64 b

theorem toNat_unpackExponent (b : BitVec 64) :
    (@unpackExponent Format.binary64 b).toNat = b.toNat / 2^52 % 2^11 := by
  unfold unpackExponent
  simp [BitVec.extractLsb_toNat, Nat.shiftRight_eq_div_pow]

theorem toNat_unpackMantissa (b : BitVec 64) :
    (@unpackMantissa Format.binary64 b).toNat = b.toNat % 2^52 := by
  unfold unpackMantissa
  simp [BitVec.extractLsb_toNat]

theorem unpackSign_of_lt {b : BitVec 64} (h : b.toNat < 2^63) :
    Sign.ofBitVec (@unpackSign Format.binary64 b) = .positive := by
  have hzero : @unpackSign Format.binary64 b = 0#1 := by
    apply BitVec.eq_of_toNat_eq
    unfold unpackSign
    simp [BitVec.extractLsb_toNat, Nat.shiftRight_eq_div_pow]
    omega
  rw [hzero]
  rfl

/-- what can stand in the exponent field and the mantissa field -/
theorem unpack_cases (b : BitVec 64) :
    let u := unpacked b
    let s := Sign.ofBitVec (@unpackSign Format.binary64 b)
    let k := b.toNat / 2^52 % 2^11
    let m := b.toNat % 2^52
    (k = 2047 ∧ m = 0 ∧ u = .infinity s) ∨ (k = 2047 ∧ m ≠ 0 ∧ u = .notANumber) ∨
    (k = 0 ∧ m = 0 ∧ u = .zero s) ∨ (k < 2047 ∧ ∃ hm, u = .finite s
      (if k = 0 then m else 2^52 + m) (((k - 1 : Nat) : Int) - 1074) hm) := by
  intro u s k m
  have hk : (@unpackExponent Format.binary64 b).toNat = k := toNat_unpackExponent b
  have hm : (@unpackMantissa Format.binary64 b).toNat = m := toNat_unpackMantissa b
  have hklt : k < 2^11 := Nat.mod_lt _ (by decide)
  have hmlt : m < 2^52 := Nat.mod_lt _ (by decide)
  have hone : (1#1 ++ @unpackMantissa Format.binary64 b).toNat = 2^52 + m := by
    rw [BitVec.toNat_append, ← Nat.shiftLeft_add_eq_or_of_lt (BitVec.isLt _), hm]
    rfl
  have hbias : ((Format.binary64.exponentBias : Int) +
      Format.binary64.mantissaBitsWithoutImplicit) = 1075 := rfl
  -- the fields the unpacking compares, as numbers
  have hmax : @unpackExponent Format.binary64 b = -1#_ ↔ k = 2047 := by
    rw [← BitVec.toNat_inj, hk]
    rfl
  have hmin : @unpackExponent Format.binary64 b = 0#_ ↔ k = 0 := by
    rw [← BitVec.toNat_inj, hk, BitVec.toNat_zero]
  have hzero : @unpackMantissa Format.binary64 b = 0#_ ↔ m = 0 := by
    rw [← BitVec.toNat_inj, hm, BitVec.toNat_zero]
  have hu : u = unpacked b := rfl
  unfold unpacked UnpackedFloat.unpack at hu
  by_cases kmax : k = 2047
  · rw [if_pos (hmax.2 kmax)] at hu
    by_cases mzero : m = 0
    · exact .inl ⟨kmax, mzero, hu.trans (if_pos (hzero.2 mzero))⟩
    · exact .inr (.inl ⟨kmax, mzero, hu.trans (if_neg (hzero.not.2 mzero))⟩)
  rw [if_neg (hmax.not.2 kmax)] at hu
  by_cases kmin : k = 0
  · rw [if_pos (hmin.2 kmin)] at hu
    by_cases mzero : m = 0
    · exact .inr (.inr (.inl ⟨kmin, mzero, hu.trans (dif_pos (hzero.2 mzero))⟩))
    · refine .inr (.inr (.inr ⟨by omega, ?_, ?_⟩))
      · rw [if_pos kmin]
        exact Nat.pos_of_ne_zero mzero
      · refine hu.trans ((dif_neg (hzero.not.2 mzero)).trans ?_)
        congr 1
        · rw [if_pos kmin, hm]
        · rw [hk, hbias]
          omega
  · rw [if_neg (hmin.not.2 kmin)] at hu
    refine .inr (.inr (.inr ⟨by omega, ?_, ?_⟩))
    · rw [if_neg kmin]
      omega
    · refine hu.trans ?_
      congr 1
      · rw [if_neg kmin, hone]
      · rw [hk, hbias]
        omega

theorem stands_unpack {b : BitVec 64} (h : b.toNat ≤ limit) : Stands (unpacked b) b.toNat := by
  have hlimit := limit_lt
  have heq : limit = 2047 * 2^52 := rfl
  have hsign := unpackSign_of_lt (b := b) (by omega)
  rcases unpack_cases b with ⟨hk, hm, hu⟩ | ⟨hk, hm, hu⟩ | ⟨hk, hm, hu⟩ | ⟨hk, hpos, hu⟩
  · rw [hu, hsign, show b.toNat = limit by omega]
    exact .infinity
  · omega
  · rw [hu, hsign, show b.toNat = 0 by omega]
    exact .zero
  · rw [hu, hsign]
    refine .finite hpos ⟨?_, ?_, ?_⟩ (by omega) <;> split <;> omega

theorem stands_toModel {x : Float} (h : bits x ≤ limit) : Stands x.toModel.unpack (bits x) :=
  stands_unpack h

theorem Stands.le_limit {u : UnpackedFloat} {b : Nat} (h : Stands u b) : b ≤ limit := by
  cases h with
  | zero => exact Nat.zero_le _
  | finite _ _ hlt => exact hlt.le
  | infinity => exact Nat.le_refl _

/-! ## the order of lengths -/

theorem Parts.lt_iff {b c k l m n : Nat} (hb : Parts b k m) (hc : Parts c l n) :
    b < c ↔ k < l ∨ k = l ∧ m < n := by
  obtain ⟨rfl, hm, hk⟩ := hb
  obtain ⟨rfl, hn, hl⟩ := hc
  omega

theorem lt_finite_iff {m n : Nat} {e e' : Int} {hm : 0 < m} {hn : 0 < n} :
    (UnpackedFloat.finite .positive m e hm).lt (.finite .positive n e' hn) = true ↔
      e < e' ∨ e = e' ∧ m < n := by
  show (some ((compare e e').then (compare m n)) == some .lt) = true ↔ _
  rw [beq_iff_eq, Option.some.injEq, Ordering.then_eq_lt, Int.compare_eq_lt, Nat.compare_eq_lt,
    compare_eq_iff_eq]

theorem Stands.lt_iff {u v : UnpackedFloat} {b c : Nat} (hu : Stands u b) (hv : Stands v c) :
    u.lt v = true ↔ b < c := by
  have hlimit : 0 < limit := by decide
  cases hu with
  | zero =>
    cases hv with
    | zero => exact iff_of_false Bool.false_ne_true (Nat.lt_irrefl 0)
    | finite hn hc hlt =>
      have := hc.eq
      exact iff_of_true rfl (by omega)
    | infinity => exact iff_of_true rfl hlimit
  | infinity => exact iff_of_false (by cases hv <;> exact Bool.false_ne_true) hv.le_limit.not_gt
  | finite hm hb hlt =>
    cases hv with
    | zero => exact iff_of_false Bool.false_ne_true (Nat.not_lt_zero _)
    | finite hn hc hlt' =>
      rw [hb.lt_iff hc, lt_finite_iff]
      omega
    | infinity => exact iff_of_true rfl hlt

/-- whatever is less than a length is less than every length after it -/
theorem Stands.lt_of_lt {u v w : UnpackedFloat} {b c : Nat} (hu : Stands u b) (hv : Stands v c)
    (hle : b ≤ c) (h : w.lt u = true) : w.lt v = true := by
  cases w with
  | notANumber => exact absurd h Bool.false_ne_true
  | infinity s =>
    cases s with
    | negative => cases hv <;> rfl
    | positive => cases hu <;> exact absurd h Bool.false_ne_true
  | zero s =>
    have hpos : 0 < b := by
      cases hu with
      | zero => exact absurd h Bool.false_ne_true
      | finite hm hb _ =>
        have := hb.eq
        omega
      | infinity => decide
    cases hv with
    | zero => omega
    | finite => rfl
    | infinity => rfl
  | finite s m e hm =>
    cases s with
    | negative => cases hv <;> rfl
    | positive =>
      cases hu with
      | zero => exact absurd h Bool.false_ne_true
      | infinity =>
        cases hv with
        | zero => exact absurd hle (by decide)
        | finite _ _ hlt => omega
        | infinity => rfl
      | finite hn hb hlt =>
        cases hv with
        | zero =>
          have := hb.eq
          omega
        | infinity => rfl
        | finite hn' hc hlt' =>
          have hnot := mt (hc.lt_iff hb).mpr (Nat.not_lt.mpr hle)
          rw [lt_finite_iff] at h ⊢
          omega

/-! ## sums of lengths -/

theorem Stands.packed_eq {u : UnpackedFloat} {b : Nat} (h : Stands u b) : packed u = b := by
  cases h with
  | zero => rfl
  | finite hm hb hlt =>
    rw [packed_finite hm hb.lt hb.normal, ← hb.eq]
    exact Nat.min_eq_right hlt.le
  | infinity => rfl

theorem nearest_le (n : Nat) : nearest n ≤ limit := Nat.min_le_left _ _

theorem magnitude_zero : magnitude 0 = 0 := rfl

/-- a sum with infinity is infinite -/
theorem nearest_limit_add (n : Nat) : nearest (magnitude limit + n) = limit := by
  refine (nearest_le _).antisymm ?_
  have hmono := nearest_mono (Nat.le_add_right (magnitude limit) n)
  rwa [nearest_magnitude (Nat.le_refl _)] at hmono

theorem normalize_of_pos {n : Nat} (hn : 0 < n) (e : Int) (s : Sign) :
    UnpackedFloat.normalize Format.binary64 (n : Int) e s =
      UnpackedFloat.round Format.binary64 .positive n e := by
  have hgt : compare (n : Int) 0 = .gt := Int.compare_eq_gt.mpr (Int.natCast_pos.mpr hn)
  unfold UnpackedFloat.normalize
  rw [hgt]
  rfl

/-- two finite lengths are added at the smaller of their exponents -/
theorem add_finite {k l m n : Nat} (hm : 0 < m) (hn : 0 < n) :
    UnpackedFloat.add Format.binary64 (.finite .positive m ((k : Int) - 1074) hm)
      (.finite .positive n ((l : Int) - 1074) hn) =
    UnpackedFloat.round Format.binary64 .positive (m * 2^(k - min k l) + n * 2^(l - min k l))
      (((min k l : Nat) : Int) - 1074) := by
  have hmin : min ((k : Int) - 1074) ((l : Int) - 1074) = ((min k l : Nat) : Int) - 1074 := by omega
  have hk : ((k : Int) - 1074 - (((min k l : Nat) : Int) - 1074)).toNat = k - min k l := by omega
  have hl : ((l : Int) - 1074 - (((min k l : Nat) : Int) - 1074)).toNat = l - min k l := by omega
  have hpos : 0 < m * 2^(k - min k l) + n * 2^(l - min k l) :=
    Nat.add_pos_left (Nat.mul_pos hm (Nat.two_pow_pos _)) _
  rw [← normalize_of_pos hpos _ .positive]
  unfold UnpackedFloat.add decreaseExponent
  simp only [hmin, hk, hl, Nat.shiftLeft_eq, Sign.apply, Int.natCast_add]

theorem packed_add {u v : UnpackedFloat} {b c : Nat} (hu : Stands u b) (hv : Stands v c) :
    packed (UnpackedFloat.add Format.binary64 u v) = nearest (magnitude b + magnitude c) := by
  cases hu with
  | zero =>
    rw [magnitude_zero, Nat.zero_add, nearest_magnitude hv.le_limit, ← hv.packed_eq]
    cases hv <;> rfl
  | infinity =>
    rw [nearest_limit_add]
    cases hv <;> rfl
  | finite hm hb hlt =>
    cases hv with
    | zero =>
      rw [magnitude_zero, Nat.add_zero, nearest_magnitude hlt.le]
      exact (Stands.finite hm hb hlt).packed_eq
    | infinity =>
      rw [Nat.add_comm, nearest_limit_add]
      rfl
    | @finite _ l n hn hc hlt' =>
      rename_i k m
      have hpos : 0 < m * 2^(k - min k l) + n * 2^(l - min k l) :=
        Nat.add_pos_left (Nat.mul_pos hm (Nat.two_pow_pos _)) _
      rw [add_finite, packed_round hpos.ne', hb.magnitude_eq, hc.magnitude_eq, Nat.add_mul,
        mul_two_pow_sub m (Nat.min_le_left k l), mul_two_pow_sub n (Nat.min_le_right k l)]

/-- the bits of a sum of lengths are those of the number nearest to it -/
theorem bits_add {x y : Float} (hx : bits x ≤ limit) (hy : bits y ≤ limit) :
    bits (x + y) = nearest (magnitude (bits x) + magnitude (bits y)) :=
  packed_add (stands_toModel hx) (stands_toModel hy)

/-! ## signs -/

/-- a value without a minus sign, or no number -/
def Unsigned (u : UnpackedFloat) : Prop := u.abs = u

theorem unsigned_unpack {b : BitVec 64} (h : b.toNat < 2^63) : Unsigned (unpacked b) := by
  have hsign := unpackSign_of_lt h
  rcases unpack_cases b with ⟨_, _, hu⟩ | ⟨_, _, hu⟩ | ⟨_, _, hu⟩ | ⟨_, _, hu⟩ <;>
    rw [hu] <;> try rw [hsign]
  all_goals rfl

/-- the sign alone decides about the first bit -/
theorem toNat_packComponents_lt (k : BitVec 11) (m : BitVec 52) :
    (packComponents Format.binary64 .positive k m).toNat < 2^63 := by
  have hk := k.isLt
  have hm := m.isLt
  rw [toNat_packComponents]
  show (0 * 2^11 + k.toNat) * 2^52 + m.toNat < _
  omega

/-- the sign of a number stands in the first bit only -/
theorem exists_pack_finite (m : Nat) (e : Int) :
    ∃ (k : BitVec 11) (n : BitVec 52), ∀ (s : Sign) (hm : 0 < m),
      UnpackedFloat.pack Format.binary64 (.finite s m e hm) =
        packComponents Format.binary64 s k n := by
  by_cases hlarge : 2 ^ Format.binary64.exponentBits ≤ (e + Format.binary64.exponentBias +
      Format.binary64.mantissaBitsWithoutImplicit).toNat + 1
  · exact ⟨_, _, fun _ _ => if_pos hlarge⟩
  by_cases hnormal : m.log2 + 1 = Format.binary64.mantissaBits
  · exact ⟨_, _, fun _ _ => (if_neg hlarge).trans (if_pos hnormal)⟩
  · exact ⟨_, _, fun _ _ => (if_neg hlarge).trans (if_neg hnormal)⟩

theorem Unsigned.packed_lt {u : UnpackedFloat} (h : Unsigned u) : packed u < 2^63 := by
  rw [← h]
  cases u with
  | notANumber => decide
  | infinity _ => exact toNat_packComponents_lt _ _
  | zero _ => exact toNat_packComponents_lt _ _
  | finite s m e hm =>
    obtain ⟨k, n, hpack⟩ := exists_pack_finite m e
    show (UnpackedFloat.pack Format.binary64 (.finite .positive m e hm)).toNat < _
    rw [hpack]
    exact toNat_packComponents_lt _ _

theorem abs_roundWithAccuracy (s : Sign) (m : Nat) (e : Int) (a : Accuracy) :
    (roundWithAccuracy Format.binary64 s m e a).abs =
      roundWithAccuracy Format.binary64 .positive m e a := by
  unfold roundWithAccuracy
  exact apply_dite UnpackedFloat.abs _ _ _

theorem abs_round (s : Sign) (m : Nat) (e : Int) :
    (UnpackedFloat.round Format.binary64 s m e).abs =
      UnpackedFloat.round Format.binary64 .positive m e :=
  abs_roundWithAccuracy s _ _ _

/-- a square has no sign, and the sign of the root does not matter -/
theorem mul_self_abs (u : UnpackedFloat) :
    (UnpackedFloat.mul Format.binary64 u u).abs =
      UnpackedFloat.mul Format.binary64 u.abs u.abs := by
  cases u with
  | notANumber => rfl
  | infinity s => rfl
  | zero s => rfl
  | finite s m e hm => exact abs_roundWithAccuracy _ _ _ _

theorem unsigned_mul_self (u : UnpackedFloat) :
    Unsigned (UnpackedFloat.mul Format.binary64 u u) := by
  cases u with
  | notANumber => rfl
  | infinity s => cases s <;> rfl
  | zero s => cases s <;> rfl
  | finite s m e hm =>
    have hs : s * s = .positive := by cases s <;> rfl
    show (roundWithAccuracy _ (s * s) _ _ _).abs = roundWithAccuracy _ (s * s) _ _ _
    rw [hs]
    exact abs_roundWithAccuracy _ _ _ _

theorem abs_normalize_neg (n : Int) (e : Int) :
    (UnpackedFloat.normalize Format.binary64 (-n) e .positive).abs =
      (UnpackedFloat.normalize Format.binary64 n e .positive).abs := by
  unfold UnpackedFloat.normalize
  rcases lt_trichotomy n 0 with h | rfl | h
  · rw [Int.compare_eq_lt.mpr h, Int.compare_eq_gt.mpr (by omega)]
    simp only [abs_round]
  · rfl
  · rw [Int.compare_eq_gt.mpr h, Int.compare_eq_lt.mpr (by omega)]
    simp only [abs_round, Int.neg_neg]

/-- two differences that differ in order differ in sign only -/
theorem sub_abs_comm (u v : UnpackedFloat) :
    (UnpackedFloat.sub Format.binary64 u v).abs = (UnpackedFloat.sub Format.binary64 v u).abs := by
  cases u with
  | notANumber => cases v <;> rfl
  | infinity s =>
    cases v with
    | infinity s' => cases s <;> cases s' <;> rfl
    | _ => rfl
  | zero s =>
    cases v with
    | zero s' => cases s <;> cases s' <;> rfl
    | _ => rfl
  | finite s m k hm =>
    cases v with
    | finite s' n l hn =>
      unfold UnpackedFloat.sub
      dsimp only
      rw [Int.min_comm l k, ← abs_normalize_neg, Int.neg_sub]
    | _ => rfl

theorem Unsigned.add {u v : UnpackedFloat} (hu : Unsigned u) (hv : Unsigned v) :
    Unsigned (UnpackedFloat.add Format.binary64 u v) := by
  rw [← hu, ← hv]
  cases u with
  | notANumber => rfl
  | infinity s => cases v <;> rfl
  | zero s => cases v <;> rfl
  | finite s m k hm =>
    cases v with
    | finite s' n l hn =>
      -- mantissas without a sign have a sum without a sign
      have hpos : 0 < m <<< (k - min k l).toNat + n <<< (l - min k l).toNat :=
        Nat.add_pos_left (Nat.shiftLeft_eq m _ ▸ Nat.mul_pos hm (Nat.two_pow_pos _)) _
      show Unsigned (UnpackedFloat.normalize Format.binary64 ((m <<< (k - min k l).toNat : Nat) +
        (n <<< (l - min k l).toNat : Nat)) (min k l) .positive)
      rw [← Int.natCast_add, normalize_of_pos hpos]
      exact abs_round _ _ _
    | _ => rfl

theorem Unsigned.sqrt {u : UnpackedFloat} (hu : Unsigned u) :
    Unsigned (UnpackedFloat.sqrt Format.binary64 u) := by
  rw [← hu]
  cases u with
  | finite s m e hm => exact abs_roundWithAccuracy _ _ _ _
  | _ => rfl

/-- without the sign an unpacked value is read off exponent and mantissa -/
theorem abs_finite_congr {s t : Sign} {m n : Nat} {e f : Int} {hm : 0 < m} {hn : 0 < n}
    (h : m = n) (he : e = f) :
    (UnpackedFloat.finite s m e hm).abs = (UnpackedFloat.finite t n f hn).abs := by
  subst h he
  rfl

theorem abs_unpack_congr {b c : BitVec 64}
    (hexp : @unpackExponent Format.binary64 b = @unpackExponent Format.binary64 c)
    (hman : @unpackMantissa Format.binary64 b = @unpackMantissa Format.binary64 c) :
    (unpacked b).abs = (unpacked c).abs := by
  unfold unpacked UnpackedFloat.unpack
  by_cases hmax : @unpackExponent Format.binary64 c = -1#_
  · rw [if_pos hmax, if_pos (hexp.trans hmax)]
    by_cases hzero : @unpackMantissa Format.binary64 c = 0#_
    · rw [if_pos hzero, if_pos (hman.trans hzero)]
      rfl
    · rw [if_neg hzero, if_neg (hman ▸ hzero)]
  rw [if_neg hmax, if_neg (hexp ▸ hmax)]
  by_cases hmin : @unpackExponent Format.binary64 c = 0#_
  · rw [if_pos hmin, if_pos (hexp.trans hmin)]
    by_cases hzero : @unpackMantissa Format.binary64 c = 0#_
    · rw [dif_pos hzero, dif_pos (hman.trans hzero)]
      rfl
    · rw [dif_neg hzero, dif_neg (hman ▸ hzero)]
      exact abs_finite_congr (by rw [hman]) (by rw [hexp])
  · rw [if_neg hmin, if_neg (hexp ▸ hmin)]
    exact abs_finite_congr (by rw [hman]) (by rw [hexp])

theorem abs_unpack_packComponents (s : Sign) (k : BitVec 11) (m : BitVec 52) :
    (unpacked (packComponents Format.binary64 s k m)).abs =
      (unpacked (packComponents Format.binary64 .positive k m)).abs := by
  apply abs_unpack_congr
  · rw [unpackExponent_packComponents, unpackExponent_packComponents]
  · rw [unpackMantissa_packComponents, unpackMantissa_packComponents]

theorem abs_unpack_pack (u : UnpackedFloat) :
    (unpacked (UnpackedFloat.pack Format.binary64 u)).abs =
      (unpacked (UnpackedFloat.pack Format.binary64 u.abs)).abs := by
  cases u with
  | notANumber => rfl
  | infinity s => exact abs_unpack_packComponents s _ _
  | zero s => exact abs_unpack_packComponents s _ _
  | finite s m e hm =>
    obtain ⟨k, n, hpack⟩ := exists_pack_finite m e
    show _ = (unpacked (UnpackedFloat.pack Format.binary64 (.finite .positive m e hm))).abs
    rw [hpack, hpack]
    exact abs_unpack_packComponents s k n

/-- values that differ in sign only have the same square -/
theorem mul_self_congr {u v : UnpackedFloat} (h : u.abs = v.abs) :
    UnpackedFloat.mul Format.binary64 u u = UnpackedFloat.mul Format.binary64 v v := by
  rw [← unsigned_mul_self u, ← unsigned_mul_self v, mul_self_abs, mul_self_abs, h]

/-! ## norms -/

theorem lt_iff_unpack {x y : Float} : x < y ↔ x.toModel.unpack.lt y.toModel.unpack = true :=
  decide_eq_true_iff

/-- a value without a sign is a length or not a number -/
theorem isLength_or_notANumber {x : Float} (h : bits x < 2^63) :
    IsLength x ∨ x.toModel.unpack = .notANumber := by
  have heq : limit = 2047 * 2^52 := rfl
  have hbits : bits x = x.toBits.toBitVec.toNat := rfl
  rw [isLength_iff]
  rcases unpack_cases x.toBits.toBitVec with hu | ⟨_, _, hu⟩ | hu | hu
  · exact .inl (by omega)
  · exact .inr hu
  · exact .inl (by omega)
  · exact .inl (by omega)

theorem isNaN_iff {x : Float} : x.isNaN = true ↔ x.toModel.unpack = .notANumber := by
  show x.toModel.unpack.isNaN = true ↔ _
  cases x.toModel.unpack with
  | notANumber => exact iff_of_true rfl rfl
  | _ => exact iff_of_false Bool.false_ne_true nofun

/-- what is not a number is less than nothing -/
theorem not_lt_of_isNaN {x : Float} (h : x.isNaN = true) (y : Float) : ¬ x < y := by
  rw [lt_iff_unpack, isNaN_iff.mp h]
  exact Bool.false_ne_true

/-- a sum with no number is less than nothing -/
theorem not_add_lt {z : Float} (h : z.toModel.unpack = .notANumber) (x y : Float) :
    ¬ x + z < y := by
  have hsum : UnpackedFloat.add Format.binary64 x.toModel.unpack .notANumber = .notANumber := by
    cases x.toModel.unpack <;> rfl
  refine not_lt_of_isNaN (isNaN_iff.mpr ?_) y
  show unpacked (UnpackedFloat.pack Format.binary64
    (UnpackedFloat.add Format.binary64 x.toModel.unpack z.toModel.unpack)) = _
  rw [h, hsum]
  rfl

theorem bits_mul_self_lt (x : Float) : bits (x * x) < 2^63 :=
  (unsigned_mul_self x.toModel.unpack).packed_lt

theorem bits_add_lt {x y : Float} (hx : bits x < 2^63) (hy : bits y < 2^63) :
    bits (x + y) < 2^63 :=
  ((unsigned_unpack hx).add (unsigned_unpack hy)).packed_lt

theorem bits_norm_lt (v : Vec3 Float) : bits v.norm < 2^63 := by
  have hsum := bits_add_lt (bits_add_lt (bits_mul_self_lt v.x) (bits_mul_self_lt v.y))
    (bits_mul_self_lt v.z)
  exact (unsigned_unpack hsum).sqrt.packed_lt

theorem mul_self_sub_comm (a b : Float) : (a - b) * (a - b) = (b - a) * (b - a) := by
  have habs : (a - b).toModel.unpack.abs = (b - a).toModel.unpack.abs := by
    show (unpacked (UnpackedFloat.pack Format.binary64
      (UnpackedFloat.sub Format.binary64 a.toModel.unpack b.toModel.unpack))).abs = _
    rw [abs_unpack_pack, sub_abs_comm, ← abs_unpack_pack]
    rfl
  exact congrArg (fun u => Float.ofModel (.pack u)) (mul_self_congr habs)

/-! ## the laws -/

instance : LawfulLengths Float where
  zero_noMore_infinity := by
    rw [noMore_iff]
    decide
  norm_cases v := by
    rcases isLength_or_notANumber (bits_norm_lt v) with h | h
    · exact .inl h
    · exact .inr (not_add_lt h)
  norm_sub_comm p q := by
    unfold Vec3.norm
    rw [Vec3.sub_def, Vec3.sub_def, mul_self_sub_comm p.x, mul_self_sub_comm p.y,
      mul_self_sub_comm p.z]
  lt_iff := by
    intro x y hx hy
    rw [isLength_iff] at hx hy
    rw [noMore_iff_bits hy hx, Nat.not_le]
    exact lt_iff_unpack.trans ((stands_toModel hx).lt_iff (stands_toModel hy))
  lt_of_lt_of_noMore := by
    intro c x y hx hy hlt hle
    rw [isLength_iff] at hx hy
    rw [noMore_iff_bits hx hy] at hle
    exact lt_iff_unpack.mpr
      ((stands_toModel hx).lt_of_lt (stands_toModel hy) hle (lt_iff_unpack.mp hlt))
  noMore_add := by
    intro x y hx hy
    rw [isLength_iff] at hx hy
    have hadd := bits_add hx hy
    have hmono := nearest_mono (Nat.le_add_right (magnitude (bits x)) (magnitude (bits y)))
    rw [nearest_magnitude hx, ← hadd] at hmono
    exact (noMore_iff_bits hx (hadd ▸ nearest_le _)).mpr hmono
  add_noMore_infinity := by
    intro x y hx hy
    rw [isLength_iff] at hx hy
    refine (isLength_iff.mpr ?_).noMore_infinity
    rw [bits_add hx hy]
    exact nearest_le _
  add_noMore_add := by
    intro x x' y hx hx' hy hle
    rw [isLength_iff] at hx hx' hy
    rw [noMore_iff_bits hx hx'] at hle
    have hadd := bits_add hx hy
    have hadd' := bits_add hx' hy
    rw [noMore_iff_bits (hadd ▸ nearest_le _) (hadd' ▸ nearest_le _), hadd, hadd']
    exact nearest_mono (Nat.add_le_add_right (magnitude_mono hle hx') _)

theorem Stands.isFinite_iff {u : UnpackedFloat} {b : Nat} (h : Stands u b) :
    u.isFinite = true ↔ b < limit := by
  cases h with
  | zero => exact iff_of_true rfl (by decide)
  | finite _ _ hlt => exact iff_of_true rfl hlt
  | infinity => exact iff_of_false Bool.false_ne_true (Nat.lt_irrefl _)

theorem Stands.isNaN_eq {u : UnpackedFloat} {b : Nat} (h : Stands u b) : u.isNaN = false := by
  cases h <;> rfl

instance : FiniteLengths Float where
  isFinite_iff := by
    intro x hx
    rw [isLength_iff] at hx
    have hinfinity : Stands (Extended.infinity : Float).toModel.unpack limit := .infinity
    rw [lt_iff_unpack, (stands_toModel hx).lt_iff hinfinity]
    exact (stands_toModel hx).isFinite_iff
  isLength_norm := by
    intro v hfinite
    refine (isLength_or_notANumber (bits_norm_lt v)).resolve_right fun hnan => ?_
    change v.norm.toModel.unpack.isFinite = true at hfinite
    rw [hnan] at hfinite
    cases hfinite
  noMore_add_left := by
    intro x y hx hy
    rw [isLength_iff] at hx hy
    have hadd := bits_add hx hy
    have hmono := nearest_mono (Nat.le_add_left (magnitude (bits y)) (magnitude (bits x)))
    rw [nearest_magnitude hy, ← hadd] at hmono
    exact (noMore_iff_bits hy (hadd ▸ nearest_le _)).mpr hmono

/-- a length is a number, and not less than zero -/
theorem isNaN_of_isLength {x : Float} (h : IsLength x) : x.isNaN = false ∧ ¬ x < 0.0 := by
  refine ⟨?_, fun hlt => h.not_noMore_of_lt isLength_zero hlt h.zero_noMore⟩
  rw [isLength_iff] at h
  exact (stands_toModel h).isNaN_eq

end Binary64
end DiskCut
