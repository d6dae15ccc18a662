import DiskCut.Forest
import DiskCut.Proofs.Binary64.Lengths

/-!
# Numbers and their negatives

Minus turns the first bit over and leaves the others, unless the value is not a number.

* `bits_neg`               the bits of a negative
* `isUndefined_eq_isNaN`   neither finite nor infinite is not a number
* `neg_noMore_neg`         minus turns the order of all numbers upside down
-/

namespace DiskCut
namespace Binary64
open Float.Model UnpackedFloat

/-! ## the first bit -/

theorem unpackSign_of_le {b : BitVec 64} (h : 2^63 ≤ b.toNat) :
    Sign.ofBitVec (@unpackSign Format.binary64 b) = .negative := by
  have hone : @unpackSign Format.binary64 b = 1#1 := by
    apply BitVec.eq_of_toNat_eq
    have hb := b.isLt
    unfold unpackSign
    simp [BitVec.extractLsb_toNat, Nat.shiftRight_eq_div_pow]
    omega
  rw [hone]
  rfl

theorem toNat_packComponents_negative (k : BitVec 11) (m : BitVec 52) :
    (packComponents Format.binary64 .negative k m).toNat =
      2^63 + (packComponents Format.binary64 .positive k m).toNat := by
  rw [toNat_packComponents, toNat_packComponents]
  show (1 * 2^11 + k.toNat) * 2^52 + m.toNat = 2^63 + ((0 * 2^11 + k.toNat) * 2^52 + m.toNat)
  omega

/-- the negative of a number without a sign has the sign in its first bit -/
theorem packed_neg {u : UnpackedFloat} (hu : Unsigned u) (hnumber : u.isNaN = false) :
    packed u.neg = 2^63 + packed u := by
  rw [← hu]
  cases u with
  | notANumber => cases hnumber
  | infinity s => exact toNat_packComponents_negative _ _
  | zero s => exact toNat_packComponents_negative _ _
  | finite s m e hm =>
    obtain ⟨k, n, hpack⟩ := exists_pack_finite m e
    show (UnpackedFloat.pack Format.binary64 (.finite .negative m e hm)).toNat =
      2^63 + (UnpackedFloat.pack Format.binary64 (.finite .positive m e hm)).toNat
    rw [hpack, hpack]
    exact toNat_packComponents_negative k n

/-- the value that stands in the bits without the first one -/
theorem abs_unpacked {b c : BitVec 64} (hb : b.toNat = 2^63 + c.toNat) :
    (unpacked b).abs = unpacked c := by
  have hc := b.isLt
  rw [← unsigned_unpack (b := c) (by omega)]
  apply abs_unpack_congr
  · apply BitVec.eq_of_toNat_eq
    rw [toNat_unpackExponent, toNat_unpackExponent]
    omega
  · apply BitVec.eq_of_toNat_eq
    rw [toNat_unpackMantissa, toNat_unpackMantissa]
    omega

theorem neg_unpacked {b : BitVec 64} (h : 2^63 ≤ b.toNat) : (unpacked b).neg = (unpacked b).abs := by
  have hsign := unpackSign_of_le h
  rcases unpack_cases b with ⟨_, _, hu⟩ | ⟨_, _, hu⟩ | ⟨_, _, hu⟩ | ⟨_, _, hu⟩ <;>
    rw [hu] <;> try rw [hsign]
  all_goals rfl

/-- the bits of a length are the packed bits of what stands in them -/
theorem packed_unpacked {b : BitVec 64} (h : b.toNat < 2^63) (hnumber : (unpacked b).isNaN = false) :
    packed (unpacked b) = b.toNat := by
  have heq : limit = 2047 * 2^52 := rfl
  have hle : b.toNat ≤ limit := by
    rcases unpack_cases b with hu | ⟨_, _, hu⟩ | hu | hu
    · omega
    · rw [hu] at hnumber
      cases hnumber
    · omega
    · omega
  exact (stands_unpack hle).packed_eq

/-! ## negatives -/

/-- minus turns the first bit over -/
theorem bits_neg {x : Float} (hx : x.isNaN = false) :
    bits (-x) = if bits x < 2^63 then 2^63 + bits x else bits x - 2^63 := by
  have hlt : bits x < 2^64 := x.toBits.toBitVec.isLt
  show packed (unpacked x.toBits.toBitVec).neg = _
  split
  · rename_i h
    rw [packed_neg (unsigned_unpack h) hx, packed_unpacked h hx]
    rfl
  · rename_i h
    have hle : 2^63 ≤ x.toBits.toBitVec.toNat := Nat.le_of_not_lt h
    have hrest : (BitVec.ofNat 64 (bits x - 2^63)).toNat = bits x - 2^63 := by
      rw [BitVec.toNat_ofNat]
      exact Nat.mod_eq_of_lt (by omega)
    have habs : (unpacked x.toBits.toBitVec).abs = unpacked (BitVec.ofNat 64 (bits x - 2^63)) :=
      abs_unpacked (by rw [hrest]; exact (Nat.add_sub_cancel' hle).symm)
    have hnumber : (unpacked x.toBits.toBitVec).abs.isNaN = false := by
      change (unpacked x.toBits.toBitVec).isNaN = false at hx
      cases hu : unpacked x.toBits.toBitVec <;> rw [hu] at hx <;> exact hx
    rw [neg_unpacked hle, habs, packed_unpacked (by rw [hrest]; omega) (habs ▸ hnumber), hrest]

theorem isUndefined_eq_isNaN (x : Float) : Rank.isUndefined x = x.isNaN := by
  show (!x.toModel.unpack.isFinite && !x.toModel.unpack.isInf) = x.toModel.unpack.isNaN
  cases x.toModel.unpack <;> rfl

/-- minus turns the order of all numbers upside down -/
theorem neg_noMore_neg {x y : Float} (hx : x.isNaN = false) (hy : y.isNaN = false) :
    NoMore (-x) (-y) ↔ NoMore y x := by
  have place : ∀ {z : Float}, z.isNaN = false → floatPlace (-z) = -1 - floatPlace z := by
    intro z hz
    have hlt : bits z < 2^64 := z.toBits.toBitVec.isLt
    rw [floatPlace_eq, floatPlace_eq, bits_neg hz]
    split_ifs <;> omega
  rw [noMore_iff, noMore_iff, place hx, place hy]
  omega

end Binary64
end DiskCut
