import Mathlib
import UnitSheet.Decimal.Binary

namespace UnitSheet.Binary

open Float.Model Float.Model.UnpackedFloat

/-- A full significand, and an exponent that the format has. -/
structure Normal (b : Binary) : Prop where
  significand : b.significand.log2 = 52
  least : -1074 ≤ b.exponent
  greatest : b.exponent ≤ 971

def sign (negative : Bool) : Sign := if negative then .negative else .positive

def unpacked (b : Binary) : UnpackedFloat :=
  if h : 0 < b.significand then .finite (sign b.negative) b.significand b.exponent h else .zero
    (sign b.negative)

theorem unpacked_of_pos {b : Binary} (h : 0 < b.significand) :
    b.unpacked = .finite (sign b.negative) b.significand b.exponent h := dif_pos h

theorem unpacked_of_eq_zero {b : Binary} (h : b.significand = 0) :
    b.unpacked = .zero (sign b.negative) :=
  dif_neg (Nat.not_lt.mpr h.le)

def toFloat (b : Binary) : Float := .ofModel (.pack b.unpacked)

variable {b : Binary}

namespace Normal

theorem le_significand (hb : b.Normal) : leadingBit ≤ b.significand := by
  have h : b.significand ≠ 0 := by
    intro h
    have := hb.significand
    rw [h] at this
    cases this
  exact ((Nat.log2_eq_iff h).mp hb.significand).1

theorem significand_lt (hb : b.Normal) : b.significand < 2 * leadingBit :=
  ((Nat.log2_eq_iff (Nat.ne_of_gt (Nat.lt_of_lt_of_le (by decide) hb.le_significand))).mp
    hb.significand).2

theorem significand_pos (hb : b.Normal) :
    0 < b.significand := Nat.lt_of_lt_of_le (by decide) hb.le_significand

theorem unpacked_eq (hb : b.Normal) :
    b.unpacked = .finite (sign b.negative) b.significand b.exponent hb.significand_pos :=
  unpacked_of_pos hb.significand_pos

theorem field_bounds (hb : b.Normal) :
    0 < (b.exponent + 1075).toNat ∧ (b.exponent + 1075).toNat < 2047 := by
  have := hb.least
  have := hb.greatest
  omega

theorem pack_eq (hb : b.Normal) : pack Format.binary64 b.unpacked =
    packComponents Format.binary64 (sign b.negative) (BitVec.ofNat 11 (b.exponent + 1075).toNat)
      (BitVec.ofNat 52 b.significand) := by
  have hfield := hb.field_bounds
  have hexponent : (b.exponent + Format.binary64.exponentBias +
      Format.binary64.mantissaBitsWithoutImplicit).toNat = (b.exponent + 1075).toNat := by
    change (b.exponent + 1023 + 52).toNat = _
    rw [Int.add_assoc]
    rfl
  have hfinite : ¬ 2 ^ Format.binary64.exponentBits ≤ (b.exponent + 1075).toNat + 1 := by
    change ¬ 2048 ≤ _
    omega
  rw [hb.unpacked_eq, UnpackedFloat.pack]
  simp only [hexponent]
  have hfull : b.significand.log2 + 1 = Format.binary64.mantissaBits :=
    congrArg (· + 1) hb.significand
  rw [if_neg hfinite, if_pos hfull]

end Normal

theorem packComponents_toNat (s : Sign) (e : BitVec 11) (m : BitVec 52) :
    (packComponents Format.binary64 s e m).toNat = (s.toBitVec.toNat * 2048 + e.toNat) *
    leadingBit + m.toNat := by
  change (s.toBitVec ++ e ++ m).toNat = _
  rw [BitVec.toNat_append, BitVec.toNat_append, ← Nat.shiftLeft_add_eq_or_of_lt e.isLt,
    ← Nat.shiftLeft_add_eq_or_of_lt m.isLt, Nat.shiftLeft_eq, Nat.shiftLeft_eq]
  rfl

theorem sign_bit (negative : Bool) :
    (sign negative).toBitVec.toNat = if negative then 1 else 0 := by
  cases negative <;> rfl

theorem Normal.significand_mod (hb : b.Normal) :
    b.significand % leadingBit = b.significand - leadingBit := by
  have hle := hb.le_significand
  have hlt := hb.significand_lt
  rw [Nat.mod_eq_sub_mod hle, Nat.mod_eq_of_lt (by omega)]

theorem Normal.ofFloat_toFloat (hb : b.Normal) : ofFloat b.toFloat = b := by
  have hfield := hb.field_bounds
  have hle := hb.le_significand
  have hlt := hb.significand_lt
  have hbits : b.toFloat.toBits.toNat =
      ((if b.negative then 1 else 0) * 2048 + (b.exponent + 1075).toNat) * leadingBit +
        (b.significand - leadingBit) := by
    change (pack Format.binary64 b.unpacked).toNat = _
    rw [hb.pack_eq, packComponents_toNat, sign_bit, BitVec.toNat_ofNat, BitVec.toNat_ofNat,
      Nat.mod_eq_of_lt (hfield.2.trans (by decide))]
    exact congrArg _ hb.significand_mod
  have hlow : b.toFloat.toBits.toNat % leadingBit = b.significand - leadingBit := by
    rw [hbits, Nat.mul_comm, Nat.mul_add_mod, Nat.mod_eq_of_lt (by omega)]
  have hhigh : b.toFloat.toBits.toNat / leadingBit =
      (if b.negative then 1 else 0) * 2048 + (b.exponent + 1075).toNat := by
    rw [hbits, Nat.mul_comm, Nat.mul_add_div (by decide), Nat.div_eq_of_lt (by omega), Nat.add_zero]
  have hnegative : b.toFloat.toBits.toNat / leadingBit / 2048 = if b.negative then 1 else 0 := by
    rw [hhigh, Nat.mul_comm, Nat.mul_add_div (by decide), Nat.div_eq_of_lt (by omega), Nat.add_zero]
  have hexponent : b.toFloat.toBits.toNat / leadingBit % 2048 = (b.exponent + 1075).toNat := by
    rw [hhigh, Nat.mul_comm, Nat.mul_add_mod, Nat.mod_eq_of_lt (by omega)]
  have hleast := hb.least
  simp only [ofFloat, ofBits, hlow, hexponent, hnegative, if_neg hfield.1.ne']
  rw [show ((b.exponent + 1075).toNat : Int) - 1075 = b.exponent by omega, Nat.sub_add_cancel hle]
  obtain ⟨negative, significand, exponent⟩ := b
  cases negative <;> rfl

/-- A normal double is unpacked into what it was made of. -/
theorem Normal.unpack_toFloat (hb : b.Normal) : b.toFloat.toModel.unpack = b.unpacked := by
  have hfield := hb.field_bounds
  have hexponent : (BitVec.ofNat 11 (b.exponent + 1075).toNat).toNat =
      (b.exponent + 1075).toNat := by
    rw [BitVec.toNat_ofNat, Nat.mod_eq_of_lt (hfield.2.trans (by decide))]
  have hnotAll : BitVec.ofNat 11 (b.exponent + 1075).toNat ≠ -1#11 := by
    intro h
    rw [h] at hexponent
    exact absurd hexponent.symm hfield.2.ne
  have hnotZero : BitVec.ofNat 11 (b.exponent + 1075).toNat ≠ 0#11 := by
    intro h
    rw [h] at hexponent
    exact absurd hexponent hfield.1.ne
  have hsignificand : (1#1 ++ BitVec.ofNat 52 b.significand).toNat = b.significand := by
    have hmod : (BitVec.ofNat 52 b.significand).toNat = b.significand - leadingBit :=
      BitVec.toNat_ofNat .. |>.trans hb.significand_mod
    rw [BitVec.toNat_append, ← Nat.shiftLeft_add_eq_or_of_lt (BitVec.isLt _), hmod]
    exact Nat.add_sub_cancel' hb.le_significand
  have hbias : ((b.exponent + 1075).toNat : Int) -
      (Format.binary64.exponentBias + Format.binary64.mantissaBitsWithoutImplicit) =
        b.exponent := by
    have := hb.least
    change ((b.exponent + 1075).toNat : Int) - (1023 + 52) = _
    omega
  change UnpackedFloat.unpack Format.binary64 (pack Format.binary64 b.unpacked) = _
  rw [hb.pack_eq, UnpackedFloat.unpack, hb.unpacked_eq]
  simp only [unpackMantissa_packComponents, unpackExponent_packComponents,
    unpackSign_packComponents,
    Sign.ofBitVec_toBitVec, if_neg hnotAll, if_neg hnotZero, hexponent, hsignificand, hbias]

@[simp]
theorem Normal.isInf_toFloat (hb : b.Normal) : b.toFloat.isInf = false := by
  change b.toFloat.toModel.unpack.isInf = false
  rw [hb.unpack_toFloat, hb.unpacked_eq]
  rfl

@[simp]
theorem Normal.isFinite_toFloat (hb : b.Normal) : b.toFloat.isFinite = true := by
  change b.toFloat.toModel.unpack.isFinite = true
  rw [hb.unpack_toFloat, hb.unpacked_eq]
  rfl

theorem Normal.toFloat_beq_zero (hb : b.Normal) : (b.toFloat == 0) = false := by
  change UnpackedFloat.beq b.toFloat.toModel.unpack (.zero .positive) = false
  rw [hb.unpack_toFloat, hb.unpacked_eq]
  cases sign b.negative <;> rfl

theorem Normal.truncate_toFloat (hb : b.Normal) :
    truncate b.toFloat = if b.negative then -b.magnitude.floor else b.magnitude.floor := by
  rw [truncate, hb.ofFloat_toFloat]

end UnitSheet.Binary
