import Mathlib
import Patchbay.Double

/-!
# Integers as doubles

The integers of a text have 64 bits. Each of them is nearest to some double that is neither
infinite nor NaN. Nothing of rounding has to be known for that but that it raises the exponent by
little, so every bound here is a generous one.

What is proved here:
  1. `below_roundWithAccuracy`: what rounding makes of an exponent.
  2. `unpack_pack`: what packing makes of one.
  3. `isFinite_ofInt`: an integer of 64 bits is a finite double.
-/

namespace Patchbay.Double

open Float.Model

/-- Neither infinite nor NaN, with an exponent of at most `k`. -/
def Below (k : Int) : UnpackedFloat → Prop
  | .zero _ => True
  | .finite _ _ e _ => e ≤ k
  | _ => False

theorem Below.mono {x : UnpackedFloat} {k l : Int} (h : Below k x) (hkl : k ≤ l) : Below l x := by
  cases x with
  | finite s m e hm => exact Int.le_trans h hkl
  | zero s => trivial
  | _ => exact h

theorem Below.isFinite {x : UnpackedFloat} {k : Int} (h : Below k x) : x.isFinite = true := by
  cases x with
  | finite | zero => rfl
  | _ => exact h.elim

theorem Below.neg {x : UnpackedFloat} {k : Int} (h : Below k x) : Below k x.neg := by
  cases x with
  | _ => exact h

/-! ## Rounding -/

theorem mantissa_shiftRight_le (em : UnpackedFloat.ExtendedMantissa) (n : Nat) :
    (em >>> n).mantissa ≤ em.mantissa := by
  show (n.repeat UnpackedFloat.ExtendedMantissa.shiftRightOne em).mantissa ≤ em.mantissa
  induction n with
  | zero => exact Nat.le_refl _
  | succ n ih => exact Nat.le_trans (Nat.div_le_self _ 2) ih

theorem roundedMantissa_le (em : UnpackedFloat.ExtendedMantissa) :
    em.roundedMantissa ≤ em.mantissa + 1 := by
  unfold UnpackedFloat.ExtendedMantissa.roundedMantissa
  cases em.accuracy with
  | exact => exact Nat.le_succ _
  | inexact o =>
    cases o with
    | lt => exact Nat.le_succ _
    | eq =>
      have hmod := Nat.mod_lt em.mantissa (y := 2) (by decide)
      show em.mantissa + em.mantissa % 2 ≤ em.mantissa + 1
      omega
    | gt => exact Nat.le_refl _

theorem log2_le_of_le_succ {m n : Nat} (h : n ≤ m + 1) : n.log2 ≤ m.log2 + 1 := by
  by_cases hn : n = 0
  · subst hn
    exact Nat.zero_le _
  · have hm : m < 2 ^ (m.log2 + 1) := Nat.lt_log2_self
    have hpow : 2 ^ (m.log2 + 2) = 2 ^ (m.log2 + 1) * 2 := Nat.pow_succ ..
    have hlt : n < 2 ^ (m.log2 + 2) := by omega
    exact Nat.le_of_lt_succ ((Nat.log2_lt hn).2 hlt)

/-- Rounding gives a number, and its exponent is not much larger. -/
theorem below_roundWithAccuracy (s : UnpackedFloat.Sign) (m : Nat) (e : Int) :
    Below (max e (-1074) + 2 * m.log2 + 3)
      (UnpackedFloat.roundWithAccuracy Format.binary64 s m e .exact) := by
  have htarget : ∀ t, Format.binary64.targetExponent t = max (t - 53) (-1074) := fun t => rfl
  simp only [UnpackedFloat.roundWithAccuracy, UnpackedFloat.shiftToTargetExponent,
    UnpackedFloat.shiftToExponent, totalExponent, htarget]
  split
  · trivial
  · change _ ≤ _
    generalize hshift : (max ((m.log2 : Int) + 1 + e - 53) (-1074) - e).toNat = a
    have hrounded := roundedMantissa_le
      (UnpackedFloat.ExtendedMantissa.ofMantissaAndAccuracy m .exact >>> a)
    have hshifted := mantissa_shiftRight_le
      (UnpackedFloat.ExtendedMantissa.ofMantissaAndAccuracy m .exact) a
    have hle : (UnpackedFloat.ExtendedMantissa.ofMantissaAndAccuracy m .exact >>>
        a).roundedMantissa ≤ m + 1 := Nat.le_trans hrounded (Nat.succ_le_succ hshifted)
    have hlog := log2_le_of_le_succ hle
    generalize (UnpackedFloat.ExtendedMantissa.ofMantissaAndAccuracy m .exact >>>
        a).roundedMantissa.log2 = l at hlog ⊢
    omega

theorem log2_mul_le (m n : Nat) : (m * n).log2 ≤ m.log2 + n.log2 + 1 := by
  by_cases hmn : m * n = 0
  · rw [hmn]
    exact Nat.zero_le _
  · have hm : m < 2 ^ (m.log2 + 1) := Nat.lt_log2_self
    have hn : n < 2 ^ (n.log2 + 1) := Nat.lt_log2_self
    have hpow : 2 ^ (m.log2 + 1) * 2 ^ (n.log2 + 1) = 2 ^ (m.log2 + n.log2 + 2) := by
      rw [← Nat.pow_add]
      congr 1
      omega
    have hlt : m * n < 2 ^ (m.log2 + n.log2 + 2) := hpow ▸ Nat.mul_lt_mul'' hm hn
    exact Nat.le_of_lt_succ ((Nat.log2_lt hmn).2 hlt)

/-! ## Packing -/

/-- What is unpacked is a number unless all bits of its exponent are set, and its mantissa has 53
bits. -/
theorem unpack_packComponents (s : UnpackedFloat.Sign) {exponent : BitVec 11}
    (mantissa : BitVec 52) (h : exponent ≠ -1#_) {k : Int} (hk : (exponent.toNat : Int) - 1074 ≤ k)
    {x : UnpackedFloat} (hx : UnpackedFloat.unpack Format.binary64
      (UnpackedFloat.packComponents Format.binary64 s exponent mantissa) = x) :
    Below k x ∧ ∀ s m e hm, x = .finite s m e hm → m < 2 ^ 53 := by
  have hbias : ((Format.binary64.exponentBias : Nat) : Int) +
      (Format.binary64.mantissaBitsWithoutImplicit : Nat) = 1075 := rfl
  simp only [UnpackedFloat.unpack, UnpackedFloat.unpackExponent_packComponents,
    UnpackedFloat.unpackMantissa_packComponents, if_neg h, hbias] at hx
  split at hx
  · split at hx
    · subst hx
      exact ⟨trivial, nofun⟩
    · subst hx
      refine ⟨by show _ ≤ _; omega, ?_⟩
      rintro _ m _ _ heq
      cases heq
      have hlt := mantissa.isLt
      omega
  · subst hx
    refine ⟨by show _ ≤ _; omega, ?_⟩
    rintro _ m _ _ heq
    cases heq
    exact (1#1 ++ mantissa).isLt

/-- What is packed and unpacked again is a number with about the same exponent, and with a mantissa
of 53 bits. -/
theorem unpack_pack {x : UnpackedFloat} {k : Int} (h : Below k x) (hk : k ≤ 900) :
    Below (max k (-1075) + 1) (pack x).unpack ∧
      ∀ s m e hm, (pack x).unpack = .finite s m e hm → m < 2 ^ 53 := by
  cases x with
  | zero s =>
    rw [unpack_pack_zero]
    exact ⟨trivial, nofun⟩
  | finite s m e hm =>
    have he : e ≤ k := h
    have hpack : (pack (.finite s m e hm)).unpack = UnpackedFloat.unpack Format.binary64
      (UnpackedFloat.pack Format.binary64 (.finite s m e hm)) := rfl
    rw [hpack]
    have hbias : e + ((Format.binary64.exponentBias : Nat) : Int) +
      (Format.binary64.mantissaBitsWithoutImplicit : Nat) = e + 1075 := by
        have : ((Format.binary64.exponentBias : Nat) : Int) = 1023 := rfl
        have : ((Format.binary64.mantissaBitsWithoutImplicit : Nat) : Int) = 52 := rfl
        omega
    simp only [UnpackedFloat.pack, hbias]
    have hsmall : ¬ 2 ^ Format.binary64.exponentBits ≤ (e + 1075).toNat + 1 := by
      show ¬ 2 ^ 11 ≤ _
      omega
    rw [if_neg hsmall]
    split
    · refine unpack_packComponents s _ ?_ ?_ rfl
      · intro heq
        have := congrArg BitVec.toNat heq
        simp at this
        omega
      · simp
        omega
    · refine unpack_packComponents s _ (by decide) ?_ rfl
      simp
      omega
  | _ => exact h.elim

/-! ## Integers -/

theorem log2_le_of_lt {m k : Nat} (h : m < 2 ^ (k + 1)) : m.log2 ≤ k := by
  by_cases hm : m = 0
  · subst hm
    exact Nat.zero_le _
  · exact Nat.le_of_lt_succ ((Nat.log2_lt hm).2 h)

theorem below_mul {s t : UnpackedFloat.Sign} {m n : Nat} {e f : Int} {hm : 0 < m} {hn : 0 < n}
    {k : Int} (h : max (e + f) (-1074) + 2 * (m.log2 + n.log2 + 1 : Nat) + 3 ≤ k) :
    Below k (UnpackedFloat.mul Format.binary64 (.finite s m e hm) (.finite t n f hn)) := by
  have hlog := log2_mul_le m n
  refine (below_roundWithAccuracy (s * t) (m * n) (e + f)).mono ?_
  omega

theorem below_ofNat {n : Nat} (h : n < 2 ^ 64) :
    Below 300 (UnpackedFloat.ofNat Format.binary64 n) := by
  have hlog : n.log2 ≤ 63 := log2_le_of_lt h
  have htarget : ∀ t, Format.binary64.targetExponent t = max (t - 53) (-1074) := fun t => rfl
  show Below 300 (UnpackedFloat.normalize Format.binary64 n 0 .positive)
  unfold UnpackedFloat.normalize
  split
  · rename_i hlt
    have := Int.compare_eq_lt.1 hlt
    omega
  · trivial
  · simp only [UnpackedFloat.round, UnpackedFloat.decreaseExponent, totalExponent, htarget,
      Int.toNat_natCast]
    refine (below_roundWithAccuracy _ _ _).mono ?_
    generalize hshift : (0 - max ((n.log2 : Int) + 1 + 0 - 53) (-1074)).toNat = a
    have hmul := log2_mul_le n (2 ^ a)
    rw [Nat.log2_two_pow, ← Nat.shiftLeft_eq] at hmul
    omega

theorem unpack_ofNat_of_lt {n : Nat} (h : n < 2 ^ 53) :
    (Float.ofNat n).toModel.unpack = (pack (UnpackedFloat.mul Format.binary64
      (pack (UnpackedFloat.ofNat Format.binary64 n)).unpack
      (.finite .positive (2 ^ 52) (-52) (by decide)))).unpack := by
  have hfast : Float.ofNat n = n.toUInt64.toFloat * Float.ofBits 0x3FF0000000000000 := by
    show Float.ofScientific n false 0 = _
    unfold Float.ofScientific
    rw [dif_pos ⟨h, by decide⟩]
    rfl
  have hone : (Float.ofBits 0x3FF0000000000000).toModel.unpack =
      .finite .positive (2 ^ 52) (-52) (by decide) := rfl
  have hword : n.toUInt64.toNat = n := by
    simp
    omega
  have hread : n.toUInt64.toFloat.toModel.unpack =
      (pack (UnpackedFloat.ofNat Format.binary64 n)).unpack := by
    show (pack (UnpackedFloat.ofNat Format.binary64 n.toUInt64.toNat)).unpack = _
    rw [hword]
  rw [hfast, ← hone, ← hread]
  rfl

theorem unpack_ofNat_of_le {n : Nat} (h : 2 ^ 53 ≤ n) : (Float.ofNat n).toModel.unpack =
    (pack (UnpackedFloat.ofScientific Format.binary64 n 0)).unpack := by
  have hslow : Float.ofNat n = Float.ofModel (Float.Model.ofScientific n 0) := by
    show Float.ofScientific n false 0 = _
    unfold Float.ofScientific
    rw [dif_neg fun hboth => Nat.not_lt.2 h hboth.1]
    rfl
  rw [hslow]
  rfl

theorem below_ofScientific {n : Nat} (h : n < 2 ^ 64) :
    Below 599 (UnpackedFloat.ofScientific Format.binary64 n 0) := by
  have hlog : n.log2 ≤ 63 := log2_le_of_lt h
  have hshift := log2_mul_le n (2 ^ Format.binary64.mantissaBits)
  rw [Nat.log2_two_pow, ← Nat.shiftLeft_eq] at hshift
  have hbits : Format.binary64.mantissaBits = 53 := rfl
  have hpower : (2 : Int) ^ Format.binary64.exponentBits = 2048 := rfl
  have hone : Nat.log2 1 = 0 := rfl
  by_cases hzero : n = 0
  · subst hzero
    trivial
  · unfold UnpackedFloat.ofScientific
    rw [dif_neg hzero, if_neg (by decide), if_neg (by omega), if_pos (by decide)]
    refine below_mul ?_
    rw [hbits] at hshift ⊢
    simp only [Int.toNat_zero, Nat.pow_zero, hone]
    omega

theorem below_toModel_ofNat {n : Nat} (h : n < 2 ^ 64) :
    Below 600 (Float.ofNat n).toModel.unpack := by
  by_cases hsmall : n < 2 ^ 53
  · obtain ⟨hbelow, hmantissa⟩ := unpack_pack (below_ofNat h) (by decide)
    rw [unpack_ofNat_of_lt hsmall]
    generalize (pack (UnpackedFloat.ofNat Format.binary64 n)).unpack = x at hbelow hmantissa
    refine (unpack_pack (k := 599) ?_ (by decide)).1
    -- Both mantissas have 53 bits, so the product is far below the largest exponent.
    cases x with
    | zero s => trivial
    | finite s m e hm =>
      have hlog := log2_le_of_lt (hmantissa s m e hm rfl)
      have he : e ≤ 301 := hbelow
      have hlog' : (2 ^ 52).log2 = 52 := Nat.log2_two_pow
      refine below_mul ?_
      rw [hlog']
      omega
    | _ => exact hbelow.elim
  · rw [unpack_ofNat_of_le (Nat.le_of_not_lt hsmall)]
    exact (unpack_pack (below_ofScientific h) (by decide)).1

theorem isFinite_ofInt {z : Int} (h : z.natAbs < 2 ^ 64) : (Float.ofInt z).isFinite = true := by
  cases z with
  | ofNat n => exact (below_toModel_ofNat h).isFinite
  | negSucc n =>
    have hbelow := (below_toModel_ofNat (n := n + 1) h).neg
    have hneg : (Float.ofInt (.negSucc n)).toModel.unpack =
        (pack (Float.ofNat (n + 1)).toModel.unpack.neg).unpack := rfl
    have hpacked := (unpack_pack hbelow (by decide)).1
    rw [← hneg] at hpacked
    exact hpacked.isFinite

end Patchbay.Double
