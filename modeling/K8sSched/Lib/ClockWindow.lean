import Mathlib.Algebra.Group.Nat.Defs
import K8sSched.Lib.WrapClock

/-! # A wrapping clock within a window

As long as the words of a clock stay within a quarter of the range around a
fixed base, their offsets from it are integers that compare, add and subtract
as the words do. -/

namespace K8sSched.Lib.ClockWindow
open K8sSched.Lib.WrapClock

/-- The signed distance of a word from the base. -/
def offset (base x : BitVec 64) : Int := (x - base).toInt

/-- The words the window takes in. -/
def Within (base x : BitVec 64) : Prop := -2 ^ 61 ≤ offset base x ∧ offset base x ≤ 2 ^ 61

instance (base x : BitVec 64) : Decidable (Within base x) := inferInstanceAs (Decidable (_ ∧ _))

variable {base a b : BitVec 64}

/-- Words less than half the range apart compare like their offsets. -/
theorem before_offset (hlo : -2 ^ 63 ≤ offset base a - offset base b)
    (hhi : offset base a - offset base b < 2 ^ 63) :
    VClock.before a b = decide (offset base a < offset base b) := by
  have hsub : a - b = (a - base) - (b - base) := by bv_omega
  show decide ((a - b).toInt < 0) = _
  rw [hsub, BitVec.toInt_sub]
  unfold offset at *
  rw [Int.bmod_eq_of_le (by omega) (by omega)]
  exact decide_eq_decide.mpr (by omega)

theorem toInt_of_lt {c : BitVec 64} (hc : c.toNat ≤ 2 ^ 61) : c.toInt = c.toNat :=
  BitVec.toInt_eq_toNat_of_lt (by omega)

theorem offset_add (ha : Within base a) {c : BitVec 64} (hc : c.toNat ≤ 2 ^ 61) :
    offset base (VClock.add a c) = offset base a + c.toNat := by
  obtain ⟨ha1, ha2⟩ := ha
  have hadd : (a + c) - base = (a - base) + c := by bv_omega
  show ((a + c) - base).toInt = _
  rw [hadd, BitVec.toInt_add, toInt_of_lt hc]
  unfold offset at *
  exact Int.bmod_eq_of_le (by omega) (by omega)

theorem offset_sub (ha : Within base a) {c : BitVec 64} (hc : c.toNat ≤ 2 ^ 61) :
    offset base (VClock.sub a c) = offset base a - c.toNat := by
  obtain ⟨ha1, ha2⟩ := ha
  have hsub : (a - c) - base = (a - base) - c := by bv_omega
  show ((a - c) - base).toInt = _
  rw [hsub, BitVec.toInt_sub, toInt_of_lt hc]
  unfold offset at *
  exact Int.bmod_eq_of_le (by omega) (by omega)

end K8sSched.Lib.ClockWindow
