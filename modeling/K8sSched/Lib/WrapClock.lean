import Mathlib.Algebra.Group.Int.Defs

/-! # Clocks that wrap

Virtual times are words compared by the sign of their difference. The
comparison is that of the integers the words stand for as long as these lie
within half the range of each other. `VClock` is what a program needs of its
virtual times, so that one text runs over the 64-bit words and over the
integers they stand for. -/

namespace K8sSched.Lib.WrapClock

variable {w : Nat}

/-- The sign of the difference, the usual comparison of wrapping clocks. -/
def before (a b : BitVec w) : Bool := (a - b).toInt < 0

theorem ofInt_sub (m n : Int) : BitVec.ofInt w (m - n) = BitVec.ofInt w m - BitVec.ofInt w n := by
  rw [sub_eq_add_neg, BitVec.ofInt_add, BitVec.ofInt_neg, BitVec.sub_eq_add_neg]

theorem ofInt_natCast_add (m : Int) (c : BitVec w) :
    BitVec.ofInt w (m + c.toNat) = BitVec.ofInt w m + c := by
  rw [BitVec.ofInt_add, BitVec.ofInt_natCast, BitVec.ofNat_toNat, BitVec.setWidth_eq]

theorem ofInt_sub_natCast (m : Int) (c : BitVec w) :
    BitVec.ofInt w (m - c.toNat) = BitVec.ofInt w m - c := by
  rw [ofInt_sub, BitVec.ofInt_natCast, BitVec.ofNat_toNat, BitVec.setWidth_eq]

theorem toInt_ofInt_sub (hw : 0 < w) {m n : Int} (hlo : -2 ^ (w - 1) ≤ m - n)
    (hhi : m - n < 2 ^ (w - 1)) : (BitVec.ofInt w m - BitVec.ofInt w n).toInt = m - n := by
  rw [← ofInt_sub]
  exact BitVec.toInt_ofInt_eq_self hw hlo hhi

theorem before_ofInt (hw : 0 < w) {m n : Int} (hlo : -2 ^ (w - 1) ≤ m - n)
    (hhi : m - n < 2 ^ (w - 1)) :
    before (BitVec.ofInt w m) (BitVec.ofInt w n) = decide (m < n) := by
  rw [before, toInt_ofInt_sub hw hlo hhi]
  exact decide_eq_decide.mpr (by omega)

/-- A word read as the integer nearest to the integer `n` of another word. -/
theorem ofInt_add_toInt_sub (a b : BitVec w) :
    BitVec.ofInt w (b.toNat + (a - b).toInt) = a := by
  rw [BitVec.ofInt_add, BitVec.ofInt_natCast, BitVec.ofInt_toInt, BitVec.ofNat_toNat,
    BitVec.setWidth_eq, BitVec.add_comm, BitVec.sub_add_cancel]

/-- A type of virtual times: the comparison, and moving by a number of
nanoseconds held in a 64-bit word. -/
class VClock (V : Type) where
  before : V → V → Bool
  add : V → BitVec 64 → V
  sub : V → BitVec 64 → V

/-- The clock of the machine: words, wrapping at `2 ^ 64`. -/
instance : VClock (BitVec 64) where
  before := before
  add a c := a + c
  sub a c := a - c

/-- The ideal clock, which never wraps. -/
instance : VClock Int where
  before a b := a < b
  add a c := a + c.toNat
  sub a c := a - c.toNat

theorem before_int (a b : Int) : VClock.before a b = decide (a < b) := rfl

theorem add_int (a : Int) (c : BitVec 64) : VClock.add a c = a + c.toNat := rfl

theorem sub_int (a : Int) (c : BitVec 64) : VClock.sub a c = a - c.toNat := rfl

/-- The word an integer virtual time is held in. -/
def wrap (a : Int) : BitVec 64 := BitVec.ofInt 64 a

theorem wrap_add (a : Int) (c : BitVec 64) : wrap (VClock.add a c) = VClock.add (wrap a) c :=
  ofInt_natCast_add a c

theorem wrap_sub (a : Int) (c : BitVec 64) : wrap (VClock.sub a c) = VClock.sub (wrap a) c :=
  ofInt_sub_natCast a c

theorem before_wrap {a b : Int} (hlo : -2 ^ 63 ≤ a - b) (hhi : a - b < 2 ^ 63) :
    VClock.before (wrap a) (wrap b) = VClock.before a b :=
  before_ofInt (by decide) hlo hhi

/-- The comparison of the words at any distance. -/
theorem before_wrap_eq (a b : Int) :
    VClock.before (wrap a) (wrap b) = decide (2 ^ 63 ≤ (a - b) % 2 ^ 64) := by
  show decide ((BitVec.ofInt 64 a - BitVec.ofInt 64 b).toInt < 0) = _
  rw [← ofInt_sub, BitVec.toInt_ofInt, Int.bmod_def]
  refine decide_eq_decide.mpr ?_
  split <;> omega

theorem wrap_eq_wrap (a b : Int) : wrap a = wrap b ↔ (a - b) % 2 ^ 64 = 0 := by
  rw [wrap, wrap, ← BitVec.toNat_inj, BitVec.toNat_ofInt, BitVec.toNat_ofInt]
  omega

end K8sSched.Lib.WrapClock
