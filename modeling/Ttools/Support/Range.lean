import Mathlib.Data.BitVec
import Mathlib.Data.Int.ModEq
import Mathlib.Tactic

/-!
# Support — Signed ranges

Ranges of two's complement words under the signed order, and their arithmetic modulo `2 ^ w`.

* `mem_of_modEq`: a range whose ends are, modulo `2 ^ w`, the ends of an interval of integers
  shorter than `2 ^ w` contains everything in that interval as soon as it is ordered.
* `add_mem`, `sub_mem`, `shift_mem`: sums, differences and translates of ranges.
* `sub_ordered_iff`, `shift_ordered_iff`: these are ordered exactly when both ends wrap or neither.
-/

namespace Support

variable {w : Nat}

/-- A range of words. -/
structure Range (w : Nat) where
  lo : BitVec w
  hi : BitVec w
  deriving DecidableEq, Repr

namespace Range

/-- The range is not empty. -/
def Ordered (r : Range w) : Prop := r.lo.toInt ≤ r.hi.toInt

instance (r : Range w) : Decidable r.Ordered := inferInstanceAs (Decidable (_ ≤ _))

instance : Membership (BitVec w) (Range w) where
  mem r v := r.lo.toInt ≤ v.toInt ∧ v.toInt ≤ r.hi.toInt

theorem mem_def {r : Range w} {v : BitVec w} :
    v ∈ r ↔ r.lo.toInt ≤ v.toInt ∧ v.toInt ≤ r.hi.toInt := Iff.rfl

instance (r : Range w) (v : BitVec w) : Decidable (v ∈ r) := inferInstanceAs (Decidable (_ ∧ _))

theorem Ordered.of_mem {r : Range w} {v : BitVec w} (h : v ∈ r) : r.Ordered := h.1.trans h.2

/-- All words. -/
def widest (w : Nat) : Range w := ⟨BitVec.intMin w, BitVec.intMax w⟩

/-- The range `r` lies inside `s`. -/
def Within (r s : Range w) : Prop := s.lo.toInt ≤ r.lo.toInt ∧ r.hi.toInt ≤ s.hi.toInt

theorem Within.refl (r : Range w) : r.Within r := ⟨le_rfl, le_rfl⟩

theorem Within.trans {r s t : Range w} (h : r.Within s) (h' : s.Within t) : r.Within t :=
  ⟨h'.1.trans h.1, h.2.trans h'.2⟩

theorem Within.mem {r s : Range w} (h : r.Within s) {v : BitVec w} (hv : v ∈ r) : v ∈ s :=
  ⟨h.1.trans hv.1, hv.2.trans h.2⟩

/-- The sum of the ends. -/
def add (r s : Range w) : Range w := ⟨r.lo + s.lo, r.hi + s.hi⟩

/-- The differences of opposite ends. -/
def sub (r s : Range w) : Range w := ⟨r.lo - s.hi, r.hi - s.lo⟩

/-- The range moved by a word. -/
def shift (r : Range w) (c : BitVec w) : Range w := ⟨r.lo + c, r.hi + c⟩

end Range

/-! ### Words and integers -/

theorem toInt_window (v : BitVec w) : -(2 : Int) ^ w ≤ 2 * v.toInt ∧ 2 * v.toInt < 2 ^ w :=
  ⟨BitVec.le_two_mul_toInt, BitVec.two_mul_toInt_lt⟩

/-- Two integers less than a period apart, congruent and in one window, are equal. -/
theorem eq_of_window {M x y : Int} (hx : -M ≤ 2 * x ∧ 2 * x < M) (hy : -M ≤ 2 * y ∧ 2 * y < M)
    (h : x ≡ y [ZMOD M]) : x = y := by
  have hd : M ∣ y - x := Int.modEq_iff_dvd.mp h
  have h0 : y - x = 0 := Int.eq_zero_of_abs_lt_dvd hd (abs_lt.mpr ⟨by omega, by omega⟩)
  omega

theorem toInt_add_modEq (a b : BitVec w) :
    (a + b).toInt ≡ a.toInt + b.toInt [ZMOD 2 ^ w] := by
  rw [BitVec.toInt_add]
  have := Int.bmod_emod (x := a.toInt + b.toInt) (m := 2 ^ w)
  exact_mod_cast this

theorem toInt_sub_modEq (a b : BitVec w) :
    (a - b).toInt ≡ a.toInt - b.toInt [ZMOD 2 ^ w] := by
  rw [BitVec.toInt_sub]
  have := Int.bmod_emod (x := a.toInt - b.toInt) (m := 2 ^ w)
  exact_mod_cast this

/-- The integer is not the value of a word. -/
def Wraps (w : Nat) (x : Int) : Prop := ¬(-(2 : Int) ^ w ≤ 2 * x ∧ 2 * x < 2 ^ w)

/-- What a word is that is congruent to an integer not too far out. -/
theorem toInt_of_modEq {v : BitVec w} {x : Int} (h : v.toInt ≡ x [ZMOD 2 ^ w])
    (hx : -(2 : Int) ^ w ≤ x ∧ x < 2 ^ w) :
    (¬Wraps w x → v.toInt = x) ∧ (2 ^ w ≤ 2 * x → v.toInt = x - 2 ^ w) ∧
      (2 * x < -(2 : Int) ^ w → v.toInt = x + 2 ^ w) := by
  have hv := toInt_window v
  refine ⟨fun hw => eq_of_window hv (not_not.mp hw) h, fun hw => ?_, fun hw => ?_⟩
  · refine eq_of_window hv ⟨by omega, by omega⟩ (h.trans ?_)
    exact (Int.modEq_iff_dvd.mpr ⟨-1, by ring⟩)
  · refine eq_of_window hv ⟨by omega, by omega⟩ (h.trans ?_)
    exact (Int.modEq_iff_dvd.mpr ⟨1, by ring⟩)

theorem ssubOverflow_iff (a b : BitVec w) :
    a.ssubOverflow b = true ↔ Wraps w (a.toInt - b.toInt) := by
  have ha := toInt_window a
  have hb := toInt_window b
  rw [BitVec.ssubOverflow, Bool.or_eq_true, decide_eq_true_iff, decide_eq_true_iff, Wraps]
  rcases w with _ | w
  · simp only [pow_zero, Nat.zero_sub] at *
    omega
  · simp only [pow_succ, Nat.add_sub_cancel] at *
    generalize (2 : Int) ^ w = M at *
    omega

theorem saddOverflow_iff (a b : BitVec w) :
    a.saddOverflow b = true ↔ Wraps w (a.toInt + b.toInt) := by
  have ha := toInt_window a
  have hb := toInt_window b
  rw [BitVec.saddOverflow, Bool.or_eq_true, decide_eq_true_iff, decide_eq_true_iff, Wraps]
  rcases w with _ | w
  · simp only [pow_zero, Nat.zero_sub] at *
    omega
  · simp only [pow_succ, Nat.add_sub_cancel] at *
    generalize (2 : Int) ^ w = M at *
    omega

theorem toInt_add_of_not_overflow {a b : BitVec w} (h : a.saddOverflow b = false) :
    (a + b).toInt = a.toInt + b.toInt :=
  BitVec.toInt_add_of_not_saddOverflow (by rw [h]; exact Bool.false_ne_true)

namespace Range

/-- What lies between two integers less than `2 ^ w` apart lies, modulo `2 ^ w`, in the range
between them, provided that this is ordered. -/
theorem mem_of_modEq {r : Range w} {L H V : Int} (hlo : r.lo.toInt ≡ L [ZMOD 2 ^ w])
    (hhi : r.hi.toInt ≡ H [ZMOD 2 ^ w]) (hwidth : H - L < 2 ^ w) (hL : L ≤ V) (hH : V ≤ H)
    (hr : r.Ordered) {v : BitVec w} (hv : v.toInt ≡ V [ZMOD 2 ^ w]) : v ∈ r := by
  have hwlo := toInt_window r.lo
  have hwhi := toInt_window r.hi
  have hwv := toInt_window v
  have hle : r.lo.toInt ≤ r.hi.toInt := hr
  -- the range is as long as the interval
  have hlen : r.hi.toInt - r.lo.toInt = H - L := by
    have hmod : r.hi.toInt - r.lo.toInt ≡ H - L [ZMOD 2 ^ w] := hhi.sub hlo
    have hd := Int.modEq_iff_dvd.mp hmod
    have h0 := Int.eq_zero_of_abs_lt_dvd hd (abs_lt.mpr ⟨by omega, by omega⟩)
    omega
  -- and `v` is as far from its lower end
  have hpos : v.toInt = r.lo.toInt + (V - L) := by
    refine eq_of_window hwv ⟨by omega, by omega⟩ ?_
    calc v.toInt ≡ V [ZMOD 2 ^ w] := hv
      _ = L + (V - L) := by ring
      _ ≡ r.lo.toInt + (V - L) [ZMOD 2 ^ w] := hlo.symm.add_right _
  exact ⟨by omega, by omega⟩

/-- A range less than a period wide, with ends that wrap at most once, is ordered exactly when both
ends wrap or neither. -/
theorem ordered_iff_wraps {r : Range w} {L H : Int} (hlo : r.lo.toInt ≡ L [ZMOD 2 ^ w])
    (hhi : r.hi.toInt ≡ H [ZMOD 2 ^ w]) (hLH : L ≤ H) (hwidth : H - L < 2 ^ w)
    (hL : -(2 : Int) ^ w ≤ L ∧ L < 2 ^ w) (hH : -(2 : Int) ^ w ≤ H ∧ H < 2 ^ w) :
    r.Ordered ↔ (Wraps w L ↔ Wraps w H) := by
  have hlo := toInt_of_modEq hlo hL
  have hhi := toInt_of_modEq hhi hH
  unfold Ordered Wraps at *
  generalize (2 : Int) ^ w = M at *
  omega

/-! ### Sums and differences -/

variable {r s : Range w} {a b : BitVec w}

/-- A sum neither of whose ends overflows is exact. -/
theorem add_mem (hlo : r.lo.saddOverflow s.lo = false) (hhi : r.hi.saddOverflow s.hi = false)
    (ha : a ∈ r) (hb : b ∈ s) : a + b ∈ r.add s := by
  have hlo := toInt_add_of_not_overflow hlo
  have hhi := toInt_add_of_not_overflow hhi
  obtain ⟨ha, ha'⟩ := ha
  obtain ⟨hb, hb'⟩ := hb
  have hord : (r.add s).Ordered := by
    show (r.lo + s.lo).toInt ≤ (r.hi + s.hi).toInt
    omega
  have hwl := toInt_window (r.lo + s.lo)
  have hwh := toInt_window (r.hi + s.hi)
  exact mem_of_modEq (toInt_add_modEq r.lo s.lo) (toInt_add_modEq r.hi s.hi) (by omega)
    (by omega : r.lo.toInt + s.lo.toInt ≤ a.toInt + b.toInt) (by omega) hord (toInt_add_modEq a b)

theorem add_ordered (hlo : r.lo.saddOverflow s.lo = false) (hhi : r.hi.saddOverflow s.hi = false)
    (hr : r.Ordered) (hs : s.Ordered) : (r.add s).Ordered :=
  .of_mem (add_mem hlo hhi ⟨le_rfl, hr⟩ ⟨le_rfl, hs⟩)

/-- A difference is ordered exactly when both its ends overflow or neither, if the sum of the two
ranges is less than a period wide. -/
theorem sub_ordered_iff (hr : r.Ordered) (hs : s.Ordered)
    (hwidth : r.hi.toInt + s.hi.toInt - (r.lo.toInt + s.lo.toInt) < 2 ^ w) :
    (r.sub s).Ordered ↔ r.lo.ssubOverflow s.hi = r.hi.ssubOverflow s.lo := by
  have h₁ := toInt_window r.lo
  have h₂ := toInt_window r.hi
  have h₃ := toInt_window s.lo
  have h₄ := toInt_window s.hi
  have hr' : r.lo.toInt ≤ r.hi.toInt := hr
  have hs' : s.lo.toInt ≤ s.hi.toInt := hs
  rw [ordered_iff_wraps (toInt_sub_modEq r.lo s.hi) (toInt_sub_modEq r.hi s.lo) (by omega)
    (by omega) ⟨by omega, by omega⟩ ⟨by omega, by omega⟩, ← ssubOverflow_iff, ← ssubOverflow_iff]
  exact Bool.eq_iff_iff.symm

/-- And then it contains the differences. -/
theorem sub_mem (hwidth : r.hi.toInt + s.hi.toInt - (r.lo.toInt + s.lo.toInt) < 2 ^ w)
    (hord : (r.sub s).Ordered) (ha : a ∈ r) (hb : b ∈ s) : a - b ∈ r.sub s := by
  obtain ⟨ha, ha'⟩ := ha
  obtain ⟨hb, hb'⟩ := hb
  exact mem_of_modEq (toInt_sub_modEq r.lo s.hi) (toInt_sub_modEq r.hi s.lo) (by omega)
    (by omega : r.lo.toInt - s.hi.toInt ≤ a.toInt - b.toInt) (by omega) hord (toInt_sub_modEq a b)

/-- A translate is ordered exactly when both its ends overflow or neither. -/
theorem shift_ordered_iff (hr : r.Ordered) (c : BitVec w) :
    (r.shift c).Ordered ↔ r.lo.saddOverflow c = r.hi.saddOverflow c := by
  have h₁ := toInt_window r.lo
  have h₂ := toInt_window r.hi
  have h₃ := toInt_window c
  have hr' : r.lo.toInt ≤ r.hi.toInt := hr
  rw [ordered_iff_wraps (toInt_add_modEq r.lo c) (toInt_add_modEq r.hi c) (by omega)
    (by omega) ⟨by omega, by omega⟩ ⟨by omega, by omega⟩, ← saddOverflow_iff, ← saddOverflow_iff]
  exact Bool.eq_iff_iff.symm

theorem shift_mem {c : BitVec w} (hord : (r.shift c).Ordered) (ha : a ∈ r) :
    a + c ∈ r.shift c := by
  have h₁ := toInt_window r.lo
  have h₂ := toInt_window r.hi
  obtain ⟨ha, ha'⟩ := ha
  exact mem_of_modEq (toInt_add_modEq r.lo c) (toInt_add_modEq r.hi c) (by omega)
    (by omega : r.lo.toInt + c.toInt ≤ a.toInt + c.toInt) (by omega) hord (toInt_add_modEq a c)

end Range

end Support
