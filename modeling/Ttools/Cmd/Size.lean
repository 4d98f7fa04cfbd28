import Mathlib.Data.BitVec
import Mathlib.Tactic

/-!
# The length of a command

`cmd_size` (`shared/cmd.c`) counts the bytes of a direct command: one for every four bits of the
argument, of its complement if it is negative, and an extra `nfix` for -16 to -1.  `target_word_t`
is the host's `long`, so the word size is a parameter.

* `cmdSize_le_iff`: a command has at most `L` bytes exactly when its argument lies between
  `-16^L` and `16^L`, and `L` is at least 2 if it is negative.
-/

namespace Ttools

variable {w : Nat}

/-- `while ((arg = (target_word_unsigned_t) arg >> 4)) sz++;` -/
def countNibbles (arg : BitVec w) (sz : Nat) : Nat :=
  if h : arg >>> 4 = 0 then sz else countNibbles (arg >>> 4) (sz + 1)
termination_by arg.toNat
decreasing_by
  have hne : (arg >>> 4).toNat ≠ 0 := fun h0 => h (BitVec.eq_of_toNat_eq h0)
  rw [BitVec.toNat_ushiftRight, Nat.shiftRight_eq_div_pow] at *
  omega

/-- `cmd_size`. -/
def cmdSize (arg : BitVec w) : Nat :=
  if arg.slt 0 then countNibbles (~~~arg) (if (-16 : BitVec w).sle arg then 2 else 1)
  else countNibbles arg 1

/-! ### Counting -/

theorem countNibbles_add (arg : BitVec w) (sz k : Nat) :
    countNibbles arg (sz + k) = countNibbles arg sz + k := by
  induction arg, sz using countNibbles.induct with
  | case1 arg sz h =>
      unfold countNibbles
      rw [dif_pos h, dif_pos h]
  | case2 arg sz h ih =>
      unfold countNibbles
      rw [dif_neg h, dif_neg h, ← ih]
      congr 1
      omega

theorem toNat_ushiftRight_four (arg : BitVec w) : (arg >>> 4).toNat = arg.toNat / 16 := by
  rw [BitVec.toNat_ushiftRight, Nat.shiftRight_eq_div_pow]

theorem ushiftRight_four_eq_zero {arg : BitVec w} : arg >>> 4 = 0 ↔ arg.toNat < 16 := by
  have := toNat_ushiftRight_four arg
  constructor
  · intro h
    rw [h, BitVec.ofNat_eq_ofNat, BitVec.toNat_ofNat, Nat.zero_mod] at this
    omega
  · intro h
    apply BitVec.eq_of_toNat_eq
    rw [this, BitVec.ofNat_eq_ofNat, BitVec.toNat_ofNat, Nat.zero_mod]
    omega

/-- What the loop counts. -/
theorem countNibbles_le_iff {arg : BitVec w} {sz k : Nat} :
    countNibbles arg sz ≤ sz + k ↔ arg.toNat < 16 ^ (k + 1) := by
  induction arg, sz using countNibbles.induct generalizing k with
  | case1 arg sz h =>
      have hlt := ushiftRight_four_eq_zero.mp h
      have hpow : 16 ^ 1 ≤ 16 ^ (k + 1) := Nat.pow_le_pow_right (by decide) (by omega)
      rw [countNibbles, dif_pos h]
      omega
  | case2 arg sz h ih =>
      have hge : 16 ≤ arg.toNat := by
        by_contra hlt
        exact h (ushiftRight_four_eq_zero.mpr (by omega))
      rw [countNibbles, dif_neg h]
      cases k with
      | zero =>
          have := countNibbles_add (arg >>> 4) 0 (sz + 1)
          rw [Nat.zero_add] at this
          omega
      | succ k =>
          have hk : sz + (k + 1) = sz + 1 + k := by omega
          rw [hk, ih, toNat_ushiftRight_four, Nat.div_lt_iff_lt_mul (by decide), ← Nat.pow_succ]

/-! ### Commands -/

theorem slt_zero_iff {v : BitVec w} : v.slt 0 = true ↔ v.toInt < 0 := by
  rw [BitVec.slt_iff_toInt_lt, BitVec.ofNat_eq_ofNat, BitVec.toInt_zero]

theorem toInt_of_nonneg {v : BitVec w} (h : v.slt 0 = false) : v.toInt = v.toNat := by
  have hneg : ¬v.toInt < 0 := fun hn => by rw [slt_zero_iff.mpr hn] at h; cases h
  have hlt := v.isLt
  have := BitVec.toInt_eq_toNat_cond v
  generalize 2 ^ w = size at hlt this
  split at this <;> omega

theorem toNat_not_of_neg {v : BitVec w} (h : v.slt 0 = true) :
    ((~~~v).toNat : Int) = -v.toInt - 1 := by
  rw [slt_zero_iff] at h
  have hlt := v.isLt
  have := BitVec.toInt_eq_toNat_cond v
  rw [BitVec.toNat_not]
  generalize 2 ^ w = size at hlt this
  split at this <;> omega

theorem toInt_neg_sixteen (hw : 8 ≤ w) : (-16 : BitVec w).toInt = -16 := by
  have hsize : 2 ^ 8 ≤ 2 ^ w := Nat.pow_le_pow_right (by decide) hw
  have h16 : (16 : BitVec w).toInt = 16 := by
    have hnat : (16 : BitVec w).toNat = 16 := by
      rw [BitVec.ofNat_eq_ofNat, BitVec.toNat_ofNat]
      exact Nat.mod_eq_of_lt (lt_of_lt_of_le (by decide) hsize)
    rw [BitVec.toInt_eq_toNat_cond, hnat, if_pos (lt_of_lt_of_le (by decide) hsize)]
    rfl
  rw [BitVec.toInt_neg, h16]
  generalize 2 ^ w = size at hsize
  exact Int.bmod_eq_of_le (by omega) (by omega)

theorem le_countNibbles (arg : BitVec w) (sz : Nat) : sz ≤ countNibbles arg sz := by
  have := countNibbles_add arg 0 sz
  rw [Nat.zero_add] at this
  omega

theorem one_le_cmdSize (v : BitVec w) : 1 ≤ cmdSize v := by
  rw [cmdSize]
  split
  · refine le_trans ?_ (le_countNibbles _ _)
    split <;> omega
  · exact le_countNibbles _ _

/-- The arguments of commands of at most `L` bytes. -/
theorem cmdSize_le_iff (hw : 8 ≤ w) {v : BitVec w} {L : Nat} :
    cmdSize v ≤ L ↔ 1 ≤ L ∧ -16 ^ L ≤ v.toInt ∧ v.toInt < 16 ^ L ∧ (v.toInt < 0 → 2 ≤ L) := by
  rcases L with _ | L
  · have := one_le_cmdSize v
    omega
  have hpow : (0 : Int) < 16 ^ (L + 1) := by positivity
  rw [cmdSize, Nat.add_comm L 1]
  by_cases hneg : v.slt 0 = true
  · have hlt := slt_zero_iff.mp hneg
    have hnot := toNat_not_of_neg hneg
    have h16 : (-16 : BitVec w).sle v = true ↔ -16 ≤ v.toInt := by
      rw [BitVec.sle_iff_toInt_le, toInt_neg_sixteen hw]
    rw [if_pos hneg]
    by_cases hsmall : -16 ≤ v.toInt
    · -- the extra `nfix` stands for the sign alone
      rw [if_pos (h16.mpr hsmall)]
      rcases L with _ | L
      · have := le_countNibbles (~~~v) 2
        omega
      · have hmono : (16 : Nat) ^ 1 ≤ 16 ^ (L + 1) := Nat.pow_le_pow_right (by decide) (by omega)
        have hmono' : (16 : Int) ^ 1 ≤ 16 ^ (1 + (L + 1)) := pow_le_pow_right₀ (by decide) (by omega)
        rw [show 1 + (L + 1) = 2 + L by omega, countNibbles_le_iff]
        rw [show 1 + (L + 1) = 2 + L by omega] at hmono'
        omega
    · rw [if_neg (fun h => hsmall (h16.mp h)), countNibbles_le_iff, Nat.add_comm 1 L]
      zify
      rw [hnot]
      rcases L with _ | L
      · omega
      · omega
  · have hpos := toInt_of_nonneg (Bool.eq_false_iff.mpr hneg)
    rw [if_neg hneg, countNibbles_le_iff, hpos, Nat.add_comm 1 L]
    zify
    omega

end Ttools
