import Mathlib.Data.BitVec
import Mathlib.Tactic

/-!
# Support — Bits

Facts about two's complement words that more than one module uses: what a mask of low bits
says about a word, and the signed order on small values.
-/

namespace Support

variable {w : Nat}

/-- A word with no bit at `k` or above. -/
theorem getElem_of_and_high {n : BitVec w} {k : Nat} (h : n &&& (BitVec.allOnes w <<< k) = 0)
    (i : Nat) (hi : i < w) (hk : k ≤ i) : n[i] = false := by
  have := congrArg (·.getLsbD i) h
  simp only [BitVec.getLsbD_and, BitVec.getLsbD_shiftLeft, BitVec.getLsbD_allOnes,
    BitVec.ofNat_eq_ofNat, BitVec.getLsbD_zero] at this
  grind

/-- Between 0 and a small bound in the signed order, a word is that small as a number. -/
theorem toNat_le_of_sle {n b : BitVec w} (h : (0 : BitVec w).sle n = true) (h' : n.sle b = true) :
    n.toNat ≤ b.toNat := by
  rw [BitVec.sle_iff_toInt_le] at h h'
  have hn := n.isLt
  have hb := b.isLt
  have h0 : (0 : BitVec w).toInt = 0 := by simp
  have en := BitVec.toInt_eq_toNat_cond n
  have eb := BitVec.toInt_eq_toNat_cond b
  generalize 2 ^ w = size at hn hb en eb
  split at en <;> split at eb <;> omega

/-- A word whose set bits are the low ones. -/
theorem toNat_of_mask {c : BitVec w} (h : c &&& (c + 1) = 0) : ∃ k ≤ w, c.toNat = 2 ^ k - 1 := by
  by_cases hc : c.toNat + 1 < 2 ^ w
  · have hsucc : (c + 1).toNat = c.toNat + 1 := by
      have : w ≠ 0 := by
        rintro rfl
        have := c.isLt
        omega
      have h1 : (1 : BitVec w).toNat = 1 := BitVec.toNat_one (Nat.pos_of_ne_zero this)
      rw [BitVec.toNat_add, h1, Nat.mod_eq_of_lt hc]
    have hand : (c.toNat + 1) &&& (c.toNat + 1 - 1) = 0 := by
      rw [← hsucc, Nat.and_comm, hsucc, Nat.add_sub_cancel, ← hsucc, ← BitVec.toNat_and, h]
      rfl
    obtain ⟨k, hk⟩ := (Nat.and_sub_one_eq_zero_iff_isPowerOfTwo (Nat.succ_ne_zero _)).mp hand
    rw [Nat.succ_eq_add_one] at hk
    refine ⟨k, ?_, by omega⟩
    rw [hk] at hc
    exact ((Nat.pow_lt_pow_iff_right (by decide)).mp hc).le
  · have := c.isLt
    exact ⟨w, le_rfl, by omega⟩

theorem toNat_and_mask {c : BitVec w} {k : Nat} (h : c.toNat = 2 ^ k - 1) (x : BitVec w) :
    (x &&& c).toNat = x.toNat % 2 ^ k := by
  rw [BitVec.toNat_and, h, Nat.and_two_pow_sub_one_eq_mod]

theorem toNat_modEq_add {k : Nat} (hk : k ≤ w) (a b : BitVec w) :
    ((a + b).toNat : Int) ≡ a.toNat + b.toNat [ZMOD 2 ^ k] := by
  have : ((a + b).toNat : Int) ≡ a.toNat + b.toNat [ZMOD 2 ^ w] := by
    rw [BitVec.toNat_add]
    push_cast
    exact Int.mod_modEq _ _
  exact this.of_dvd (pow_dvd_pow 2 hk)

theorem and_mask_add {c : BitVec w} (h : c &&& (c + 1) = 0) (a b : BitVec w) :
    ((a &&& c) + (b &&& c)) &&& c = (a + b) &&& c := by
  obtain ⟨k, hk, hc⟩ := toNat_of_mask h
  apply BitVec.eq_of_toNat_eq
  rw [toNat_and_mask hc, toNat_and_mask hc]
  zify
  refine (toNat_modEq_add hk _ _).trans (Int.ModEq.trans ?_ (toNat_modEq_add hk a b).symm)
  rw [toNat_and_mask hc, toNat_and_mask hc]
  push_cast
  exact (Int.mod_modEq _ _).add (Int.mod_modEq _ _)

theorem and_mask_sub {c : BitVec w} (h : c &&& (c + 1) = 0) (a b : BitVec w) :
    ((a &&& c) - (b &&& c)) &&& c = (a - b) &&& c := by
  obtain ⟨k, hk, hc⟩ := toNat_of_mask h
  have key : ∀ x y : BitVec w, ((x - y).toNat : Int) ≡ x.toNat - y.toNat [ZMOD 2 ^ k] := by
    intro x y
    have := toNat_modEq_add hk (x - y) y
    rw [sub_add_cancel] at this
    have := this.symm.sub_right y.toNat
    simpa using this
  apply BitVec.eq_of_toNat_eq
  rw [toNat_and_mask hc, toNat_and_mask hc]
  zify
  refine (key _ _).trans (Int.ModEq.trans ?_ (key a b).symm)
  rw [toNat_and_mask hc, toNat_and_mask hc]
  push_cast
  exact (Int.mod_modEq _ _).sub (Int.mod_modEq _ _)

/-- A positive power of two, as a signed word. -/
def powerOfTwo (n : BitVec w) : Bool := (0 : BitVec w).slt n && n &&& (n - 1) == 0

theorem powerOfTwo_iff {n : BitVec w} :
    powerOfTwo n = true ↔ (0 : BitVec w).slt n = true ∧ n &&& (n - 1) = 0 := by
  rw [powerOfTwo, Bool.and_eq_true, beq_iff_eq]

theorem mask_of_and_pred {n : BitVec w} (h : n &&& (n - 1) = 0) : n - 1 &&& (n - 1 + 1) = 0 := by
  rw [sub_add_cancel, BitVec.and_comm]
  exact h

theorem toNat_of_powerOfTwo {n : BitVec w} (h : powerOfTwo n = true) :
    ∃ k, n.toNat = 2 ^ k ∧ (n - 1).toNat = 2 ^ k - 1 := by
  obtain ⟨hpos, hand⟩ := powerOfTwo_iff.mp h
  obtain ⟨k, hkw, hk⟩ := toNat_of_mask (mask_of_and_pred hand)
  have hn : n ≠ 0 := by
    rintro rfl
    rw [BitVec.slt_iff_toInt_lt] at hpos
    exact lt_irrefl _ hpos
  have hw : 0 < w := by
    by_contra hw
    obtain rfl : w = 0 := by omega
    exact hn (BitVec.of_length_zero (x := n))
  have hsucc : n.toNat = (2 ^ k - 1 + 1) % 2 ^ w := by
    have h1 : (1 : BitVec w).toNat = 1 := BitVec.toNat_one hw
    conv_lhs => rw [← sub_add_cancel n 1]
    rw [BitVec.toNat_add, hk, h1]
  have hpow := Nat.one_le_two_pow (n := k)
  rw [Nat.sub_add_cancel hpow] at hsucc
  refine ⟨k, ?_, hk⟩
  rcases hkw.lt_or_eq with hlt | rfl
  · rw [hsucc, Nat.mod_eq_of_lt ((Nat.pow_lt_pow_iff_right (by decide)).mpr hlt)]
  · rw [Nat.mod_self] at hsucc
    exact absurd (BitVec.eq_of_toNat_eq hsucc) hn

/-- A multiple of a power of two has no bit below it, nor below a smaller one. -/
theorem and_pred_eq_zero {n m v : BitVec w} (hn : powerOfTwo n = true) (hm : powerOfTwo m = true)
    (hle : n.sle m = true) (hv : m.toNat ∣ v.toNat) : v &&& (n - 1) = 0 := by
  obtain ⟨j, hj, hj'⟩ := toNat_of_powerOfTwo hn
  obtain ⟨k, hk, -⟩ := toNat_of_powerOfTwo hm
  have hpow : 2 ^ j ≤ 2 ^ k := by
    rw [← hj, ← hk]
    refine toNat_le_of_sle ?_ hle
    have := (powerOfTwo_iff.mp hn).1
    rw [BitVec.slt_iff_toInt_lt] at this
    rw [BitVec.sle_iff_toInt_le]
    exact this.le
  have hdvd : 2 ^ j ∣ v.toNat :=
    (pow_dvd_pow 2 ((Nat.pow_le_pow_iff_right (by decide)).mp hpow)).trans (hk ▸ hv)
  apply BitVec.eq_of_toNat_eq
  rw [toNat_and_mask hj', Nat.mod_eq_zero_of_dvd hdvd]
  simp

/-- Above a mask other than -1 there is a positive word, or the least one. -/
theorem pos_of_slt_mask {c o : BitVec w} (h : c &&& (c + 1) = 0) (h1 : c ≠ -1)
    (hlt : o.slt (c + 1) = true) : (0 : BitVec w).slt (c + 1) = true := by
  obtain ⟨k, hkw, hk⟩ := toNat_of_mask h
  have hw : 0 < w := by
    by_contra hw
    obtain rfl : w = 0 := by omega
    exact h1 ((BitVec.of_length_zero (x := c)).trans (BitVec.of_length_zero (x := -1)).symm)
  have hpow := Nat.one_le_two_pow (n := k)
  have hlt' : k < w := by
    refine lt_of_le_of_ne hkw ?_
    rintro rfl
    refine h1 (BitVec.eq_of_toNat_eq ?_)
    rw [hk, ← BitVec.toNat_allOnes, ← BitVec.neg_one_eq_allOnes]
    rfl
  have hsucc : (c + 1).toNat = 2 ^ k := by
    have h1 : (1 : BitVec w).toNat = 1 := BitVec.toNat_one hw
    rw [BitVec.toNat_add, hk, h1, Nat.sub_add_cancel hpow,
      Nat.mod_eq_of_lt ((Nat.pow_lt_pow_iff_right (by decide)).mpr hlt')]
  rw [BitVec.slt_iff_toInt_lt] at hlt ⊢
  have ho := BitVec.le_toInt o
  have hc := BitVec.toInt_eq_toNat_cond (c + 1)
  have h0 : (0 : BitVec w).toInt = 0 := by simp
  rw [hsucc] at hc
  rcases (Nat.succ_le_of_lt hlt').lt_or_eq with hk1 | hk1
  · have hlt2 : 2 * 2 ^ k < 2 ^ w := by
      rw [← Nat.pow_succ']
      exact (Nat.pow_lt_pow_iff_right (by decide)).mpr hk1
    rw [if_pos hlt2] at hc
    rw [hc, h0]
    exact_mod_cast hpow
  · -- the word above the mask is the least one, and nothing is less
    obtain rfl : w = k + 1 := hk1.symm
    rw [if_neg (by rw [← Nat.pow_succ']; exact lt_irrefl _)] at hc
    rw [hc] at hlt
    push_cast at *
    rw [pow_succ] at hlt
    omega

end Support
