import Ttools.T800.Expand

/-!
# Shifts and rotates

The standard patterns for shifts and rotates of `gcc-2.7.2/config/t800/t800.md`.  The transputer
shifts a word or a pair of words and fills with zeros; signed shifts and rotates go through a pair.

* `expandShift_right_iff`: every pattern computes its shift, but `ashrdi3` that of a negative value
  by a count other than 0.
* `expandRotate_right_iff`: the rotates are plain shifts: they are right when the bits that are to
  come round are zeros.
-/

namespace Ttools.T800

/-! ### The patterns -/

/-- `ashlsi3`. -/
def expandAshlsi3 (dest src count : Pseudo) : Expander PUnit :=
  emitInsn (.shl dest.si src.si count.si)

/-- `ashldi3`. -/
def expandAshldi3 (dest src count : Pseudo) : Expander PUnit :=
  emitInsn (.lshl dest src count.si)

/-- `ashrdi3`: its pattern is an `lshiftrt:DI`. -/
def expandAshrdi3 (dest src count : Pseudo) : Expander PUnit :=
  emitInsn (.lshr dest src count.si)

/-- `ashrsi3`. -/
def expandAshrsi3 (dest : Pseudo) (src count : Whatever) : Expander PUnit := do
  let tmp ← genRegRtx
  let src ← convertToDI src false
  let count ← forceReg count
  expandAshrdi3 tmp src count
  emitInsn (.move dest.si ⟨tmp, 0⟩)

/-- `lshrsi3`. -/
def expandLshrsi3 (dest src count : Pseudo) : Expander PUnit :=
  emitInsn (.shr dest.si src.si count.si)

/-- `rotlsi3`. -/
def expandRotlsi3 (dest : Pseudo) (src count : Whatever) : Expander PUnit := do
  let tmp ← genRegRtx
  emitMoveInsn ⟨tmp, 1⟩ src
  emitMoveInsn ⟨tmp, 0⟩ (.const 0)
  let count ← forceReg count
  expandAshldi3 tmp tmp count
  emitInsn (.iorsi3 dest.si ⟨tmp, 0⟩ ⟨tmp, 1⟩)

/-- `rotrsi3`. -/
def expandRotrsi3 (dest : Pseudo) (src count : Whatever) : Expander PUnit := do
  let tmp ← genRegRtx
  let src ← convertToDI src true
  let count ← forceReg count
  expandAshrdi3 tmp src count
  emitInsn (.iorsi3 dest.si ⟨tmp, 0⟩ ⟨tmp, 1⟩)

/-- A shift pattern with its operands. -/
inductive ShiftPattern where
  | ashlsi3 (dest src count : Pseudo)
  | ashldi3 (dest src count : Pseudo)
  | ashrsi3 (dest : Pseudo) (src count : Whatever)
  | ashrdi3 (dest src count : Pseudo)
  | lshrsi3 (dest src count : Pseudo)

namespace ShiftPattern

def expand : ShiftPattern → Expander PUnit
  | ashlsi3 d s n => expandAshlsi3 d s n
  | ashldi3 d s n => expandAshldi3 d s n
  | ashrsi3 d s n => expandAshrsi3 d s n
  | ashrdi3 d s n => expandAshrdi3 d s n
  | lshrsi3 d s n => expandLshrsi3 d s n

def count (σ : Pseudos) : ShiftPattern → Nat
  | ashlsi3 _ _ n | ashldi3 _ _ n | ashrdi3 _ _ n | lshrsi3 _ _ n => (σ n 0).toNat
  | ashrsi3 _ _ n => (n.value σ).toNat

/-- The bits of the value that is shifted. -/
def bits : ShiftPattern → Nat
  | ashlsi3 .. | ashrsi3 .. | lshrsi3 .. => 32
  | ashldi3 .. | ashrdi3 .. => 64

/-- The operands are in use when the pattern is expanded. -/
def Below (next : Pseudo) : ShiftPattern → Prop
  | ashlsi3 d s n | ashldi3 d s n | ashrdi3 d s n | lshrsi3 d s n =>
      d < next ∧ s < next ∧ n < next
  | ashrsi3 d s n => d < next ∧ s.Below next ∧ n.Below next

/-- What the standard name stands for, from the pseudos before to those after. -/
def Computes (σ σ' : Pseudos) (p : ShiftPattern) : Prop :=
  match p with
  | ashlsi3 d s _ => σ' d 0 = σ s 0 <<< p.count σ
  | ashldi3 d s _ => σ'.readDI d = σ.readDI s <<< p.count σ
  | ashrsi3 d s _ => σ' d 0 = (s.value σ).sshiftRight (p.count σ)
  | ashrdi3 d s _ => σ'.readDI d = (σ.readDI s).sshiftRight (p.count σ)
  | lshrsi3 d s _ => σ' d 0 = σ s 0 >>> p.count σ

/-- A signed shift of a negative double word. -/
def LosesSign (σ : Pseudos) (p : ShiftPattern) : Prop :=
  match p with
  | ashrdi3 _ s _ => (σ.readDI s).msb = true ∧ p.count σ ≠ 0
  | _ => False

instance (next : Pseudo) (p : ShiftPattern) : Decidable (p.Below next) :=
  match p with
  | ashlsi3 .. | ashldi3 .. | ashrdi3 .. | lshrsi3 .. | ashrsi3 .. =>
      inferInstanceAs (Decidable (_ ∧ _ ∧ _))

instance (σ σ' : Pseudos) (p : ShiftPattern) : Decidable (p.Computes σ σ') :=
  match p with
  | ashlsi3 .. | ashldi3 .. | ashrdi3 .. | lshrsi3 .. | ashrsi3 .. =>
      inferInstanceAs (Decidable (_ = _))

end ShiftPattern

/-- A rotate pattern with its operands. -/
inductive RotatePattern where
  | rotlsi3 (dest : Pseudo) (src count : Whatever)
  | rotrsi3 (dest : Pseudo) (src count : Whatever)

namespace RotatePattern

def dest : RotatePattern → Pseudo
  | rotlsi3 d _ _ | rotrsi3 d _ _ => d

def src : RotatePattern → Whatever
  | rotlsi3 _ s _ | rotrsi3 _ s _ => s

def countOp : RotatePattern → Whatever
  | rotlsi3 _ _ n | rotrsi3 _ _ n => n

def expand : RotatePattern → Expander PUnit
  | rotlsi3 d s n => expandRotlsi3 d s n
  | rotrsi3 d s n => expandRotrsi3 d s n

def count (σ : Pseudos) (p : RotatePattern) : Nat := (p.countOp.value σ).toNat

def value (σ : Pseudos) (p : RotatePattern) : Word := p.src.value σ

/-- The operands are in use when the pattern is expanded. -/
def Below (next : Pseudo) (p : RotatePattern) : Prop :=
  p.dest < next ∧ p.src.Below next ∧ p.countOp.Below next

/-- What the standard name stands for. -/
def rotated (σ : Pseudos) (p : RotatePattern) : Word :=
  match p with
  | rotlsi3 .. => (p.value σ).rotateLeft (p.count σ)
  | rotrsi3 .. => (p.value σ).rotateRight (p.count σ)

/-- The bits that leave the word at one end are zeros. -/
def LosesZeros (σ : Pseudos) (p : RotatePattern) : Prop :=
  match p with
  | rotlsi3 .. => (p.value σ).toNat < 2 ^ (32 - p.count σ)
  | rotrsi3 .. => 2 ^ p.count σ ∣ (p.value σ).toNat

instance (next : Pseudo) (p : RotatePattern) : Decidable (p.Below next) :=
  inferInstanceAs (Decidable (_ ∧ _ ∧ _))

instance (σ : Pseudos) (p : RotatePattern) : Decidable (p.LosesZeros σ) :=
  match p with
  | rotlsi3 .. => inferInstanceAs (Decidable (_ < _))
  | rotrsi3 .. => inferInstanceAs (Decidable (_ ∣ _))

end RotatePattern

/-! ### Words and pairs of words -/

/-- A signed shift is the low half of a double-word shift of the sign-extended value. -/
theorem sshiftRight_of_pair (x : Word) {n : Nat} (hn : n < 32) :
    (x.signExtend 64 >>> n).extractLsb' 0 32 = x.sshiftRight n := by
  ext i hi
  have hlt : n + i < 64 := by omega
  simp only [BitVec.getElem_extractLsb', BitVec.getLsbD_ushiftRight, BitVec.getLsbD_signExtend,
    BitVec.getElem_sshiftRight, zero_add, decide_eq_true hlt, Bool.true_and]
  split
  · next h => exact BitVec.getLsbD_eq_getElem h
  · rfl

theorem ushiftRight_eq_sshiftRight_iff (x : BitVec 64) (n : Nat) :
    x >>> n = x.sshiftRight n ↔ ¬(x.msb = true ∧ n ≠ 0) := by
  constructor
  · rintro h ⟨hmsb, h0⟩
    have hpos : 0 < n := Nat.pos_of_ne_zero h0
    have := congrArg BitVec.msb h
    rw [BitVec.msb_sshiftRight, hmsb, BitVec.msb_ushiftRight] at this
    simp [h0] at this
  · intro h
    by_cases h0 : n = 0
    · simp [h0]
    · have hmsb : x.msb = false := by simpa [h0] using h
      rw [BitVec.sshiftRight_eq_of_msb_false hmsb]

/-- The halves of a shifted pair whose low word was zero. -/
theorem halves_shl (x : Word) (n : Nat) :
    ((x ++ (0 : Word)) <<< n).extractLsb' 0 32 = 0 ∧
      ((x ++ (0 : Word)) <<< n).extractLsb' 32 32 = x <<< n := by
  constructor
  · ext i hi
    simp only [BitVec.getElem_extractLsb', BitVec.getLsbD_shiftLeft, BitVec.getLsbD_append]
    grind
  · ext i hi
    simp only [BitVec.getElem_extractLsb', BitVec.getLsbD_shiftLeft, BitVec.getLsbD_append,
      BitVec.getElem_shiftLeft]
    grind

/-- The halves of a shifted pair whose high word was zero. -/
theorem halves_shr (x : Word) (n : Nat) :
    (x.setWidth 64 >>> n).extractLsb' 0 32 = x >>> n ∧
      (x.setWidth 64 >>> n).extractLsb' 32 32 = 0 := by
  constructor
  · ext i hi
    simp only [BitVec.getElem_extractLsb', BitVec.getLsbD_ushiftRight, BitVec.getLsbD_setWidth,
      BitVec.getElem_ushiftRight]
    grind
  · ext i hi
    simp only [BitVec.getElem_extractLsb', BitVec.getLsbD_ushiftRight, BitVec.getLsbD_setWidth]
    grind

/-- A left rotate is a left shift when no set bit comes round. -/
theorem shiftLeft_eq_rotateLeft_iff (x : Word) {n : Nat} (hn : n < 32) :
    x <<< n = x.rotateLeft n ↔ x.toNat < 2 ^ (32 - n) := by
  constructor
  · intro h
    refine Nat.lt_pow_two_of_testBit _ fun i hi => ?_
    rw [BitVec.testBit_toNat]
    by_cases hlt : i < 32
    · -- bit `i` comes round to bit `i - (32 - n)`
      have hbit := congrArg (·.getLsbD (i - (32 - n))) h
      simp only [BitVec.getLsbD_shiftLeft, BitVec.getLsbD_rotateLeft_of_le hn] at hbit
      have hto : i - (32 - n) < n := by omega
      simp only [hto, decide_true, Bool.not_true, Bool.and_false, Bool.false_and, cond_true] at hbit
      rw [hbit, Nat.add_sub_cancel' hi]
    · exact BitVec.getLsbD_of_ge _ _ (by omega)
  · intro h
    apply BitVec.eq_of_getLsbD_eq
    intro i hi
    rw [BitVec.getLsbD_shiftLeft, BitVec.getLsbD_rotateLeft_of_le hn]
    by_cases hin : i < n
    · have hround : x.getLsbD (32 - n + i) = false := by
        rw [← BitVec.testBit_toNat]
        exact Nat.testBit_lt_two_pow
          (h.trans_le (Nat.pow_le_pow_right (by decide) (Nat.le_add_right _ _)))
      simp [hin, hround]
    · simp [hin, hi]

/-- A right rotate is a right shift when no set bit comes round. -/
theorem ushiftRight_eq_rotateRight_iff (x : Word) {n : Nat} (hn : n < 32) :
    x >>> n = x.rotateRight n ↔ 2 ^ n ∣ x.toNat := by
  rw [Nat.dvd_iff_mod_eq_zero]
  constructor
  · intro h
    refine Nat.eq_of_testBit_eq fun i => ?_
    rw [Nat.testBit_mod_two_pow, Nat.zero_testBit, BitVec.testBit_toNat]
    by_cases hin : i < n
    · -- bit `i` comes round to bit `32 - n + i`
      have hbit := congrArg (·.getLsbD (32 - n + i)) h
      have hge : ¬ 32 - n + i < 32 - n := by omega
      have hlt : 32 - n + i < 32 := by omega
      have hto : n + (32 - n + i) = 32 + i := by omega
      simp only [BitVec.getLsbD_ushiftRight, BitVec.getLsbD_rotateRight_of_lt hn, hge, hto,
        decide_false, cond_false, hlt, decide_true, Bool.true_and, Nat.add_sub_cancel_left] at hbit
      simp [hin, ← hbit]
    · simp [hin]
  · intro h
    apply BitVec.eq_of_getLsbD_eq
    intro i hi
    rw [BitVec.getLsbD_ushiftRight, BitVec.getLsbD_rotateRight_of_lt hn]
    by_cases hin : i < 32 - n
    · simp [hin]
    · have hround := congrArg (Nat.testBit · (i - (32 - n))) h
      have hlt : i - (32 - n) < n := by omega
      simp only [Nat.testBit_mod_two_pow, hlt, decide_true, Bool.true_and,
        Nat.zero_testBit, BitVec.testBit_toNat] at hround
      have hout : 32 ≤ n + i := by omega
      simp [hin, hi, hround, BitVec.getLsbD_of_ge _ _ hout]

/-! ### What the sequences leave -/

section

variable {next dest : Pseudo} {src count : Whatever} {σ : Pseudos}

/-- A right shift of a pair that has been made of a word. -/
theorem pairShift_insns (u : Bool) (last : Pseudo → Rtl) (hc : count.Below next) (σ : Pseudos) :
    ∃ is, Expander.insns (do
        let tmp ← genRegRtx
        let src ← convertToDI src u
        let count ← forceReg count
        expandAshrdi3 tmp src count
        emitInsn (last tmp)) next = is ++ [last next] ∧
      (execAll σ is).readDI next =
        extendDI u (src.value σ) >>> (count.value σ).toNat := by
  obtain ⟨i, hi, hexec⟩ := convertToDI_spec src u ⟨next + 1, []⟩
  obtain ⟨r, n, is, hr, hn, hspared, hval⟩ := forceReg_spec count ⟨next + 2, [i]⟩
  refine ⟨i :: is ++ [.lshr next (next + 1) r.si], ?_, ?_⟩
  · simp [Expander.insns, hi, hr, expandAshrdi3]
  · obtain ⟨-, hval⟩ := hval (hc.mono (Nat.le_add_right _ _))
    have hconv : ∀ s : Subreg, s.reg < next → (Rtl.exec σ i).read s = σ.read s := fun s hlt => by
      rw [hexec]
      exact Pseudos.read_writeDI_of_ne (hlt.trans (Nat.lt_succ_self _)).ne
    have hpair : (execAll (Rtl.exec σ i) is).readDI (next + 1) = extendDI u (src.value σ) := by
      have h0 := hspared (Rtl.exec σ i) ⟨next + 1, 0⟩ (Nat.lt_succ_self _)
      have h1 := hspared (Rtl.exec σ i) ⟨next + 1, 1⟩ (Nat.lt_succ_self _)
      simp only [Pseudos.read] at h0 h1
      rw [Pseudos.readDI, h0, h1, hexec]
      exact Pseudos.readDI_writeDI
    have hcount : (execAll (Rtl.exec σ i) is).read r.si = count.value σ :=
      (hval _).trans (Whatever.value_congr hc hconv)
    rw [execAll_append, execAll_cons, execAll_cons, execAll_nil]
    change ((execAll (Rtl.exec σ i) is).writeDI next _).readDI next = _
    rw [Pseudos.readDI_writeDI, hpair, hcount]

theorem expandAshrsi3_after (hc : count.Below next)
    (hn : (count.value σ).toNat < 32) :
    (expandAshrsi3 dest src count).after next σ dest 0 =
      (src.value σ).sshiftRight (count.value σ).toNat := by
  obtain ⟨is, his, hpair⟩ := pairShift_insns false (fun tmp => .move dest.si ⟨tmp, 0⟩) hc σ
  have hinsns : (expandAshrsi3 dest src count).insns next = _ := his
  rw [Expander.after, hinsns, execAll_append, execAll_cons, execAll_nil]
  calc ((execAll σ is).write dest.si ((execAll σ is).read ⟨next, 0⟩)).read dest.si
      = ((execAll σ is).readDI next).extractLsb' 0 32 := by
        rw [Pseudos.read_write_self, Pseudos.extractLsb'_readDI_low]
    _ = _ := by rw [hpair]; exact sshiftRight_of_pair _ hn

theorem expandRotrsi3_after (hc : count.Below next) :
    (expandRotrsi3 dest src count).after next σ dest 0 =
      src.value σ >>> (count.value σ).toNat := by
  obtain ⟨is, his, hpair⟩ :=
    pairShift_insns true (fun tmp => .iorsi3 dest.si ⟨tmp, 0⟩ ⟨tmp, 1⟩) hc σ
  have hinsns : (expandRotrsi3 dest src count).insns next = _ := his
  obtain ⟨hlow, hhigh⟩ := halves_shr (src.value σ) (count.value σ).toNat
  rw [Expander.after, hinsns, execAll_append, execAll_cons, execAll_nil]
  calc ((execAll σ is).write dest.si
        ((execAll σ is).read ⟨next, 0⟩ ||| (execAll σ is).read ⟨next, 1⟩)).read dest.si
      = ((execAll σ is).readDI next).extractLsb' 0 32 |||
          ((execAll σ is).readDI next).extractLsb' 32 32 := by
        rw [Pseudos.read_write_self, Pseudos.extractLsb'_readDI_low,
          Pseudos.extractLsb'_readDI_high]
    _ = _ := by
        rw [hpair, extendDI, if_pos rfl, hlow, hhigh]
        exact BitVec.or_zero

theorem expandRotlsi3_after (hc : count.Below next) :
    (expandRotlsi3 dest src count).after next σ dest 0 =
      src.value σ <<< (count.value σ).toNat := by
  obtain ⟨i, hi, hexec⟩ := emitMoveInsn_spec ⟨next, 1⟩ src ⟨next + 1, []⟩
  obtain ⟨r, n, is, hr, hn, hspared, hval⟩ :=
    forceReg_spec count ⟨next + 1, [i, .moveConst ⟨next, 0⟩ 0]⟩
  obtain ⟨-, hval⟩ := hval (hc.mono (Nat.le_add_right _ _))
  have hinsns : (expandRotlsi3 dest src count).insns next =
      i :: .moveConst ⟨next, 0⟩ 0 :: is ++
        [.lshl next next r.si, .iorsi3 dest.si ⟨next, 0⟩ ⟨next, 1⟩] := by
    have hzero : ∀ s, emitMoveInsn ⟨next, 0⟩ (.const 0) s =
        (⟨⟩, ⟨s.next, s.insns ++ [.moveConst ⟨next, 0⟩ 0]⟩) := fun s => rfl
    simp only [Expander.insns, expandRotlsi3, Expander.bind_apply, genRegRtx_apply, hi, hzero,
      List.nil_append, hr, expandAshldi3, emitInsn_apply, List.cons_append,
      List.append_assoc]
  obtain ⟨hlow, hhigh⟩ := halves_shl (src.value σ) (count.value σ).toNat
  let σ₁ := (σ.write ⟨next, 1⟩ (src.value σ)).write ⟨next, 0⟩ 0
  have hbuilt : Rtl.exec (Rtl.exec σ i) (.moveConst ⟨next, 0⟩ 0) = σ₁ := by rw [hexec]; rfl
  have hbefore : ∀ s : Subreg, s.reg < next → σ₁.read s = σ.read s := fun s hlt => by
    have hne : ∀ w, s ≠ ⟨next, w⟩ := fun w h => by simp [h] at hlt
    rw [Pseudos.read_write_of_ne (hne 0), Pseudos.read_write_of_ne (hne 1)]
  have hpair : (execAll σ₁ is).readDI next = src.value σ ++ (0 : Word) := by
    have h0 := hspared σ₁ ⟨next, 0⟩ (Nat.lt_succ_self _)
    have h1 := hspared σ₁ ⟨next, 1⟩ (Nat.lt_succ_self _)
    simp only [Pseudos.read] at h0 h1
    rw [Pseudos.readDI, h0, h1]
    exact Pseudos.readDI_write_halves _ _
  have hcount : (execAll σ₁ is).read r.si = count.value σ :=
    (hval _).trans (Whatever.value_congr hc hbefore)
  simp only [Expander.after, hinsns, execAll_append, execAll_cons, execAll_nil, hbuilt]
  generalize execAll σ₁ is = σ₂ at hpair hcount
  let σ₃ := σ₂.writeDI next (σ₂.readDI next <<< (σ₂.read r.si).toNat)
  calc (σ₃.write dest.si (σ₃.read ⟨next, 0⟩ ||| σ₃.read ⟨next, 1⟩)).read dest.si
      = 0 ||| src.value σ <<< (count.value σ).toNat := by
        rw [Pseudos.read_write_self, Pseudos.read_writeDI_low, Pseudos.read_writeDI_high, hpair,
          hcount, hlow, hhigh]
    _ = _ := BitVec.zero_or

end

/-! ### Right exactly when -/

theorem expandShift_right_iff (p : ShiftPattern) (next : Pseudo) (σ : Pseudos)
    (hp : p.Below next) (hn : p.count σ < p.bits) :
    p.Computes σ (p.expand.after next σ) ↔ ¬p.LosesSign σ := by
  cases p with
  | ashlsi3 d s n => exact iff_of_true (Pseudos.read_write_self (d := d.si)) not_false
  | ashldi3 d s n => exact iff_of_true Pseudos.readDI_writeDI not_false
  | ashrsi3 d s n => exact iff_of_true (expandAshrsi3_after hp.2.2 hn) not_false
  | ashrdi3 d s n =>
      have hafter : ((expandAshrdi3 d s n).after next σ).readDI d =
          σ.readDI s >>> (σ n 0).toNat := Pseudos.readDI_writeDI
      rw [ShiftPattern.Computes, ShiftPattern.expand, hafter]
      exact ushiftRight_eq_sshiftRight_iff _ _
  | lshrsi3 d s n => exact iff_of_true (Pseudos.read_write_self (d := d.si)) not_false

/-- Pseudo 0 holds -1 as a double word, pseudo 1 the count 1. -/
def minusOne : Pseudos := fun r i => if r = 0 then -1 else if r = 1 ∧ i = 0 then 1 else 0

/-- `-1 >> 1` is 2^63 - 1. -/
theorem ashrdi3_loses_sign :
    ¬∀ (p : ShiftPattern) (next : Pseudo) (σ : Pseudos), p.Below next → p.count σ < p.bits →
      p.Computes σ (p.expand.after next σ) := by
  intro h
  have := h (.ashrdi3 2 0 1) 3 minusOne (by decide) (by decide)
  exact absurd this (by decide)

theorem expandShift_right_iff_neg :
    ¬(ShiftPattern.ashrdi3 2 0 1).Computes minusOne
      ((ShiftPattern.ashrdi3 2 0 1).expand.after 3 minusOne) :=
  fun h => (expandShift_right_iff (.ashrdi3 2 0 1) 3 minusOne (by decide) (by decide)).mp h
    ⟨by decide, by decide⟩

theorem expandRotate_right_iff (p : RotatePattern) (next : Pseudo) (σ : Pseudos)
    (hp : p.Below next) (hn : p.count σ < 32) :
    p.expand.after next σ p.dest 0 = p.rotated σ ↔ p.LosesZeros σ := by
  cases p with
  | rotlsi3 d s n =>
      have hafter : (expandRotlsi3 d s n).after next σ d 0 = _ :=
        expandRotlsi3_after hp.2.2
      change (expandRotlsi3 d s n).after next σ d 0 = (s.value σ).rotateLeft _ ↔ _
      rw [hafter]
      exact shiftLeft_eq_rotateLeft_iff _ hn
  | rotrsi3 d s n =>
      have hafter : (expandRotrsi3 d s n).after next σ d 0 = _ :=
        expandRotrsi3_after hp.2.2
      change (expandRotrsi3 d s n).after next σ d 0 = (s.value σ).rotateRight _ ↔ _
      rw [hafter]
      exact ushiftRight_eq_rotateRight_iff _ hn

/-- `0x80000001` rotated left by 1 is 3, and the sequence gives 2. -/
theorem rotlsi3_shifts :
    ¬∀ (p : RotatePattern) (next : Pseudo) (σ : Pseudos), p.Below next → p.count σ < 32 →
      p.expand.after next σ p.dest 0 = p.rotated σ := by
  intro h
  have := h (.rotlsi3 0 (.const 0x80000001) (.const 1)) 1 (fun _ _ => 0) (by decide) (by decide)
  exact absurd this (by decide)

theorem expandRotate_right_iff_high :
    ¬(RotatePattern.rotlsi3 0 (.const 0x80000001) (.const 1)).expand.after 1 (fun _ _ => 0) 0 0 =
      3 :=
  fun h => absurd
    ((expandRotate_right_iff (.rotlsi3 0 (.const 0x80000001) (.const 1)) 1 (fun _ _ => 0)
      (by decide) (by decide)).mp h) (by decide)

end Ttools.T800
