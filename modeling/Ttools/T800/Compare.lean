import Ttools.T800.Expand

/-!
# Integer comparisons

`t800_expand_compare`, `t800_expand_scond` and `t800_expand_bcond`
(`gcc-2.7.2/config/t800/t800.c`) for the integer modes.

* `convertOperands_spec`: what the operands of a sub-word comparison become.
* `compareWords_spec`: what the insns of a word comparison leave, and the code that says how.
* `expandCompare_right_iff`: both consumers are right, except where a negative operand of a signed
  order is zero-extended because the other one is a small constant.
-/

namespace Ttools.T800

/-! ### Conditions and operands -/

/-- `QImode`, `HImode` and `SImode`. -/
inductive IntMode where
  | qi | hi | si
  deriving DecidableEq, Repr

def IntMode.width : IntMode → Nat
  | .qi => 8
  | .hi => 16
  | .si => 32

/-- The condition codes of `enum rtx_code`. -/
inductive Cond where
  | eq | ne | gt | lt | ge | le | gtu | ltu | geu | leu
  deriving DecidableEq, Repr

/-- The C comparison. -/
def Cond.holds {w : Nat} (a b : BitVec w) : Cond → Bool
  | .eq => a == b
  | .ne => a != b
  | .gt => b.slt a
  | .lt => a.slt b
  | .ge => b.sle a
  | .le => a.sle b
  | .gtu => b.ult a
  | .ltu => a.ult b
  | .geu => b.ule a
  | .leu => a.ule b

/-- `GT`, `LT`, `GE` and `LE`. -/
def Cond.isSigned : Cond → Bool
  | .gt | .lt | .ge | .le => true
  | _ => false

/-- The second operand: a register or a `CONST_INT`. -/
inductive Operand where
  | reg (r : Pseudo)
  | const (c : Int)
  deriving DecidableEq, Repr

/-- The value of an operand in a mode. -/
def Operand.value (σ : Pseudos) (w : Nat) : Operand → BitVec w
  | .reg r => (σ r 0).setWidth w
  | .const c => BitVec.ofInt w c

def Operand.Below (next : Pseudo) : Operand → Prop
  | .reg r => r < next
  | .const _ => True

/-- `t800_compare`, with `fp` 0. -/
structure Compare where
  mode : IntMode
  left : Pseudo
  right : Operand

/-- What the two-bit code of `t800_expand_compare` says about its result. -/
structure Code where
  inverse : Bool
  not01 : Bool
  deriving DecidableEq, Repr

/-! ### The expanders -/

section

/-- `op[1]`, unless it is a constant, and then `op[0]` are converted to SImode. -/
def extendOperands (extend : Subreg → Subreg → Rtl) (mask : Int → Int) (left : Pseudo)
    (right : Operand) : Expander (Pseudo × Operand) := do
  let right ← match right with
    | .const c => pure (.const (mask c))
    | .reg r => do
        let tmp ← genRegRtx
        emitInsn (extend tmp.si r.si)
        pure (.reg tmp)
  let tmp ← genRegRtx
  emitInsn (extend tmp.si left.si)
  pure (tmp, right)

/-- The operands after the label `zero_extend`. -/
def zeroExtendOperands (m : IntMode) : Pseudo → Operand → Expander (Pseudo × Operand) :=
  extendOperands (.zeroExtend m.width) (· % 2 ^ m.width)

/-- The operands converted with their sign. -/
def signExtendOperands (m : IntMode) : Pseudo → Operand → Expander (Pseudo × Operand) :=
  extendOperands (.signExtend m.width) id

/-- The condition after `switch (cond)`: unsigned orders become signed ones. -/
def Cond.zeroExtended : Cond → Cond
  | .gtu => .gt
  | .ltu => .lt
  | .geu => .ge
  | .leu => .le
  | c => c

/-- A constant that avoids sign-extension. -/
def Operand.isSmall (m : IntMode) : Operand → Bool
  | .const c => decide (0 ≤ c ∧ c ≤ if m = .qi then 127 else 32767)
  | .reg _ => false

/-- The conversion of a comparison to SImode. -/
def convertOperands (cmp : Compare) (cond : Cond) : Expander (Cond × Pseudo × Operand) :=
  match cmp.mode with
  | .si => pure (cond, cmp.left, cmp.right)
  | m =>
    if cond.isSigned && !cmp.right.isSmall m then
      Prod.mk cond <$> signExtendOperands m cmp.left cmp.right
    else Prod.mk cond.zeroExtended <$> zeroExtendOperands m cmp.left cmp.right

/-- `*out_reg`, or a new pseudo. -/
def outPseudo : Option Pseudo → Expander Pseudo
  | some r => pure r
  | none => genRegRtx

/-- `gt`, or for an unsigned order `gtu` or the borrow of `ldiff`. -/
def emitGreater (haveGtu unsignedp : Bool) (out a b : Pseudo) : Expander PUnit :=
  if !unsignedp then emitInsn (.gt out.si a.si b.si)
  else if haveGtu then emitInsn (.gtu out.si a.si b.si)
  else do
    let diff ← genRegRtx
    let carry ← forceReg (.const 0)
    emitInsn (.ldiff out.si diff.si b.si a.si carry.si)

/-- The insns that compare two registers. -/
def compareRegs (haveGtu : Bool) (cond : Cond) (left right out : Pseudo) : Expander Code :=
  match cond with
  | .eq | .ne => do
      emitInsn (.subsi3 out.si left.si right.si)
      pure ⟨cond ≠ .ne, true⟩
  | .ge | .lt => do
      emitGreater haveGtu false out right left
      pure ⟨cond ≠ .lt, false⟩
  | .gt | .le => do
      emitGreater haveGtu false out left right
      pure ⟨cond ≠ .gt, false⟩
  | .geu | .ltu => do
      emitGreater haveGtu true out right left
      pure ⟨cond ≠ .ltu, false⟩
  | .gtu | .leu => do
      emitGreater haveGtu true out left right
      pure ⟨cond ≠ .gtu, false⟩

/-- `EQ` or `NE` with a `CONST_INT`. -/
def compareConst (cond : Cond) (left : Pseudo) (c : Int) (outReg : Option Pseudo) :
    Expander (Pseudo × Code) :=
  if c = 0 then pure (left, ⟨cond ≠ .ne, true⟩)
  else do
    let out ← outPseudo outReg
    emitInsn (.eqc out.si left.si c)
    pure (out, ⟨cond ≠ .eq, false⟩)

/-- `copy_to_mode_reg` of constants and of the registers that no insn takes. -/
def copyOperand (wreg : Pseudo → Bool) : Operand → Expander Pseudo
  | .const c => do
      let tmp ← genRegRtx
      emitInsn (.moveConst tmp.si (BitVec.ofInt 32 c))
      pure tmp
  | .reg r =>
      if wreg r then do
        let tmp ← genRegRtx
        emitInsn (.move tmp.si r.si)
        pure tmp
      else pure r

/-- The comparison in SImode. -/
def compareWords (haveGtu : Bool) (wreg : Pseudo → Bool) (cond : Cond) (left : Pseudo)
    (right : Operand) (outReg : Option Pseudo) : Expander (Pseudo × Code) :=
  match right, decide (cond = .eq ∨ cond = .ne) with
  | .const c, true => compareConst cond left c outReg
  | _, _ => do
      let right ← copyOperand wreg right
      let out ← outPseudo outReg
      let code ← compareRegs haveGtu cond left right out
      pure (out, code)

/-- `t800_expand_compare`; `wreg` says which registers are `Wreg_operand`s. -/
def expandCompare (haveGtu : Bool) (wreg : Pseudo → Bool) (cmp : Compare) (cond : Cond)
    (outReg : Option Pseudo) : Expander (Pseudo × Code) := do
  let (cond, left, right) ← convertOperands cmp cond
  compareWords haveGtu wreg cond left right outReg

/-- The loop of `t800_expand_scond`. -/
def scondLoop (operand0 temp : Pseudo) (r : Code) : Expander Pseudo :=
  if r.not01 || r.inverse then do
    emitInsn (.eqc operand0.si temp.si 0)
    scondLoop operand0 operand0 ⟨!r.inverse, false⟩
  else pure temp
termination_by 2 * r.not01.toNat + r.inverse.toNat
decreasing_by
  obtain ⟨i, n⟩ := r
  cases i <;> cases n <;> simp_all

/-- `t800_expand_scond`. -/
def expandScond (haveGtu : Bool) (wreg : Pseudo → Bool) (cmp : Compare) (cond : Cond)
    (operand0 : Pseudo) : Expander PUnit := do
  let (temp, r) ← expandCompare haveGtu wreg cmp cond (some operand0)
  let temp ← scondLoop operand0 temp r
  if temp ≠ operand0 then emitInsn (.move operand0.si temp.si) else pure ⟨⟩

/-- `t800_expand_bcond`. -/
def expandBcond (haveGtu : Bool) (wreg : Pseudo → Bool) (cmp : Compare) (cond : Cond) :
    Expander PUnit := do
  let (temp, r) ← expandCompare haveGtu wreg cmp cond none
  if r.inverse then emitInsn (.cj temp.si) else emitInsn (.invCj temp.si)

end

/-! ### What is right -/

namespace Compare

variable (cmp : Compare) (cond : Cond) (σ : Pseudos)

/-- The C comparison of the operands in their mode. -/
def holds : Bool :=
  cond.holds ((σ cmp.left 0).setWidth cmp.mode.width) (cmp.right.value σ cmp.mode.width)

/-- The operands are in use, and a constant is one of the mode: a signed order has a signed
constant, anything else one in either representation. -/
structure Fits (next : Pseudo) : Prop where
  left : cmp.left < next
  right : cmp.right.Below next
  const : ∀ c, cmp.right = .const c → -2 ^ (cmp.mode.width - 1) ≤ c ∧
    c < 2 ^ (if cond.isSigned then cmp.mode.width - 1 else cmp.mode.width)

/-- A negative sub-word operand that is zero-extended for a signed order. -/
def Misread : Prop :=
  cmp.mode ≠ .si ∧ cond.isSigned = true ∧ cmp.right.isSmall cmp.mode = true ∧
    ((σ cmp.left 0).setWidth cmp.mode.width).msb = true

instance : Decidable (cmp.Misread cond σ) := inferInstanceAs (Decidable (_ ∧ _ ∧ _ ∧ _))

/-- The insns of `sCOND` and of `bCOND` do what the condition says. -/
def Compiled (haveGtu : Bool) (wreg : Pseudo → Bool) (operand0 next : Pseudo) : Prop :=
  (expandScond haveGtu wreg cmp cond operand0).after next σ operand0 0 =
      flag (cmp.holds cond σ) ∧
    jumpsIn σ ((expandBcond haveGtu wreg cmp cond).insns next) = cmp.holds cond σ

end Compare

/-! ### The orders of extended operands -/

/-- A condition on two numbers; the unsigned orders are meant for the words as naturals. -/
def Cond.holdsInt (a b : Int) : Cond → Bool
  | .eq => a = b
  | .ne => a ≠ b
  | .gt | .gtu => b < a
  | .lt | .ltu => a < b
  | .ge | .geu => b ≤ a
  | .le | .leu => a ≤ b

theorem Cond.holds_signed {w : Nat} {cond : Cond} (a b : BitVec w)
    (h : cond.zeroExtended = cond) : cond.holds a b = cond.holdsInt a.toInt b.toInt := by
  cases cond <;>
    simp_all [holds, holdsInt, zeroExtended, BitVec.slt, BitVec.sle, BitVec.toInt_inj,
      Bool.beq_eq_decide_eq, bne]

theorem Cond.holds_unsigned {w : Nat} {cond : Cond} (a b : BitVec w)
    (h : cond.isSigned = false) : cond.holds a b = cond.holdsInt a.toNat b.toNat := by
  cases cond <;>
    simp_all [holds, holdsInt, isSigned, BitVec.ult, BitVec.ule, BitVec.toNat_inj,
      Bool.beq_eq_decide_eq, bne]

theorem toInt_setWidth_word {w : Nat} (a : BitVec w) (h : w < 32) :
    (a.setWidth 32).toInt = a.toNat := by
  have ha : a.toNat < 2 ^ w := a.isLt
  have hw : 2 ^ w ≤ 2 ^ 31 := Nat.pow_le_pow_right (by decide) (by omega)
  have hnat : (a.setWidth 32).toNat = a.toNat := by
    rw [BitVec.toNat_setWidth, Nat.mod_eq_of_lt (by omega)]
  rw [BitVec.toInt_eq_toNat_of_lt (by omega), hnat]

/-- The zero-extended operands compare as naturals. -/
theorem Cond.holds_zeroExtend {w : Nat} (cond : Cond) (a b : BitVec w) (h : w < 32) :
    cond.zeroExtended.holds (a.setWidth 32) (b.setWidth 32) =
      cond.holdsInt a.toNat b.toNat := by
  rw [Cond.holds_signed _ _ (by cases cond <;> rfl), toInt_setWidth_word a h,
    toInt_setWidth_word b h]
  cases cond <;> rfl

/-- The sign-extended operands compare as they did. -/
theorem Cond.holds_signExtend {w : Nat} (cond : Cond) (a b : BitVec w) (h : w < 32)
    (hs : cond.isSigned = true) :
    cond.holds (a.signExtend 32) (b.signExtend 32) = cond.holds a b := by
  have hc : cond.zeroExtended = cond := by cases cond <;> simp_all [isSigned, zeroExtended]
  rw [Cond.holds_signed _ _ hc, Cond.holds_signed _ _ hc, BitVec.toInt_signExtend_of_le h.le,
    BitVec.toInt_signExtend_of_le h.le]

/-- A masked constant. -/
theorem ofInt_mask {w : Nat} (c : Int) (h : w < 32) :
    BitVec.ofInt 32 (c % 2 ^ w) = (BitVec.ofInt w c).setWidth 32 := by
  apply BitVec.eq_of_toNat_eq
  have hpos : (0 : Int) < 2 ^ w := by positivity
  have hle : (2 : Int) ^ w ≤ 2 ^ 32 := pow_le_pow_right₀ (by decide) h.le
  have h0 := Int.emod_nonneg c hpos.ne'
  have h1 := Int.emod_lt_of_pos c hpos
  rw [BitVec.toNat_setWidth, BitVec.toNat_ofInt, BitVec.toNat_ofInt,
    Int.emod_eq_of_lt (by simpa using h0) (by simpa using h1.trans_le hle), Nat.mod_eq_of_lt]
  · simp
  · simp only [Nat.cast_pow, Nat.cast_ofNat]
    omega

/-- A constant of the signed range. -/
theorem ofInt_signed {w : Nat} (c : Int) (hw : 0 < w) (h : w < 32) (hlo : -2 ^ (w - 1) ≤ c)
    (hhi : c < 2 ^ (w - 1)) :
    BitVec.ofInt 32 c = (BitVec.ofInt w c).signExtend 32 := by
  have hle : (2 : Int) ^ (w - 1) ≤ 2 ^ 31 := pow_le_pow_right₀ (by decide) (by omega)
  apply BitVec.eq_of_toInt_eq
  rw [BitVec.toInt_signExtend_of_le h.le, BitVec.toInt_ofInt_eq_self hw hlo hhi,
    BitVec.toInt_ofInt_eq_self (by decide) (by simpa using by omega) (by simpa using by omega)]

/-- A small constant and an operand read as a natural: the order is the signed one, unless the
operand is negative, when it is the opposite. -/
theorem Cond.holdsInt_small {w : Nat} {cond : Cond} (a b : BitVec w) (hb : b.msb = false)
    (hs : cond.isSigned = true) :
    cond.holdsInt a.toNat b.toNat = (cond.holds a b ^^ a.msb) := by
  have hc : cond.zeroExtended = cond := by cases cond <;> simp_all [isSigned, zeroExtended]
  rw [Cond.holds_signed _ _ hc, BitVec.toInt_eq_toNat_of_msb hb]
  cases ha : a.msb with
  | false => rw [BitVec.toInt_eq_toNat_of_msb ha, Bool.xor_false]
  | true =>
      -- as a natural the operand is above the constant, as a number it is below
      have hlt := BitVec.msb_eq_false_iff_two_mul_lt.mp hb
      have hge := BitVec.msb_eq_true_iff_two_mul_ge.mp ha
      have hneg : a.toInt < 0 := BitVec.toInt_neg_of_msb_true ha
      have h1 : (b.toNat : Int) < a.toNat := by omega
      have h2 : a.toInt < (b.toNat : Int) := by omega
      cases cond <;>
        simp_all [holdsInt, isSigned, h1.le, h2.le, not_lt.mpr, not_le.mpr]

/-! ### The conversions -/

/-- No insn of the list jumps. -/
def Straight (is : List Rtl) : Prop := ∀ i ∈ is, ∀ σ, Rtl.jumps σ i = false

theorem jumpsIn_append (σ : Pseudos) (is js : List Rtl) (h : Straight is) :
    jumpsIn σ (is ++ js) = jumpsIn (execAll σ is) js := by
  induction is generalizing σ with
  | nil => rfl
  | cons i is ih =>
      rw [List.cons_append, jumpsIn, h i List.mem_cons_self, Bool.false_or,
        ih _ fun j hj => h j (List.mem_cons_of_mem _ hj), execAll_cons]

theorem Straight.append {is js : List Rtl} (h : Straight is) (h' : Straight js) :
    Straight (is ++ js) := fun i hi =>
  (List.mem_append.mp hi).elim (h i) (h' i)

theorem straight_singleton {i : Rtl} (h : ∀ σ, i.jumps σ = false) : Straight [i] := by
  simpa [Straight] using h

/-- What a run of an expander from `s` gives: a result, and straight insns. -/
def Expander.Gives {α : Type} (m : Expander α) (s : Sequence)
    (P : α → Pseudo → List Rtl → Prop) : Prop :=
  ∃ a n is, m s = (a, ⟨n, s.insns ++ is⟩) ∧ s.next ≤ n ∧ Straight is ∧ P a n is

theorem Expander.Gives.bind {α β : Type} {m : Expander α} {f : α → Expander β} {s : Sequence}
    {P : α → Pseudo → List Rtl → Prop} {Q : β → Pseudo → List Rtl → Prop} (h : m.Gives s P)
    (hf : ∀ a n is, s.next ≤ n → P a n is →
      (f a).Gives ⟨n, s.insns ++ is⟩ fun b n' js => Q b n' (is ++ js)) :
    (m >>= f).Gives s Q := by
  obtain ⟨a, n, is, hm, hn, his, hP⟩ := h
  obtain ⟨b, n', js, hfa, hn', hjs, hQ⟩ := hf a n is hn hP
  exact ⟨b, n', is ++ js, by simp [hm, hfa], hn.trans hn', his.append hjs, hQ⟩

theorem Expander.gives_pure {α : Type} {a : α} {s : Sequence}
    {P : α → Pseudo → List Rtl → Prop} (h : P a s.next []) : (pure a : Expander α).Gives s P :=
  ⟨a, s.next, [], by simp, le_rfl, by simp [Straight], h⟩

/-- `r` is what the second operand becomes: a constant is masked, a register is extended. -/
def Operand.Becomes (mask : Int → Int) (f : Word → Word) (σ σ' : Pseudos) :
    Operand → Operand → Prop
  | .const c, r => r = .const (mask c)
  | .reg r', r => ∃ k, r = .reg k ∧ σ' k 0 = f (σ r' 0)

theorem extendOperands_spec (extend : Subreg → Subreg → Rtl) (mask : Int → Int)
    (f : Word → Word) {left : Pseudo} (right : Operand) {s : Sequence}
    (hexec : ∀ d r σ, Rtl.exec σ (extend d r) = σ.write d (f (σ.read r)))
    (hjumps : ∀ d r σ, Rtl.jumps σ (extend d r) = false) (hl : left < s.next) :
    (extendOperands extend mask left right).Gives s fun (l, r) n is =>
      l < n ∧ r.Below n ∧ ∀ σ, execAll σ is l 0 = f (σ left 0) ∧
        right.Becomes mask f σ (execAll σ is) r := by
  cases right with
  | const c =>
      refine ⟨(s.next, .const (mask c)), s.next + 1, [extend s.next.si left.si], rfl,
        Nat.le_succ _, straight_singleton (hjumps _ _), Nat.lt_succ_self _, trivial, fun σ => ?_⟩
      refine ⟨?_, rfl⟩
      rw [execAll_cons, execAll_nil, hexec]
      exact Pseudos.read_write_self (d := s.next.si)
  | reg r' =>
      refine ⟨(s.next + 1, .reg s.next), s.next + 2,
        [extend s.next.si r'.si, extend (s.next + 1 : Pseudo).si left.si], ?_,
        Nat.le_add_right _ _, ?_, Nat.lt_succ_self _, ?_, fun σ => ?_⟩
      · simp [extendOperands]
      · exact (straight_singleton (hjumps _ _)).append (straight_singleton (hjumps _ _))
      · exact Nat.lt_succ_of_lt (Nat.lt_succ_self _)
      · have hne : left.si ≠ s.next.si := fun h => hl.ne (congrArg Subreg.reg h)
        have hne' : s.next.si ≠ (s.next + 1 : Pseudo).si := fun h =>
          (Nat.lt_succ_self _).ne (congrArg Subreg.reg h)
        simp only [execAll_cons, execAll_nil, hexec, Pseudos.read_write_of_ne hne]
        refine ⟨Pseudos.read_write_self (d := (s.next + 1 : Pseudo).si), s.next, rfl, ?_⟩
        exact (Pseudos.read_write_of_ne hne').trans (Pseudos.read_write_self (d := s.next.si))

theorem IntMode.width_lt {m : IntMode} (h : m ≠ .si) : 0 < m.width ∧ m.width < 32 := by
  cases m <;> simp_all [width]

theorem IntMode.small_msb {m : IntMode} {right : Operand} (hm : m ≠ .si)
    (h : right.isSmall m = true) (σ : Pseudos) : (right.value σ m.width).msb = false := by
  obtain ⟨hpos, -⟩ := IntMode.width_lt hm
  cases right with
  | reg r => simp [Operand.isSmall] at h
  | const c =>
      obtain ⟨h0, hmax⟩ : 0 ≤ c ∧ c ≤ if m = .qi then 127 else 32767 := by
        simpa [Operand.isSmall] using h
      have hlt : c < 2 ^ (m.width - 1) := by
        cases m <;> simp_all [width] <;> omega
      have hself := BitVec.toInt_ofInt_eq_self hpos
        ((neg_nonpos.mpr (by positivity : (0 : Int) ≤ 2 ^ (m.width - 1))).trans h0) hlt
      rw [Operand.value, BitVec.msb_eq_toInt, hself]
      simpa using h0

theorem Operand.Becomes.value {w : Nat} {right r : Operand} {σ σ' : Pseudos} {mask : Int → Int}
    {g : BitVec w → Word}
    (h : right.Becomes mask (fun a => g (a.setWidth w)) σ σ' r)
    (hg : ∀ c, right = .const c → BitVec.ofInt 32 (mask c) = g (.ofInt w c)) :
    r.value σ' 32 = g (right.value σ w) := by
  cases right with
  | const c =>
      obtain rfl : r = .const (mask c) := h
      exact hg c rfl
  | reg r' =>
      obtain ⟨k, rfl, hk⟩ := h
      exact (BitVec.setWidth_eq _).trans hk

/-- What the operands of a comparison become. -/
theorem convertOperands_spec {cmp : Compare} {cond : Cond} {s : Sequence}
    (h : cmp.Fits cond s.next) :
    (convertOperands cmp cond).Gives s fun (cond', l, r) n is =>
      l < n ∧ r.Below n ∧ ∀ σ,
        cond'.holds (execAll σ is l 0) (r.value (execAll σ is) 32) =
          (cmp.holds cond σ ^^ decide (cmp.Misread cond σ)) := by
  obtain ⟨m, left, right⟩ := cmp
  by_cases hm : m = .si
  · subst hm
    refine ⟨(cond, left, right), s.next, [], by simp [convertOperands], le_rfl, by simp [Straight],
      h.left, h.right, fun σ => ?_⟩
    simp [Compare.holds, Compare.Misread, IntMode.width]
  obtain ⟨hpos, hw⟩ := IntMode.width_lt hm
  have hconv : convertOperands ⟨m, left, right⟩ cond =
      if cond.isSigned && !right.isSmall m then Prod.mk cond <$> signExtendOperands m left right
      else Prod.mk cond.zeroExtended <$> zeroExtendOperands m left right := by
    cases m with
    | si => exact absurd rfl hm
    | qi | hi => rfl
  rw [hconv]
  by_cases hsign : (cond.isSigned && !right.isSmall m) = true
  · -- both operands keep their sign
    obtain ⟨⟨l, r⟩, n, is, hrun, hn, hstraight, hl, hr, hval⟩ :=
      extendOperands_spec (.signExtend m.width) id
        (fun a => (a.setWidth m.width).signExtend 32) right
        (fun _ _ _ => rfl) (fun _ _ _ => rfl) h.left
    obtain ⟨hs, hsmall⟩ : cond.isSigned = true ∧ right.isSmall m = false := by simpa using hsign
    have hsigned : ∀ c, right = .const c →
        BitVec.ofInt 32 (id c) = (BitVec.ofInt m.width c).signExtend 32 := fun c hc => by
      obtain ⟨hlo, hhi⟩ := h.const c hc
      rw [if_pos hs] at hhi
      exact ofInt_signed c hpos hw hlo hhi
    rw [if_pos hsign]
    refine ⟨(cond, l, r), n, is, by simp [signExtendOperands, hrun], hn, hstraight, hl, hr,
      fun σ => ?_⟩
    obtain ⟨hleft, hright⟩ := hval σ
    rw [hleft, hright.value (g := fun a => a.signExtend 32) hsigned]
    simpa [Compare.Misread, hsmall, Compare.holds] using Cond.holds_signExtend cond _ _ hw hs
  · obtain ⟨⟨l, r⟩, n, is, hrun, hn, hstraight, hl, hr, hval⟩ :=
      extendOperands_spec (.zeroExtend m.width) (· % 2 ^ m.width)
        (fun a => (a.setWidth m.width).setWidth 32) right
        (fun _ _ _ => rfl) (fun _ _ _ => rfl) h.left
    rw [if_neg hsign]
    refine ⟨(cond.zeroExtended, l, r), n, is, by simp [zeroExtendOperands, hrun], hn, hstraight,
      hl, hr, fun σ => ?_⟩
    obtain ⟨hleft, hright⟩ := hval σ
    rw [hleft, hright.value (g := fun a => a.setWidth 32) fun c _ => ofInt_mask c hw]
    rw [Cond.holds_zeroExtend cond _ _ hw]
    cases hs : cond.isSigned with
    | false => simp [Compare.Misread, hs, Compare.holds, Cond.holds_unsigned _ _ hs]
    | true =>
        have hsmall : right.isSmall m = true := by simpa [hs] using hsign
        rw [Cond.holdsInt_small _ _ (IntMode.small_msb hm hsmall σ) hs]
        simp [Compare.Misread, hs, hm, hsmall, Compare.holds]

/-! ### The comparison of words -/

/-- What a code says of a result, when the condition has the truth value `t`. -/
structure Code.Says (r : Code) (t : Bool) (v : Word) : Prop where
  nonzero : (v != 0) = (t ^^ r.inverse)
  flag : r.not01 = false → v = flag (t ^^ r.inverse)

theorem flag_ne_zero (b : Bool) : (flag b != 0) = b := by cases b <;> rfl

theorem Code.says_of_flag {r : Code} {t : Bool} {v : Word} (h : v = T800.flag (t ^^ r.inverse)) :
    r.Says t v := ⟨by rw [h, flag_ne_zero], fun _ => h⟩

/-- The borrow of a difference without a borrow in. -/
theorem ldiff_borrow (a b : Word) :
    (a.setWidth 64).ult (b.setWidth 64 + carryIn 0) = a.ult b := by
  have ha := a.isLt
  have hb := b.isLt
  rw [show carryIn 0 = 0#64 by decide, BitVec.add_zero]
  simp only [BitVec.ult, BitVec.toNat_setWidth]
  rw [Nat.mod_eq_of_lt (by omega), Nat.mod_eq_of_lt (by omega)]

theorem emitGreater_spec (haveGtu unsignedp : Bool) {out a b : Pseudo} {s : Sequence}
    (ha : a < s.next) (hb : b < s.next) (ho : out < s.next) :
    (emitGreater haveGtu unsignedp out a b).Gives s fun _ _ is => ∀ σ, execAll σ is out 0 =
      flag (Cond.holds (σ a 0) (σ b 0) (if unsignedp then .gtu else .gt)) := by
  unfold emitGreater
  cases unsignedp with
  | false =>
      refine ⟨⟨⟩, s.next, [.gt out.si a.si b.si], rfl, le_rfl,
        straight_singleton fun _ => rfl, fun σ => ?_⟩
      exact Pseudos.read_write_self (d := out.si)
  | true =>
      cases haveGtu with
      | true =>
          refine ⟨⟨⟩, s.next, [.gtu out.si a.si b.si], rfl, le_rfl,
            straight_singleton fun _ => rfl, fun σ => ?_⟩
          exact Pseudos.read_write_self (d := out.si)
      | false =>
          let carry : Pseudo := s.next + 1
          let diff : Pseudo := s.next
          refine ⟨⟨⟩, s.next + 2,
            [.moveConst carry.si 0, .ldiff out.si diff.si b.si a.si carry.si], ?_,
            Nat.le_add_right _ _, ?_, fun σ => ?_⟩
          · simp [forceReg, carry, diff]
          · exact (straight_singleton fun _ => rfl).append (straight_singleton fun _ => rfl)
          · have hne : ∀ r : Pseudo, r < s.next → r.si ≠ carry.si := fun r hr h =>
              (Nat.lt_succ_of_lt hr).ne (congrArg Subreg.reg h)
            have hout : out.si ≠ diff.si := fun h => ho.ne (congrArg Subreg.reg h)
            let σ₁ := σ.write carry.si 0
            calc execAll σ _ out 0
                = flag (((σ₁.read b.si).setWidth 64).ult
                    ((σ₁.read a.si).setWidth 64 + carryIn (σ₁.read carry.si))) := by
                  exact (Pseudos.read_write_of_ne hout).trans Pseudos.read_write_self
              _ = flag ((σ b 0).ult (σ a 0)) := by
                  rw [Pseudos.read_write_of_ne (hne b hb), Pseudos.read_write_of_ne (hne a ha),
                    Pseudos.read_write_self, ldiff_borrow]
                  rfl

theorem compareRegs_spec (haveGtu : Bool) (cond : Cond) {left right out : Pseudo} {s : Sequence}
    (hl : left < s.next) (hr : right < s.next) (ho : out < s.next) :
    (compareRegs haveGtu cond left right out).Gives s fun code _ is =>
      ∀ σ, code.Says (cond.holds (σ left 0) (σ right 0)) (execAll σ is out 0) := by
  have hsub : ∀ σ, execAll σ [.subsi3 out.si left.si right.si] out 0 = σ left 0 - σ right 0 :=
    fun σ => Pseudos.read_write_self (d := out.si)
  have hgreater : ∀ u a b, a < s.next → b < s.next → ∀ code : Code, ∀ m,
      (m = do emitGreater haveGtu u out a b; pure code) →
      (∀ σ : Pseudos, Cond.holds (σ a 0) (σ b 0) (if u then .gtu else .gt) =
        (cond.holds (σ left 0) (σ right 0) ^^ code.inverse)) →
      Expander.Gives m s fun code _ is =>
        ∀ σ : Pseudos, code.Says (cond.holds (σ left 0) (σ right 0)) (execAll σ is out 0) := by
    rintro u a b ha hb code m rfl hholds
    obtain ⟨⟨⟩, n, is, hrun, hn, hstraight, hval⟩ := emitGreater_spec haveGtu u ha hb ho
    refine ⟨code, n, is, by simp [hrun], hn, hstraight, fun σ => Code.says_of_flag ?_⟩
    rw [hval σ, hholds σ]
  cases cond with
  | eq | ne =>
      refine ⟨_, s.next, [.subsi3 out.si left.si right.si], rfl, le_rfl,
        straight_singleton fun _ => rfl, fun σ => ⟨?_, by simp⟩⟩
      have hzero : σ left 0 - σ right 0 = 0#32 ↔ σ left 0 = σ right 0 := sub_eq_zero
      rw [hsub]
      simp [Cond.holds, bne, Bool.beq_eq_decide_eq, hzero]
  | ge | lt =>
      refine hgreater false right left hr hl _ _ rfl fun σ => ?_
      simp [Cond.holds, BitVec.sle_eq_not_slt]
  | gt | le =>
      refine hgreater false left right hl hr _ _ rfl fun σ => ?_
      simp [Cond.holds, BitVec.sle_eq_not_slt]
  | geu | ltu =>
      refine hgreater true right left hr hl _ _ rfl fun σ => ?_
      simp [Cond.holds, BitVec.ule_eq_not_ult]
  | gtu | leu =>
      refine hgreater true left right hl hr _ _ rfl fun σ => ?_
      simp [Cond.holds, BitVec.ule_eq_not_ult]

theorem Cond.holds_const {cond : Cond} (a b : Word) (h : cond = .eq ∨ cond = .ne) :
    cond.holds a b = ((a == b) ^^ decide (cond ≠ .eq)) := by
  obtain rfl | rfl := h <;> simp [holds, bne]

theorem outPseudo_spec {outReg : Option Pseudo} {s : Sequence}
    (ho : ∀ out ∈ outReg, out < s.next) :
    (outPseudo outReg).Gives s fun out n is => out < n ∧ is = [] := by
  cases outReg with
  | some out => exact Expander.gives_pure ⟨ho out rfl, rfl⟩
  | none => exact ⟨s.next, s.next + 1, [], by simp [outPseudo], Nat.le_succ _, by simp [Straight],
      Nat.lt_succ_self _, rfl⟩

theorem copyOperand_spec (wreg : Pseudo → Bool) {left : Pseudo} {right : Operand} {s : Sequence}
    (hl : left < s.next) (hr : right.Below s.next) :
    (copyOperand wreg right).Gives s fun r n is => r < n ∧
      ∀ σ, execAll σ is left 0 = σ left 0 ∧ execAll σ is r 0 = right.value σ 32 := by
  have hne : left.si ≠ s.next.si := fun h => hl.ne (congrArg Subreg.reg h)
  cases right with
  | const c =>
      refine ⟨s.next, s.next + 1, [.moveConst s.next.si (.ofInt 32 c)], rfl, Nat.le_succ _,
        straight_singleton fun _ => rfl, Nat.lt_succ_self _, fun σ => ⟨?_, ?_⟩⟩
      · exact Pseudos.read_write_of_ne hne
      · exact Pseudos.read_write_self (d := s.next.si)
  | reg r =>
      cases hw : wreg r with
      | false =>
          refine ⟨r, s.next, [], by simp [copyOperand, hw], le_rfl, by simp [Straight], hr,
            fun σ => ⟨rfl, (BitVec.setWidth_eq _).symm⟩⟩
      | true =>
          refine ⟨s.next, s.next + 1, [.move s.next.si r.si], by simp [copyOperand, hw],
            Nat.le_succ _, straight_singleton fun _ => rfl, Nat.lt_succ_self _,
            fun σ => ⟨?_, ?_⟩⟩
          · exact Pseudos.read_write_of_ne hne
          · exact (Pseudos.read_write_self (d := s.next.si)).trans (BitVec.setWidth_eq _).symm

theorem compareConst_spec {cond : Cond} (hcond : cond = .eq ∨ cond = .ne) {left : Pseudo} {c : Int}
    {outReg : Option Pseudo} {s : Sequence} (ho : ∀ out ∈ outReg, out < s.next) :
    (compareConst cond left c outReg).Gives s fun (out, code) _ is =>
      ∀ σ, code.Says (cond.holds (σ left 0) (.ofInt 32 c)) (execAll σ is out 0) := by
  unfold compareConst
  split
  · next h0 =>
      refine Expander.gives_pure fun σ => ⟨?_, by simp⟩
      obtain rfl | rfl := hcond <;> simp [Cond.holds, h0, bne]
  · next h0 =>
      refine (outPseudo_spec ho).bind fun out n is hn hout => ?_
      obtain ⟨-, rfl⟩ := hout
      refine ⟨(out, ⟨cond ≠ .eq, false⟩), n, [.eqc out.si left.si c], by simp, le_rfl,
        straight_singleton fun _ => rfl, fun σ => Code.says_of_flag ?_⟩
      rw [Cond.holds_const _ _ hcond, Bool.xor_assoc, Bool.xor_self, Bool.xor_false]
      exact Pseudos.read_write_self (d := out.si)

/-- A value and a code for the truth of a condition. -/
theorem compareWords_spec (haveGtu : Bool) (wreg : Pseudo → Bool) (cond : Cond) {left : Pseudo}
    {right : Operand} {outReg : Option Pseudo} {s : Sequence} (hl : left < s.next)
    (hr : right.Below s.next) (ho : ∀ out ∈ outReg, out < s.next) :
    (compareWords haveGtu wreg cond left right outReg).Gives s fun (out, code) _ is =>
      ∀ σ, code.Says (cond.holds (σ left 0) (right.value σ 32)) (execAll σ is out 0) := by
  unfold compareWords
  split
  · next c hcond =>
      exact compareConst_spec (by simpa using hcond) ho
  · refine (copyOperand_spec wreg hl hr).bind fun r n is hn hcopy => ?_
    refine (outPseudo_spec fun out h => (ho out h).trans_le hn).bind fun out n' js hn' hout => ?_
    obtain ⟨hlt, rfl⟩ := hout
    obtain ⟨hrn, hval⟩ := hcopy
    have hn' : n ≤ n' := hn'
    refine (compareRegs_spec haveGtu cond ((hl.trans_le hn).trans_le hn') (hrn.trans_le hn')
      hlt).bind fun code n'' ks _ hcode => ?_
    refine Expander.gives_pure fun σ => ?_
    obtain ⟨hleft, hright⟩ := hval σ
    have := hcode (execAll σ is)
    rw [hleft, hright] at this
    simpa using this

/-! ### The consumers -/

theorem expandCompare_spec (haveGtu : Bool) (wreg : Pseudo → Bool) {cmp : Compare} {cond : Cond}
    (outReg : Option Pseudo) {s : Sequence} (h : cmp.Fits cond s.next)
    (ho : ∀ out ∈ outReg, out < s.next) :
    (expandCompare haveGtu wreg cmp cond outReg).Gives s fun (out, code) _ is => ∀ σ,
      code.Says (cmp.holds cond σ ^^ decide (cmp.Misread cond σ)) (execAll σ is out 0) := by
  refine (convertOperands_spec h).bind fun ops n is hn hops => ?_
  obtain ⟨cond', l, r⟩ := ops
  obtain ⟨hl, hr, hconv⟩ := hops
  obtain ⟨⟨out, code⟩, n', js, hrun, hn', hjs, hcode⟩ :=
    compareWords_spec (s := ⟨n, s.insns ++ is⟩) haveGtu wreg cond' hl hr
      fun out h => (ho out h).trans_le hn
  refine ⟨(out, code), n', js, hrun, hn', hjs, fun σ => ?_⟩
  rw [← hconv σ, execAll_append]
  exact hcode _

/-- The loop brings the result to 0 or 1. -/
theorem scondLoop_spec (operand0 temp : Pseudo) (r : Code) (s : Sequence) :
    (scondLoop operand0 temp r).Gives s fun out _ is => ∀ σ t, r.Says t (σ temp 0) →
      execAll σ is out 0 = flag t := by
  fun_induction scondLoop operand0 temp r generalizing s with
  | case1 temp r hr ih =>
      refine Expander.Gives.bind (P := fun _ n is => is = [.eqc operand0.si temp.si 0])
        ⟨⟨⟩, s.next, _, rfl, le_rfl, straight_singleton fun _ => rfl, rfl⟩ fun _ n is _ his => ?_
      subst his
      obtain ⟨out, n', js, hrun, hn', hjs, hval⟩ := ih ⟨n, s.insns ++ [.eqc operand0.si temp.si 0]⟩
      refine ⟨out, n', js, hrun, hn', hjs, fun σ t hcode => ?_⟩
      rw [execAll_append]
      refine hval _ t (Code.says_of_flag ?_)
      have heqc : execAll σ [.eqc operand0.si temp.si 0] operand0 0 = flag (σ temp 0 == 0) :=
        Pseudos.read_write_self (d := operand0.si)
      have hzero : (σ temp 0 == 0) = !(t ^^ r.inverse) := by
        rw [← hcode.nonzero, bne, Bool.not_not]
      rw [heqc, hzero]
      simp
  | case2 temp r hr =>
      refine Expander.gives_pure fun σ t hcode => ?_
      obtain ⟨h01, hinv⟩ : r.not01 = false ∧ r.inverse = false := by simpa using hr
      simpa [hinv] using hcode.flag h01

theorem expandScond_spec (haveGtu : Bool) (wreg : Pseudo → Bool) {cmp : Compare} {cond : Cond}
    {operand0 next : Pseudo} (h : cmp.Fits cond next) (ho : operand0 < next) (σ : Pseudos) :
    (expandScond haveGtu wreg cmp cond operand0).after next σ operand0 0 =
      flag (cmp.holds cond σ ^^ decide (cmp.Misread cond σ)) := by
  have hgives : (expandScond haveGtu wreg cmp cond operand0).Gives ⟨next, []⟩ fun _ _ is =>
      ∀ σ, execAll σ is operand0 0 = flag (cmp.holds cond σ ^^ decide (cmp.Misread cond σ)) := by
    refine (expandCompare_spec (s := ⟨next, []⟩) haveGtu wreg (some operand0) h
      (by simpa using ho)).bind fun res n is _ hres => ?_
    obtain ⟨temp, r⟩ := res
    refine (scondLoop_spec operand0 temp r _).bind fun out n' js _ hout => ?_
    by_cases heq : out = operand0
    · refine ⟨⟨⟩, n', [], by simp [heq], le_rfl, by simp [Straight], fun σ => ?_⟩
      rw [List.append_nil, execAll_append, ← heq]
      exact hout _ _ (hres σ)
    · refine ⟨⟨⟩, n', [.move operand0.si out.si], by simp [heq], le_rfl,
        straight_singleton fun _ => rfl, fun σ => ?_⟩
      rw [execAll_append, execAll_append]
      exact (Pseudos.read_write_self (d := operand0.si)).trans (hout _ _ (hres σ))
  obtain ⟨⟨⟩, n, is, hrun, -, -, hval⟩ := hgives
  rw [Expander.after, Expander.insns, hrun]
  exact hval σ

theorem expandBcond_spec (haveGtu : Bool) (wreg : Pseudo → Bool) {cmp : Compare} {cond : Cond}
    {next : Pseudo} (h : cmp.Fits cond next) (σ : Pseudos) :
    jumpsIn σ ((expandBcond haveGtu wreg cmp cond).insns next) =
      (cmp.holds cond σ ^^ decide (cmp.Misread cond σ)) := by
  obtain ⟨⟨temp, r⟩, n, is, hrun, -, his, hcode⟩ :=
    expandCompare_spec (s := ⟨next, []⟩) haveGtu wreg none h (by simp)
  have hnz := (hcode σ).nonzero
  cases hr : r.inverse with
  | true =>
      have hinsns : (expandBcond haveGtu wreg cmp cond).insns next = is ++ [.cj temp.si] := by
        simp [Expander.insns, expandBcond, hrun, hr]
      rw [hinsns, jumpsIn_append _ _ _ his]
      rw [hr, Bool.xor_true] at hnz
      change ((execAll σ is temp 0 == 0) || false) = _
      rw [Bool.or_false, ← Bool.not_not (_ ^^ _), ← hnz, bne, Bool.not_not]
  | false =>
      have hinsns : (expandBcond haveGtu wreg cmp cond).insns next = is ++ [.invCj temp.si] := by
        simp [Expander.insns, expandBcond, hrun, hr]
      rw [hinsns, jumpsIn_append _ _ _ his]
      rw [hr, Bool.xor_false] at hnz
      change ((execAll σ is temp 0 != 0) || false) = _
      rw [Bool.or_false, hnz]

/-! ### Right exactly when -/

theorem flag_injective : Function.Injective flag := by decide

theorem expandCompare_right_iff (haveGtu : Bool) (wreg : Pseudo → Bool) (cmp : Compare)
    (cond : Cond) (operand0 next : Pseudo) (σ : Pseudos) (h : cmp.Fits cond next)
    (ho : operand0 < next) :
    cmp.Compiled cond σ haveGtu wreg operand0 next ↔ ¬cmp.Misread cond σ := by
  rw [Compare.Compiled, expandScond_spec haveGtu wreg h ho, expandBcond_spec haveGtu wreg h,
    flag_injective.eq_iff, and_self]
  by_cases hm : cmp.Misread cond σ <;> simp [hm]

/-- A comparison of a byte with 5. -/
def withFive : Compare := ⟨.qi, 0, .const 5⟩

theorem withFive_fits : withFive.Fits .lt 1 where
  left := by decide
  right := trivial
  const c hc := by
    obtain rfl := Operand.const.inj hc
    decide

/-- `-1 < 5` does not hold for signed bytes. -/
theorem expandCompare_misread :
    ¬∀ (haveGtu : Bool) (wreg : Pseudo → Bool) (cmp : Compare) (cond : Cond)
      (operand0 next : Pseudo) (σ : Pseudos), cmp.Fits cond next → operand0 < next →
        cmp.Compiled cond σ haveGtu wreg operand0 next := by
  intro h
  have := (h true (fun _ => false) withFive .lt 0 1 (fun _ _ => 255) withFive_fits (by decide)).2
  exact absurd this (by decide)

theorem expandCompare_right_iff_five :
    ¬withFive.Compiled .lt (fun _ _ => 255) true (fun _ => false) 0 1 :=
  fun h => (expandCompare_right_iff true (fun _ => false) withFive .lt 0 1 (fun _ _ => 255)
    withFive_fits (by decide)).mp h (by decide)

end Ttools.T800
