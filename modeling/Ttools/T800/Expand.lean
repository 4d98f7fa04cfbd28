import Mathlib.Data.BitVec
import Mathlib.Tactic
import Ttools.T800.Emit

/-!
# Expanding a standard pattern

What the `define_expand`s of `gcc-2.7.2/config/t800/t800.md` share: a sequence of insns over
pseudos, written by procedures that ask for a new pseudo (`gen_reg_rtx`) or emit an insn.  An insn
does what its RTL pattern says.

* `Rtl.exec`, `execAll`: what the insns do to the words of the pseudos.
* `Expander`: a procedure that emits.
* `forceReg_spec`, `convertToDI_spec`: what the conversions of `explow.c` and `expr.c` leave.
-/

namespace Ttools.T800

abbrev Pseudo := Nat

/-! ### The words of the pseudos -/

/-- There is a word 0 and a word 1: one proof for every literal of `Fin 2`. -/
instance twoWords : NeZero 2 := ⟨Nat.succ_ne_zero 1⟩

/-- The contents of the pseudos; a pseudo of one word is its word 0. -/
abbrev Pseudos := Pseudo → Fin 2 → Word

/-- `(SUBREG:SI reg word)`. -/
structure Subreg where
  reg : Pseudo
  word : Fin 2
  deriving DecidableEq, Repr

/-- An SImode pseudo. -/
def Pseudo.si (r : Pseudo) : Subreg := ⟨r, 0⟩

namespace Pseudos

variable (σ : Pseudos)

def read (s : Subreg) : Word := σ s.reg s.word

/-- The value of a DImode pseudo: word 0 is the low half, since `WORDS_BIG_ENDIAN` is 0. -/
def readDI (r : Pseudo) : BitVec 64 := σ r 1 ++ σ r 0

def write (s : Subreg) (w : Word) : Pseudos :=
  Function.update σ s.reg (Function.update (σ s.reg) s.word w)

def writeDI (r : Pseudo) (d : BitVec 64) : Pseudos :=
  Function.update σ r fun i => if i = 0 then d.extractLsb' 0 32 else d.extractLsb' 32 32

end Pseudos

namespace Pseudos

variable {σ : Pseudos} {s d : Subreg} {r r' : Pseudo} {w : Word} {x : BitVec 64}

theorem read_write : (σ.write d w).read s = if s = d then w else σ.read s := by
  obtain ⟨r, i⟩ := d
  obtain ⟨r', j⟩ := s
  by_cases hr : r' = r
  · subst hr
    simp only [read, write, Function.update_self, Subreg.mk.injEq, true_and]
    exact Function.update_apply _ _ _ _
  · simp [read, write, hr]

@[simp] theorem read_write_self : (σ.write d w).read d = w := by simp [read_write]

theorem read_write_of_ne (h : s ≠ d) : (σ.write d w).read s = σ.read s := by
  simp [read_write, h]

@[simp] theorem readDI_writeDI : (σ.writeDI r x).readDI r = x := by
  simp only [readDI, writeDI, Function.update_self, one_ne_zero, if_true, if_false]
  ext i hi
  simp only [BitVec.getElem_append, BitVec.getElem_extractLsb']
  split
  · simp only [zero_add, BitVec.getLsbD_eq_getElem hi]
  · rw [show 32 + (i - 32) = i by omega, BitVec.getLsbD_eq_getElem hi]

@[simp] theorem read_writeDI_low : (σ.writeDI r x).read ⟨r, 0⟩ = x.extractLsb' 0 32 := by
  simp [read, writeDI]

@[simp] theorem read_writeDI_high : (σ.writeDI r x).read ⟨r, 1⟩ = x.extractLsb' 32 32 := by
  simp [read, writeDI]

theorem read_writeDI_of_ne (h : s.reg ≠ r) : (σ.writeDI r x).read s = σ.read s := by
  simp [read, writeDI, h]

theorem extractLsb'_readDI_low : (σ.readDI r).extractLsb' 0 32 = σ.read ⟨r, 0⟩ := by
  rw [readDI, BitVec.extractLsb'_append_eq_right]
  rfl

theorem extractLsb'_readDI_high : (σ.readDI r).extractLsb' 32 32 = σ.read ⟨r, 1⟩ := by
  rw [readDI, BitVec.extractLsb'_append_eq_left]
  rfl

/-- A double word put together from its halves. -/
theorem readDI_write_halves (hi lo : Word) :
    ((σ.write ⟨r, 1⟩ hi).write ⟨r, 0⟩ lo).readDI r = hi ++ lo := by
  simp [readDI, write]

end Pseudos

/-! ### The insns -/

/-- The insns, by the name of their pattern or by what they emit. -/
inductive Rtl where
  | moveConst (dest : Subreg) (c : Word)
  | move (dest src : Subreg)
  | moveConstDI (dest : Pseudo) (c : BitVec 64)
  | extendsidi2 (dest : Pseudo) (src : Subreg)
  | zeroExtendsidi2 (dest : Pseudo) (src : Subreg)
  | shl (dest src count : Subreg)
  | shr (dest src count : Subreg)
  | lshl (dest src : Pseudo) (count : Subreg)
  | lshr (dest src : Pseudo) (count : Subreg)
  | iorsi3 (dest left right : Subreg)
  | subsi3 (dest left right : Subreg)
  | signExtend (width : Nat) (dest src : Subreg)
  | zeroExtend (width : Nat) (dest src : Subreg)
  | eqc (dest src : Subreg) (c : Int)
  | gt (dest left right : Subreg)
  | gtu (dest left right : Subreg)
  | ldiff (borrow diff left right carry : Subreg)
  | cj (src : Subreg)
  | invCj (src : Subreg)
  deriving Repr

/-- `(and:SI x (const_int 1))`, zero-extended. -/
def carryIn (w : Word) : BitVec 64 := (w &&& 1).setWidth 64

def flag (b : Bool) : Word := if b then 1 else 0

/-- The effect of an insn on the pseudos. -/
def Rtl.exec (σ : Pseudos) : Rtl → Pseudos
  | .moveConst d c => σ.write d c
  | .move d s => σ.write d (σ.read s)
  | .moveConstDI d c => σ.writeDI d c
  | .extendsidi2 d s => σ.writeDI d ((σ.read s).signExtend 64)
  | .zeroExtendsidi2 d s => σ.writeDI d ((σ.read s).setWidth 64)
  | .shl d s n => σ.write d (σ.read s <<< (σ.read n).toNat)
  | .shr d s n => σ.write d (σ.read s >>> (σ.read n).toNat)
  | .lshl d s n => σ.writeDI d (σ.readDI s <<< (σ.read n).toNat)
  | .lshr d s n => σ.writeDI d (σ.readDI s >>> (σ.read n).toNat)
  | .iorsi3 d a b => σ.write d (σ.read a ||| σ.read b)
  | .subsi3 d a b => σ.write d (σ.read a - σ.read b)
  | .signExtend w d s => σ.write d (((σ.read s).setWidth w).signExtend 32)
  | .zeroExtend w d s => σ.write d (((σ.read s).setWidth w).setWidth 32)
  | .eqc d s c => σ.write d (flag (σ.read s == BitVec.ofInt 32 c))
  | .gt d a b => σ.write d (flag ((σ.read b).slt (σ.read a)))
  | .gtu d a b => σ.write d (flag ((σ.read b).ult (σ.read a)))
  | .ldiff borrow d a b c =>
      let a' := (σ.read a).setWidth 64
      let b' := (σ.read b).setWidth 64 + carryIn (σ.read c)
      (σ.write borrow (flag (a'.ult b'))).write d ((a' - b').setWidth 32)
  | .cj _ | .invCj _ => σ

/-- Whether an insn jumps to its label: `cj` on a zero, `_inv_cj` on anything else. -/
def Rtl.jumps (σ : Pseudos) : Rtl → Bool
  | .cj s => σ.read s == 0
  | .invCj s => σ.read s != 0
  | _ => false

def execAll (σ : Pseudos) (is : List Rtl) : Pseudos := is.foldl (fun σ i => i.exec σ) σ

/-- Whether one of the insns jumps. -/
def jumpsIn : Pseudos → List Rtl → Bool
  | _, [] => false
  | σ, i :: is => i.jumps σ || jumpsIn (i.exec σ) is

/-! ### Procedures that emit -/

/-- The insns of the sequence so far, and the first pseudo that is not in use. -/
structure Sequence where
  next : Pseudo
  insns : List Rtl

abbrev Expander := StateM Sequence

/-- `gen_reg_rtx`. -/
def genRegRtx : Expander Pseudo := fun s => (s.next, { s with next := s.next + 1 })

/-- `emit_insn`. -/
def emitInsn (i : Rtl) : Expander PUnit := fun s => (⟨⟩, { s with insns := s.insns ++ [i] })

/-- The insns of an expander, when the pseudos below `next` are in use. -/
def Expander.insns {α : Type} (x : Expander α) (next : Pseudo) : List Rtl :=
  (x ⟨next, []⟩).2.insns

/-- The pseudos after the insns of an expander. -/
def Expander.after {α : Type} (x : Expander α) (next : Pseudo) (σ : Pseudos) : Pseudos :=
  execAll σ (x.insns next)

/-! ### Operands -/

/-- `whatever_operand` in SImode: a pseudo or a constant. -/
inductive Whatever where
  | reg (r : Pseudo)
  | const (c : Word)
  deriving DecidableEq, Repr

def Whatever.value (σ : Pseudos) : Whatever → Word
  | .reg r => σ r 0
  | .const c => c

/-- The pseudo of an operand is in use. -/
def Whatever.Below (next : Pseudo) : Whatever → Prop
  | .reg r => r < next
  | .const _ => True

instance (next : Pseudo) (x : Whatever) : Decidable (x.Below next) :=
  match x with
  | .reg r => inferInstanceAs (Decidable (r < next))
  | .const _ => inferInstanceAs (Decidable True)

/-- `emit_move_insn` in SImode. -/
def emitMoveInsn (dest : Subreg) : Whatever → Expander PUnit
  | .reg r => emitInsn (.move dest r.si)
  | .const c => emitInsn (.moveConst dest c)

/-- `force_reg` in SImode of what is no `ABCreg_operand`. -/
def forceReg : Whatever → Expander Pseudo
  | .reg r => pure r
  | .const c => do
      let tmp ← genRegRtx
      emitInsn (.moveConst tmp.si c)
      pure tmp

/-- A word as a double word. -/
def extendDI (unsignedp : Bool) (w : Word) : BitVec 64 :=
  if unsignedp then w.setWidth 64 else w.signExtend 64

/-- `convert_to_mode (DImode, x, unsignedp)`, and `force_reg` of the constants it returns. -/
def convertToDI (x : Whatever) (unsignedp : Bool) : Expander Pseudo := do
  let tmp ← genRegRtx
  match x with
  | .reg r => emitInsn (if unsignedp then .zeroExtendsidi2 tmp r.si else .extendsidi2 tmp r.si)
  | .const c => emitInsn (.moveConstDI tmp (extendDI unsignedp c))
  pure tmp

/-! ### What the conversions emit -/

section

variable {α β : Type} {next : Pseudo} {s : Sequence} {σ : Pseudos} {x : Whatever} {r : Pseudo}

@[simp] theorem Expander.bind_apply (m : Expander α) (f : α → Expander β) (s : Sequence) :
    (m >>= f) s = f (m s).1 (m s).2 := rfl

@[simp] theorem Expander.map_apply (f : α → β) (m : Expander α) (s : Sequence) :
    (f <$> m) s = (f (m s).1, (m s).2) := rfl

@[simp] theorem Expander.pure_apply (a : α) (s : Sequence) : (pure a : Expander α) s = (a, s) := rfl

@[simp] theorem emitInsn_apply (i : Rtl) (s : Sequence) :
    emitInsn i s = (⟨⟩, ⟨s.next, s.insns ++ [i]⟩) := rfl

@[simp] theorem genRegRtx_apply (s : Sequence) : genRegRtx s = (s.next, ⟨s.next + 1, s.insns⟩) := rfl

@[simp] theorem execAll_nil (σ : Pseudos) : execAll σ [] = σ := rfl

@[simp] theorem execAll_cons (σ : Pseudos) (i : Rtl) (is : List Rtl) :
    execAll σ (i :: is) = execAll (i.exec σ) is := rfl

@[simp] theorem execAll_append (σ : Pseudos) (is js : List Rtl) :
    execAll σ (is ++ js) = execAll (execAll σ is) js := List.foldl_append

/-- A list of insns leaves the pseudos below `next` as they are. -/
def Spared (next : Pseudo) (is : List Rtl) : Prop :=
  ∀ (σ : Pseudos) (s : Subreg), s.reg < next → (execAll σ is).read s = σ.read s

theorem Whatever.Below.mono {n : Pseudo} (hx : x.Below next) (h : next ≤ n) : x.Below n := by
  cases x with
  | reg r => exact lt_of_lt_of_le hx h
  | const c => trivial

theorem Whatever.value_congr {σ' : Pseudos} (hx : x.Below next)
    (h : ∀ s : Subreg, s.reg < next → σ'.read s = σ.read s) : x.value σ' = x.value σ := by
  cases x with
  | reg r => exact h r.si hx
  | const c => rfl

theorem emitMoveInsn_spec (d : Subreg) (x : Whatever) (s : Sequence) :
    ∃ i, emitMoveInsn d x s = (⟨⟩, ⟨s.next, s.insns ++ [i]⟩) ∧
      ∀ σ, Rtl.exec σ i = σ.write d (x.value σ) := by
  cases x with
  | reg r => exact ⟨.move d r.si, rfl, fun σ => rfl⟩
  | const c => exact ⟨.moveConst d c, rfl, fun σ => rfl⟩

/-- `force_reg` gives a pseudo that holds the value of the operand. -/
theorem forceReg_spec (x : Whatever) (s : Sequence) :
    ∃ r n is, forceReg x s = (r, ⟨n, s.insns ++ is⟩) ∧ s.next ≤ n ∧ Spared s.next is ∧
      (x.Below s.next → r < n ∧ ∀ σ, execAll σ is r 0 = x.value σ) := by
  cases x with
  | reg r =>
      refine ⟨r, s.next, [], by simp [forceReg], le_rfl, fun σ s' _ => rfl, fun hr => ⟨hr, ?_⟩⟩
      exact fun σ => rfl
  | const c =>
      refine ⟨s.next, s.next + 1, [.moveConst s.next.si c], rfl, Nat.le_succ _,
        fun σ s' hs' => ?_, fun _ => ⟨Nat.lt_succ_self _, fun σ => ?_⟩⟩
      · refine Pseudos.read_write_of_ne ?_
        rintro rfl
        exact lt_irrefl _ hs'
      · exact Pseudos.read_write_self (d := s.next.si)

/-- `convert_to_mode` to DImode gives a new pseudo with the extended value. -/
theorem convertToDI_spec (x : Whatever) (u : Bool) (s : Sequence) :
    ∃ i, convertToDI x u s = (s.next, ⟨s.next + 1, s.insns ++ [i]⟩) ∧
      ∀ σ, Rtl.exec σ i = σ.writeDI s.next (extendDI u (x.value σ)) := by
  cases x with
  | reg r =>
      cases u with
      | true => exact ⟨.zeroExtendsidi2 s.next r.si, rfl, fun σ => rfl⟩
      | false => exact ⟨.extendsidi2 s.next r.si, rfl, fun σ => rfl⟩
  | const c => exact ⟨.moveConstDI s.next (extendDI u c), rfl, fun σ => rfl⟩

end

end Ttools.T800
