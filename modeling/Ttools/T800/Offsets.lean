import Mathlib.Tactic.Ring

/-!
# Offsets and addresses

`const_offset_operand`, `is_offset` and `ldpi_operand` (`config/t800/t800.c`): which `CONST`s are
integers (`L1-L2`), to be loaded by `ldc`, and which are addresses (`L1+5`), to be loaded relative
to the program counter.

* `ConstBody.value_relocate`: the degree of a body, the symbols with a positive sign less those
  with a negative one, says how often the load address counts in its value.
* `isOffset_eq`: `is_offset` looks twice at the left operand, and so at the leftmost term only.
* `offsets_right_iff`: it tells offsets from addresses unless the body is an address whose
  leftmost term is an integer or a difference.
-/

namespace Ttools.T800

/-- The body of a `CONST`. A `SYMBOL_REF` carries its `SYMBOL_REF_FLAG`. -/
inductive ConstBody where
  | plus (x0 x1 : ConstBody)
  | minus (x0 x1 : ConstBody)
  | constInt (n : Int)
  | labelRef (label : Nat)
  | symbolRef (name : String) (flag : Bool)
  deriving DecidableEq, Repr

/-- `GET_MODE`, as far as these operands have one. -/
inductive MachineMode where
  | VOIDmode | QImode | HImode | SImode
  deriving DecidableEq, Repr

/-- An operand of an insn, by its code. -/
inductive Rtx where
  | const (mode : MachineMode) (body : ConstBody)
  | labelRef (mode : MachineMode) (label : Nat)
  | symbolRef (mode : MachineMode) (name : String) (flag : Bool)
  | other (mode : MachineMode)
  deriving DecidableEq, Repr

/-- `GET_MODE`. -/
def Rtx.getMode : Rtx → MachineMode
  | .const mode _ | .labelRef mode _ | .symbolRef mode _ _ | .other mode => mode

/-- `is_offset`: both of its calls are made at operand 0. -/
def isOffset : ConstBody → Bool
  | .plus x0 _ => isOffset x0 && isOffset x0
  | .minus x0 _ => isOffset x0 == isOffset x0
  | .constInt _ => true
  | .labelRef _ | .symbolRef _ _ => false

/-- `const_offset_operand`. -/
def constOffsetOperand (op : Rtx) (mode : MachineMode) : Bool :=
  if mode ≠ .VOIDmode ∧ op.getMode ≠ mode then false
  else
    match op with
    | .const _ body => isOffset body
    | _ => false

/-- `t800_dataseg_symrefs_mentioned_p`. -/
def t800DatasegSymrefsMentioned : ConstBody → Bool
  | .plus x0 x1 | .minus x0 x1 =>
      t800DatasegSymrefsMentioned x1 || t800DatasegSymrefsMentioned x0
  | .symbolRef _ flag => flag
  | .constInt _ | .labelRef _ => false

/-- `ldpi_operand`, in the model that `TARGET_DATASEG_PC_RELATIVE` selects. -/
def ldpiOperand (datasegPcRelative : Bool) (op : Rtx) (mode : MachineMode) : Bool :=
  if mode ≠ .VOIDmode ∧ op.getMode ≠ mode then false
  else
    match op with
    | .labelRef _ _ => true
    | .const m body =>
        if constOffsetOperand (.const m body) mode then false
        else if datasegPcRelative then true
        else !t800DatasegSymrefsMentioned body
    | .symbolRef _ _ flag => if datasegPcRelative then true else !flag
    | .other _ => false

/-! ### What a body denotes -/

namespace ConstBody

/-- The symbols of the sign `positive`. -/
def symbols (positive : Bool) : ConstBody → Nat
  | .plus x0 x1 => x0.symbols positive + x1.symbols positive
  | .minus x0 x1 => x0.symbols positive + x1.symbols !positive
  | .constInt _ => 0
  | .labelRef _ | .symbolRef _ _ => if positive then 1 else 0

/-- The symbols with a positive sign less those with a negative one. -/
def degree (e : ConstBody) : Int := e.symbols true - e.symbols false

/-- The degree of each sum in the body is 0 or 1. -/
def Graded : ConstBody → Prop
  | .plus x0 x1 => x0.Graded ∧ x1.Graded ∧ (degree (.plus x0 x1) = 0 ∨ degree (.plus x0 x1) = 1)
  | .minus x0 x1 =>
      x0.Graded ∧ x1.Graded ∧ (degree (.minus x0 x1) = 0 ∨ degree (.minus x0 x1) = 1)
  | .constInt _ | .labelRef _ | .symbolRef _ _ => True

@[simp] theorem degree_plus (x0 x1 : ConstBody) : degree (.plus x0 x1) = x0.degree + x1.degree := by
  simp only [degree, symbols]
  push_cast
  ring

@[simp] theorem degree_minus (x0 x1 : ConstBody) :
    degree (.minus x0 x1) = x0.degree - x1.degree := by
  simp only [degree, symbols]
  push_cast
  simp only [Bool.not_true, Bool.not_false]
  ring

@[simp] theorem degree_constInt (n : Int) : degree (.constInt n) = 0 := rfl

@[simp] theorem degree_labelRef (l : Nat) : degree (.labelRef l) = 1 := rfl

@[simp] theorem degree_symbolRef (s : String) (flag : Bool) : degree (.symbolRef s flag) = 1 := rfl

theorem Graded.degree {e : ConstBody} (h : e.Graded) : e.degree = 0 ∨ e.degree = 1 := by
  cases e with
  | plus x0 x1 => exact h.2.2
  | minus x0 x1 => exact h.2.2
  | constInt n => exact .inl rfl
  | labelRef l => exact .inr rfl
  | symbolRef s flag => exact .inr rfl

/-- The value of a body, where the labels and the symbols stand for these addresses. -/
def value (label : Nat → Int) (symbol : String → Int) : ConstBody → Int
  | .plus x0 x1 => x0.value label symbol + x1.value label symbol
  | .minus x0 x1 => x0.value label symbol - x1.value label symbol
  | .constInt n => n
  | .labelRef l => label l
  | .symbolRef s _ => symbol s

/-- Loaded `d` higher, a body of degree 0 keeps its value, and one of degree 1 moves along. -/
theorem value_relocate (label : Nat → Int) (symbol : String → Int) (d : Int) (e : ConstBody) :
    e.value (fun l => label l + d) (fun s => symbol s + d) =
      e.value label symbol + e.degree * d := by
  induction e with
  | plus x0 x1 ih0 ih1 =>
      rw [value, value, ih0, ih1, degree_plus]
      ring
  | minus x0 x1 ih0 ih1 =>
      rw [value, value, ih0, ih1, degree_minus]
      ring
  | constInt n => simp [value]
  | labelRef l => simp [value]
  | symbolRef s flag => simp [value]

/-- The leftmost term of a sum. -/
def leftmost : ConstBody → ConstBody
  | .plus x0 _ => x0.leftmost
  | e => e

/-- A label or a symbol. -/
def isSymbol : ConstBody → Bool
  | .labelRef _ | .symbolRef _ _ => true
  | _ => false

end ConstBody

/-! ### What the predicates tell -/

open ConstBody

/-- `is_offset` depends on the leftmost term alone. -/
theorem isOffset_eq (e : ConstBody) : isOffset e = !e.leftmost.isSymbol := by
  induction e with
  | plus x0 x1 ih0 _ => rw [isOffset, Bool.and_self, ih0, leftmost]
  | minus x0 x1 _ _ =>
      rw [isOffset, beq_self_eq_true]
      rfl
  | constInt n => rfl
  | labelRef l => rfl
  | symbolRef s flag => rfl

/-- The terms of a sum of degree 0 are of degree 0. -/
theorem isOffset_of_degree {e : ConstBody} (h : e.Graded) (h0 : e.degree = 0) :
    isOffset e = true := by
  induction e with
  | plus x0 x1 ih0 _ =>
      obtain ⟨hx0, hx1, -⟩ := h
      rw [degree_plus] at h0
      have hd0 := hx0.degree
      have hd1 := hx1.degree
      rw [isOffset, ih0 hx0 (by omega), Bool.and_self]
  | minus x0 x1 _ _ => rw [isOffset, beq_self_eq_true]
  | constInt n => rfl
  | labelRef l => cases h0
  | symbolRef s flag => cases h0

/-- No offset is an operand of `ldpi`. -/
theorem ldpiOperand_of_isOffset {e : ConstBody} (h : isOffset e = true) (pcRelative : Bool)
    (m mode : MachineMode) : ldpiOperand pcRelative (.const m e) mode = false := by
  unfold ldpiOperand
  split
  · rfl
  · next hmode =>
      have hoffset : constOffsetOperand (.const m e) mode = true := by
        rw [constOffsetOperand, if_neg hmode]
        exact h
      simp only [hoffset, if_true]

/-- The predicates separate what is loaded by `ldc` from what is loaded by `ldpi`. -/
structure Separated (e : ConstBody) : Prop where
  offset : isOffset e = true ↔ e.symbols true = e.symbols false
  address : isOffset e = false ↔ e.symbols true = e.symbols false + 1
  ldpi : ∀ pcRelative m mode, ldpiOperand pcRelative (.const m e) mode = true →
    e.symbols true = e.symbols false + 1
  ldc : ∀ m mode, constOffsetOperand (.const m e) mode = true → e.symbols true = e.symbols false

theorem degree_eq_zero {e : ConstBody} : e.degree = 0 ↔ e.symbols true = e.symbols false := by
  unfold ConstBody.degree
  omega

theorem degree_eq_one {e : ConstBody} : e.degree = 1 ↔ e.symbols true = e.symbols false + 1 := by
  unfold ConstBody.degree
  omega

/-- **Offsets are separated from addresses**, unless the body is an address that does not begin
with its symbol. -/
theorem offsets_right_iff {e : ConstBody} (h : e.Graded) :
    Separated e ↔ ¬(e.degree = 1 ∧ e.leftmost.isSymbol = false) := by
  constructor
  · rintro hs ⟨hdegree, hleft⟩
    have hoffset : isOffset e = true := by rw [isOffset_eq, hleft, Bool.not_false]
    rw [hs.offset, ← degree_eq_zero] at hoffset
    omega
  · intro hn
    have haddress : isOffset e = false ↔ e.degree = 1 := by
      constructor
      · intro hfalse
        refine h.degree.resolve_left fun h0 => ?_
        rw [isOffset_of_degree h h0] at hfalse
        cases hfalse
      · intro hone
        rw [isOffset_eq, Bool.not_eq_false']
        by_contra hleft
        exact hn ⟨hone, by simpa using hleft⟩
    have hoffset : isOffset e = true ↔ e.degree = 0 := by
      rw [← Bool.not_eq_false, haddress]
      have := h.degree
      omega
    refine ⟨by rw [hoffset, degree_eq_zero], by rw [haddress, degree_eq_one],
      fun pcRelative m mode hldpi => ?_, fun m mode hldc => ?_⟩
    · rw [← degree_eq_one, ← haddress]
      by_contra htrue
      rw [Bool.not_eq_false] at htrue
      rw [ldpiOperand_of_isOffset htrue] at hldpi
      cases hldpi
    · rw [← degree_eq_zero, ← hoffset]
      unfold constOffsetOperand at hldc
      split at hldc
      · cases hldc
      · exact hldc

/-- `(L1+4)-L2`. -/
theorem offsets_right_iff_difference :
    Separated (.minus (.plus (.labelRef 1) (.constInt 4)) (.labelRef 2)) ↔
      ¬(degree (.minus (.plus (.labelRef 1) (.constInt 4)) (.labelRef 2)) = 1 ∧
        (leftmost (.minus (.plus (.labelRef 1) (.constInt 4)) (.labelRef 2))).isSymbol = false) :=
  offsets_right_iff (by simp [Graded])

/-- `5+L1` is taken for an offset. -/
theorem offsets_misread :
    Graded (.plus (.constInt 5) (.labelRef 1)) ∧
      ¬Separated (.plus (.constInt 5) (.labelRef 1)) := by
  refine ⟨by simp [Graded], fun h => ?_⟩
  have hone : isOffset (.plus (.constInt 5) (.labelRef 1)) = true := rfl
  rw [h.offset] at hone
  cases hone

end Ttools.T800
