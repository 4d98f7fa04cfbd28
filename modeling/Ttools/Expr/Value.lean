import Ttools.Expr.Syntax

/-!
# What an expression denotes

`eval` (`shared/expr.c`) computes one operator on two constants; `Expr.value ρ s` carries it
through a tree, at a valuation `ρ` of the names and of the element sizes.

A `COLON` node stands for its two arms; `s` says which of them is meant, and the `QUEST` above
it supplies `s` from its condition.  At every other node `s` plays no role (`value_sel`).
-/

namespace Ttools

/-- A C truth value. -/
def ofBool (b : Bool) : Word := if b then 1 else 0

/-- `eval` on the unary tags. -/
def evalUn : UnTag → Word → Word
  | .neg, rval => -rval
  | .not, rval => ofBool (rval == 0)
  | .compl, rval => ~~~rval

/-- The quotient does not fit in a word: the host's division instruction traps. -/
def BinTag.traps (t : BinTag) (lval rval : Word) : Bool :=
  (t == .div || t == .rem) && lval == BitVec.intMin 32 && rval == -1

/-- `eval` on the binary tags; `none` is `abort ()`, or the trap of the host.  A shift count outside
`0..31` is undefined in C and is taken modulo 32, as the host's shift instructions do. -/
def eval : BinTag → Word → Word → Option Word
  | .minus, lval, rval => some (lval - rval)
  | .plus, lval, rval => some (lval + rval)
  | .lsh, lval, rval => some (lval <<< (rval.toNat % 32))
  | .rsh, lval, rval => some (lval.sshiftRight (rval.toNat % 32))
  | .mul, lval, rval => some (lval * rval)
  -- "oops, division by 0 while evaluating expression": the left operand is returned
  | .div, lval, rval =>
      if rval = 0 then some lval
      else if BinTag.traps .div lval rval then none else some (lval.sdiv rval)
  | .rem, lval, rval =>
      if rval = 0 then some lval
      else if BinTag.traps .rem lval rval then none else some (lval.srem rval)
  | .and, lval, rval => some (lval &&& rval)
  | .xor, lval, rval => some (lval ^^^ rval)
  | .or, lval, rval => some (lval ||| rval)
  | .lt, lval, rval => some (ofBool (lval.slt rval))
  | .le, lval, rval => some (ofBool (lval.sle rval))
  | .gt, lval, rval => some (ofBool (rval.slt lval))
  | .ge, lval, rval => some (ofBool (rval.sle lval))
  | .eq, lval, rval => some (ofBool (lval == rval))
  | .ne, lval, rval => some (ofBool (lval != rval))
  | .andand, lval, rval => some (ofBool (lval != 0 && rval != 0))
  | .oror, lval, rval => some (ofBool (lval != 0 || rval != 0))
  | .quest, _, _ => none
  | .colon, _, _ => none

/-- `eval` reaches `abort ()` at `EXPR_QUEST` and `EXPR_COLON` alone. -/
theorem eval_eq_none {t : BinTag} {a b : Word} :
    eval t a b = none ↔ t = .quest ∨ t = .colon ∨ t.traps a b = true := by
  cases t with
  | div | rem =>
      rw [eval]
      split
      · rename_i hb
        simp [BinTag.traps, hb]
      · split <;> simp_all
  | _ => simp [eval, BinTag.traps]

theorem traps_of_ne {t : BinTag} (hd : t ≠ .div) (hr : t ≠ .rem) (a b : Word) :
    t.traps a b = false := by
  rw [BinTag.traps, beq_eq_false_iff_ne.mpr hd, beq_eq_false_iff_ne.mpr hr]
  rfl

/-- What an operator does to two values. -/
def act (t : BinTag) (lval rval : Word) : Word := (eval t lval rval).getD 0

/-- `EXPR_TAG_ISCOMM`. -/
def BinTag.isComm : BinTag → Bool
  | .plus | .mul | .and | .xor | .or | .andand | .oror => true
  | _ => false

theorem eval_comm {t : BinTag} (h : t.isComm = true) (a b : Word) : eval t a b = eval t b a := by
  cases t <;> simp [BinTag.isComm] at h <;>
    simp [eval, BitVec.add_comm, BitVec.mul_comm, BitVec.and_comm, BitVec.xor_comm,
      BitVec.or_comm, Bool.and_comm, Bool.or_comm]

/-- A value for every name, a size for every element, and a value for every bare range. -/
structure Valuation where
  name : NameId → Word
  size : ElemId → Word
  range : Word → Word → Word

namespace Expr

mutual

/-- The value of an expression. -/
def value (ρ : Valuation) (sel : Bool) : Expr → Word
  | .const c => c
  | .name np => ρ.name np
  | .unop t r => evalUn t (r.value ρ true)
  | .binop t l r =>
      match t with
      | .quest => r.value ρ (l.value ρ true != 0)
      | .colon => bif sel then l.value ρ true else r.value ρ true
      | t => (eval t (l.value ρ true) (r.value ρ true)).getD 0
  | .range lo hi => ρ.range lo hi
  | .element el => ρ.size el
  | .elsum v => values ρ v

/-- The sum of the values of a vector's members. -/
def values (ρ : Valuation) : List Expr → Word
  | [] => 0
  | m :: v => m.value ρ true + values ρ v

end

example (ρ : Valuation) :
    (Expr.binop .quest (.const 1) (.binop .colon (.const 2) (.elsum []))).value ρ true = 2 := by
  simp [value, values]

@[simp] theorem value_const (ρ : Valuation) (s : Bool) (c : Word) : (Expr.const c).value ρ s = c := by
  rw [value]

@[simp] theorem value_name (ρ : Valuation) (s : Bool) (n : NameId) :
    (Expr.name n).value ρ s = ρ.name n := by
  rw [value]

@[simp] theorem value_element (ρ : Valuation) (s : Bool) (el : ElemId) :
    (Expr.element el).value ρ s = ρ.size el := by
  rw [value]

@[simp] theorem value_range (ρ : Valuation) (s : Bool) (lo hi : Word) :
    (Expr.range lo hi).value ρ s = ρ.range lo hi := by
  rw [value]

@[simp] theorem value_unop (ρ : Valuation) (s : Bool) (t : UnTag) (r : Expr) :
    (Expr.unop t r).value ρ s = evalUn t (r.value ρ true) := by
  rw [value]

@[simp] theorem value_elsum (ρ : Valuation) (s : Bool) (v : List Expr) :
    (Expr.elsum v).value ρ s = values ρ v := by
  rw [value]

@[simp] theorem value_quest (ρ : Valuation) (s : Bool) (l r : Expr) :
    (Expr.binop .quest l r).value ρ s = r.value ρ (l.value ρ true != 0) := by
  rw [value]

@[simp] theorem value_colon (ρ : Valuation) (s : Bool) (l r : Expr) :
    (Expr.binop .colon l r).value ρ s = bif s then l.value ρ true else r.value ρ true := by
  rw [value]

/-- A node `eval` handles denotes what `eval` computes on the operands' values. -/
theorem value_binop {ρ : Valuation} {s : Bool} {t : BinTag} {l r : Expr} {x : Word}
    (h : eval t (l.value ρ true) (r.value ρ true) = some x) : (Expr.binop t l r).value ρ s = x := by
  cases t <;> simp only [eval, Option.some.injEq, reduceCtorEq] at h <;>
    simp only [value, eval, Option.getD_some, h]

@[simp] theorem value_plus (ρ : Valuation) (s : Bool) (l r : Expr) :
    (Expr.binop .plus l r).value ρ s = l.value ρ true + r.value ρ true := value_binop rfl

@[simp] theorem value_minus (ρ : Valuation) (s : Bool) (l r : Expr) :
    (Expr.binop .minus l r).value ρ s = l.value ρ true - r.value ρ true := value_binop rfl

@[simp] theorem values_nil (ρ : Valuation) : values ρ [] = 0 := by rw [values]

@[simp] theorem values_cons (ρ : Valuation) (m : Expr) (v : List Expr) :
    values ρ (m :: v) = m.value ρ true + values ρ v := by
  rw [values]

@[simp] theorem values_append (ρ : Valuation) (v w : List Expr) :
    values ρ (v ++ w) = values ρ v + values ρ w := by
  induction v with
  | nil => simp
  | cons m v ih => simp [ih, BitVec.add_assoc]

/-- Only a `COLON` node looks at the selector. -/
theorem value_sel {ρ : Valuation} {s s' : Bool} {e : Expr} (h : ∀ l r, e ≠ .binop .colon l r) :
    e.value ρ s = e.value ρ s' := by
  cases e with
  | binop t l r => cases t <;> first | exact absurd rfl (h l r) | (simp only [value])
  | _ => simp only [value]

/-- A node's value is determined by its operands' values. -/
theorem value_binop_congr {ρ : Valuation} {t : BinTag} {l l' r r' : Expr} (s : Bool)
    (hl : ∀ s, l.value ρ s = l'.value ρ s) (hr : ∀ s, r.value ρ s = r'.value ρ s) :
    (Expr.binop t l r).value ρ s = (Expr.binop t l' r').value ρ s := by
  simp only [value, hl, hr]

/-- The operands of a commutative node may be swapped. -/
theorem value_swap {ρ : Valuation} {t : BinTag} (h : t.isComm = true) (s : Bool) (l r : Expr) :
    (Expr.binop t l r).value ρ s = (Expr.binop t r l).value ρ s := by
  have hc := eval_comm h (l.value ρ true) (r.value ρ true)
  cases t <;> simp [BinTag.isComm] at h <;> simp only [value, hc]

end Expr

end Ttools
