import Ttools.Expr.Value
import Ttools.Support.Bits
import Ttools.Support.Range

/-!
# Names and elements

What the pointers in an expression lead to: `struct name` (`shared/misc.h`) and `struct element`
(`shared/ments.h`).  The chains of elements, the segments and the fragments are not needed for
the expressions themselves; they are in the modules that walk them.

`Store.Models` is the meaning of a store: the valuations under which every local name has the
value of its expression and every element a size that its size expression allows.
-/

namespace Ttools

/-- A range of sizes or values. -/
abbrev Bounds := Support.Range 32

/-- The union of `struct element`, by its tag.  `ptr` holds the bytes emitted so far; what is
allocated beyond them is left out. -/
inductive Body where
  | block (ptr : List Byte)
  | data (width : Word) (value count : Expr)
  | cmd (opcode : Word) (arg : Expr)
  deriving DecidableEq, Repr

/-- `struct element`. -/
structure Element where
  size : Expr
  u : Body
  deriving DecidableEq, Repr

/-- `struct name`, as far as the expressions look at it. -/
structure Name where
  val : Option Expr
  align : Word
  global : Bool

/-- What `np` and `el` point to. -/
structure Store where
  name : NameId → Name
  element : ElemId → Element

namespace Store

/-- A store whose names have no value, and whose elements are empty. -/
def unknown : Store where
  name _ := ⟨none, 1, true⟩
  element _ := ⟨.const 0, .block []⟩

/-- The value of a name that may be replaced by it: `np->val && ! np->global`. -/
def localVal (st : Store) (np : NameId) : Option Expr :=
  if (st.name np).global then none else (st.name np).val

/-- `el->size`. -/
def size (st : Store) (el : ElemId) : Expr := (st.element el).size

/-- The sizes that a size expression allows. -/
def SizeOk (ρ : Valuation) (size : Expr) (v : Word) : Prop :=
  match size with
  | .range lo hi => v ∈ (⟨lo, hi⟩ : Bounds)
  | size => v = size.value ρ true

/-- The valuation agrees with the store. -/
structure Models (st : Store) (ρ : Valuation) : Prop where
  name : ∀ np v, st.localVal np = some v → ρ.name np = v.value ρ true
  size : ∀ el, SizeOk ρ (st.size el) (ρ.size el)
  range : ∀ lo hi, (⟨lo, hi⟩ : Bounds).Ordered → ρ.range lo hi ∈ (⟨lo, hi⟩ : Bounds)

/-- A name is a multiple of its alignment, where that is a power of two. -/
def Aligned (st : Store) (ρ : Valuation) : Prop :=
  ∀ np, Support.powerOfTwo (st.name np).align = true → (st.name np).align.toNat ∣ (ρ.name np).toNat

end Store

/-- No cycle of names and elements can be reached from the expression. -/
inductive Grounded (st : Store) : Expr → Prop where
  | const (c : Word) : Grounded st (.const c)
  | range (lo hi : Word) : Grounded st (.range lo hi)
  | name {np : NameId} (h : ∀ v, st.localVal np = some v → Grounded st v) : Grounded st (.name np)
  | element {el : ElemId} (h : Grounded st (st.size el)) : Grounded st (.element el)
  | elsum {v : List Expr} (h : ∀ m ∈ v, Grounded st m) : Grounded st (.elsum v)
  | unop {t : UnTag} {r : Expr} (h : Grounded st r) : Grounded st (.unop t r)
  | binop {t : BinTag} {l r : Expr} (hl : Grounded st l) (hr : Grounded st r) :
      Grounded st (.binop t l r)

end Ttools
