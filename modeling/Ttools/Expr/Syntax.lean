import Mathlib.Data.BitVec
import Mathlib.Tactic

/-!
# Expressions in memory

`shared/expr.h`: the tags of `enum expr_tag`, and the tree a `struct expr *` points to.

The host is the 32-bit one the tools are built on, so `expr_const_t` (a signed `long`) is
`Word = BitVec 32`, compared as signed.  A node is the tree below it; nodes are not given
addresses, so where the code looks at `nrefs` or compares pointers the model takes the answer
as an argument.  Names and elements are referred to by index: `np` and `el` are pointers into
the name table and the element chains.

`EXPR_QUEST` and `EXPR_COLON` are two binary nodes, as in the source: `c ? a : b` is
`QUEST c (COLON a b)`.
-/

namespace Ttools

/-- `expr_const_t`, `target_word_t` and `long` of the 32-bit host. -/
abbrev Word := BitVec 32

/-- A byte of a file or of the program. -/
abbrev Byte := BitVec 8

/-- A `struct name *`. -/
abbrev NameId := Nat

/-- A `struct element *`. -/
abbrev ElemId := Nat

/-- The unary operator tags. -/
inductive UnTag where
  | neg | not | compl
  deriving DecidableEq, Repr

/-- The binary operator tags, in the order of `enum expr_tag`. -/
inductive BinTag where
  | minus | plus
  | lsh | rsh
  | mul | div | rem
  | and | xor | or
  | lt | le | gt | ge | eq | ne
  | andand | oror
  | quest | colon
  deriving DecidableEq, Repr

/-- `struct expr`.  The members of an `EXPR_ELSUM` vector are `EXPR_ELEMENT` nodes, or what
`expr_reduce` has turned such a node into through another expression that shares it. -/
inductive Expr where
  | const (constval : Word)
  | name (np : NameId)
  | unop (tag : UnTag) (r : Expr)
  | binop (tag : BinTag) (l r : Expr)
  | range (lo hi : Word)
  | element (el : ElemId)
  | elsum (vector : List Expr)
  deriving Repr

namespace Expr

/-- Induction over the tree; the case of a sum has the hypothesis for every member. -/
@[elab_as_elim, induction_eliminator]
theorem induct {P : Expr → Prop}
    (const : ∀ c, P (.const c)) (name : ∀ np, P (.name np))
    (unop : ∀ t r, P r → P (.unop t r))
    (binop : ∀ t l r, P l → P r → P (.binop t l r))
    (range : ∀ lo hi, P (.range lo hi)) (element : ∀ el, P (.element el))
    (elsum : ∀ v : List Expr, (∀ m ∈ v, P m) → P (.elsum v)) : ∀ e, P e :=
  @Expr.rec P (fun v => ∀ m ∈ v, P m)
    const name unop binop range element elsum (by simp)
    (fun m v hm hv => by simpa using ⟨hm, hv⟩)

/-- `EXPR_ISCONST`, giving the constant. -/
def const? : Expr → Option Word
  | .const c => some c
  | _ => none

/-- `EXPR_ISCONST`. -/
def isConst (e : Expr) : Bool := e.const?.isSome

/-- `e->tag == EXPR_RANGE`. -/
def isRange : Expr → Bool
  | .range _ _ => true
  | _ => false

@[simp] theorem const?_const (c : Word) : (Expr.const c).const? = some c := rfl
@[simp] theorem isConst_const (c : Word) : (Expr.const c).isConst = true := rfl

theorem const?_eq_some {e : Expr} {c : Word} : e.const? = some c ↔ e = .const c := by
  cases e <;> simp [const?]

theorem isConst_iff {e : Expr} : e.isConst = true ↔ ∃ c, e = .const c := by
  cases e <;> simp [isConst, const?]

/-! ### Equality of trees -/

mutual

/-- The two trees are the same. -/
def same : Expr → Expr → Bool
  | .const c, .const d => c == d
  | .name n, .name m => n == m
  | .unop t r, .unop t' r' => t == t' && r.same r'
  | .binop t l r, .binop t' l' r' => t == t' && l.same l' && r.same r'
  | .range a b, .range a' b' => a == a' && b == b'
  | .element a, .element b => a == b
  | .elsum v, .elsum w => sames v w
  | _, _ => false

/-- The two vectors hold the same trees. -/
def sames : List Expr → List Expr → Bool
  | [], [] => true
  | e :: v, f :: w => e.same f && sames v w
  | _, _ => false

end

theorem same_iff {e f : Expr} : e.same f = true ↔ e = f := by
  induction e generalizing f with
  | const c => cases f <;> simp [same]
  | name n => cases f <;> simp [same]
  | unop t r ih => cases f <;> simp [same, ih]
  | binop t l r ihl ihr => cases f <;> simp [same, ihl, ihr, and_assoc]
  | range a b => cases f <;> simp [same]
  | element a => cases f <;> simp [same]
  | elsum v ih =>
      cases f with
      | elsum w =>
          simp only [same, elsum.injEq]
          induction v generalizing w with
          | nil => cases w <;> simp [sames]
          | cons m v ihv =>
              cases w with
              | nil => simp [sames]
              | cons m' w =>
                  simp only [sames, Bool.and_eq_true, List.cons.injEq]
                  rw [ih m (by simp), ihv (fun x hx => ih x (List.mem_cons_of_mem _ hx))]
      | _ => simp [same]

instance : DecidableEq Expr := fun _ _ => decidable_of_iff _ same_iff

end Expr

end Ttools
