import Ttools.Expr.Value

/-!
# Constructors

The functions of `shared/expr.c` that build an expression out of others: `expr_unop`,
`expr_binop`, `expr_questop`, `expr_asgop`, `expr_plus_constant` and `expr_equal`.  They fold
constants, move a constant to the right of a commutative operator and re-associate sums while
building; each is shown to denote the operator it was asked for.

`lone` is the answer to `e1->nrefs == 1`, `ptr` to the pointer comparison `e == f`.
-/

namespace Ttools

namespace Expr

/-- `expr_equal` after its pointer comparison: `ELSUM`s and `RANGE`s are different unless they
are the same node. -/
def equalTree : Expr → Expr → Bool
  | .const c, .const d => c == d
  | .name n, .name m => n == m
  | .element a, .element b => a == b
  | .unop t r, .unop t' r' => t == t' && equalTree r r'
  | .binop t l r, .binop t' l' r' => t == t' && equalTree r r' && equalTree l l'
  | _, _ => false

theorem eq_of_equalTree : ∀ {e f : Expr}, equalTree e f = true → e = f
  | .const c, f, h => by cases f <;> simp_all [equalTree]
  | .name n, f, h => by cases f <;> simp_all [equalTree]
  | .element a, f, h => by cases f <;> simp_all [equalTree]
  | .range _ _, f, h => by cases f <;> simp [equalTree] at h
  | .elsum _, f, h => by cases f <;> simp [equalTree] at h
  | .unop t r, f, h => by
      cases f with
      | unop t' r' =>
          simp only [equalTree, Bool.and_eq_true, beq_iff_eq] at h
          rw [h.1, eq_of_equalTree h.2]
      | _ => simp [equalTree] at h
  | .binop t l r, f, h => by
      cases f with
      | binop t' l' r' =>
          simp only [equalTree, Bool.and_eq_true, beq_iff_eq] at h
          rw [h.1.1, eq_of_equalTree h.1.2, eq_of_equalTree h.2]
      | _ => simp [equalTree] at h

end Expr

/-- `expr_equal`.  Comparing pointers can only succeed on nodes that hold the same tree. -/
def exprEqual (ptr : Bool) (e f : Expr) : Bool := (ptr && e.same f) || e.equalTree f

theorem eq_of_exprEqual {ptr : Bool} {e f : Expr} (h : exprEqual ptr e f = true) : e = f := by
  simp only [exprEqual, Bool.or_eq_true, Bool.and_eq_true] at h
  rcases h with ⟨-, h⟩ | h
  · exact Expr.same_iff.mp h
  · exact Expr.eq_of_equalTree h

/-- `expr_binop` on operands that are not both constants, after the swap that puts a constant on
the right of a commutative operator. -/
def exprNode (lone : Bool) (op : BinTag) (e1 e2 : Expr) : Expr :=
  match op, e1, e2 with
  -- frequent special case: (x + C) + D -> x + (C+D)
  | .plus, .binop .plus x (.const c), .const d => .binop .plus x (.const (c + d))
  -- lift constant: (x + C) + y -> (x + y) + C, if no real unsharing is needed
  | .plus, .binop .plus x (.const c), y =>
      if lone then .binop .plus (.binop .plus x y) (.const c)
      else .binop .plus (.binop .plus x (.const c)) y
  | op, e1, e2 => .binop op e1 e2

/-- `expr_binop`; `none` is the `abort ()` in `eval`. -/
def exprBinop (lone : Bool) (op : BinTag) (e1 e2 : Expr) : Option Expr :=
  match e1.const?, e2.const? with
  | some c, some d => (eval op c d).map .const
  | _, _ =>
      if op.isComm && e1.isConst then some (exprNode lone op e2 e1)
      else some (exprNode lone op e1 e2)

/-- `expr_unop`. -/
def exprUnop (op : UnTag) (e1 : Expr) : Option Expr :=
  if op = .neg then exprBinop false .minus (.const 0) e1
  else
    match e1.const? with
    | some c => some (.const (evalUn op c))
    | none => some (.unop op e1)

/-- `expr_questop`. -/
def exprQuestop (cond iftrue ifnot : Expr) : Expr :=
  match cond.const? with
  | some c => if c ≠ 0 then iftrue else ifnot
  | none => .binop .quest cond (.binop .colon iftrue ifnot)

/-- `expr_asgop (EXPR_PLUS, ..)`. -/
def exprAsgPlus (lone : Bool) (e1 e2 : Expr) : Option Expr :=
  match e1, e2 with
  | .binop .plus x (.const c), .const d => some (.binop .plus x (.const (c + d)))
  | e1, e2 => exprBinop lone .plus e1 e2

/-- `expr_plus_constant`, as the holder of the expression sees it.  The constant is added in place;
`expr_unshare` has first made a copy of the nodes that others hold too. -/
def exprPlusConstant (lone : Bool) (e : Expr) (toadd : Word) : Option Expr :=
  match e with
  | .binop .plus x (.const c) => some (.binop .plus x (.const (c + toadd)))
  | e => exprBinop lone .plus e (.const toadd)

/-! ### What they fold -/

/-- `eval` on operands that need not be constants. -/
def constBin (op : BinTag) (c d : Option Word) : Option Word :=
  c.bind fun lval => d.bind fun rval => eval op lval rval

/-- The operands are constants, and `eval` has no value for them. -/
def BinTag.stuck (op : BinTag) (c d : Option Word) : Bool :=
  match c, d with
  | some lval, some rval => op == .quest || op == .colon || op.traps lval rval
  | _, _ => false

theorem const?_exprNode (lone : Bool) (op : BinTag) (e1 e2 : Expr) :
    (exprNode lone op e1 e2).const? = none := by
  unfold exprNode
  split
  · rfl
  · split <;> rfl
  · rfl

theorem constBin_of_not {op : BinTag} {c d : Option Word}
    (h : ∀ x y, c = some x → d = some y → False) : constBin op c d = none := by
  cases c with
  | none => rfl
  | some x =>
      cases d with
      | none => rfl
      | some y => exact (h x y rfl rfl).elim

theorem BinTag.stuck_of_not {op : BinTag} {c d : Option Word}
    (h : ∀ x y, c = some x → d = some y → False) : op.stuck c d = false := by
  cases c with
  | none => rfl
  | some x =>
      cases d with
      | none => rfl
      | some y => exact (h x y rfl rfl).elim

theorem exprBinop_eq_none {lone : Bool} {op : BinTag} {e1 e2 : Expr} :
    exprBinop lone op e1 e2 = none ↔ op.stuck e1.const? e2.const? = true := by
  unfold exprBinop
  split
  · next c d hc hd =>
      rw [hc, hd, Option.map_eq_none_iff, eval_eq_none]
      simp [BinTag.stuck, or_assoc]
  · next hnot =>
      rw [BinTag.stuck_of_not hnot]
      split <;> simp

/-- `expr_binop` makes a constant of two constants only. -/
theorem const?_exprBinop {lone : Bool} {op : BinTag} {e1 e2 e : Expr}
    (h : exprBinop lone op e1 e2 = some e) : e.const? = constBin op e1.const? e2.const? := by
  unfold exprBinop at h
  split at h
  · next c d hc hd =>
      obtain ⟨x, hx, rfl⟩ := Option.map_eq_some_iff.mp h
      rw [hc, hd]
      exact hx.symm
  · next hnot =>
      rw [constBin_of_not hnot]
      split at h <;> cases h <;> exact const?_exprNode _ _ _ _

theorem exprUnop_isSome (op : UnTag) (e1 : Expr) : ∃ e, exprUnop op e1 = some e := by
  unfold exprUnop
  split
  · refine Option.ne_none_iff_exists'.mp fun h => ?_
    have hstuck := exprBinop_eq_none.mp h
    cases hc : e1.const? with
    | none =>
        rw [hc] at hstuck
        cases hstuck
    | some c =>
        rw [hc] at hstuck
        cases hstuck
  · split <;> exact ⟨_, rfl⟩

theorem const?_exprUnop {op : UnTag} {e1 e : Expr} (h : exprUnop op e1 = some e) :
    e.const? = e1.const?.map (evalUn op) := by
  unfold exprUnop at h
  split at h
  · next hop =>
      subst hop
      rw [const?_exprBinop h]
      cases e1.const? with
      | none => rfl
      | some c => exact congrArg some (BitVec.zero_sub c)
  · split at h
    · next c hc =>
        cases h
        rw [hc]
        rfl
    · next hc =>
        cases h
        rw [hc]
        rfl

/-! ### What they denote -/

namespace Expr

variable {ρ : Valuation}

theorem value_exprNode (lone : Bool) (op : BinTag) (e1 e2 : Expr) (s : Bool) :
    (exprNode lone op e1 e2).value ρ s = (Expr.binop op e1 e2).value ρ s := by
  unfold exprNode
  split
  · simp [BitVec.add_assoc]
  · split
    · simp only [value_plus, value_const]
      ring
    · rfl
  · rfl

/-- `expr_binop` denotes the operator applied to its operands. -/
theorem value_exprBinop {lone : Bool} {op : BinTag} {e1 e2 e : Expr}
    (h : exprBinop lone op e1 e2 = some e) (s : Bool) :
    e.value ρ s = (Expr.binop op e1 e2).value ρ s := by
  unfold exprBinop at h
  split at h
  · next c d hc hd =>
      obtain rfl := const?_eq_some.mp hc
      obtain rfl := const?_eq_some.mp hd
      obtain ⟨x, hx, rfl⟩ := Option.map_eq_some_iff.mp h
      rw [value_const, value_binop (by simpa using hx)]
  · split at h
    · next hc =>
        cases h
        rw [value_exprNode, value_swap (by simp_all)]
    · cases h
      exact value_exprNode lone op e1 e2 s

theorem value_exprUnop {op : UnTag} {e1 e : Expr} (h : exprUnop op e1 = some e) (s : Bool) :
    e.value ρ s = (Expr.unop op e1).value ρ s := by
  unfold exprUnop at h
  split at h
  · next hop =>
      subst hop
      rw [value_exprBinop h]
      simp [evalUn]
  · split at h
    · next c hc =>
        cases h
        obtain rfl := const?_eq_some.mp hc
        simp
    · cases h; rfl

theorem value_exprQuestop (cond iftrue ifnot : Expr) (h : ∀ l r, iftrue ≠ .binop .colon l r)
    (h' : ∀ l r, ifnot ≠ .binop .colon l r) (s : Bool) :
    (exprQuestop cond iftrue ifnot).value ρ s =
      (Expr.binop .quest cond (.binop .colon iftrue ifnot)).value ρ s := by
  unfold exprQuestop
  split
  · next c hc =>
      obtain rfl := const?_eq_some.mp hc
      rw [value_quest, value_colon, value_const]
      by_cases h0 : c = 0
      · rw [if_neg (by simpa using h0), h0, value_sel h']
        rfl
      · rw [if_pos h0, value_sel h, bne_iff_ne.mpr h0]
        rfl
  · rfl

/-- Adding never aborts. -/
theorem exprBinop_plus_isSome (lone : Bool) (e1 e2 : Expr) :
    (exprBinop lone .plus e1 e2).isSome = true := by
  unfold exprBinop
  split
  · simp [eval]
  · split <;> rfl

theorem value_exprAsgPlus {lone : Bool} {e1 e2 e : Expr} (h : exprAsgPlus lone e1 e2 = some e)
    (s : Bool) : e.value ρ s = e1.value ρ true + e2.value ρ true := by
  unfold exprAsgPlus at h
  split at h
  · cases h
    simp [BitVec.add_assoc]
  · rw [value_exprBinop h, value_plus]

theorem value_exprPlusConstant {lone : Bool} {e e' : Expr} {c : Word}
    (h : exprPlusConstant lone e c = some e') (s : Bool) :
    e'.value ρ s = e.value ρ true + c := by
  unfold exprPlusConstant at h
  split at h
  · cases h
    simp [BitVec.add_assoc]
  · rw [value_exprBinop h, value_plus, value_const]

end Expr

end Ttools
