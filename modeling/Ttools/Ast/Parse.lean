import Ttools.Expr.Build

/-!
# Parsing an expression

The rules of `expr` in `ast/parse.y`, with the precedences that are declared for yacc.  When the
right side of a rule has been read, the rule is reduced or the next token is shifted, whichever has
the higher precedence; of the same precedence `%left` reduces and `%right` shifts.

* `parse_syms`: of the tokens of an expression of C the parser makes the tree of C.
* `parse_wrong`: a label where an operand is expected, or an operand where none is, is no part of
  an expression.
* `build_value`: the actions make an expression out of the tree that has the value of C, if nothing
  is unsigned and no division of constants traps.
* `build_eq_none`: the actions do not survive such a division.
-/

namespace Ttools.Ast

/-! ### The parser -/

/-- The tokens of an expression; an operand is a token whose action gives an expression. -/
inductive Sym where
  | operand (x : Expr)
  | binop (t : BinTag)
  | not
  | compl
  | lparen
  | rparen
  | quest
  | colon
  | diglab
  | other

/-- The reductions, in a tree; `un none` is the unary plus, whose action is `$$ = $2`. -/
inductive Tree where
  | leaf (x : Expr)
  | un (op : Option UnTag) (e : Tree)
  | bin (t : BinTag) (l r : Tree)
  | cond (c a b : Tree)
  deriving DecidableEq

/-- The precedence of a binary operator, in the order of `%right` and `%left`. -/
def prec : BinTag → Nat
  | .quest | .colon => 0
  | .oror => 1
  | .andand => 2
  | .or => 3
  | .xor => 4
  | .and => 5
  | .eq | .ne => 6
  | .lt | .gt | .le | .ge => 7
  | .lsh | .rsh => 8
  | .plus | .minus => 9
  | .mul | .div | .rem => 10

/-- The precedence of `TOP`. -/
def precTop : Nat := 11

/-- What is on the stack before the operand that is being read. -/
inductive Frame where
  | bin (l : Tree) (t : BinTag)
  | un (op : Option UnTag)
  | paren
  | quest (c : Tree)
  | colon (c a : Tree)
  deriving DecidableEq

/-- The precedence of a token that can be shifted after an expression. -/
def Sym.prec? : Sym → Option Nat
  | .binop t => some (prec t)
  | .quest => some 0
  | _ => none

/-- The precedence of the next token. -/
def lookahead (ss : List Sym) : Option Nat := ss.head?.bind Sym.prec?

/-- The rule is reduced before a token of this precedence. -/
def Frame.reduces (la : Option Nat) : Frame → Bool
  | .bin _ t => la.all fun p => decide (p ≤ prec t)
  | .un _ => la.all fun p => decide (p ≤ precTop)
  | .colon _ _ => la.isNone
  | .paren => false
  | .quest _ => false

/-- The reduction. -/
def Frame.plug (e : Tree) : Frame → Tree
  | .bin l t => .bin t l e
  | .un op => .un op e
  | .colon c a => .cond c a e
  | .paren => e
  | .quest _ => e

/-- All the reductions before a token. -/
def settle (la : Option Nat) : List Frame → Tree → List Frame × Tree
  | [], e => ([], e)
  | f :: st, e => if f.reduces la = true then settle la st (f.plug e) else (f :: st, e)

/-- What a token does: it is shifted, or the expression ends before it, or it is an error. -/
inductive Move where
  | go (st : List Frame) (m : Option Tree)
  | stop (e : Tree)
  | error

/-- A token where an operand is expected. -/
def shiftOperand (st : List Frame) : Sym → Move
  | .operand x => .go st (some (.leaf x))
  | .lparen => .go (.paren :: st) none
  | .binop .plus => .go (.un none :: st) none
  | .binop .minus => .go (.un (some .neg) :: st) none
  | .not => .go (.un (some .not) :: st) none
  | .compl => .go (.un (some .compl) :: st) none
  | _ => .error

/-- A token after an expression. -/
def shiftOperator : List Frame → Tree → Sym → Move
  | st, e, .binop t => .go (.bin e t :: st) none
  | st, e, .quest => .go (.quest e :: st) none
  | .paren :: st, e, .rparen => .go st (some e)
  | .quest c :: st, e, .colon => .go (.colon c e :: st) none
  | [], e, _ => .stop e
  | _, _, _ => .error

/-- The parser, where an operand is expected or after an expression. -/
def move (st : List Frame) (m : Option Tree) (s : Sym) : Move :=
  match m with
  | none => shiftOperand st s
  | some e => shiftOperator (settle s.prec? st e).1 (settle s.prec? st e).2 s

/-- The expression at the beginning of the tokens, and what is after it; `none` is a syntax
error. -/
def parse : List Frame → Option Tree → List Sym → Option (Tree × List Sym)
  | _, none, [] => none
  | st, some e, [] => if (settle none st e).1 = [] then some ((settle none st e).2, []) else none
  | st, m, s :: ss =>
      match move st m s with
      | .go st m => parse st m ss
      | .stop e => some (e, s :: ss)
      | .error => none

section

variable {f : Frame} {st st' : List Frame} {m m' : Option Tree} {e : Tree} {s : Sym}
  {ss : List Sym}

theorem parse_go (h : move st m s = .go st' m') : parse st m (s :: ss) = parse st' m' ss := by
  rw [parse, h]

theorem parse_stop (h : move st m s = .stop e) : parse st m (s :: ss) = some (e, s :: ss) := by
  rw [parse, h]

theorem parse_error (h : move st m s = .error) : parse st m (s :: ss) = none := by
  rw [parse, h]

theorem settle_reduces {la : Option Nat} (h : f.reduces la = true) :
    settle la (f :: st) e = settle la st (f.plug e) := if_pos h

theorem parse_settle (h : f.reduces (lookahead ss) = true) :
    parse (f :: st) (some e) ss = parse st (some (f.plug e)) ss := by
  cases ss with
  | nil =>
      have hsettle : settle none (f :: st) e = settle none st (f.plug e) := settle_reduces h
      rw [parse, parse, hsettle]
  | cons s ss =>
      have hsettle : settle s.prec? (f :: st) e = settle s.prec? st (f.plug e) := settle_reduces h
      have hmove : move (f :: st) (some e) s = move st (some (f.plug e)) s := by
        rw [move, move, hsettle]
      rw [parse, parse, hmove]

end

/-! ### The expressions of C -/

/-- An expression of C, with its brackets. -/
inductive CExpr (α : Type) where
  | operand (x : α)
  | paren (e : CExpr α)
  | un (op : Option UnTag) (e : CExpr α)
  | bin (t : BinTag) (l r : CExpr α)
  | cond (c a b : CExpr α)

/-- The levels of the grammar of C: logical or, logical and, inclusive or, exclusive or, and,
equality, relational, shift, additive, multiplicative. -/
def cLevel : BinTag → Nat
  | .oror => 1
  | .andand => 2
  | .or => 3
  | .xor => 4
  | .and => 5
  | .eq | .ne => 6
  | .lt | .gt | .le | .ge => 7
  | .lsh | .rsh => 8
  | .plus | .minus => 9
  | .mul | .div | .rem => 10
  | .quest | .colon => 0

/-- A value of C, a `long` or an `unsigned long`. -/
structure CValue where
  unsigned : Bool
  word : Word
  deriving DecidableEq, Repr

/-- A binary operator of C, after the usual arithmetic conversions.  What C leaves undefined is as
in `eval`. -/
def cBin (t : BinTag) (a b : CValue) : CValue :=
  let u := a.unsigned || b.unsigned
  let signed := act t a.word b.word
  match t with
  | .lsh => ⟨a.unsigned, signed⟩
  | .rsh => ⟨a.unsigned, if a.unsigned then a.word >>> (b.word.toNat % 32) else signed⟩
  | .div => ⟨u, if u ∧ b.word ≠ 0 then a.word / b.word else signed⟩
  | .rem => ⟨u, if u ∧ b.word ≠ 0 then a.word % b.word else signed⟩
  | .lt => ⟨false, if u then ofBool (a.word.ult b.word) else signed⟩
  | .le => ⟨false, if u then ofBool (a.word.ule b.word) else signed⟩
  | .gt => ⟨false, if u then ofBool (b.word.ult a.word) else signed⟩
  | .ge => ⟨false, if u then ofBool (b.word.ule a.word) else signed⟩
  | .eq | .ne | .andand | .oror => ⟨false, signed⟩
  | _ => ⟨u, signed⟩

/-- A unary operator of C. -/
def cUn : Option UnTag → CValue → CValue
  | none, a => a
  | some .not, a => ⟨false, evalUn .not a.word⟩
  | some op, a => ⟨a.unsigned, evalUn op a.word⟩

/-- The conditional of C. -/
def cCond (c a b : CValue) : CValue :=
  ⟨a.unsigned || b.unsigned, if c.word ≠ 0 then a.word else b.word⟩

namespace CExpr

variable {α : Type}

/-- The level of an expression: conditional, binary, unary, primary. -/
def level : CExpr α → Nat
  | cond _ _ _ => 0
  | bin t _ _ => cLevel t
  | un _ _ => 11
  | paren _ => 12
  | operand _ => 12

/-- The grammar of C: binary operators associate to the left, the conditional to the right. -/
def WF : CExpr α → Prop
  | operand _ => True
  | paren e => e.WF
  | un _ e => e.WF ∧ 11 ≤ e.level
  | bin t l r => (l.WF ∧ cLevel t ≤ l.level) ∧ (r.WF ∧ cLevel t < r.level) ∧ 1 ≤ cLevel t
  | cond c a b => (c.WF ∧ 1 ≤ c.level) ∧ a.WF ∧ b.WF

/-- The token of a unary operator. -/
def unarySym : Option UnTag → Sym
  | none => .binop .plus
  | some .neg => .binop .minus
  | some .not => .not
  | some .compl => .compl

/-- The tokens, if the operands are read so. -/
def syms (read : α → Expr) : CExpr α → List Sym
  | operand x => [.operand (read x)]
  | paren e => .lparen :: (e.syms read ++ [.rparen])
  | un op e => unarySym op :: e.syms read
  | bin t l r => l.syms read ++ .binop t :: r.syms read
  | cond c a b => c.syms read ++ .quest :: (a.syms read ++ .colon :: b.syms read)

/-- The tree without the brackets. -/
def tree (read : α → Expr) : CExpr α → Tree
  | operand x => .leaf (read x)
  | paren e => e.tree read
  | un op e => .un op (e.tree read)
  | bin t l r => .bin t (l.tree read) (r.tree read)
  | cond c a b => .cond (c.tree read) (a.tree read) (b.tree read)

/-- The value, if the operands have these. -/
def value (v : α → CValue) : CExpr α → CValue
  | operand x => v x
  | paren e => e.value v
  | un op e => cUn op (e.value v)
  | bin t l r => cBin t (l.value v) (r.value v)
  | cond c a b => cCond (c.value v) (a.value v) (b.value v)

end CExpr

theorem prec_eq (t : BinTag) : prec t = cLevel t := by
  cases t <;> rfl

theorem prec_le (t : BinTag) : prec t ≤ 10 := by
  cases t <;> decide

/-- The rules on the stack wait for an operand of this level. -/
def Admits (n : Nat) : List Frame → Prop
  | .bin _ t :: _ => prec t < n
  | .un _ :: _ => 11 ≤ n
  | _ => True

/-- The next token ends an expression of this level. -/
def Closes (n : Nat) (la : Option Nat) : Prop := ∀ p ∈ la, p ≤ n ∧ 1 ≤ n

theorem closes_of_none {n : Nat} {la : Option Nat} (h : la = none) : Closes n la := by
  rintro p hp
  rw [h] at hp
  cases hp

theorem Admits.mono {n m : Nat} {st : List Frame} (h : Admits n st) (hnm : n ≤ m) :
    Admits m st := by
  match st with
  | [] => trivial
  | .bin _ t :: _ => exact lt_of_lt_of_le h hnm
  | .un _ :: _ => exact le_trans (show 11 ≤ n from h) hnm
  | .paren :: _ => trivial
  | .quest _ :: _ => trivial
  | .colon _ _ :: _ => trivial

/-- A token of a level that the stack admits is shifted. -/
theorem settle_of_admits {n : Nat} {st : List Frame} {e : Tree} (h : Admits n st) (hn : n ≤ 10) :
    settle (some n) st e = (st, e) := by
  match st with
  | [] => rfl
  | .bin _ t :: _ =>
      refine if_neg fun hred => ?_
      exact absurd (show prec t < n from h) (not_lt.mpr (of_decide_eq_true hred))
  | .un _ :: _ => exact absurd (show 11 ≤ n from h) (by omega)
  | .paren :: _ => rfl
  | .quest _ :: _ => rfl
  | .colon _ _ :: _ => rfl

theorem parse_unary (st : List Frame) (op : Option UnTag) (ss : List Sym) :
    parse st none (CExpr.unarySym op :: ss) = parse (.un op :: st) none ss := by
  refine parse_go ?_
  rcases op with _ | (_ | _ | _) <;> rfl

/-- The tokens of an expression are read as the expression. -/
theorem parse_syms {α : Type} (read : α → Expr) {e : CExpr α} (he : e.WF) {st : List Frame}
    {rest : List Sym} (hst : Admits e.level st) (hrest : Closes e.level (lookahead rest)) :
    parse st none (e.syms read ++ rest) = parse st (some (e.tree read)) rest := by
  induction e generalizing st rest with
  | operand x => exact parse_go rfl
  | paren e ih =>
      have hshift : move st none .lparen = .go (.paren :: st) none := rfl
      have hinner : Admits e.level (.paren :: st) := trivial
      rw [CExpr.syms, List.cons_append, List.append_assoc, parse_go hshift,
        ih he hinner (closes_of_none rfl)]
      exact parse_go rfl
  | un op e ih =>
      obtain ⟨he, hlevel⟩ := he
      have hla : ∀ p ∈ lookahead rest, p ≤ 11 := fun p hp => (hrest p hp).1
      rw [CExpr.syms, List.cons_append, parse_unary,
        ih he (show Admits e.level (.un op :: st) from hlevel)
          fun p hp => ⟨(hla p hp).trans hlevel, by omega⟩]
      refine parse_settle ?_
      rw [Frame.reduces, Option.all_eq_true]
      exact fun p hp => decide_eq_true (hla p hp)
  | bin t l r ihl ihr =>
      obtain ⟨⟨hl, hleft⟩, ⟨hr, hright⟩, hpos⟩ := he
      rw [CExpr.level, ← prec_eq] at hst hrest
      rw [← prec_eq] at hleft hright hpos
      have hshift : move st (some (l.tree read)) (.binop t) =
          .go (.bin (l.tree read) t :: st) none := by
        rw [move, Sym.prec?, settle_of_admits hst (prec_le t)]
        rfl
      rw [CExpr.syms, List.append_assoc, List.cons_append,
        ihl hl (hst.mono hleft) (by
          rintro p ⟨⟩
          exact ⟨hleft, hpos.trans hleft⟩),
        parse_go hshift,
        ihr hr (show Admits r.level (.bin (l.tree read) t :: st) from hright)
          fun p hp => ⟨(hrest p hp).1.trans hright.le, by omega⟩]
      refine parse_settle ?_
      rw [Frame.reduces, Option.all_eq_true]
      exact fun p hp => decide_eq_true (hrest p hp).1
  | cond c a b ihc iha ihb =>
      obtain ⟨⟨hc, hlevel⟩, ha, hb⟩ := he
      have hnone : lookahead rest = none :=
        Option.eq_none_iff_forall_not_mem.mpr fun p hp =>
          absurd (hrest p hp).2 (Nat.not_succ_le_zero 0)
      have hsettle : settle (some 0) st (c.tree read) = (st, c.tree read) :=
        settle_of_admits hst (Nat.zero_le _)
      have hshift : move st (some (c.tree read)) .quest =
          .go (.quest (c.tree read) :: st) none := by
        rw [move, Sym.prec?, hsettle]
        rfl
      have hcolon : move (.quest (c.tree read) :: st) (some (a.tree read)) .colon =
          .go (.colon (c.tree read) (a.tree read) :: st) none := rfl
      rw [CExpr.syms, List.append_assoc, List.cons_append, List.append_assoc, List.cons_append,
        ihc hc (hst.mono (Nat.zero_le _)) (by
          rintro p ⟨⟩
          exact ⟨Nat.zero_le _, hlevel⟩),
        parse_go hshift,
        iha ha (show Admits a.level (.quest (c.tree read) :: st) from trivial)
          (closes_of_none rfl),
        parse_go hcolon,
        ihb hb (show Admits b.level (.colon (c.tree read) (a.tree read) :: st) from trivial)
          (closes_of_none hnone)]
      refine parse_settle ?_
      rw [Frame.reduces, hnone]
      rfl

/-! ### What is no expression -/

/-- An operand is expected after the token. -/
def Sym.opens : Sym → Bool
  | .operand _ => false
  | .rparen => false
  | .diglab => false
  | .other => false
  | _ => true

/-- An operand is expected after the tokens. -/
def expects (ss : List Sym) : Bool := (ss.getLast?.map Sym.opens).getD true

/-- After a token that is shifted an operand is expected if the token has it so. -/
theorem move_go {st st' : List Frame} {m m' : Option Tree} {s : Sym}
    (h : move st m s = .go st' m') : m'.isNone = s.opens := by
  cases m with
  | none =>
      rw [move] at h
      unfold shiftOperand at h
      split at h <;> cases h <;> rfl
  | some e =>
      rw [move] at h
      unfold shiftOperator at h
      split at h <;> cases h <;> rfl

/-- After some tokens there has been an error, or the expression has ended before the rest, or an
operand is expected as the last token has it. -/
theorem parse_run (as : List Sym) (st : List Frame) (m : Option Tree) (h : m.isNone = true)
    (rest : List Sym) :
    (∀ e, parse st m (as ++ rest) ≠ some e ∨ rest.length < e.2.length) ∨
      ∃ st' m', parse st m (as ++ rest) = parse st' m' rest ∧ m'.isNone = expects as := by
  induction as using List.reverseRecOn generalizing rest with
  | nil => exact .inr ⟨st, m, rfl, h⟩
  | append_singleton as s ih =>
      rw [List.append_assoc, List.singleton_append]
      obtain hstop | ⟨st', m', heq, -⟩ := ih (s :: rest)
      · refine .inl fun e => (hstop e).imp id fun hlt => ?_
        rw [List.length_cons] at hlt
        omega
      · rw [heq]
        rcases hmove : move st' m' s with ⟨st'', m''⟩ | e' | _
        · refine .inr ⟨st'', m'', parse_go hmove, (move_go hmove).trans ?_⟩
          rw [expects, List.getLast?_concat]
          rfl
        · refine .inl fun e => ?_
          by_cases he : parse st' m' (s :: rest) = some e
          · rw [parse_stop hmove] at he
            obtain rfl := Option.some.inj he
            exact .inr (Nat.lt_succ_self _)
          · exact .inl he
        · refine .inl fun e => .inl ?_
          rw [parse_error hmove]
          exact (Option.some_ne_none e).symm

/-- A token in the wrong place is no part of an expression. -/
theorem parse_wrong {as bs rest : List Sym} {s : Sym}
    (hs : expects as = true ∧ s = .diglab ∨
      expects as = false ∧ (s = .other ∨ ∃ x, s = .operand x))
    (e : Tree) : parse [] none (as ++ s :: (bs ++ rest)) ≠ some (e, rest) := by
  intro heq
  have hlen : rest.length < (s :: (bs ++ rest)).length := by
    rw [List.length_cons, List.length_append]
    omega
  obtain hstop | ⟨st, m, hrun, hm⟩ := parse_run as [] none rfl (s :: (bs ++ rest))
  · exact (hstop (e, rest)).elim (fun hne => hne heq) fun hlt =>
      absurd (hlen.trans hlt) (lt_irrefl _)
  · rw [hrun] at heq
    obtain ⟨hexp, rfl⟩ | ⟨hexp, hs⟩ := hs
    · rw [hexp] at hm
      obtain rfl := Option.isNone_iff_eq_none.mp hm
      rw [parse_error rfl] at heq
      cases heq
    · rw [hexp] at hm
      cases m with
      | none => cases hm
      | some e' =>
          have hmove : move st (some e') s = .error ∨ ∃ e'', move st (some e') s = .stop e'' := by
            rw [move]
            rcases (settle s.prec? st e').1 with _ | ⟨f, st'⟩
            · obtain rfl | ⟨x, rfl⟩ := hs <;> exact .inr ⟨_, rfl⟩
            · obtain rfl | ⟨x, rfl⟩ := hs <;> cases f <;> exact .inl rfl
          obtain hmove | ⟨e'', hmove⟩ := hmove
          · rw [parse_error hmove] at heq
            cases heq
          · rw [parse_stop hmove] at heq
            rw [(Prod.mk.inj (Option.some.inj heq)).2] at hlen
            exact absurd hlen (lt_irrefl _)

/-! ### What the actions make -/

/-- The actions; `lone` is the answer to `nrefs == 1` for a left operand. -/
def Tree.build (lone : Tree → Bool) : Tree → Option Expr
  | .leaf x => some x
  | .un none e => e.build lone
  | .un (some op) e => (e.build lone).bind fun x => exprUnop op x
  | .bin t l r =>
      (l.build lone).bind fun x => (r.build lone).bind fun y => exprBinop (lone l) t x y
  | .cond c a b =>
      (c.build lone).bind fun x => (a.build lone).bind fun y => (b.build lone).bind fun z =>
        some (exprQuestop x y z)

/-- An expression is no `COLON` node. -/
def Proper (x : Expr) : Prop := ∀ l r, x ≠ .binop .colon l r

theorem exprNode_proper {t : BinTag} (ht : 1 ≤ cLevel t) (lone : Bool) (x y : Expr) :
    Proper (exprNode lone t x y) := by
  intro l r
  unfold exprNode
  split
  · exact fun h => nomatch h
  · split <;> exact fun h => nomatch h
  · rintro ⟨⟩
    cases ht

theorem exprBinop_proper {t : BinTag} (ht : 1 ≤ cLevel t) {lone : Bool} {x y z : Expr}
    (h : exprBinop lone t x y = some z) : Proper z := by
  unfold exprBinop at h
  split at h
  · obtain ⟨c, -, rfl⟩ := Option.map_eq_some_iff.mp h
    exact nofun
  · split at h
    · cases h
      exact exprNode_proper ht lone y x
    · cases h
      exact exprNode_proper ht lone x y

theorem exprUnop_proper {op : UnTag} {x z : Expr} (h : exprUnop op x = some z) : Proper z := by
  unfold exprUnop at h
  split at h
  · exact exprBinop_proper (by decide) h
  · split at h
    · cases h
      exact nofun
    · cases h
      exact nofun

theorem exprQuestop_proper {c x y : Expr} (hx : Proper x) (hy : Proper y) :
    Proper (exprQuestop c x y) := by
  unfold exprQuestop
  split
  · split
    · exact hx
    · exact hy
  · exact fun l r h => nomatch h

theorem const?_exprQuestop (c x y : Expr) : (exprQuestop c x y).const? =
    c.const?.bind fun d => if d ≠ 0 then x.const? else y.const? := by
  unfold exprQuestop
  split
  · next d hd =>
      rw [hd, Option.bind_some]
      split <;> rfl
  · next hd =>
      rw [hd]
      rfl

theorem value_act {ρ : Valuation} {t : BinTag} (ht : 1 ≤ cLevel t) (x y : Expr) :
    (Expr.binop t x y).value ρ true = act t (x.value ρ true) (y.value ρ true) := by
  cases t with
  | quest => cases ht
  | colon => cases ht
  | _ => rfl

/-- Without unsigned operands everything is a `long`. -/
theorem cBin_long (t : BinTag) (x y : Word) :
    cBin t ⟨false, x⟩ ⟨false, y⟩ = ⟨false, act t x y⟩ := by
  cases t <;> simp [cBin]

theorem cUn_long (op : UnTag) (x : Word) : cUn (some op) ⟨false, x⟩ = ⟨false, evalUn op x⟩ := by
  cases op <;> rfl

namespace CExpr

variable {α : Type}

/-- The value of an expression of constants, as the actions fold it. -/
def constant (read : α → Expr) : CExpr α → Option Word
  | operand x => (read x).const?
  | paren e => e.constant read
  | un none e => e.constant read
  | un (some op) e => (e.constant read).map (evalUn op)
  | bin t l r => constBin t (l.constant read) (r.constant read)
  | cond c a b =>
      (c.constant read).bind fun d => if d ≠ 0 then a.constant read else b.constant read

/-- No division of constants has a quotient that does not fit in a word. -/
def Fits (read : α → Expr) : CExpr α → Prop
  | operand _ => True
  | paren e => e.Fits read
  | un _ e => e.Fits read
  | bin t l r =>
      l.Fits read ∧ r.Fits read ∧ t.stuck (l.constant read) (r.constant read) = false
  | cond c a b => c.Fits read ∧ a.Fits read ∧ b.Fits read

end CExpr

section

variable {α : Type} {read : α → Expr} {e : CExpr α}

/-- The actions make an expression with the value of C, if the operands are read as expressions
that have the values of C, none of these is unsigned, and no division of constants traps. -/
theorem build_value (hread : ∀ x, Proper (read x)) (he : e.WF) (lone : Tree → Bool)
    (hfits : e.Fits read) :
    ∃ x, (e.tree read).build lone = some x ∧ (Proper x ∧ x.const? = e.constant read) ∧
      ∀ ρ, e.value (fun x => ⟨false, (read x).value ρ true⟩) = ⟨false, x.value ρ true⟩ := by
  induction e with
  | operand x => exact ⟨read x, rfl, ⟨hread x, rfl⟩, fun ρ => rfl⟩
  | paren e ih => exact ih he hfits
  | un op e ih =>
      obtain ⟨x, hx, ⟨hproper, hconst⟩, hvalue⟩ := ih he.1 hfits
      cases op with
      | none => exact ⟨x, hx, ⟨hproper, hconst⟩, hvalue⟩
      | some op =>
          obtain ⟨z, hz⟩ := exprUnop_isSome op x
          refine ⟨z, ?_, ⟨exprUnop_proper hz, ?_⟩, fun ρ => ?_⟩
          · rw [CExpr.tree, Tree.build, hx, Option.bind_some, hz]
          · rw [CExpr.constant, ← hconst, const?_exprUnop hz]
          · rw [CExpr.value, hvalue, cUn_long, Expr.value_exprUnop hz, Expr.value_unop]
  | bin t l r ihl ihr =>
      obtain ⟨⟨hl, -⟩, ⟨hr, -⟩, ht⟩ := he
      obtain ⟨hfl, hfr, hstuck⟩ := hfits
      obtain ⟨x, hx, ⟨-, hxc⟩, hxv⟩ := ihl hl hfl
      obtain ⟨y, hy, ⟨-, hyc⟩, hyv⟩ := ihr hr hfr
      rw [← hxc, ← hyc] at hstuck
      have hne : exprBinop (lone (l.tree read)) t x y ≠ none := fun h =>
        absurd (exprBinop_eq_none.mp h) (Bool.eq_false_iff.mp hstuck)
      obtain ⟨z, hz⟩ := Option.ne_none_iff_exists'.mp hne
      refine ⟨z, ?_, ⟨exprBinop_proper ht hz, ?_⟩, fun ρ => ?_⟩
      · rw [CExpr.tree, Tree.build, hx, hy, Option.bind_some, Option.bind_some, hz]
      · rw [CExpr.constant, ← hxc, ← hyc, const?_exprBinop hz]
      · rw [CExpr.value, hxv, hyv, cBin_long, Expr.value_exprBinop hz, value_act ht]
  | cond c a b ihc iha ihb =>
      obtain ⟨⟨hc, -⟩, ha, hb⟩ := he
      obtain ⟨hfc, hfa, hfb⟩ := hfits
      obtain ⟨x, hx, ⟨-, hxc⟩, hxv⟩ := ihc hc hfc
      obtain ⟨y, hy, ⟨hy', hyc⟩, hyv⟩ := iha ha hfa
      obtain ⟨z, hz, ⟨hz', hzc⟩, hzv⟩ := ihb hb hfb
      refine ⟨exprQuestop x y z, ?_, ⟨exprQuestop_proper hy' hz', ?_⟩, fun ρ => ?_⟩
      · rw [CExpr.tree, Tree.build, hx, hy, hz]
        rfl
      · rw [CExpr.constant, ← hxc, ← hyc, ← hzc, const?_exprQuestop]
      · rw [CExpr.value, hxv, hyv, hzv, Expr.value_exprQuestop x y z hy' hz', Expr.value_quest,
          Expr.value_colon, cCond]
        by_cases h : x.value ρ true = 0
        · rw [h, if_neg (not_not.mpr rfl)]
          rfl
        · rw [if_pos h, bne_iff_ne.mpr h]
          rfl

/-- A division of constants that traps is evaluated when it has been read. -/
theorem build_eq_none (hread : ∀ x, Proper (read x)) (he : e.WF) (lone : Tree → Bool)
    (hfits : ¬e.Fits read) : (e.tree read).build lone = none := by
  induction e with
  | operand x => exact absurd trivial hfits
  | paren e ih => exact ih he hfits
  | un op e ih =>
      cases op with
      | none => exact ih he.1 hfits
      | some op => rw [CExpr.tree, Tree.build, ih he.1 hfits, Option.bind_none]
  | bin t l r ihl ihr =>
      obtain ⟨⟨hl, -⟩, ⟨hr, -⟩, ht⟩ := he
      rw [CExpr.tree, Tree.build]
      by_cases hfl : l.Fits read
      · obtain ⟨x, hx, ⟨-, hxc⟩, -⟩ := build_value hread hl lone hfl
        rw [hx, Option.bind_some]
        by_cases hfr : r.Fits read
        · obtain ⟨y, hy, ⟨-, hyc⟩, -⟩ := build_value hread hr lone hfr
          rw [hy, Option.bind_some]
          refine exprBinop_eq_none.mpr (Bool.eq_true_of_not_eq_false fun hstuck => ?_)
          rw [hxc, hyc] at hstuck
          exact hfits ⟨hfl, hfr, hstuck⟩
        · rw [ihr hr hfr, Option.bind_none]
      · rw [ihl hl hfl, Option.bind_none]
  | cond c a b ihc iha ihb =>
      obtain ⟨⟨hc, -⟩, ha, hb⟩ := he
      rw [CExpr.tree, Tree.build]
      by_cases hfc : c.Fits read
      · obtain ⟨x, hx, -⟩ := build_value hread hc lone hfc
        rw [hx, Option.bind_some]
        by_cases hfa : a.Fits read
        · obtain ⟨y, hy, -⟩ := build_value hread ha lone hfa
          rw [hy, Option.bind_some, ihb hb fun hfb => hfits ⟨hfc, hfa, hfb⟩, Option.bind_none]
        · rw [iha ha hfa, Option.bind_none]
      · rw [ihc hc hfc, Option.bind_none]

end

/-! ### Types -/

/-- The result of the operator depends on whether the operand on that side is unsigned. -/
def signedLeft : BinTag → Bool
  | .rsh | .div | .rem | .lt | .le | .gt | .ge => true
  | _ => false

def signedRight : BinTag → Bool
  | .div | .rem | .lt | .le | .gt | .ge => true
  | _ => false

namespace CExpr

variable {α : Type}

/-- The type of an expression of C is `unsigned long`, not `long`. -/
def unsigned (u : α → Bool) : CExpr α → Bool
  | operand x => u x
  | paren e => e.unsigned u
  | un (some .not) _ => false
  | un _ e => e.unsigned u
  | bin t l r =>
      match t with
      | .lsh | .rsh => l.unsigned u
      | .lt | .le | .gt | .ge | .eq | .ne | .andand | .oror => false
      | _ => l.unsigned u || r.unsigned u
  | cond _ a b => a.unsigned u || b.unsigned u

/-- All operands have a property. -/
def All (P : α → Prop) : CExpr α → Prop
  | operand x => P x
  | paren e => e.All P
  | un _ e => e.All P
  | bin _ l r => l.All P ∧ r.All P
  | cond c a b => c.All P ∧ a.All P ∧ b.All P

/-- No operator whose result depends on it has an unsigned operand. -/
def Signed (u : α → Bool) : CExpr α → Prop
  | operand _ => True
  | paren e => e.Signed u
  | un _ e => e.Signed u
  | bin t l r =>
      (l.Signed u ∧ (signedLeft t = true → l.unsigned u = false)) ∧
        (r.Signed u ∧ (signedRight t = true → r.unsigned u = false))
  | cond c a b => c.Signed u ∧ a.Signed u ∧ b.Signed u

theorem All.imp {P Q : α → Prop} {e : CExpr α} (h : e.All P) (himp : ∀ x, P x → Q x) :
    e.All Q := by
  induction e with
  | operand x => exact himp x h
  | paren e ih => exact ih h
  | un op e ih => exact ih h
  | bin t l r ihl ihr => exact ⟨ihl h.1, ihr h.2⟩
  | cond c a b ihc iha ihb => exact ⟨ihc h.1, iha h.2.1, ihb h.2.2⟩

end CExpr

section

variable {α : Type} {e : CExpr α}

theorem unsigned_value (v : α → CValue) :
    (e.value v).unsigned = e.unsigned fun x => (v x).unsigned := by
  induction e with
  | operand x => rfl
  | paren e ih => exact ih
  | un op e ih =>
      rcases op with _ | (_ | _ | _)
      · exact ih
      · exact ih
      · rfl
      · exact ih
  | bin t l r ihl ihr =>
      cases t <;> simp only [CExpr.value, CExpr.unsigned, cBin, ihl, ihr]
  | cond c a b ihc iha ihb => simp only [CExpr.value, CExpr.unsigned, cCond, iha, ihb]

theorem word_cBin {t : BinTag} {a b : CValue} (ha : signedLeft t = true → a.unsigned = false)
    (hb : signedRight t = true → b.unsigned = false) :
    (cBin t a b).word = act t a.word b.word := by
  cases t with
  | rsh => simp [cBin, ha rfl]
  | div | rem | lt | le | gt | ge => simp [cBin, ha rfl, hb rfl]
  | _ => rfl

theorem word_cUn (op : UnTag) (a : CValue) : (cUn (some op) a).word = evalUn op a.word := by
  cases op <;> rfl

/-- The value is that of the constants as `long`s. -/
theorem word_value {v w : α → CValue} (h : e.Signed fun x => (v x).unsigned)
    (hw : ∀ x, (w x).unsigned = false) (hword : e.All fun x => (v x).word = (w x).word) :
    (e.value v).word = (e.value w).word := by
  have hlong (f : CExpr α) : (f.value w).unsigned = false := by
    rw [unsigned_value]
    induction f with
    | operand x => exact hw x
    | paren f ih => exact ih
    | un op f ih => rcases op with _ | (_ | _ | _) <;> first | rfl | exact ih
    | bin t l r ihl ihr => cases t <;> simp only [CExpr.unsigned, ihl, ihr, Bool.or_self]
    | cond c a b ihc iha ihb => simp only [CExpr.unsigned, iha, ihb, Bool.or_self]
  induction e with
  | operand x => exact hword
  | paren e ih => exact ih h hword
  | un op e ih =>
      cases op with
      | none => exact ih h hword
      | some op => rw [CExpr.value, CExpr.value, word_cUn, word_cUn, ih h hword]
  | bin t l r ihl ihr =>
      obtain ⟨⟨hl, htl⟩, hr, htr⟩ := h
      rw [CExpr.value, CExpr.value, word_cBin, word_cBin (fun _ => hlong l) fun _ => hlong r,
        ihl hl hword.1, ihr hr hword.2]
      · rwa [unsigned_value]
      · rwa [unsigned_value]
  | cond c a b ihc iha ihb =>
      obtain ⟨hc, ha, hb⟩ := h
      rw [CExpr.value, CExpr.value, cCond, cCond, ihc hc hword.1, iha ha hword.2.1,
        ihb hb hword.2.2]

end

end Ttools.Ast
