import Ttools.Expr.Build
import Ttools.Format.Number

/-!
# Expressions in a LIT file

`lit_out_expr` (`shared/litout.c`) writes an expression in reverse Polish form, `lit_in_expr`
(`shared/litin.c`) reads it with a stack of expressions, rebuilding every operator node through
`expr_unop` and `expr_binop`.

* `litInLoop_litOutNode`: on the bytes of an expression the loop pushes `rebuild e`, what the
  constructors make of it, with the reader's names and elements (`reindex`), and goes on with what
  follows.
* `rebuild_isSome`: this is defined unless `expr_binop` hands `eval` two constants for which it has
  no value (`armsOk`): the arms of a `COLON`, or a division whose quotient does not fit in a word.
* `litInExpr_litOutExpr`: reading back what was written succeeds with the written value
  exactly when `armsOk`.
-/

namespace Ttools

/-- `enum expr_tag`. -/
inductive Tag where
  | const | name
  | un (t : UnTag)
  | bin (t : BinTag)
  | range | element | elsum
  deriving DecidableEq, Repr

/-- The enumerators of `enum expr_tag`, in order. -/
def tagTable : List Tag :=
  [.const, .name,
    .un .neg, .un .not, .un .compl,
    .bin .minus, .bin .plus,
    .bin .lsh, .bin .rsh,
    .bin .mul, .bin .div, .bin .rem,
    .bin .and, .bin .xor, .bin .or,
    .bin .lt, .bin .le, .bin .gt, .bin .ge, .bin .eq, .bin .ne,
    .bin .andand, .bin .oror,
    .bin .quest, .bin .colon,
    .range, .element, .elsum]

/-- The value of an enumerator. -/
def Tag.code (t : Tag) : Word := BitVec.ofNat 32 (tagTable.idxOf t)

/-- The enumerator with a value; `none` outside `[0, EXPR_TAG_COUNT)`. -/
def tagOf (n : Word) : Option Tag := if n.slt 0 then none else tagTable[n.toNat]?

/-- `LIT_EXPR_END`. -/
def litExprEnd : Word := 250

theorem tagOf_code (t : Tag) : tagOf t.code = some t := by
  cases t with
  | un t => cases t <;> decide
  | bin t => cases t <;> decide
  | _ => decide

theorem code_ne_end (t : Tag) : t.code ≠ litExprEnd := by
  cases t with
  | un t => cases t <;> decide
  | bin t => cases t <;> decide
  | _ => decide

/-! ### Writing -/

/-- `np->index` and `el->index`: what the object file calls a name and an element. -/
structure Indices where
  name : NameId → Word
  element : ElemId → Word

/-- The member loop of `EXPR_ELSUM`.  A member that is not an `ELEMENT` has no `u.element`. -/
def litOutMembers (ix : Indices) : List Expr → Option (List Byte)
  | [] => some (litOutNumber (-1))
  | .element el :: v =>
      if (ix.element el).slt 0 then none
      else (litOutMembers ix v).map (litOutNumber (ix.element el) ++ ·)
  | _ :: _ => none

/-- `lit_out_expr` below the top; `none` is a failed assertion. -/
def litOutNode (ix : Indices) : Expr → Option (List Byte)
  | .const c => some (litOutNumber Tag.const.code ++ litOutNumber c)
  | .name np =>
      if (ix.name np).slt 0 then none
      else some (litOutNumber Tag.name.code ++ litOutNumber (ix.name np))
  | .element el =>
      if (ix.element el).slt 0 then none
      else some (litOutNumber Tag.element.code ++ litOutNumber (ix.element el))
  | .elsum v => (litOutMembers ix v).map (litOutNumber Tag.elsum.code ++ ·)
  | .range lo hi => some (litOutNumber Tag.range.code ++ litOutNumber lo ++ litOutNumber hi)
  | .unop t r => do
      let br ← litOutNode ix r
      some (br ++ litOutNumber (Tag.un t).code)
  | .binop t l r => do
      let bl ← litOutNode ix l
      let br ← litOutNode ix r
      some (bl ++ br ++ litOutNumber (Tag.bin t).code)

/-- `lit_out_expr`. -/
def litOutExpr (ix : Indices) (e : Expr) : Option (List Byte) :=
  (litOutNode ix e).map (· ++ litOutNumber litExprEnd)

/-! ### Reading -/

/-- `name_by_index` and `element_by_index`, which the program supplies. -/
structure ByIndex where
  name : Word → NameId
  element : Word → ElemId

/-- The member loop of `EXPR_ELSUM`. -/
def litInMembers (by_ : ByIndex) : Nat → Reader (List Expr)
  | 0 => fatal
  | fuel + 1 => do
      let tag ← litInNumber
      if tag = -1 then return []
      let v ← litInMembers by_ fuel
      return .element (by_.element tag) :: v

/-- What a constructor returns, or its `abort ()`. -/
def built {α : Type} (o : Option α) : Reader α := fun f => o.map fun a => (a, f)

/-- One round of the loop of `lit_in_expr`, after its tag has been read, with the top of `estack`
first. -/
def litInStep (by_ : ByIndex) (estack : List Expr) : Tag → Reader (List Expr)
  | .const => do
      let c ← litInNumber
      return .const c :: estack
  | .name => do
      let n ← litInNumber
      return .name (by_.name n) :: estack
  | .element => do
      let n ← litInNumber
      return .element (by_.element n) :: estack
  | .elsum => do
      let v ← fun f => litInMembers by_ (f.bytes.length + 1) f
      return .elsum v :: estack
  | .range => do
      let lo ← litInNumber
      let hi ← litInNumber
      return .range lo hi :: estack
  | .un t =>
      match estack with
      | r :: estack => (· :: estack) <$> built (exprUnop t r)
      | [] => fatal                       -- "no operand for unary operator"
  | .bin t =>
      match estack with
      -- the operands are owned by the stack alone
      | r :: l :: estack => (· :: estack) <$> built (exprBinop true t l r)
      | _ => fatal                        -- "no operands for binary operator"

/-- The loop that `lit_in_expr` and `lit_load_in_expr` have in common: read a tag, do a round of
`step`, until `LIT_EXPR_END`.  Every round reads a byte, so the number of bytes left bounds the
rounds. -/
def polishLoop {α : Type} (number : Reader Word) (step : List α → Tag → Reader (List α)) :
    Nat → List α → Reader α
  | 0, _ => fatal
  | fuel + 1, estack => do
      let tag ← number
      if tag = litExprEnd then
        match estack with
        | [e] => return e
        | _ => fatal                      -- "premature LIT_EXPR_END"
      else
        match tagOf tag with
        | none => fatal                   -- "invalid expression tag"
        | some t => do
            let estack ← step estack t
            polishLoop number step fuel estack

/-- The loop of `lit_in_expr`. -/
def litInLoop (by_ : ByIndex) : Nat → List Expr → Reader Expr :=
  polishLoop litInNumber (litInStep by_)

/-- `lit_in_expr`. -/
def litInExpr (by_ : ByIndex) : Reader Expr := fun f =>
  litInLoop by_ (f.bytes.length + 1) [] f

/-! ### What reading makes of an expression -/

namespace Expr

/-- The expression with every operator node put through its constructor. -/
def rebuild : Expr → Option Expr
  | .unop t r => do
      let r ← rebuild r
      exprUnop t r
  | .binop t l r => do
      let l ← rebuild l
      let r ← rebuild r
      exprBinop true t l r
  | e => some e

/-- The expression with the names and elements that the reader finds under the written indices. -/
def reindex (ix : Indices) (by_ : ByIndex) : Expr → Expr
  | .name np => .name (by_.name (ix.name np))
  | .element el => .element (by_.element (ix.element el))
  | .elsum v => .elsum (v.map fun
      | .element el => .element (by_.element (ix.element el))
      | m => m)
  | .unop t r => .unop t (reindex ix by_ r)
  | .binop t l r => .binop t (reindex ix by_ l) (reindex ix by_ r)
  | e => e

/-- The constant that the constructors fold the expression to. -/
def folded : Expr → Option Word
  | .const c => some c
  | .unop t r => (folded r).map (evalUn t)
  | .binop t l r => constBin t (folded l) (folded r)
  | _ => none

/-- No operator has two constants on which `eval` has no value: no `QUEST` or `COLON` has two, and
no division of two has a quotient that does not fit in a word. -/
def armsOk : Expr → Bool
  | .unop _ r => armsOk r
  | .binop t l r => armsOk l && armsOk r && !t.stuck (folded l) (folded r)
  | _ => true

/-- Reading folds what the constructors fold. -/
theorem const?_rebuild {e e' : Expr} (h : rebuild e = some e') : e'.const? = folded e := by
  induction e generalizing e' with
  | unop t r ih =>
      obtain ⟨r', hr, he⟩ := Option.bind_eq_some_iff.mp h
      rw [const?_exprUnop he, ih hr, folded]
  | binop t l r ihl ihr =>
      obtain ⟨l', hl, h⟩ := Option.bind_eq_some_iff.mp h
      obtain ⟨r', hr, he⟩ := Option.bind_eq_some_iff.mp h
      rw [const?_exprBinop he, ihl hl, ihr hr, folded]
  | _ => cases h; rfl

/-- Reading rebuilds an expression exactly when `eval` has a value for all that it folds. -/
theorem rebuild_isSome (e : Expr) : (∃ e', rebuild e = some e') ↔ armsOk e = true := by
  induction e with
  | unop t r ih =>
      rw [armsOk, ← ih]
      constructor
      · rintro ⟨e', h⟩
        obtain ⟨r', hr, -⟩ := Option.bind_eq_some_iff.mp h
        exact ⟨r', hr⟩
      · rintro ⟨r', hr⟩
        obtain ⟨e', he⟩ := exprUnop_isSome t r'
        exact ⟨e', by rw [rebuild, hr]; exact he⟩
  | binop t l r ihl ihr =>
      have hstuck {l' r' : Expr} (hl : rebuild l = some l') (hr : rebuild r = some r') :
          (∃ e', exprBinop true t l' r' = some e') ↔ (!t.stuck (folded l) (folded r)) = true := by
        rw [← Option.ne_none_iff_exists', ne_eq, exprBinop_eq_none, const?_rebuild hl,
          const?_rebuild hr, Bool.not_eq_true, Bool.not_eq_true']
      rw [armsOk, Bool.and_eq_true, Bool.and_eq_true, ← ihl, ← ihr]
      constructor
      · rintro ⟨e', h⟩
        obtain ⟨l', hl, h⟩ := Option.bind_eq_some_iff.mp h
        obtain ⟨r', hr, he⟩ := Option.bind_eq_some_iff.mp h
        exact ⟨⟨⟨l', hl⟩, r', hr⟩, (hstuck hl hr).mp ⟨e', he⟩⟩
      · rintro ⟨⟨⟨l', hl⟩, r', hr⟩, hok⟩
        obtain ⟨e', he⟩ := (hstuck hl hr).mpr hok
        exact ⟨e', by rw [rebuild, hl, hr]; exact he⟩
  | _ => exact ⟨fun _ => rfl, fun _ => ⟨_, rfl⟩⟩

/-- What is rebuilt denotes what was written. -/
theorem value_rebuild {ρ : Valuation} {e e' : Expr} (h : rebuild e = some e') (s : Bool) :
    e'.value ρ s = e.value ρ s := by
  induction e generalizing e' s with
  | unop t r ih =>
      obtain ⟨r', hr, he⟩ := Option.bind_eq_some_iff.mp h
      rw [value_exprUnop he, value_unop, value_unop, ih hr]
  | binop t l r ihl ihr =>
      obtain ⟨l', hl, h⟩ := Option.bind_eq_some_iff.mp h
      obtain ⟨r', hr, he⟩ := Option.bind_eq_some_iff.mp h
      rw [value_exprBinop he]
      exact value_binop_congr s (fun s => ihl hl s) (fun s => ihr hr s)
  | _ => cases h; rfl

end Expr

/-! ### Reading after writing -/

section Polish

variable {α : Type} {number : Reader Word} {step : List α → Tag → Reader (List α)}

/-- The loop on the code of a tag. -/
theorem polishLoop_code (hn : ∀ n, Reads number (litOutNumber n) n) (fuel : Nat) (st : List α)
    (t : Tag) (rest : List Byte) (k : Nat) :
    polishLoop number step (fuel + 1) st ⟨litOutNumber t.code ++ rest, k⟩ =
      (step st t ⟨rest, k⟩).bind fun p => polishLoop number step fuel p.1 p.2 := by
  conv_lhs => unfold polishLoop
  rw [Reader.bind_apply, hn]
  simp only [Option.bind_some, if_neg (code_ne_end t), tagOf_code]
  rfl

/-- The loop at the end mark. -/
theorem polishLoop_end (hn : ∀ n, Reads number (litOutNumber n) n) (fuel : Nat) (a : α)
    (rest : List Byte) (k : Nat) :
    polishLoop number step (fuel + 1) [a] ⟨litOutNumber litExprEnd ++ rest, k⟩ =
      some (a, ⟨rest, k⟩) := by
  unfold polishLoop
  rw [Reader.bind_apply, hn]
  simp

/-- A leaf: one round pushes it. -/
theorem polishLoop_leaf (hn : ∀ n, Reads number (litOutNumber n) n) {t : Tag} {out : List Byte}
    {st : List α} {a : α} (h : Reads (step st t) out (a :: st)) (fuel : Nat) (rest : List Byte)
    (k : Nat) :
    polishLoop number step (fuel + 1) st ⟨litOutNumber t.code ++ out ++ rest, k⟩ =
      polishLoop number step fuel (a :: st) ⟨rest, k⟩ := by
  rw [List.append_assoc, polishLoop_code hn, h]
  rfl

end Polish

theorem litOutNumber_ne_nil (n : Word) : 0 < (litOutNumber n).length := by
  unfold litOutNumber litOutMagnitude
  grind

variable {ix : Indices} {by_ : ByIndex}

theorem litInMembers_litOutMembers (by_ : ByIndex) {v : List Expr} {out : List Byte}
    (h : litOutMembers ix v = some out) {fuel : Nat} (hf : out.length < fuel) :
    ∃ w, (Expr.elsum v).reindex ix by_ = .elsum w ∧ Reads (litInMembers by_ fuel) out w := by
  induction v generalizing out fuel with
  | nil =>
      cases h
      obtain ⟨fuel, rfl⟩ := Nat.exists_eq_succ_of_ne_zero (by omega : fuel ≠ 0)
      refine ⟨[], rfl, fun rest k => ?_⟩
      rw [litInMembers, Reader.bind_apply, litInNumber_litOutNumber]
      rfl
  | cons m v ih =>
      cases m with
      | element el =>
          rw [litOutMembers] at h
          split at h
          · cases h
          · next hneg =>
              obtain ⟨out, hv, rfl⟩ := Option.map_eq_some_iff.mp h
              have hl := litOutNumber_ne_nil (ix.element el)
              rw [List.length_append] at hf
              obtain ⟨fuel, rfl⟩ := Nat.exists_eq_succ_of_ne_zero (by omega : fuel ≠ 0)
              have hne : ix.element el ≠ -1 := fun h => hneg (by rw [h]; decide)
              obtain ⟨w, hw, ih⟩ := ih hv (by omega : out.length < fuel)
              cases hw
              refine ⟨_, rfl, fun rest k => ?_⟩
              rw [litInMembers, Reader.bind_apply, List.append_assoc, litInNumber_litOutNumber]
              simp only [Option.bind_some, if_neg hne, Reader.bind_apply, ih rest k]
              rfl
      | _ => cases h

theorem litInStep_un (st : List Expr) (t : UnTag) (r : Expr) (f : LitIn) :
    litInStep by_ (r :: st) (.un t) f = (exprUnop t r).map fun e => (e :: st, f) := by
  rw [litInStep, Reader.map_apply, built, Option.map_map]
  rfl

theorem litInStep_bin (st : List Expr) (t : BinTag) (l r : Expr) (f : LitIn) :
    litInStep by_ (r :: l :: st) (.bin t) f =
      (exprBinop true t l r).map fun e => (e :: st, f) := by
  rw [litInStep, Reader.map_apply, built, Option.map_map]
  rfl

/-- On the bytes of an expression the loop pushes what the constructors make of it, in at most
as many rounds as there are bytes. -/
theorem litInLoop_litOutNode (by_ : ByIndex) {e : Expr} {out : List Byte}
    (h : litOutNode ix e = some out) :
    ∃ n ≤ out.length, ∀ fuel st rest k, litInLoop by_ (fuel + n) st ⟨out ++ rest, k⟩ =
      (Expr.rebuild (e.reindex ix by_)).bind fun e' =>
        litInLoop by_ fuel (e' :: st) ⟨rest, k⟩ := by
  induction e generalizing out with
  | const c =>
      cases h
      refine ⟨1, by have := litOutNumber_ne_nil c; simp; omega, fun fuel st rest k => ?_⟩
      refine polishLoop_leaf litInNumber_litOutNumber (t := .const) (fun rest k => ?_) fuel rest k
      simp only [litInStep, Reader.bind_apply, litInNumber_litOutNumber c rest k]
      rfl
  | name np =>
      rw [litOutNode] at h
      split at h
      · cases h
      · cases h
        refine ⟨1, by have := litOutNumber_ne_nil (ix.name np); simp; omega,
          fun fuel st rest k => ?_⟩
        refine polishLoop_leaf litInNumber_litOutNumber (t := .name) (fun rest k => ?_)
          fuel rest k
        simp only [litInStep, Reader.bind_apply, litInNumber_litOutNumber _ rest k]
        rfl
  | element el =>
      rw [litOutNode] at h
      split at h
      · cases h
      · cases h
        refine ⟨1, by have := litOutNumber_ne_nil (ix.element el); simp; omega,
          fun fuel st rest k => ?_⟩
        refine polishLoop_leaf litInNumber_litOutNumber (t := .element) (fun rest k => ?_)
          fuel rest k
        simp only [litInStep, Reader.bind_apply, litInNumber_litOutNumber _ rest k]
        rfl
  | range lo hi =>
      cases h
      refine ⟨1, by have := litOutNumber_ne_nil lo; simp; omega, fun fuel st rest k => ?_⟩
      rw [List.append_assoc (litOutNumber _)]
      refine polishLoop_leaf litInNumber_litOutNumber (t := .range) (fun rest k => ?_) fuel rest k
      rw [List.append_assoc]
      simp only [litInStep, Reader.bind_apply, litInNumber_litOutNumber lo _ k, Option.bind_some,
        litInNumber_litOutNumber hi rest k]
      rfl
  | elsum v _ =>
      obtain ⟨out, hv, rfl⟩ := Option.map_eq_some_iff.mp h
      refine ⟨1, ?_, fun fuel st rest k => ?_⟩
      · have := litOutNumber_ne_nil Tag.elsum.code
        rw [List.length_append]
        omega
      · obtain ⟨w, hw, -⟩ := litInMembers_litOutMembers by_ hv (Nat.lt_succ_self _)
        rw [hw]
        refine polishLoop_leaf litInNumber_litOutNumber (t := .elsum) (fun rest k => ?_)
          fuel rest k
        obtain ⟨w', hw', hm⟩ := litInMembers_litOutMembers by_ hv
          (by simp : out.length < (out ++ rest).length + 1)
        obtain rfl : w = w' := by rw [hw] at hw'; exact Expr.elsum.inj hw'
        simp only [litInStep, Reader.bind_apply, hm rest k]
        rfl
  | unop t r ih =>
      obtain ⟨br, hr, h⟩ := Option.bind_eq_some_iff.mp h
      cases h
      obtain ⟨n, hn, ih⟩ := ih hr
      refine ⟨n + 1, ?_, fun fuel st rest k => ?_⟩
      · have := litOutNumber_ne_nil (Tag.un t).code
        rw [List.length_append]
        omega
      · rw [show fuel + (n + 1) = fuel + 1 + n by omega, List.append_assoc, ih, Expr.reindex,
          Expr.rebuild]
        rcases Expr.rebuild (r.reindex ix by_) with _ | r'
        · rfl
        · rw [Option.bind_some, litInLoop, polishLoop_code litInNumber_litOutNumber, litInStep_un]
          show _ = (exprUnop t r').bind _
          cases exprUnop t r' <;> rfl
  | binop t l r ihl ihr =>
      obtain ⟨bl, hl, h⟩ := Option.bind_eq_some_iff.mp h
      obtain ⟨br, hr, h⟩ := Option.bind_eq_some_iff.mp h
      cases h
      obtain ⟨n, hn, ihl⟩ := ihl hl
      obtain ⟨m, hm, ihr⟩ := ihr hr
      refine ⟨n + m + 1, ?_, fun fuel st rest k => ?_⟩
      · have := litOutNumber_ne_nil (Tag.bin t).code
        rw [List.length_append, List.length_append]
        omega
      · rw [show fuel + (n + m + 1) = fuel + 1 + m + n by omega, List.append_assoc,
          List.append_assoc, ihl, Expr.reindex, Expr.rebuild]
        rcases Expr.rebuild (l.reindex ix by_) with _ | l'
        · rfl
        · simp only [Option.bind_some]
          rw [ihr]
          rcases Expr.rebuild (r.reindex ix by_) with _ | r'
          · rfl
          · rw [Option.bind_some, litInLoop, polishLoop_code litInNumber_litOutNumber,
              litInStep_bin]
            show _ = (exprBinop true t l' r').bind _
            cases exprBinop true t l' r' <;> rfl

/-- Reading back the bytes of an expression gives what the constructors make of it. -/
theorem litInExpr_rebuild {e : Expr} {out : List Byte} (h : litOutExpr ix e = some out)
    (rest : List Byte) (k : Nat) :
    litInExpr by_ ⟨out ++ rest, k⟩ =
      (Expr.rebuild (e.reindex ix by_)).map fun e' => (e', ⟨rest, k⟩) := by
  obtain ⟨out, hout, rfl⟩ := Option.map_eq_some_iff.mp h
  obtain ⟨n, hn, hloop⟩ := litInLoop_litOutNode by_ hout
  have hend := litOutNumber_ne_nil litExprEnd
  unfold litInExpr
  simp only [List.append_assoc, List.length_append]
  obtain ⟨fuel, hfuel⟩ : ∃ fuel,
      out.length + ((litOutNumber litExprEnd).length + rest.length) + 1 = fuel + 1 + n :=
    ⟨out.length - n + (litOutNumber litExprEnd).length + rest.length, by omega⟩
  rw [hfuel, hloop]
  rcases Expr.rebuild (e.reindex ix by_) with _ | e'
  · rfl
  · exact polishLoop_end litInNumber_litOutNumber fuel e' rest k

/-! ### The reader's names and elements -/

/-- The lookups find again what has an index. -/
structure Inverts (by_ : ByIndex) (ix : Indices) : Prop where
  name : ∀ np, (ix.name np).slt 0 = false → by_.name (ix.name np) = np
  element : ∀ el, (ix.element el).slt 0 = false → by_.element (ix.element el) = el

namespace Expr

theorem folded_reindex (e : Expr) : (e.reindex ix by_).folded = e.folded := by
  induction e with
  | unop t r ih => rw [reindex, folded, folded, ih]
  | binop t l r ihl ihr => rw [reindex, folded, folded, ihl, ihr]
  | _ => rfl

/-- Which indices are used has no bearing on what is folded. -/
theorem armsOk_reindex (e : Expr) : (e.reindex ix by_).armsOk = e.armsOk := by
  induction e with
  | unop t r ih => rw [reindex, armsOk, armsOk, ih]
  | binop t l r ihl ihr =>
      rw [reindex, armsOk, armsOk, ihl, ihr, folded_reindex, folded_reindex]
  | _ => rfl

theorem reindex_members (hby : Inverts by_ ix) {v : List Expr} {out : List Byte}
    (h : litOutMembers ix v = some out) : (Expr.elsum v).reindex ix by_ = .elsum v := by
  induction v generalizing out with
  | nil => rfl
  | cons m v ih =>
      cases m with
      | element el =>
          rw [litOutMembers] at h
          split at h
          · cases h
          · next hneg =>
              obtain ⟨out, hv, -⟩ := Option.map_eq_some_iff.mp h
              have hm := hby.element el (by simpa using hneg)
              have ih := Expr.elsum.inj (ih hv)
              simp only [reindex, List.map_cons, hm, ih]
      | _ => cases h

/-- Under inverse lookups an expression is read with the names and elements it was written
with. -/
theorem reindex_eq (hby : Inverts by_ ix) {e : Expr} {out : List Byte}
    (h : litOutNode ix e = some out) : e.reindex ix by_ = e := by
  induction e generalizing out with
  | name np =>
      rw [litOutNode] at h
      split at h
      · cases h
      · next hneg => rw [reindex, hby.name np (by simpa using hneg)]
  | element el =>
      rw [litOutNode] at h
      split at h
      · cases h
      · next hneg => rw [reindex, hby.element el (by simpa using hneg)]
  | elsum v _ =>
      obtain ⟨out, hv, -⟩ := Option.map_eq_some_iff.mp h
      exact reindex_members hby hv
  | unop t r ih =>
      obtain ⟨br, hr, -⟩ := Option.bind_eq_some_iff.mp h
      rw [reindex, ih hr]
  | binop t l r ihl ihr =>
      obtain ⟨bl, hl, h⟩ := Option.bind_eq_some_iff.mp h
      obtain ⟨br, hr, -⟩ := Option.bind_eq_some_iff.mp h
      rw [reindex, ihl hl, ihr hr]
  | _ => rfl

end Expr

/-- **Expressions survive the file** exactly when no `QUEST` or `COLON` in them has two operands
that fold to constants, and no division of such operands has a quotient that does not fit in a word:
then the bytes are consumed, and no others, and what is read denotes what was written. -/
theorem litInExpr_litOutExpr (hby : Inverts by_ ix) {e : Expr} {out : List Byte}
    (h : litOutExpr ix e = some out) (rest : List Byte) (k : Nat) :
    (∃ e', litInExpr by_ ⟨out ++ rest, k⟩ = some (e', ⟨rest, k⟩) ∧
      ∀ ρ s, e'.value ρ s = e.value ρ s) ↔ e.armsOk = true := by
  obtain ⟨_, hnode, -⟩ := Option.map_eq_some_iff.mp h
  rw [litInExpr_rebuild h, Expr.reindex_eq hby hnode, ← Expr.rebuild_isSome]
  constructor
  · rintro ⟨e', hread, -⟩
    obtain ⟨e'', he, -⟩ := Option.map_eq_some_iff.mp hread
    exact ⟨e'', he⟩
  · rintro ⟨e', he⟩
    exact ⟨e', by rw [he]; rfl, fun ρ s => Expr.value_rebuild he s⟩

/-- Names and elements numbered in order, as far as the numbers go; `-1` is "illegal, to be reset
or caught". -/
def Indices.inOrder : Indices where
  name np := if np < 2 ^ 31 then BitVec.ofNat 32 np else -1
  element el := if el < 2 ^ 31 then BitVec.ofNat 32 el else -1

/-- The tables that go with `Indices.inOrder`. -/
def ByIndex.inOrder : ByIndex where
  name := BitVec.toNat
  element := BitVec.toNat

theorem inverts_inOrder : Inverts ByIndex.inOrder Indices.inOrder := by
  have hmod : ∀ n : Nat, (if n < 2 ^ 31 then BitVec.ofNat 32 n else -1).slt 0 = false →
      (if n < 2 ^ 31 then BitVec.ofNat 32 n else -1).toNat = n := by
    intro n h
    by_cases hn : n < 2 ^ 31
    · rw [if_pos hn, BitVec.toNat_ofNat]
      omega
    · rw [if_neg hn] at h
      exact absurd h (by decide)
  exact ⟨fun np h => hmod np h, fun el h => hmod el h⟩

/-- `x ? y : 2` comes back, whatever follows it. -/
theorem litInExpr_litOutExpr_quest : ∃ e',
    litInExpr .inOrder ⟨[1, 0, 1, 1, 0, 2, 24, 23, 250] ++ [7], 0⟩ = some (e', ⟨[7], 0⟩) ∧
      ∀ ρ s, e'.value ρ s =
        (Expr.binop .quest (.name 0) (.binop .colon (.name 1) (.const 2))).value ρ s :=
  (litInExpr_litOutExpr inverts_inOrder (by decide) [7] 0).mpr (by decide)

/-- `x ? 1 : 2` can be written, and reading it reaches `abort ()`. -/
theorem litInExpr_constant_arms :
    Inverts ByIndex.inOrder Indices.inOrder ∧
      litOutExpr .inOrder (.binop .quest (.name 0) (.binop .colon (.const 1) (.const 2))) =
        some [1, 0, 0, 1, 0, 2, 24, 23, 250] ∧
      litInExpr .inOrder ⟨[1, 0, 0, 1, 0, 2, 24, 23, 250], 0⟩ = none :=
  ⟨inverts_inOrder, by decide, by decide⟩

end Ttools
