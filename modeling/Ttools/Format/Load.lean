import Ttools.Format.Expr

/-!
# Expressions in the loader

`lit_load_in_expr` (`startups/shared/litload.c`) evaluates a written expression with a stack of
numbers.  It is a third evaluator next to `eval` and to the constructors that `lit_in_expr` uses.

* `litLoadBinary_eq`: its operators are those of `eval`, except that a zero divisor is fatal.
* `litLoadLoop_litOutNode`: on the bytes of an expression the loop pushes the expression's value
  if there is no conditional in it, and fails if there is one.  `lit_out_expr` writes the node
  `QUEST` after its operand `COLON`, the loader expects the two tags in the opposite order.
* `litLoadInExpr_litOutExpr`: hence it returns the value exactly when there is no conditional.

`lit_load_debug` and the texts of the fatal errors are left out.
-/

namespace Ttools

/-- `MAX_EXPRESSION_DEPTH`. -/
def maxExpressionDepth : Nat := 30

/-- The unary operators of `lit_load_in_expr`. -/
def litLoadUnary : UnTag → Word → Word
  | .neg, a => -a
  | .not, a => if a = 0 then 1 else 0
  | .compl, a => ~~~a

/-- The binary operators of `lit_load_in_expr`; `none` is fatal, or the trap of the host.  Shift
counts are taken as in `eval`. -/
def litLoadBinary : BinTag → Word → Word → Option Word
  | .minus, a, b => some (a - b)
  | .plus, a, b => some (a + b)
  | .lsh, a, b => some (a <<< (b.toNat % 32))
  | .rsh, a, b => some (a.sshiftRight (b.toNat % 32))
  | .mul, a, b => some (a * b)
  -- "divide by zero in expression"; a quotient that does not fit in a word traps
  | .div, a, b => if b = 0 || BinTag.traps .div a b then none else some (a.sdiv b)
  | .rem, a, b => if b = 0 || BinTag.traps .rem a b then none else some (a.srem b)
  | .and, a, b => some (a &&& b)
  | .xor, a, b => some (a ^^^ b)
  | .or, a, b => some (a ||| b)
  | .lt, a, b => some (ofBool (a.slt b))
  | .le, a, b => some (ofBool (a.sle b))
  | .gt, a, b => some (ofBool (b.slt a))
  | .ge, a, b => some (ofBool (b.sle a))
  | .eq, a, b => some (ofBool (a == b))
  | .ne, a, b => some (ofBool (a != b))
  | .andand, a, b => some (ofBool (a != 0 && b != 0))
  | .oror, a, b => some (ofBool (a != 0 || b != 0))
  | .quest, _, _ => none                                    -- `QUEST` does not come here
  | .colon, _, _ => none                                    -- "unknown binary tag"

/-- A leaf is pushed only while there is room. -/
def litLoadPush (estack : List Word) (leaf : Reader Word) : Reader (List Word) :=
  if maxExpressionDepth ≤ estack.length then fatal          -- "MAX_EXPRESSION_DEPTH exceeded"
  else (· :: estack) <$> leaf

/-- The table of the segment start addresses, `ntabsz` of them, and the memory before it. -/
structure Ntab where
  starts : List Word
  /-- `ntab[n]` for a negative `n`; `none` is a fault. -/
  before : Word → Option Word

/-- A table before which nothing can be read. -/
def Ntab.alone (starts : List Word) : Ntab := ⟨starts, fun _ => none⟩

/-- `ntab[n]`: the index is compared with `ntabsz` alone. -/
def litLoadName (ntab : Ntab) : Reader Word := do
  let n ← litLoadInNumber
  if (ntab.starts.length : Int) ≤ n.toInt then fatal        -- "segment start address unknown"
  else built (if n.slt 0 then ntab.before n else ntab.starts[n.toNat]?)

/-- One round of `lit_load_in_expr`, after its tag has been read, with the top of `estack`
first. -/
def litLoadStep (ntab : Ntab) (estack : List Word) : Tag → Reader (List Word)
  | .const => litLoadPush estack litLoadInNumber
  | .name => litLoadPush estack (litLoadName ntab)
  | .element => fatal                     -- "illegal ELEMENT expression in loadable file"
  | .range => fatal                       -- "illegal RANGE expression in loadable file"
  -- the switch has no case for `ELSUM`: nothing is read and nothing pushed
  | .elsum => if maxExpressionDepth ≤ estack.length then fatal else pure estack
  | .un t =>
      match estack with
      | a :: estack => pure (litLoadUnary t a :: estack)
      | [] => fatal                       -- "expression garbled"
  | .bin .quest => do
      let tag ← litLoadInNumber
      if tag ≠ (Tag.bin .colon).code then fatal
      else
        match estack with
        | b :: a :: c :: estack => pure ((if c ≠ 0 then a else b) :: estack)
        | _ => fatal
  | .bin t =>
      match estack with
      | b :: a :: estack => (· :: estack) <$> built (litLoadBinary t a b)
      | _ => fatal

/-- The loop of `lit_load_in_expr`. -/
def litLoadLoop (ntab : Ntab) : Nat → List Word → Reader Word :=
  polishLoop litLoadInNumber (litLoadStep ntab)

/-- `lit_load_in_expr`. -/
def litLoadInExpr (ntab : Ntab) : Reader Word := fun f =>
  litLoadLoop ntab (f.bytes.length + 1) [] f

/-! ### What a loadable file holds -/

/-- The segment start addresses `lit` leaves to the loader, as a valuation of the names. -/
def segmentStarts (ix : Indices) (ntab : Ntab) : Valuation where
  name np := ntab.starts.getD (ix.name np).toNat 0
  size _ := 0
  range _ _ := 0

namespace Expr

/-- The stack entries that evaluating an expression takes. -/
def depth : Expr → Nat
  | .unop _ r => depth r
  | .binop _ l r => max (depth l) (depth r + 1)
  | _ => 1

/-- No conditional in the expression, and no division with a quotient that does not fit in a
word. -/
def computes (ix : Indices) (ntab : Ntab) : Expr → Bool
  | .unop _ r => computes ix ntab r
  | .binop t l r =>
      t != .quest && t != .colon && computes ix ntab l && computes ix ntab r &&
        !t.traps (l.value (segmentStarts ix ntab) true) (r.value (segmentStarts ix ntab) true)
  | _ => true

/-- Constants and segment names under operators, with the divisors different from zero; `arms`
says that the expression stands to the right of a `QUEST`, the only place for a `COLON`. -/
def loadable (ix : Indices) (ntab : Ntab) : Bool → Expr → Bool
  | arms, .const _ => !arms
  | arms, .name np =>
      !arms && !(ix.name np).slt 0 && decide ((ix.name np).toNat < ntab.starts.length)
  | arms, .unop _ r => !arms && loadable ix ntab false r
  | arms, .binop t l r =>
      arms == (t == .colon) && loadable ix ntab false l && loadable ix ntab (t == .quest) r &&
        ((t != .div && t != .rem) || r.value (segmentStarts ix ntab) true != 0)
  | _, _ => false

end Expr

/-! ### The operators -/

theorem litLoadUnary_eq (t : UnTag) (a : Word) : litLoadUnary t a = evalUn t a := by
  cases t with
  | not => by_cases h : a = 0 <;> simp [litLoadUnary, evalUn, ofBool, h]
  | _ => rfl

/-- The loader's operators are those of `eval`, except that it does not divide by zero. -/
theorem litLoadBinary_eq {t : BinTag} {a b : Word} (h : t = .div ∨ t = .rem → b ≠ 0) :
    litLoadBinary t a b = eval t a b := by
  cases t with
  | div =>
      have hb := h (Or.inl rfl)
      have hb : ¬b = 0#32 := hb
      cases ht : BinTag.traps .div a b <;> simp [litLoadBinary, eval, hb, ht]
  | rem =>
      have hb := h (Or.inr rfl)
      have hb : ¬b = 0#32 := hb
      cases ht : BinTag.traps .rem a b <;> simp [litLoadBinary, eval, hb, ht]
  | _ => rfl

/-! ### Loading what was written -/

namespace Expr

/-- Only a `COLON` is loadable as the arms of a conditional. -/
theorem loadable_arms {ix : Indices} {ntab : Ntab} {e : Expr}
    (h : e.loadable ix ntab true = true) : ∃ l r, e = .binop .colon l r := by
  cases e with
  | binop t l r =>
      simp only [loadable, Bool.and_eq_true, beq_iff_eq] at h
      have ht : t = .colon := by simpa using h.1.1.1.symm
      exact ⟨l, r, by rw [ht]⟩
  | _ => simp [loadable] at h

/-- Where there is no conditional, a node denotes the loader's operator on its operands, unless this
traps. -/
theorem litLoadBinary_value {ρ : Valuation} {t : BinTag} {l r : Expr}
    (hq : t ≠ .quest) (hc : t ≠ .colon) (hd : t = .div ∨ t = .rem → r.value ρ true ≠ 0) :
    litLoadBinary t (l.value ρ true) (r.value ρ true) =
      if t.traps (l.value ρ true) (r.value ρ true) = true then none
      else some ((Expr.binop t l r).value ρ true) := by
  rw [litLoadBinary_eq hd]
  split
  · next h => exact eval_eq_none.mpr (.inr (.inr h))
  · next h =>
      rcases hx : eval t (l.value ρ true) (r.value ρ true) with _ | x
      · obtain hx | hx | hx := eval_eq_none.mp hx
        · exact absurd hx hq
        · exact absurd hx hc
        · exact absurd hx h
      · rw [value_binop hx]

end Expr

variable {ix : Indices} {ntab : Ntab}

theorem litLoadPush_reads {st : List Word} (hst : st.length + 1 ≤ maxExpressionDepth)
    {leaf : Reader Word} {out : List Byte} {n : Word} (h : Reads leaf out n) :
    Reads (litLoadPush st leaf) out (n :: st) := by
  intro rest k
  rw [litLoadPush, if_neg (by omega), Reader.map_apply, h]
  rfl

theorem litLoadName_reads {n : Word} (hneg : n.slt 0 = false) (hlt : n.toNat < ntab.starts.length) :
    Reads (litLoadName ntab) (litOutNumber n) (ntab.starts.getD n.toNat 0) := by
  have hint : n.toInt = n.toNat := by
    have := BitVec.toInt_eq_toNat_cond n
    rw [BitVec.slt_eq_decide, decide_eq_false_iff_not] at hneg
    simp only [BitVec.ofNat_eq_ofNat, BitVec.toInt_zero] at hneg
    have := n.isLt
    omega
  intro rest k
  rw [litLoadName, Reader.bind_apply, litLoadInNumber_litOutNumber]
  simp only [Option.bind_some, hint, Nat.cast_le, not_le.mpr hlt, if_false, built, hneg]
  simp [hlt]

/-- A binary round, conditionals apart. -/
theorem litLoadStep_bin {t : BinTag} (hq : t ≠ .quest) (st : List Word) (a b : Word) (f : LitIn) :
    litLoadStep ntab (b :: a :: st) (.bin t) f =
      (litLoadBinary t a b).map fun n => (n :: st, f) := by
  have h : litLoadStep ntab (b :: a :: st) (.bin t) =
      (· :: st) <$> built (litLoadBinary t a b) := by
    cases t <;> first | exact absurd rfl hq | rfl
  rw [h, Reader.map_apply, built, Option.map_map]
  rfl

/-- On the bytes of an expression the loop pushes the expression's value, and fails if there is a
conditional in it or a division that traps. -/
theorem litLoadLoop_litOutNode {e : Expr} {arms : Bool} {out : List Byte}
    (h : litOutNode ix e = some out) (hl : e.loadable ix ntab arms = true) :
    ∃ n ≤ out.length, ∀ fuel st rest k, st.length + e.depth ≤ maxExpressionDepth →
      litLoadLoop ntab (fuel + n) st ⟨out ++ rest, k⟩ =
        if e.computes ix ntab then
          litLoadLoop ntab fuel (e.value (segmentStarts ix ntab) true :: st) ⟨rest, k⟩
        else none := by
  induction e generalizing out arms with
  | const c =>
      cases h
      refine ⟨1, by have := litOutNumber_ne_nil c; simp; omega, fun fuel st rest k hst => ?_⟩
      have hp := litLoadPush_reads hst (litLoadInNumber_litOutNumber c)
      rw [if_pos (by rfl), Expr.value_const]
      exact polishLoop_leaf litLoadInNumber_litOutNumber (t := .const) hp fuel rest k
  | name np =>
      simp only [Expr.loadable, Bool.and_eq_true, Bool.not_eq_true', decide_eq_true_eq] at hl
      rw [litOutNode, if_neg (by rw [hl.1.2]; exact Bool.false_ne_true)] at h
      cases h
      refine ⟨1, by have := litOutNumber_ne_nil (ix.name np); simp; omega,
        fun fuel st rest k hst => ?_⟩
      have hp := litLoadPush_reads hst (litLoadName_reads hl.1.2 hl.2)
      rw [if_pos (by rfl), Expr.value_name]
      exact polishLoop_leaf litLoadInNumber_litOutNumber (t := .name) hp fuel rest k
  | unop t r ih =>
      obtain ⟨br, hr, h⟩ := Option.bind_eq_some_iff.mp h
      cases h
      simp only [Expr.loadable, Bool.and_eq_true] at hl
      obtain ⟨n, hn, ih⟩ := ih hr hl.2
      refine ⟨n + 1, ?_, fun fuel st rest k hst => ?_⟩
      · have := litOutNumber_ne_nil (Tag.un t).code
        rw [List.length_append]
        omega
      · rw [show fuel + (n + 1) = fuel + 1 + n by omega, List.append_assoc, ih _ _ _ _ hst,
          Expr.computes]
        by_cases hu : r.computes ix ntab = true
        · rw [if_pos hu, if_pos hu, litLoadLoop, polishLoop_code litLoadInNumber_litOutNumber,
            Expr.value_unop, ← litLoadUnary_eq]
          rfl
        · rw [if_neg hu, if_neg hu]
  | binop t l r ihl ihr =>
      obtain ⟨bl, hbl, h⟩ := Option.bind_eq_some_iff.mp h
      obtain ⟨br, hbr, h⟩ := Option.bind_eq_some_iff.mp h
      cases h
      simp only [Expr.loadable, Bool.and_eq_true] at hl
      obtain ⟨⟨⟨-, hll⟩, hlr⟩, hdiv⟩ := hl
      obtain ⟨n, hn, ihl⟩ := ihl hbl hll
      obtain ⟨m, hm, ihr⟩ := ihr hbr hlr
      refine ⟨n + m + 1, ?_, fun fuel st rest k hst => ?_⟩
      · have := litOutNumber_ne_nil (Tag.bin t).code
        rw [List.length_append, List.length_append]
        omega
      · rw [Expr.depth] at hst
        rw [show fuel + (n + m + 1) = fuel + 1 + m + n by omega, List.append_assoc,
          List.append_assoc, ihl _ _ _ _ (by omega), Expr.computes]
        by_cases hul : l.computes ix ntab = true
        · rw [if_pos hul, ihr _ _ _ _ (by rw [List.length_cons]; omega)]
          by_cases hur : r.computes ix ntab = true
          · rw [if_pos hur, litLoadLoop, polishLoop_code litLoadInNumber_litOutNumber]
            by_cases hq : t = .quest
            · -- a `QUEST` stands above a `COLON`
              subst hq
              obtain ⟨x, y, rfl⟩ := Expr.loadable_arms hlr
              simp [Expr.computes] at hur
            rw [litLoadStep_bin hq]
            by_cases hc : t = .colon
            · subst hc
              rfl
            · rw [Expr.litLoadBinary_value hq hc fun ht => by
                rcases ht with rfl | rfl <;> simpa using hdiv]
              cases ht : t.traps (l.value (segmentStarts ix ntab) true)
                (r.value (segmentStarts ix ntab) true) with
              | false =>
                  rw [if_neg Bool.false_ne_true, if_pos (by simp [hq, hc, hul, hur])]
                  rfl
              | true =>
                  rw [if_pos rfl, if_neg (by simp)]
                  rfl
          · rw [if_neg hur]
            simp [hur]
        · rw [if_neg hul]
          simp [hul]
  | _ => simp [Expr.loadable] at hl

/-- What `lit_load_in_expr` makes of an expression. -/
theorem litLoadInExpr_eq {e : Expr} {out : List Byte} (h : litOutExpr ix e = some out)
    (hl : e.loadable ix ntab false = true) (hd : e.depth ≤ maxExpressionDepth)
    (rest : List Byte) (k : Nat) :
    litLoadInExpr ntab ⟨out ++ rest, k⟩ =
      if e.computes ix ntab then some (e.value (segmentStarts ix ntab) true, ⟨rest, k⟩) else none := by
  obtain ⟨out, hout, rfl⟩ := Option.map_eq_some_iff.mp h
  obtain ⟨n, hn, hloop⟩ := litLoadLoop_litOutNode hout hl
  have hend := litOutNumber_ne_nil litExprEnd
  unfold litLoadInExpr
  simp only [List.append_assoc, List.length_append]
  obtain ⟨fuel, hfuel⟩ : ∃ fuel,
      out.length + ((litOutNumber litExprEnd).length + rest.length) + 1 = fuel + 1 + n :=
    ⟨out.length - n + (litOutNumber litExprEnd).length + rest.length, by omega⟩
  rw [hfuel, hloop _ _ _ _ (by simpa using hd)]
  by_cases hu : e.computes ix ntab = true
  · rw [if_pos hu, if_pos hu]
    exact polishLoop_end litLoadInNumber_litOutNumber fuel _ rest k
  · rw [if_neg hu, if_neg hu]

end Ttools
