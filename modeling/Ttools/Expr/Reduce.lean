import Ttools.Expr.Scan
import Ttools.Support.Bits

/-!
# Reduction

`expr_reduce` (`shared/expr.c`), with `expr_reduce_elsum`, `expr_reduce_trivia` and
`expr_check_alignment`.

* `reduceConst_spec`, `reduceTrivia_spec`: each rule keeps the value, or is logged as a risk.
* `exprReduce_keeps`: so does a reduction; what it leaves, in the expression and in the store, is
  made from the same names and elements.
-/

namespace Ttools

open Support (Logged)
open Support.Logged (noteIf stop ofOption Ensures)

/-! ### Alignment -/

/-- `expr_check_alignment` away from names. -/
def checkAlignment (name : NameId → Reducer Word) (align : Word) : Expr → Reducer Word
  | .const c => return c &&& (align - 1)
  | .name np => name np
  | .binop .plus l r => do
      let loffset ← checkAlignment name align l
      let roffset ← checkAlignment name align r
      return if loffset = align ∨ roffset = align then align
        else (loffset + roffset) &&& (align - 1)
  | .binop .minus l r => do
      let loffset ← checkAlignment name align l
      let roffset ← checkAlignment name align r
      return if loffset = align ∨ roffset = align then align
        else (loffset - roffset) &&& (align - 1)
  -- can't tell
  | _ => return align

/-- `expr_check_alignment` on a name. -/
def checkName (check : Expr → Reducer Word) (align : Word) (np : NameId) : Reducer Word := do
  let m ← Logged.get
  if (m.store.name np).align ≠ 0 ∧ align.sle (m.store.name np).align then do
    noteIf ((0 : Word).slt align && !Support.powerOfTwo (m.store.name np).align) (.aligned np align)
    return 0
  else
    match m.store.localVal np with
    | some val => check val
    | none => return align

/-- `expr_check_alignment`. -/
def exprCheckAlignment : Nat → Word → Expr → Reducer Word
  | 0, _ => fun _ => stop .fuel
  | fuel + 1, align => checkAlignment (checkName (exprCheckAlignment fuel align) align) align

/-! ### The rules -/

/-- `expr_reduce_trivia` on a unary node. -/
def reduceUnary (t : UnTag) : Expr → Expr
  | .const c => .const (evalUn t c)
  | r => .unop t r

/-- The operators of `x + 0 => x`. -/
def BinTag.dropsZero : BinTag → Bool
  | .minus | .plus | .lsh | .rsh | .xor | .or | .oror => true
  | _ => false

/-- `expr_reduce_trivia` with a constant on the right. -/
def reduceConst (check : Word → Expr → Reducer Word) (t : BinTag) (l : Expr) (c : Word) :
    Reducer Expr :=
  if t.dropsZero ∧ c = 0 then do
    noteIf (t == .oror) (.boolean l)
    return l
  else if (t = .mul ∨ t = .div) ∧ c = 1 then return l
  else if (t = .mul ∨ t = .and) ∧ c = 0 then return .const 0
  else if t = .andand ∧ c ≠ 0 then do
    noteIf true (.boolean l)
    return l
  else if t = .and ∧ c = -1 then return l
  -- "Divizion by zero in expression"
  else if (t = .div ∨ t = .rem) ∧ c = 0 then return l
  else if t = .and ∧ (c + 1) &&& c = 0 then do
    let offset ← check (c + 1) l
    return if offset.slt (c + 1) then .const offset else .binop t l (.const c)
  else return .binop t l (.const c)

/-- `expr_reduce_trivia` after the operands have been put in order. -/
def reduceOrdered (check : Word → Expr → Reducer Word) : BinTag → Expr → Expr → Reducer Expr
  | t, l, .const c => reduceConst check t l c
  | .quest, .const c, .binop .colon a b => return if c ≠ 0 then a else b
  | .quest, .const _, _ => stop .abort
  | t, l, r => return .binop t l r

/-- `expr_reduce_trivia` on a binary node. -/
def reduceTrivia (check : Word → Expr → Reducer Word) (t : BinTag) (l r : Expr) : Reducer Expr :=
  match l, r with
  | .const a, .const b => ofOption .abort ((eval t a b).map .const)
  | l, r => if t.isComm && l.isConst then reduceOrdered check t r l else reduceOrdered check t l r

/-! ### Sums of elements -/

/-- What a member of a sum is replaced by, if its size is not a range. -/
def Store.squeezed (st : Store) : Expr → Option Expr
  | .element el => if (st.size el).isRange then none else some (st.size el)
  | m => some m

/-- The loop of `expr_reduce_elsum`: the members that stay, and `sum`. -/
def squeeze (st : Store) : Option Expr → List Expr → Reducer (List Expr × Option Expr)
  | sum, [] => return ([], sum)
  | sum, m :: v =>
      match st.squeezed m with
      | none => do
          let (kept, sum) ← squeeze st sum v
          return (m :: kept, sum)
      | some x =>
          match sum with
          | none => squeeze st (some x) v
          | some sum => do
              let lone ← ask
              let sum ← ofOption .abort (exprAsgPlus lone sum x)
              squeeze st (some sum) v

/-- `expr_reduce_elsum`. -/
def reduceElsum (v : List Expr) : Reducer Expr := do
  let m ← Logged.get
  let (kept, sum) ← squeeze m.store none v
  match kept, sum with
  -- a null pointer
  | [], none => stop .abort
  | [], some sum => return sum
  | _, none => return .elsum v
  | kept, some sum => return .binop .plus (.elsum kept) sum

/-! ### `expr_reduce` -/

/-- The leaves: names and elements are replaced by what they stand for, reduced in its place. -/
def reduceLeaf (reduce : Expr → Reducer Expr) : Expr → Reducer Expr
  | .elsum v => do
      match ← reduceElsum v with
      | .elsum v => return .elsum v
      | e => reduce e
  | .name np => do
      let m ← Logged.get
      match m.store.localVal np with
      | none => return .name np
      | some val => do
          let val ← reduce val
          Logged.modify fun m => { m with store := m.store.setVal np val }
          return val
  | .element el => do
      let m ← Logged.get
      if (m.store.size el).isRange then return .element el
      else do
        let size ← reduce (m.store.size el)
        Logged.modify fun m => { m with store := m.store.setSize el size }
        return size
  | e => return e

/-- The nodes, from the bottom. -/
def reduceTree (leaf : Expr → Reducer Expr) (check : Word → Expr → Reducer Word) :
    Expr → Reducer Expr
  | .unop t r => do
      let r ← reduceTree leaf check r
      return reduceUnary t r
  | .binop t l r => do
      let l ← reduceTree leaf check l
      let r ← reduceTree leaf check r
      let e ← reduceTrivia check t l r
      reassociate e
  | e => leaf e

/-- `expr_reduce`; the fuel bounds how often a name or an element leads on to another.  It is the
reduction of a tree that nobody else holds: `expr_node_copy` gives the operands of a name's value a
second holder, and what is then folded in place is folded for the name and for all others that hold
it, which is not seen here. -/
def exprReduce : Nat → Expr → Reducer Expr
  | 0 => fun _ => stop .fuel
  | fuel + 1 => reduceTree (reduceLeaf (exprReduce fuel)) (exprCheckAlignment fuel)

/-! ### Alignment is right -/

/-- The valuation gives the local names, and the elements whose size is not a range, the values of
their expressions, and the names their alignment. -/
structure Store.Agrees (st : Store) (ρ : Valuation) : Prop where
  aligned : st.Aligned ρ
  name : ∀ np v, st.localVal np = some v → ρ.name np = v.value ρ true
  size : ∀ el, (st.size el).isRange = false → ρ.size el = (st.size el).value ρ true

theorem Store.Models.agrees {st : Store} {ρ : Valuation} (h : st.Models ρ) (ha : st.Aligned ρ) :
    st.Agrees ρ where
  aligned := ha
  name := h.name
  size el hel := by
    have := h.size el
    generalize st.size el = size at *
    cases size <;> first | exact this | cases hel

section

variable {ok : Risk → Prop} {err : Stop → Prop} {ρ : Valuation} {align : Word}

/-- The result says what the low bits are, or nothing. -/
def Offset (ρ : Valuation) (align : Word) (e : Expr) (offset : Word) : Prop :=
  offset = align ∨ offset = e.value ρ true &&& (align - 1)

/-- Offsets are added and subtracted. -/
theorem Offset.pair {f : Word → Word → Word} {l r e : Expr} {loffset roffset : Word}
    (hf : ∀ a b, f (a &&& (align - 1)) (b &&& (align - 1)) &&& (align - 1) = f a b &&& (align - 1))
    (hl : Offset ρ align l loffset) (hr : Offset ρ align r roffset)
    (he : e.value ρ true = f (l.value ρ true) (r.value ρ true)) :
    Offset ρ align e (if loffset = align ∨ roffset = align then align
      else f loffset roffset &&& (align - 1)) := by
  split
  · exact .inl rfl
  · next h =>
      rw [not_or] at h
      rw [hl.resolve_left h.1, hr.resolve_left h.2, hf, ← he]
      exact .inr rfl

/-- What the reducer is promised of `expr_check_alignment`. -/
def Aligns (ok : Risk → Prop) (err : Stop → Prop) (H : Prop) (ρ : Valuation) (st : Store)
    (check : Word → Expr → Reducer Word) (e : Expr) : Prop :=
  ∀ align m, align &&& (align - 1) = 0 → m.store = st →
    Ensures ok err (check align e)
      (fun off m' => m'.store = st ∧ (H → (0 : Word).slt align → Offset ρ align e off)) m

theorem checkAlignment_spec (H : Prop) (hmask : align &&& (align - 1) = 0) {st : Store}
    {name : NameId → Reducer Word}
    (hname : ∀ np m, m.store = st → Ensures ok err (name np)
      (fun off m' => m'.store = st ∧ (H → Offset ρ align (.name np) off)) m) (e : Expr) :
    ∀ m, m.store = st → Ensures ok err (checkAlignment name align e)
      (fun off m' => m'.store = st ∧ (H → Offset ρ align e off)) m := by
  have hmask : align - 1 &&& (align - 1 + 1) = 0 := by
    rw [sub_add_cancel, BitVec.and_comm]
    exact hmask
  induction e with
  | const c =>
      intro m hm
      rw [checkAlignment, Logged.ensures_pure]
      exact ⟨hm, fun _ => .inr (by rw [Expr.value_const])⟩
  | name np => exact hname np
  | binop t l r ihl ihr =>
      intro m hm
      cases t with
      | plus =>
          rw [checkAlignment, Logged.ensures_bind]
          refine (ihl m hm).mono fun loffset m' hl => ?_
          rw [Logged.ensures_bind]
          refine (ihr m' hl.1).mono fun roffset m'' hr => ?_
          rw [Logged.ensures_pure]
          exact ⟨hr.1, fun h => (hl.2 h).pair (Support.and_mask_add hmask) (hr.2 h)
            (Expr.value_plus ρ true l r)⟩
      | minus =>
          rw [checkAlignment, Logged.ensures_bind]
          refine (ihl m hm).mono fun loffset m' hl => ?_
          rw [Logged.ensures_bind]
          refine (ihr m' hl.1).mono fun roffset m'' hr => ?_
          rw [Logged.ensures_pure]
          exact ⟨hr.1, fun h => (hl.2 h).pair (Support.and_mask_sub hmask) (hr.2 h)
            (Expr.value_minus ρ true l r)⟩
      | _ => exact Logged.ensures_pure.mpr ⟨hm, fun _ => .inl rfl⟩
  | _ => exact fun m hm => Logged.ensures_pure.mpr ⟨hm, fun _ => .inl rfl⟩

theorem exprCheckAlignment_aligns (ok : Risk → Prop) (ρ : Valuation) (fuel : Nat) (st : Store)
    (e : Expr) :
    Aligns ok (fun _ => True) ((∀ w, ok w → w.Ok ρ) ∧ st.Agrees ρ) ρ st
      (exprCheckAlignment fuel) e := by
  intro align m hmask hm
  induction fuel generalizing e m with
  | zero => exact Logged.ensures_stop.mpr trivial
  | succ fuel ih =>
      refine (checkAlignment_spec (((∀ w, ok w → w.Ok ρ) ∧ st.Agrees ρ) ∧ (0 : Word).slt align)
        hmask (fun np m hm => ?_) e m hm).mono fun _ _ h => ⟨h.1, fun hH hpos => h.2 ⟨hH, hpos⟩⟩
      rw [checkName, Logged.ensures_bind, Logged.ensures_get]
      split
      · next hknown =>
          rw [Logged.ensures_bind, Logged.ensures_noteIf]
          intro hw
          rw [Logged.ensures_pure]
          refine ⟨hm, fun ⟨⟨hok, ha⟩, hpos⟩ => .inr ?_⟩
          rw [Expr.value_name]
          by_cases hpow : Support.powerOfTwo (m.store.name np).align = true
          · rw [hm] at hpow hknown
            exact (Support.and_pred_eq_zero (Support.powerOfTwo_iff.mpr ⟨hpos, hmask⟩) hpow
              hknown.2 (ha.aligned np hpow)).symm
          · exact (hok _ (hw (by rw [hpos, eq_false_of_ne_true hpow]; rfl))).symm
      · rw [hm]
        rcases hv : st.localVal np with _ | val
        · exact Logged.ensures_pure.mpr ⟨hm, fun _ => .inl rfl⟩
        · refine (ih val m hm).mono fun off m' h => ⟨h.1, fun hH => ?_⟩
          rw [Offset, Expr.value_name, hH.1.2.name np val hv]
          exact h.2 hH.1 hH.2

end

section

variable {ok : Risk → Prop} {err : Stop → Prop} {ρ : Valuation}

/-! ### The rules keep the value -/

theorem value_act {t : BinTag} (hq : t ≠ .quest) (hc : t ≠ .colon) (ρ : Valuation) (s : Bool)
    (l r : Expr) : (Expr.binop t l r).value ρ s = act t (l.value ρ true) (r.value ρ true) := by
  cases t <;> first | exact absurd rfl hq | exact absurd rfl hc | (simp only [Expr.value, act])

theorem reduceUnary_spec (H : Prop) (ρ : Valuation) (t : UnTag) (r : Expr) :
    Same H ρ (.unop t r) (reduceUnary t r) := by
  cases r with
  | const c =>
      refine same_of (fun P h => by cases h) (fun P _ => .const _) fun _ _ => ?_
      rw [Expr.value_unop, Expr.value_const, reduceUnary, Expr.value_const]
  | _ => exact same_refl H ρ _

section

variable {H : Prop} {st : Store} {check : Word → Expr → Reducer Word} {t : BinTag}

theorem reduceConst_spec {l : Expr} (hok : H → ∀ w, ok w → w.Ok ρ)
    (hl : Aligns ok err H ρ st check l) (hq : t ≠ .quest) (hc : t ≠ .colon) (c : Word) (m : Memory)
    (hm : m.store = st) :
    Ensures ok err (reduceConst check t l c)
      (fun e m' => m'.store = st ∧ Same H ρ (.binop t l (.const c)) e) m := by
  have hne : ∀ P, ¬Built P true (.binop t l (.const c)) := fun P => not_built_true hc P _ _
  have hleft : ∀ P, Built P false (.binop t l (.const c)) → Built P false l := fun P h => h.left
  have hval : (Expr.binop t l (.const c)).value ρ true = act t (l.value ρ true) c := by
    rw [value_act hq hc, Expr.value_const]
  unfold reduceConst
  split
  · next h =>
      rw [Logged.ensures_bind, Logged.ensures_noteIf]
      intro hw
      rw [Logged.ensures_pure]
      refine ⟨hm, same_of hne hleft fun hH _ => ?_⟩
      rw [hval, h.2]
      rcases h with ⟨ht, -⟩
      cases t <;> simp [BinTag.dropsZero] at ht <;> simp [act, eval]
      exact (hok hH _ (hw rfl)).symm.trans (by simp [ofBool])
  split
  · next h =>
      rw [Logged.ensures_pure]
      refine ⟨hm, same_of hne hleft fun _ _ => ?_⟩
      rw [hval, h.2]
      rcases h.1 with rfl | rfl
      · simp [act, eval]
      · have htraps : BinTag.traps .div (l.value ρ true) 1 = false := Bool.and_false _
        rw [act, eval, if_neg (by decide), htraps]
        exact (BitVec.sdiv_one (x := l.value ρ true)).symm
  split
  · next h =>
      rw [Logged.ensures_pure]
      refine ⟨hm, same_of hne (fun _ _ => .const 0) fun _ _ => ?_⟩
      rw [hval, h.2]
      rcases h.1 with rfl | rfl <;> simp [act, eval]
  split
  · next h =>
      rw [Logged.ensures_bind, Logged.ensures_noteIf]
      intro hw
      rw [Logged.ensures_pure]
      refine ⟨hm, same_of hne hleft fun hH _ => ?_⟩
      rw [hval, h.1]
      refine (hok hH _ (hw rfl)).symm.trans ?_
      have h0 : (c != 0) = true := bne_iff_ne.mpr h.2
      simp only [act, eval, h0, Bool.and_true, Option.getD_some]
  split
  · next h =>
      rw [Logged.ensures_pure]
      refine ⟨hm, same_of hne hleft fun _ _ => ?_⟩
      rw [hval, h.1, h.2]
      exact BitVec.and_allOnes.symm
  next hones =>
  split
  · next h =>
      rw [Logged.ensures_pure]
      refine ⟨hm, same_of hne hleft fun _ _ => ?_⟩
      rw [hval, h.2]
      rcases h.1 with rfl | rfl <;> simp [act, eval]
  split
  · next h =>
      obtain ⟨rfl, hmask⟩ := h
      rw [Logged.ensures_bind]
      refine (hl (c + 1) m (by rwa [add_sub_cancel_right]) hm).mono fun off m' hoff => ?_
      rw [Logged.ensures_pure]
      refine ⟨hoff.1, ?_⟩
      split
      · next hlt =>
          refine same_of hne (fun _ _ => .const off) fun hH _ => ?_
          have hpos := Support.pos_of_slt_mask (BitVec.and_comm c _ ▸ hmask)
            (fun h1 => hones ⟨rfl, h1⟩) hlt
          have hoff := (hoff.2 hH hpos).resolve_left fun h => by
            rw [h, BitVec.slt_iff_toInt_lt] at hlt
            exact lt_irrefl _ hlt
          rw [hval, Expr.value_const, hoff, add_sub_cancel_right]
          rfl
      · exact same_refl H ρ _
  · exact Logged.ensures_pure.mpr ⟨hm, same_refl H ρ _⟩

theorem reduceConst_quest (ht : t = .quest ∨ t = .colon) (l : Expr) (c : Word) :
    reduceConst check t l c = pure (.binop t l (.const c)) := by
  rcases ht with rfl | rfl <;> simp [reduceConst, BinTag.dropsZero]

theorem reduceOrdered_spec {l : Expr} (hok : H → ∀ w, ok w → w.Ok ρ) (hab : err .abort)
    (hl : Aligns ok err H ρ st check l) (t : BinTag) (r : Expr) (m : Memory) (hm : m.store = st) :
    Ensures ok err (reduceOrdered check t l r)
      (fun e m' => m'.store = st ∧ Same H ρ (.binop t l r) e) m := by
  unfold reduceOrdered
  split
  · next c =>
      by_cases ht : t = .quest ∨ t = .colon
      · rw [reduceConst_quest ht, Logged.ensures_pure]
        exact ⟨hm, same_refl H ρ _⟩
      · rw [not_or] at ht
        exact reduceConst_spec hok hl ht.1 ht.2 c m hm
  · next c a b =>
      rw [Logged.ensures_pure]
      refine ⟨hm, same_of (fun P => not_built_true (by decide) P _ _) (fun P h => ?_) fun _ _ => ?_⟩
      · have harms := h.right
        split
        · exact harms.left
        · exact harms.right
      · rw [Expr.value_quest, Expr.value_colon, Expr.value_const]
        by_cases hc : c = 0
        · rw [if_neg (not_not.mpr hc), bne_eq_false_iff_eq.mpr hc]
          rfl
        · rw [if_pos hc, bne_iff_ne.mpr hc]
          rfl
  · exact Logged.ensures_stop.mpr hab
  · exact Logged.ensures_pure.mpr ⟨hm, same_refl H ρ _⟩

/-- The operands of a commutative node may be swapped. -/
theorem same_swap {e : Expr} {l r : Expr} (ht : t.isComm = true)
    (h : Same H ρ (.binop t r l) e) : Same H ρ (.binop t l r) e := by
  have hq : t ≠ .quest := by rintro rfl; cases ht
  have hc : t ≠ .colon := by rintro rfl; cases ht
  have hswap : ∀ P, Built P false (.binop t l r) → Built P false (.binop t r l) := fun P hb =>
    .binop hq hc (hb.right_of_ne hq) hb.left
  refine same_of (fun P => not_built_true hc P _ _) (fun P hb => h.1 P false (hswap P hb)) ?_
  intro hH hb
  rw [h.2 hH false (hswap _ hb) true, Expr.value_swap ht]

theorem reduceTrivia_spec {l r : Expr} (hok : H → ∀ w, ok w → w.Ok ρ) (hab : err .abort)
    (hl : Aligns ok err H ρ st check l) (hr : Aligns ok err H ρ st check r) (t : BinTag)
    (m : Memory) (hm : m.store = st) :
    Ensures ok err (reduceTrivia check t l r)
      (fun e m' => m'.store = st ∧ Same H ρ (.binop t l r) e) m := by
  unfold reduceTrivia
  split
  · next a b =>
      rw [Logged.ensures_ofOption]
      refine ⟨fun e he => ⟨hm, ?_⟩, fun _ => hab⟩
      obtain ⟨x, hx, rfl⟩ := Option.map_eq_some_iff.mp he
      have hne : t ≠ .colon := by rintro rfl; cases hx
      refine same_of (fun P => not_built_true hne P _ _) (fun P _ => .const x) fun _ _ => ?_
      rw [Expr.value_const, Expr.value_binop (by simpa using hx)]
  · split
    · next h =>
        rw [Bool.and_eq_true] at h
        exact (reduceOrdered_spec hok hab hr t _ m hm).mono fun e m' he =>
          ⟨he.1, same_swap h.1 he.2⟩
    · exact reduceOrdered_spec hok hab hl t _ m hm

end

/-! ### Sums keep their value -/

section

variable {st : Store} {H : Prop}

/-- What a member is replaced by is built from the store, and has the member's value. -/
theorem squeezed_spec {m x : Expr} (h : st.squeezed m = some x) :
    (∀ P, st.Closed P → Built P false m → Built P false x) ∧
      (st.Agrees ρ → x.value ρ true = m.value ρ true) := by
  cases m with
  | element el =>
      rw [Store.squeezed] at h
      split at h
      · cases h
      · next hr =>
          cases h
          rw [Bool.not_eq_true] at hr
          refine ⟨fun P hP hb => ?_, fun ha => ?_⟩
          · cases hb with
            | element hel => exact hP.size el hel hr
          · rw [Expr.value_element, ha.size el hr]
  | _ =>
      cases h
      exact ⟨fun _ _ hb => hb, fun _ => rfl⟩

/-- What is left of a sum, and what has been squeezed out of it. -/
structure Squeezed (st : Store) (ρ : Valuation) (sum : Option Expr) (v kept : List Expr)
    (sum' : Option Expr) : Prop where
  value : st.Agrees ρ → Expr.values ρ kept + sum'.elim 0 (Expr.value ρ true) =
    sum.elim 0 (Expr.value ρ true) + Expr.values ρ v
  built : ∀ P, st.Closed P → (∀ x, sum = some x → Built P false x) →
    (∀ m ∈ v, Built P false m) → (∀ m ∈ kept, Built P false m) ∧
      ∀ x, sum' = some x → Built P false x
  none : sum' = none → sum = none ∧ kept = v

theorem squeeze_spec (ρ : Valuation) (sum : Option Expr) (v : List Expr) :
    Yields ok (squeeze st sum v) fun r => Squeezed st ρ sum v r.1 r.2 := by
  induction v generalizing sum with
  | nil =>
      refine yields_pure ⟨fun _ => ?_, fun P _ hs hv => ⟨hv, hs⟩, fun h => ⟨h, rfl⟩⟩
      simp
  | cons m v ih =>
      rw [squeeze]
      rcases hm : st.squeezed m with _ | x
      · refine yields_bind (ih sum) fun ⟨kept, sum'⟩ h => yields_pure ?_
        refine ⟨fun ha => ?_, fun P hP hs hv => ?_, fun hn => ?_⟩
        · rw [Expr.values_cons, Expr.values_cons, add_assoc, h.value ha]
          ring
        · obtain ⟨hk, hs'⟩ := h.built P hP hs fun x hx => hv x (List.mem_cons_of_mem _ hx)
          exact ⟨List.forall_mem_cons.mpr ⟨hv m List.mem_cons_self, hk⟩, hs'⟩
        · exact ⟨(h.none hn).1, congrArg (m :: ·) (h.none hn).2⟩
      · obtain ⟨hxb, hxv⟩ := squeezed_spec (ρ := ρ) hm
        rcases sum with _ | sum
        · refine fun m₀ => (ih (some x) m₀).mono fun ⟨kept, sum'⟩ m₁ ⟨hst, h⟩ => ⟨hst, ?_⟩
          refine ⟨fun ha => ?_, fun P hP _ hv => ?_, fun hn => by cases (h.none hn).1⟩
          · rw [h.value ha, Expr.values_cons, ← hxv ha]
            simp
          · refine h.built P hP ?_ fun y hy => hv y (List.mem_cons_of_mem _ hy)
            rintro y ⟨⟩
            exact hxb P hP (hv m List.mem_cons_self)
        · refine yields_bind yields_ask fun lone _ => ?_
          refine yields_bind (yields_ofOption _) fun sum' hsum => ?_
          refine fun m₀ => (ih (some sum') m₀).mono fun ⟨kept, sum''⟩ m₁ ⟨hst, h⟩ => ⟨hst, ?_⟩
          refine ⟨fun ha => ?_, fun P hP hs hv => ?_, fun hn => by cases (h.none hn).1⟩
          · rw [h.value ha, Expr.values_cons, ← hxv ha]
            simp only [Option.elim_some, Expr.value_exprAsgPlus hsum, add_assoc]
          · refine h.built P hP ?_ fun y hy => hv y (List.mem_cons_of_mem _ hy)
            rintro y ⟨⟩
            exact .exprAsgPlus (hs _ rfl) (hxb P hP (hv m List.mem_cons_self)) hsum

end

/-! ### The whole -/

/-- What a reduction of `e` in the store `st` leaves: an expression and a store that are built from
the same names and elements and, under a condition, denote the same. -/
structure Kept (H : Prop) (ρ : Valuation) (st : Store) (e : Expr) (st' : Store) (e' : Expr) :
    Prop where
  built : ∀ P s, st.Closed P → Built P s e → Built P s e'
  follows : st.Follows st'
  agrees : H → st.Formed → st.Agrees ρ → st'.Agrees ρ
  value : H → st.Formed → st.Agrees ρ → ∀ s, Built (fun _ => True) s e →
    ∀ sel, e'.value ρ sel = e.value ρ sel

namespace Kept

variable {H : Prop} {st st' st'' : Store} {e e' e'' : Expr}

theorem refl (H : Prop) (ρ : Valuation) (st : Store) (e : Expr) : Kept H ρ st e st e :=
  ⟨fun _ _ _ h => h, .refl st, fun _ _ h => h, fun _ _ _ _ _ _ => rfl⟩

theorem closed (h : Kept H ρ st e st' e') (P : Expr → Prop) : st.Closed P → st'.Closed P :=
  h.follows.closed

theorem trans (h : Kept H ρ st e st' e') (h' : Kept H ρ st' e' st'' e'') :
    Kept H ρ st e st'' e'' where
  built P s hP hb := h'.built P s (h.closed P hP) (h.built P s hP hb)
  follows := h.follows.trans h'.follows
  agrees hH hf ha := h'.agrees hH (h.closed _ hf) (h.agrees hH hf ha)
  value hH hf ha s hb sel := by
    rw [h'.value hH (h.closed _ hf) (h.agrees hH hf ha) s (h.built _ s hf hb) sel,
      h.value hH hf ha s hb sel]

theorem of_same (h : Same (H ∧ st.Agrees ρ) ρ e e') : Kept H ρ st e st e' where
  built P s _ := h.1 P s
  follows := .refl st
  agrees _ _ ha := ha
  value hH _ ha := h.2 ⟨hH, ha⟩

theorem unop {t : UnTag} (h : Kept H ρ st e st' e') :
    Kept H ρ st (.unop t e) st' (.unop t e') where
  built P _ hP hb := by
    cases hb with
    | unop hr => exact .unop (h.built P false hP hr)
  follows := h.follows
  agrees := h.agrees
  value hH hf ha _ hb sel := by
    cases hb with
    | unop hr => rw [Expr.value_unop, Expr.value_unop, h.value hH hf ha false hr]

theorem binop {t : BinTag} {r r' : Expr} (hl : Kept H ρ st e st' e')
    (hr : Kept H ρ st' r st'' r') : Kept H ρ st (.binop t e r) st'' (.binop t e' r') where
  built P _ hP hb := hb.congr (hl.built P false hP hb.left) (hr.built P _ (hl.closed P hP) hb.right)
  follows := hl.follows.trans hr.follows
  agrees hH hf ha := hr.agrees hH (hl.closed _ hf) (hl.agrees hH hf ha)
  value hH hf ha _ hb sel := Expr.value_binop_congr sel (hl.value hH hf ha false hb.left)
    (hr.value hH (hl.closed _ hf) (hl.agrees hH hf ha) _ hb.right)

end Kept

/-- A reduction of `e`, whatever the memory. -/
def Keeps (ok : Risk → Prop) (ρ : Valuation) (e : Expr) (x : Reducer Expr) : Prop :=
  ∀ m, Ensures ok (fun _ => True) x
    (fun e' m' => Kept (∀ w, ok w → w.Ok ρ) ρ m.store e m'.store e') m

section

variable {leaf : Expr → Reducer Expr} {check : Word → Expr → Reducer Word}

theorem reduceTree_keeps (hleaf : ∀ e, Keeps ok ρ e (leaf e))
    (hcheck : ∀ st e, Aligns ok (fun _ => True) ((∀ w, ok w → w.Ok ρ) ∧ st.Agrees ρ) ρ st check e)
    (e : Expr) : Keeps ok ρ e (reduceTree leaf check e) := by
  induction e with
  | unop t r ih =>
      intro m
      rw [reduceTree, Logged.ensures_bind]
      refine (ih m).mono fun r' m' hr => ?_
      rw [Logged.ensures_pure]
      exact hr.unop.trans (.of_same (reduceUnary_spec _ ρ t r'))
  | binop t l r ihl ihr =>
      intro m
      rw [reduceTree, Logged.ensures_bind]
      refine (ihl m).mono fun l' m₁ hl => ?_
      rw [Logged.ensures_bind]
      refine (ihr m₁).mono fun r' m₂ hr => ?_
      rw [Logged.ensures_bind]
      refine (reduceTrivia_spec (fun h => h.1) trivial (hcheck m₂.store l') (hcheck m₂.store r') t m₂
        rfl).mono ?_
      rintro e' m₃ ⟨hst, htriv⟩
      refine ((reassociate_spec ρ e' m₃).weaken (fun _ h => h) fun _ _ => trivial).mono ?_
      rintro e'' m₄ ⟨hst', hre⟩
      rw [hst', hst]
      refine ((hl.binop hr).trans (.of_same htriv)).trans (.of_same ⟨hre.1, fun h => hre.2 h.1⟩)
  | _ => exact hleaf _

theorem reduceElsum_keeps (ρ : Valuation) (v : List Expr) : Keeps ok ρ (.elsum v) (reduceElsum v) := by
  intro m
  rw [reduceElsum, Logged.ensures_bind, Logged.ensures_get, Logged.ensures_bind]
  refine ((squeeze_spec ρ none v m).weaken (fun _ h => h) fun _ _ => trivial).mono ?_
  rintro ⟨kept, sum⟩ m' ⟨hst, h⟩
  dsimp only at h ⊢
  -- what is put together from the parts is kept if its value is their sum
  have hkept : ∀ e : Expr, (m.store.Agrees ρ → e.value ρ true =
      Expr.values ρ kept + sum.elim 0 (Expr.value ρ true)) →
      (∀ P, Built P false (.elsum kept) → (∀ x, sum = some x → Built P false x) →
        Built P false e) →
      Kept (∀ w, ok w → w.Ok ρ) ρ m.store (.elsum v) m'.store e := by
    intro e hval hb
    have hbuilt : ∀ P s, m.store.Closed P → Built P s (.elsum v) → s = false ∧ Built P false e := by
      intro P s hP he
      cases he with
      | elsum hv =>
          obtain ⟨hk, hs⟩ := h.built P hP (fun x hx => by cases hx) hv
          exact ⟨rfl, hb P (.elsum hk) hs⟩
    rw [hst]
    refine ⟨fun P s hP he => ?_, .refl _, fun _ _ ha => ha, fun _ hf ha s he sel => ?_⟩
    · obtain ⟨rfl, hbe⟩ := hbuilt P s hP he
      exact hbe
    · rw [(hbuilt _ s hf he).2.value_sel ρ sel true, hval ha, h.value ha, Expr.value_elsum]
      simp
  rcases kept with _ | ⟨k, kept⟩ <;> rcases sum with _ | sum <;> dsimp only
  · exact Logged.ensures_stop.mpr trivial
  · refine Logged.ensures_pure.mpr (hkept sum (fun _ => ?_) fun P _ hs => hs sum rfl)
    simp
  · obtain rfl := (h.none rfl).2
    refine Logged.ensures_pure.mpr (hkept _ (fun _ => ?_) fun P hk _ => hk)
    simp
  · refine Logged.ensures_pure.mpr (hkept _ (fun _ => ?_) fun P hk hs => ?_)
    · rw [Expr.value_plus, Expr.value_elsum, Option.elim_some]
    · exact .binop (by decide) (by decide) hk (hs sum rfl)

theorem reduceLeaf_keeps {reduce : Expr → Reducer Expr} (h : ∀ e, Keeps ok ρ e (reduce e))
    (e : Expr) : Keeps ok ρ e (reduceLeaf reduce e) := by
  intro m
  cases e with
  | elsum v =>
      rw [reduceLeaf, Logged.ensures_bind]
      refine (reduceElsum_keeps ρ v m).mono fun e m' he => ?_
      cases e with
      | elsum w => exact Logged.ensures_pure.mpr he
      | _ => exact (h _ m').mono fun e' m'' he' => he.trans he'
  | name np =>
      rw [reduceLeaf, Logged.ensures_bind, Logged.ensures_get]
      rcases hv : m.store.localVal np with _ | val
      · exact Logged.ensures_pure.mpr (.refl _ ρ _ _)
      · rw [Logged.ensures_bind]
        refine (h val m).mono fun val' m' hval => ?_
        rw [Logged.ensures_bind, Logged.ensures_modify, Logged.ensures_pure]
        have hb : ∀ P, m.store.Closed P → P (.name np) → Built P false val' := fun P hP hn =>
          hval.built P false hP (hP.name np val hn hv)
        refine ⟨?_, hval.follows.setVal hv (hval.built · false), fun hH hf ha => ?_, ?_⟩
        · rintro P s hP ⟨⟩
          next hn => exact hb P hP hn
        · have ha' := hval.agrees hH hf ha
          refine ⟨fun n hn => ?_, fun n x hx => ?_, ha'.size⟩
          · rw [Store.align_setVal] at hn ⊢
            exact ha'.aligned n hn
          rcases Store.localVal_setVal hx with ⟨rfl, rfl⟩ | hx
          · rw [ha.name n val hv, hval.value hH hf ha false (hf.name n val trivial hv)]
          · exact ha'.name n x hx
        · rintro hH hf ha s ⟨⟩ sel
          have hvb := hf.name np val trivial hv
          rw [hval.value hH hf ha false hvb, hvb.value_sel ρ sel true, Expr.value_name,
            ha.name np val hv]
  | element el =>
      rw [reduceLeaf, Logged.ensures_bind, Logged.ensures_get]
      split
      · exact Logged.ensures_pure.mpr (.refl _ ρ _ _)
      · next hr =>
          rw [Bool.not_eq_true] at hr
          rw [Logged.ensures_bind]
          refine (h (m.store.size el) m).mono fun size m' hsize => ?_
          rw [Logged.ensures_bind, Logged.ensures_modify, Logged.ensures_pure]
          have hb : ∀ P, m.store.Closed P → P (.element el) → Built P false size := fun P hP hn =>
            hsize.built P false hP (hP.size el hn hr)
          have hval : (∀ w, ok w → w.Ok ρ) → m.store.Formed → m.store.Agrees ρ →
              ∀ sel, size.value ρ sel = ρ.size el := fun hH hf ha sel => by
            have hsb := hf.size el trivial hr
            rw [hsize.value hH hf ha false hsb, hsb.value_sel ρ sel true, ha.size el hr]
          refine ⟨?_, hsize.follows.setSize hr (hsize.built · false), fun hH hf ha => ?_, ?_⟩
          · rintro P s hP ⟨⟩
            next hn => exact hb P hP hn
          · have ha' := hsize.agrees hH hf ha
            refine ⟨ha'.aligned, ha'.name, fun n hn => ?_⟩
            rw [Store.size_setSize] at hn ⊢
            split
            · next heq => rw [heq, hval hH hf ha]
            · next hne =>
                rw [if_neg hne] at hn
                exact ha'.size n hn
          · rintro hH hf ha s ⟨⟩ sel
            rw [hval hH hf ha, Expr.value_element]
  | _ => exact Logged.ensures_pure.mpr (.refl _ ρ _ _)

end

/-- A reduction keeps what the expression denotes, if all it logs is right. -/
theorem exprReduce_keeps (ok : Risk → Prop) (ρ : Valuation) (fuel : Nat) (e : Expr) :
    Keeps ok ρ e (exprReduce fuel e) := by
  induction fuel generalizing e with
  | zero => exact fun _ => Logged.ensures_stop.mpr trivial
  | succ fuel ih =>
      exact reduceTree_keeps (reduceLeaf_keeps ih) (exprCheckAlignment_aligns ok ρ fuel) e

end

end Ttools
