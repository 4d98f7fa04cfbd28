import Ttools.Expr.Estimate
import Ttools.Expr.Halt
import Ttools.Ast.Emit

/-!
# Offsets

`pass_optimize_offsets` (`shared/ments.c`) travels through all chains and recomputes the sizes that
are ranges; `ast` and `lit` repeat it until nothing shrinks, `maxpasses` times at most.

A pass relies on the reductions and the estimates it makes.  It keeps a log of them: `Doubt.Ok` is
what has to be true of an entry.

* `optimize_ends`: the loop makes one pass more than there are shrinks, at most, and these are
  bounded by what the ranges leave open; sizes get narrower only.
* `optimize_fits`: if nothing in the log is wrong, every command fits the size that its element is
  left with, in every layout that uses these sizes.

The elements of all chains are a list, in the order of the loops.  The texts of the error messages
and the traces are left out; the errors are counted.
-/

namespace Ttools

open Support (Logged)
open Support.Logged (Ensures stop ofOption)
open Asm (cmdBounds)

/-! ### The pass -/

/-- What a pass relies on: a step of a reduction, and an estimate. -/
inductive Doubt where
  | reduction (w : Risk)
  | estimate (st : Store) (e : Expr)

/-- It is right to. -/
def Doubt.Ok (ρ : Valuation) : Doubt → Prop
  | .reduction w => w.Ok ρ
  | .estimate st e => EstimateSound st e

abbrev Optimizer := Logged Memory Stop Doubt

/-- A reduction in a pass. -/
def reducing {α : Type} (x : Reducer α) : Optimizer α := fun m =>
  ((x m).1, (x m).2.map .reduction)

/-- `temp = expr_estimate (e)`. -/
def estimating (fuel : Nat) (e : Expr) : Optimizer Expr := do
  let m ← Logged.get
  Logged.note (.estimate m.store e)
  -- `abort ()` in `expr_estimate1` is not told from a lack of fuel
  ofOption .fuel (exprEstimate m.store fuel e)

/-- `el->u = u`. -/
def Store.setBody (st : Store) (el : ElemId) (u : Body) : Store :=
  { st with element := Function.update st.element el ⟨st.size el, u⟩ }

/-- An assignment to the fields of `el->u`. -/
def setBody (el : ElemId) (u : Body) : Optimizer Unit :=
  Logged.modify fun m => { m with store := m.store.setBody el u }

/-- `minsz` and `maxsz` of data of units of `width` bytes, from the estimate of the count. -/
def dataBounds (width : Word) : Expr → Option (Word × Word)
  | .const c => some (c * width, c * width)
  | .range lo hi => some (lo * width, hi * width)
  | _ => none

/-- `minsz` and `maxsz` of the element, and how often "DATA element has negative count" is said. -/
def recompute (fuel : Nat) (el : ElemId) : Optimizer ((Word × Word) × Nat) := do
  let m ← Logged.get
  match (m.store.element el).u with
  | .cmd opcode arg => do
      let arg ← reducing (exprReduce fuel arg)
      setBody el (.cmd opcode arg)
      let temp ← estimating fuel arg
      let bounds ← ofOption .abort (cmdBounds temp)
      return (bounds, 0)
  | .data width value count => do
      let count ← reducing (exprReduce fuel count)
      setBody el (.data width value count)
      let temp ← estimating fuel count
      let bounds ← ofOption .abort (dataBounds width temp)
      return (bounds, if temp.const?.any (·.slt 0) then 1 else 0)
  -- should always be of constant size
  | .block _ => stop .abort

/-- The recomputed size takes the place of the old one; whether it differs. -/
def shrinkTo (el : ElemId) (minsz maxsz : Word) : Optimizer Nat := do
  let m ← Logged.get
  match m.store.size el with
  | .range lo hi =>
      if lo = minsz ∧ hi = maxsz then return 0
      -- ranges should never grow
      else if lo.sle minsz ∧ maxsz.sle hi then do
        let size := if minsz = maxsz then .const minsz else .range minsz maxsz
        Logged.modify fun m => { m with store := m.store.setSize el size }
        return 1
      else stop .abort
  | _ => stop .abort

/-- The body of the loop over a chain: the shrinks and the errors. -/
def optimizeElement (fuel : Nat) (el : ElemId) : Optimizer (Nat × Nat) := do
  let m ← Logged.get
  -- already quite simple
  if (m.store.size el).isConst then return (0, 0)
  else do
    let ((minsz, maxsz), errors) ← recompute fuel el
    let n ← shrinkTo el minsz maxsz
    return (n, errors)

/-- `pass_optimize_offsets`: the number of shrinks, and that of the errors. -/
def passOptimizeOffsets (fuel : Nat) : List ElemId → Optimizer (Nat × Nat)
  | [] => return (0, 0)
  | el :: els => do
      let (n, errors) ← optimizeElement fuel el
      let (n', errors') ← passOptimizeOffsets fuel els
      return (n + n', errors + errors')

/-- What the loop has done. -/
structure Optimized where
  passes : Nat
  shrinks : Nat
  errors : Nat
  deriving DecidableEq, Repr

/-- The loop of `main`, with `maxpasses` passes to go.  `ast` exits after the first pass with
errors, `lit` after the loop. -/
def optimize (fuel : Nat) (els : List ElemId) : Nat → Optimizer Optimized
  | 0 => return ⟨0, 0, 0⟩
  | maxpasses + 1 => do
      let (effect, errors) ← passOptimizeOffsets fuel els
      if effect = 0 then return ⟨1, 0, errors⟩
      else do
        let o ← optimize fuel els maxpasses
        return ⟨o.passes + 1, effect + o.shrinks, errors + o.errors⟩

/-- The body of the loop of `pass_freeze`. -/
def freezeElement (el : ElemId) : Optimizer Unit := do
  let m ← Logged.get
  if (m.store.size el).isConst then return ()
  else
    match (m.store.element el).u with
    -- nonconstant size block?
    | .block _ => stop .abort
    | .data width _ count => do
        let size ← ofOption .abort (exprBinop false .mul count (.const width))
        Logged.modify fun m => { m with store := m.store.setSize el size }
    | .cmd _ _ =>
        match m.store.size el with
        | .range _ hi => Logged.modify fun m => { m with store := m.store.setSize el (.const hi) }
        | _ => stop .abort

/-- `pass_freeze`. -/
def passFreeze : List ElemId → Optimizer Unit
  | [] => return ()
  | el :: els => do
      freezeElement el
      passFreeze els

/-! ### What a reduction leaves alone -/

theorem Store.setSize_size (st : Store) (el : ElemId) : st.setSize el (st.size el) = st := by
  have helement : (fun n => if n = el then { st.element n with size := st.size el }
      else st.element n) = st.element := by
    funext n
    split
    · next heq =>
        subst heq
        rfl
    · rfl
  rw [Store.setSize, helement]

/-- The reduction takes the store to one that is related to it. -/
def Moves (R : Store → Store → Prop) (x : Reducer Expr) : Prop :=
  ∀ m, Ensures (fun _ => True) (fun _ => True) x (fun _ m' => R m.store m'.store) m

section Moves

variable {R : Store → Store → Prop} (hrefl : ∀ st, R st st)
  (htrans : ∀ {st st' st''}, R st st' → R st' st'' → R st st'')
  (hval : ∀ st np v, R st (st.setVal np v))
  (hsize : ∀ st st' el size, (st.size el).isRange = false → (st.size el).isConst = false →
    R st st' → R st (st'.setSize el size))

include hrefl htrans hval hsize

theorem reduceLeaf_moves {reduce : Expr → Reducer Expr} (h : ∀ e, Moves R (reduce e))
    (hconst : ∀ c m, Ensures (fun _ => True) (fun _ => True) (reduce (.const c))
      (fun e m' => e = .const c ∧ m'.store = m.store) m) (e : Expr) :
    Moves R (reduceLeaf reduce e) := by
  intro m
  cases e with
  | elsum v =>
      rw [reduceLeaf, Logged.ensures_bind, reduceElsum, Logged.ensures_bind, Logged.ensures_get,
        Logged.ensures_bind]
      have hsqueeze : Yields (fun _ => True) (squeeze m.store none v) _ := squeeze_spec .ones none v
      refine ((hsqueeze m).weaken (fun _ h => h) fun _ _ => trivial).mono ?_
      rintro ⟨kept, sum⟩ m' ⟨hst, -⟩
      have hre : ∀ e, Ensures (fun _ => True) (fun _ => True) (reduce e)
          (fun _ m'' => R m.store m''.store) m' :=
        fun e => (h e m').mono fun _ _ h' => hst ▸ h'
      have hsame : R m.store m'.store := hst ▸ hrefl _
      rcases kept with _ | ⟨k, kept⟩ <;> rcases sum with _ | sum <;> dsimp only
      · exact Logged.ensures_stop.mpr trivial
      · refine Logged.ensures_pure.mpr ?_
        split
        · exact Logged.ensures_pure.mpr hsame
        · exact hre _
      · exact Logged.ensures_pure.mpr (Logged.ensures_pure.mpr hsame)
      · exact Logged.ensures_pure.mpr (hre _)
  | name np =>
      rw [reduceLeaf, Logged.ensures_bind, Logged.ensures_get]
      rcases hv : m.store.localVal np with _ | val
      · exact Logged.ensures_pure.mpr (hrefl _)
      · rw [Logged.ensures_bind]
        refine (h val m).mono fun val' m' hstep => ?_
        rw [Logged.ensures_bind, Logged.ensures_modify, Logged.ensures_pure]
        exact htrans hstep (hval _ _ _)
  | element el =>
      rw [reduceLeaf, Logged.ensures_bind, Logged.ensures_get]
      split
      · exact Logged.ensures_pure.mpr (hrefl _)
      · next hrange =>
          rw [Bool.not_eq_true] at hrange
          rw [Logged.ensures_bind]
          by_cases hc : (m.store.size el).isConst = true
          · -- a constant is reduced to itself
            obtain ⟨c, hc⟩ := Expr.isConst_iff.mp hc
            rw [hc]
            refine (hconst c m).mono fun e m' he => ?_
            obtain ⟨rfl, hst⟩ := he
            rw [Logged.ensures_bind, Logged.ensures_modify, Logged.ensures_pure]
            show R m.store (m'.store.setSize el (.const c))
            rw [hst, ← hc, Store.setSize_size]
            exact hrefl _
          · rw [Bool.not_eq_true] at hc
            refine (h (m.store.size el) m).mono fun size m' hstep => ?_
            rw [Logged.ensures_bind, Logged.ensures_modify, Logged.ensures_pure]
            exact hsize _ _ _ _ hrange hc hstep
  | _ => exact Logged.ensures_pure.mpr (hrefl _)

theorem exprReduce_moves (fuel : Nat) (e : Expr) : Moves R (exprReduce fuel e) := by
  induction fuel generalizing e with
  | zero => exact fun _ => Logged.ensures_stop.mpr trivial
  | succ fuel ih =>
      rw [exprReduce]
      have hconst : ∀ c m, Ensures (fun _ => True) (fun _ => True) (exprReduce fuel (.const c))
          (fun e m' => e = .const c ∧ m'.store = m.store) m := by
        intro c m
        cases fuel with
        | zero => exact Logged.ensures_stop.mpr trivial
        | succ fuel => exact Logged.ensures_pure.mpr ⟨rfl, rfl⟩
      induction e with
      | unop t r ihr =>
          intro m
          rw [reduceTree, Logged.ensures_bind]
          exact (ihr m).mono fun r' m' hr => Logged.ensures_pure.mpr hr
      | binop t l r ihl ihr =>
          intro m
          rw [reduceTree, Logged.ensures_bind]
          refine (ihl m).mono fun l' m₁ hl => ?_
          rw [Logged.ensures_bind]
          refine (ihr m₁).mono fun r' m₂ hr => ?_
          rw [Logged.ensures_bind]
          have hcheck := exprCheckAlignment_aligns (fun _ => True) .ones fuel m₂.store
          refine (reduceTrivia_spec (fun h => h.1) trivial (hcheck l') (hcheck r') t m₂
            rfl).mono fun e' m₃ htriv => ?_
          refine ((reassociate_spec .ones e' m₃).weaken (fun _ h => h)
            fun _ _ => trivial).mono fun e'' m₄ hre => ?_
          rw [hre.1, htriv.1]
          exact htrans hl hr
      | _ => exact reduceLeaf_moves hrefl htrans hval hsize ih hconst _

end Moves

/-- The elements have the contents they had, and sizes that are constants or ranges stay. -/
structure Store.Steady (st st' : Store) : Prop where
  u : ∀ el, (st'.element el).u = (st.element el).u
  size : ∀ el, (st.size el).isConst = true ∨ (st.size el).isRange = true → st'.size el = st.size el

theorem exprReduce_steady (fuel : Nat) (e : Expr) : Moves Store.Steady (exprReduce fuel e) := by
  refine exprReduce_moves (fun _ => ⟨fun _ => rfl, fun _ _ => rfl⟩) ?_ ?_ ?_ fuel e
  · intro st st' st'' h h'
    refine ⟨fun el => (h'.u el).trans (h.u el), fun el hel => ?_⟩
    rw [← h.size el hel]
    exact h'.size el ((h.size el hel).symm ▸ hel)
  · exact fun st np v => ⟨fun _ => rfl, fun _ _ => rfl⟩
  · intro st st' el size hrange hconst h
    refine ⟨fun el' => ?_, fun el' hel => ?_⟩
    · rw [← h.u el', Store.setSize]
      dsimp only
      split
      · next heq => rw [heq]
      · rfl
    · have hne : el' ≠ el := by
        rintro rfl
        simp [hrange, hconst] at hel
      rw [← h.size el' hel]
      simp [Store.setSize, Store.size, hne]

/-! ### Sizes that get narrower -/

/-- `e->tag == EXPR_CONST || e->tag == EXPR_RANGE`. -/
def Expr.isSimple (e : Expr) : Bool := e.isConst || e.isRange

/-- A constant stays, and a range becomes one inside it, or a constant inside it. -/
def Expr.Narrows (size size' : Expr) : Prop :=
  match size with
  | .const _ => size' = size
  | .range lo hi => ∃ r : Bounds, r.Within ⟨lo, hi⟩ ∧
      (size' = .range r.lo r.hi ∨ r.lo = r.hi ∧ size' = .const r.lo)
  | _ => True

/-- The values a size leaves open; expressions that are neither constants nor ranges allow all. -/
def Expr.Allows (size : Expr) (v : Word) : Prop :=
  match size with
  | .const c => v = c
  | .range lo hi => v ∈ (⟨lo, hi⟩ : Bounds)
  | _ => True

/-- `el->tag == ELEMENT_CMD`. -/
def Body.isCmd : Body → Bool
  | .cmd _ _ => true
  | _ => false

/-- How often a size can shrink.  The ends of the sizes of data may change places. -/
def slackOf (cmd : Bool) : Expr → Nat
  | .const _ => 0
  | .range lo hi => (hi.toInt - lo.toInt + if cmd then 0 else 2 ^ 32).toNat
  | _ => 2 ^ 33

/-- How often the size of the element can shrink. -/
def Store.slack (st : Store) (el : ElemId) : Nat := slackOf (st.element el).u.isCmd (st.size el)

namespace Expr

variable {size size' size'' : Expr} {v : Word}

theorem Narrows.refl (size : Expr) : size.Narrows size := by
  cases size with
  | range lo hi => exact ⟨⟨lo, hi⟩, .refl _, .inl rfl⟩
  | const c => rfl
  | _ => trivial

theorem Narrows.trans (h : size.Narrows size') (h' : size'.Narrows size'') :
    size.Narrows size'' := by
  cases size with
  | const c =>
      cases h
      exact h'
  | range lo hi =>
      obtain ⟨r, hr, rfl | ⟨hone, rfl⟩⟩ := h
      · obtain ⟨r', hr', heq⟩ := h'
        exact ⟨r', hr'.trans hr, heq⟩
      · cases h'
        exact ⟨r, hr, .inr ⟨hone, rfl⟩⟩
  | _ => trivial

/-- A narrower size leaves open no more values. -/
theorem Narrows.allows (h : size.Narrows size') (hv : size'.Allows v) : size.Allows v := by
  cases size with
  | const c =>
      cases h
      exact hv
  | range lo hi =>
      obtain ⟨r, hr, rfl | ⟨hone, rfl⟩⟩ := h
      · exact hr.mem hv
      · cases hv
        exact hr.mem ⟨le_rfl, hone ▸ le_rfl⟩
  | _ => trivial

theorem Narrows.slack (cmd : Bool) (h : size.Narrows size') :
    slackOf cmd size' ≤ slackOf cmd size := by
  have hrange : ∀ lo hi : Word,
      (hi.toInt - lo.toInt + if cmd then 0 else 2 ^ 32).toNat ≤ 2 ^ 33 := by
    intro lo hi
    have hlo := Support.toInt_window lo
    have hhi := Support.toInt_window hi
    split <;> omega
  cases size with
  | const c =>
      cases h
      exact le_rfl
  | range lo hi =>
      obtain ⟨r, ⟨hlo, hhi⟩, rfl | ⟨-, rfl⟩⟩ := h
      · simp only [slackOf]
        dsimp only at hlo hhi
        omega
      · exact Nat.zero_le _
  | _ =>
      show slackOf cmd size' ≤ 2 ^ 33
      cases size' with
      | const c => exact Nat.zero_le _
      | range lo hi => exact hrange lo hi
      | _ => exact le_rfl

end Expr

namespace Store

variable {st st' st'' : Store}

/-- No element becomes another kind of element, and no size gets wider. -/
structure Narrowed (st st' : Store) : Prop where
  cmd : ∀ el, (st'.element el).u.isCmd = (st.element el).u.isCmd
  size : ∀ el, (st.size el).Narrows (st'.size el)

theorem Narrowed.refl (st : Store) : st.Narrowed st := ⟨fun _ => rfl, fun _ => .refl _⟩

theorem Narrowed.trans (h : st.Narrowed st') (h' : st'.Narrowed st'') : st.Narrowed st'' :=
  ⟨fun el => (h'.cmd el).trans (h.cmd el), fun el => (h.size el).trans (h'.size el)⟩

theorem Narrowed.slack (h : st.Narrowed st') (el : ElemId) : st'.slack el ≤ st.slack el := by
  rw [Store.slack, Store.slack, h.cmd el]
  exact (h.size el).slack _

theorem Steady.narrowed (h : st.Steady st') : st.Narrowed st' := by
  refine ⟨fun el => by rw [h.u el], fun el => ?_⟩
  by_cases hs : (st.size el).isConst = true ∨ (st.size el).isRange = true
  · rw [h.size el hs]
    exact .refl _
  · generalize st.size el = size at hs
    cases size with
    | const c => exact absurd (.inl rfl) hs
    | range lo hi => exact absurd (.inr rfl) hs
    | _ => trivial

end Store

/-! ### Layouts -/

/-- The expressions that an element holds besides its size are put together as the code expects. -/
def Body.Formed : Body → Prop
  | .block _ => True
  | .data _ value count => value.Formed ∧ count.Formed
  | .cmd _ arg => arg.Formed

/-- The layout `ρ` agrees with the names, and with the sizes that are not ranges. -/
structure Layout (ρ : Valuation) (st : Store) : Prop where
  formed : st.Formed
  bodies : ∀ el, (st.element el).u.Formed
  agrees : st.Agrees ρ
  range : ∀ lo hi, (⟨lo, hi⟩ : Bounds).Ordered → ρ.range lo hi ∈ (⟨lo, hi⟩ : Bounds)

/-- The layout uses sizes that are left open. -/
def Allowed (ρ : Valuation) (st : Store) : Prop := ∀ el, (st.size el).Allows (ρ.size el)

/-- What a command stands for: its opcode, and its argument. -/
def meant (ρ : Valuation) : Body → Option (Word × Word)
  | .cmd opcode arg => some (opcode, arg.value ρ true)
  | _ => none

/-- The bytes it needs. -/
def need (p : Word × Word) : Word := BitVec.ofNat 32 (cmdSize p.2)

/-- What the command needs is left open by its size. -/
def FitsSize (ρ : Valuation) (st : Store) (el : ElemId) : Prop :=
  (st.size el).isSimple = true ∧
    ∀ p, meant ρ (st.element el).u = some p → (st.size el).Allows (need p)

/-- A part of a pass has been made.  If what it relied on is right (`H`), and the layout uses sizes
that are still left open after it, then the layout still agrees, every command stands for what it
stood for, and those that fitted fit. -/
structure Shrunk (H : Prop) (ρ : Valuation) (st st' : Store) : Prop where
  narrowed : st.Narrowed st'
  layout : H → Layout ρ st → Allowed ρ st' → Layout ρ st'
  meant : H → Layout ρ st → Allowed ρ st' →
    ∀ el, meant ρ (st'.element el).u = meant ρ (st.element el).u
  fits : H → Layout ρ st → Allowed ρ st' → ∀ el, FitsSize ρ st el → FitsSize ρ st' el

section

variable {H : Prop} {ρ : Valuation} {st st' st'' : Store} {el : ElemId}

theorem Store.Narrowed.allowed (h : st.Narrowed st') (ha : Allowed ρ st') : Allowed ρ st :=
  fun el => (h.size el).allows (ha el)

theorem Layout.models (hl : Layout ρ st) (ha : Allowed ρ st) : st.Models ρ where
  name := hl.agrees.name
  size el := by
    have hopen := ha el
    have hval := hl.agrees.size el
    generalize st.size el = size at *
    cases size <;> first | exact hopen | exact hval rfl
  range := hl.range

theorem Shrunk.refl (H : Prop) (ρ : Valuation) (st : Store) : Shrunk H ρ st st :=
  ⟨.refl st, fun _ hl _ => hl, fun _ _ _ _ => rfl, fun _ _ _ _ hf => hf⟩

theorem Shrunk.trans (h : Shrunk H ρ st st') (h' : Shrunk H ρ st' st'') : Shrunk H ρ st st'' where
  narrowed := h.narrowed.trans h'.narrowed
  layout hH hl ha := h'.layout hH (h.layout hH hl (h'.narrowed.allowed ha)) ha
  meant hH hl ha el := by
    have ha' := h'.narrowed.allowed ha
    rw [h'.meant hH (h.layout hH hl ha') ha el, h.meant hH hl ha' el]
  fits hH hl ha el hf :=
    have ha' := h'.narrowed.allowed ha
    h'.fits hH (h.layout hH hl ha') ha el (h.fits hH hl ha' el hf)

@[simp] theorem Store.size_setBody (st : Store) (el n : ElemId) (u : Body) :
    (st.setBody el u).size n = st.size n := by
  by_cases hn : n = el
  · subst hn
    simp [Store.setBody, Store.size]
  · simp [Store.setBody, Store.size, hn]

theorem Store.u_setBody (st : Store) (el n : ElemId) (u : Body) :
    ((st.setBody el u).element n).u = if n = el then u else (st.element n).u := by
  by_cases hn : n = el
  · subst hn
    simp [Store.setBody]
  · simp [Store.setBody, hn]

theorem meant_reduced {e e' : Expr} {u' : Body} (hk : Kept H ρ st e st' e') (hs : st.Steady st')
    (hformed : (st.element el).u.Formed → e.Formed ∧ (e'.Formed → u'.Formed))
    (hmeant : e'.value ρ true = e.value ρ true → meant ρ u' = meant ρ (st.element el).u) (hH : H)
    (hl : Layout ρ st) (n : ElemId) :
    meant ρ ((st'.setBody el u').element n).u = meant ρ (st.element n).u := by
  rw [Store.u_setBody]
  split
  · next heq =>
      rw [heq]
      exact hmeant (hk.value hH hl.formed hl.agrees false (hformed (hl.bodies el)).1 true)
  · rw [hs.u n]

/-- An expression of the element has been reduced, and has taken its place. -/
theorem Kept.shrunk {e e' : Expr} (hk : Kept H ρ st e st' e') (el : ElemId) (u' : Body)
    (hs : st.Steady st')
    (hcmd : u'.isCmd = (st.element el).u.isCmd)
    (hformed : (st.element el).u.Formed → e.Formed ∧ (e'.Formed → u'.Formed))
    (hmeant : e'.value ρ true = e.value ρ true → meant ρ u' = meant ρ (st.element el).u) :
    Shrunk H ρ st (st'.setBody el u') where
  narrowed := by
    refine ⟨fun n => ?_, fun n => ?_⟩
    · rw [Store.u_setBody]
      split
      · next heq => rw [heq, hcmd]
      · rw [hs.u n]
    · rw [Store.size_setBody]
      exact hs.narrowed.size n
  layout hH hl _ := by
    have hf' := hk.closed _ hl.formed
    have ha' := hk.agrees hH hl.formed hl.agrees
    refine ⟨⟨hf'.name, fun n hn => ?_⟩, fun n => ?_, ⟨ha'.aligned, ha'.name, fun n => ?_⟩, hl.range⟩
    · rw [Store.size_setBody]
      exact hf'.size n hn
    · rw [Store.u_setBody]
      split
      · obtain ⟨he, hdone⟩ := hformed (hl.bodies el)
        exact hdone (hk.built _ _ hl.formed he)
      · rw [hs.u n]
        exact hl.bodies n
    · rw [Store.size_setBody]
      exact ha'.size n
  meant hH hl _ n := meant_reduced hk hs hformed hmeant hH hl n
  fits hH hl _ n hf := by
    have hsize : (st'.setBody el u').size n = st.size n := by
      rw [Store.size_setBody]
      exact hs.size n (by simpa [Expr.isSimple] using hf.1)
    refine ⟨hsize ▸ hf.1, fun p hp => ?_⟩
    rw [meant_reduced hk hs hformed hmeant hH hl n] at hp
    rw [hsize]
    exact hf.2 p hp

end

/-! ### One element -/

section

variable {ok : Doubt → Prop} {err : Stop → Prop} {ρ : Valuation}

theorem ensures_reducing {α : Type} {x : Reducer α} {Q : α → Memory → Prop} {m : Memory} :
    Ensures ok err (reducing x) Q m ↔ Ensures (fun w => ok (.reduction w)) err x Q m := by
  unfold Ensures reducing
  rcases x m with ⟨_ | ⟨a, m'⟩, log⟩ <;> simp

/-- The estimate that is logged is the one that is returned. -/
theorem ensures_estimating {fuel : Nat} {e : Expr} {Q : Expr → Memory → Prop} {m : Memory}
    (hfuel : err .fuel) (h : ∀ r : Bounds, Estimates m.store e r → ok (.estimate m.store e) →
      Q (if r.lo = r.hi then .const r.lo else .range r.lo r.hi) m) :
    Ensures ok err (estimating fuel e) Q m := by
  rw [estimating, Logged.ensures_bind, Logged.ensures_get, Logged.ensures_bind,
    Logged.ensures_note]
  intro hok
  rw [Logged.ensures_ofOption]
  refine ⟨fun temp htemp => ?_, fun _ => hfuel⟩
  obtain ⟨r, hr, rfl⟩ := Option.map_eq_some_iff.mp htemp
  exact h r ⟨fuel, hr⟩ hok

end

/-! ### The sizes of commands -/

theorem toInt_cmdSize (v : Word) : (BitVec.ofNat 32 (cmdSize v)).toInt = cmdSize v := by
  have hwin := Support.toInt_window v
  have hle : cmdSize v ≤ 8 := (cmdSize_le_iff (by decide)).mpr (by norm_num; omega)
  have hnat : (BitVec.ofNat 32 (cmdSize v)).toNat = cmdSize v := by
    rw [BitVec.toNat_ofNat]
    exact Nat.mod_eq_of_lt (by omega)
  rw [BitVec.toInt_eq_toNat_cond, hnat, if_pos (by omega)]

/-- The longest command of a range is one of those at its ends. -/
theorem cmdSize_le_ends {r : Bounds} {v : Word} (hv : v ∈ r) :
    cmdSize v ≤ max (cmdSize r.lo) (cmdSize r.hi) := by
  obtain ⟨-, hlo, -, hneg⟩ :=
    (cmdSize_le_iff (by decide)).mp (le_max_left (cmdSize r.lo) (cmdSize r.hi))
  obtain ⟨h1, -, hhi, -⟩ :=
    (cmdSize_le_iff (by decide)).mp (le_max_right (cmdSize r.lo) (cmdSize r.hi))
  obtain ⟨hlo', hhi'⟩ := hv
  exact (cmdSize_le_iff (by decide)).mpr ⟨h1, hlo.trans hlo', hhi'.trans_lt hhi, fun h =>
    hneg (hlo'.trans_lt h)⟩

/-- The shortest one is too, unless 0 is between them. -/
theorem ends_le_cmdSize {r : Bounds} {v : Word} (hv : v ∈ r)
    (h0 : ¬(r.lo.toInt ≤ 0 ∧ 0 ≤ r.hi.toInt)) :
    min (cmdSize r.lo) (cmdSize r.hi) ≤ cmdSize v := by
  obtain ⟨h1, hlo, hhi, hneg⟩ := (cmdSize_le_iff (by decide)).mp (le_refl (cmdSize v))
  obtain ⟨hlo', hhi'⟩ := hv
  by_cases hpos : 0 < r.lo.toInt
  · refine (min_le_left _ _).trans
      ((cmdSize_le_iff (by decide)).mpr ⟨h1, ?_, hlo'.trans_lt hhi, ?_⟩)
    · exact le_trans (by simp) hpos.le
    · exact fun h => absurd h hpos.not_gt
  · have hhneg : r.hi.toInt < 0 := by omega
    refine (min_le_right _ _).trans ((cmdSize_le_iff (by decide)).mpr ⟨h1, hlo.trans hhi', ?_, ?_⟩)
    · exact hhneg.trans_le (by positivity)
    · exact fun _ => hneg (hhi'.trans_lt hhneg)

/-- `minsz` and `maxsz` are right if the bounds of the argument are. -/
theorem toInt_cmdSizes (r : Bounds) :
    (Asm.cmdSizes r.lo r.hi).1.toInt = (if r.lo.toInt ≤ 0 ∧ 0 ≤ r.hi.toInt then 1
      else min (cmdSize r.lo) (cmdSize r.hi) : Nat) ∧
    (Asm.cmdSizes r.lo r.hi).2.toInt = (max (cmdSize r.lo) (cmdSize r.hi) : Nat) := by
  have ha := toInt_cmdSize r.lo
  have hb := toInt_cmdSize r.hi
  have hmin : (if (BitVec.ofNat 32 (cmdSize r.lo)).slt (BitVec.ofNat 32 (cmdSize r.hi)) then
      BitVec.ofNat 32 (cmdSize r.lo) else BitVec.ofNat 32 (cmdSize r.hi) : Word).toInt
      = (min (cmdSize r.lo) (cmdSize r.hi) : Nat) := by
    simp only [BitVec.slt_iff_toInt_lt, ha, hb]
    split
    · rw [ha]
      omega
    · rw [hb]
      omega
  refine ⟨?_, ?_⟩
  · simp only [Asm.cmdSizes, Bool.and_eq_true, BitVec.sle_iff_toInt_le, BitVec.ofNat_eq_ofNat,
      BitVec.toInt_zero]
    split
    · rfl
    · exact hmin
  · simp only [Asm.cmdSizes, BitVec.slt_iff_toInt_lt, ha, hb]
    split
    · rw [ha]
      omega
    · rw [hb]
      omega

theorem cmdSizes_ordered (r : Bounds) :
    (Asm.cmdSizes r.lo r.hi).1.toInt ≤ (Asm.cmdSizes r.lo r.hi).2.toInt := by
  obtain ⟨hmin, hmax⟩ := toInt_cmdSizes r
  have hlo := one_le_cmdSize r.lo
  rw [hmin, hmax]
  split <;> omega

theorem mem_cmdSizes {r : Bounds} {v : Word} (hv : v ∈ r) :
    BitVec.ofNat 32 (cmdSize v) ∈
      (⟨(Asm.cmdSizes r.lo r.hi).1, (Asm.cmdSizes r.lo r.hi).2⟩ : Bounds) := by
  obtain ⟨hmin, hmax⟩ := toInt_cmdSizes r
  rw [Support.Range.mem_def]
  dsimp only
  rw [hmin, hmax, toInt_cmdSize]
  refine ⟨?_, by exact_mod_cast cmdSize_le_ends hv⟩
  split
  · exact_mod_cast one_le_cmdSize v
  · next h0 => exact_mod_cast ends_le_cmdSize hv h0

/-- `minsz` and `maxsz` are in order, and right if the bounds of the argument are. -/
theorem cmdBounds_spec {r : Bounds} {b : Word × Word}
    (hb : cmdBounds (if r.lo = r.hi then .const r.lo else .range r.lo r.hi) = some b) :
    b.1.toInt ≤ b.2.toInt ∧
      ∀ v ∈ r, BitVec.ofNat 32 (cmdSize v) ∈ (⟨b.1, b.2⟩ : Bounds) := by
  split at hb
  · next heq =>
      cases hb
      refine ⟨le_rfl, fun v hv => ?_⟩
      obtain rfl : v = r.lo := BitVec.eq_of_toInt_eq ((heq ▸ hv.2).antisymm hv.1)
      exact ⟨le_rfl, le_rfl⟩
  · cases hb
    exact ⟨cmdSizes_ordered r, fun v hv => mem_cmdSizes hv⟩

/-! ### A pass -/

section

variable {ok : Doubt → Prop} {ρ : Valuation}

/-- A reduction in a pass. -/
theorem ensures_reduction (ρ : Valuation) {fuel : Nat} {e : Expr} {Q : Expr → Memory → Prop}
    {m : Memory}
    (h : ∀ e' m', Kept (∀ d, ok d → d.Ok ρ) ρ m.store e m'.store e' → m.store.Steady m'.store →
      Q e' m') : Ensures ok (fun _ => True) (reducing (exprReduce fuel e)) Q m := by
  rw [ensures_reducing]
  have hkeeps := exprReduce_keeps (fun w => ok (.reduction w)) ρ fuel e m
  have hsteady : Ensures (fun w => ok (.reduction w)) (fun _ => True) (exprReduce fuel e)
      (fun _ m' => m.store.Steady m'.store) m :=
    (exprReduce_steady fuel e m).weaken (fun _ _ => trivial) fun _ => id
  refine (hkeeps.and hsteady).mono fun e' m' ⟨hk, hs⟩ => h e' m' ?_ hs
  have himp : (∀ d, ok d → d.Ok ρ) → ∀ w, ok (.reduction w) → w.Ok ρ := fun hH w hw =>
    hH (.reduction w) hw
  exact ⟨hk.built, hk.follows, fun hH => hk.agrees (himp hH), fun hH => hk.value (himp hH)⟩

/-- What `recompute` is for: the bounds it gives are right. -/
theorem recompute_spec (ρ : Valuation) (fuel : Nat) (el : ElemId) (m : Memory) :
    Ensures ok (fun _ => True) (recompute fuel el) (fun b m' =>
      Shrunk (∀ d, ok d → d.Ok ρ) ρ m.store m'.store ∧
      (∀ n, (m.store.size n).isSimple = true → m'.store.size n = m.store.size n) ∧
      ((m.store.element el).u.isCmd = true → b.1.1.toInt ≤ b.1.2.toInt) ∧
      ((∀ d, ok d → d.Ok ρ) → Layout ρ m'.store → Allowed ρ m'.store →
        ∀ p, meant ρ (m'.store.element el).u = some p → need p ∈ (⟨b.1.1, b.1.2⟩ : Bounds))) m := by
  have hsimple : ∀ {st' : Store} {u : Body}, m.store.Steady st' → ∀ n,
      (m.store.size n).isSimple = true → (st'.setBody el u).size n = m.store.size n := by
    intro st' u hs n hn
    rw [Store.size_setBody]
    exact hs.size n (by simpa [Expr.isSimple] using hn)
  rw [recompute, Logged.ensures_bind, Logged.ensures_get]
  split
  · next opcode arg hu =>
      rw [Logged.ensures_bind]
      refine ensures_reduction ρ fun arg' m₁ hk hs => ?_
      have hshrunk := hk.shrunk el (.cmd opcode arg') hs (by rw [hu]; rfl)
        (by rw [hu]; exact fun h => ⟨h, id⟩) (by rw [hu]; exact fun h => by rw [meant, meant, h])
      rw [Logged.ensures_bind, setBody, Logged.ensures_modify, Logged.ensures_bind]
      refine ensures_estimating trivial fun r hr hok => ?_
      rw [Logged.ensures_bind, Logged.ensures_ofOption]
      refine ⟨fun b hb => Logged.ensures_pure.mpr ?_, fun _ => trivial⟩
      obtain ⟨hord, hmem⟩ := cmdBounds_spec hb
      refine ⟨hshrunk, hsimple hs, fun _ => hord, fun hH hl ha w hw => ?_⟩
      dsimp only at hw hl ha hr hok
      rw [Store.u_setBody, if_pos rfl] at hw
      cases hw
      have hsound : EstimateSound _ arg' := hH _ hok
      exact hmem _ ((hsound.of_estimates hr).2 ρ (hl.models ha))
  · next width value count hu =>
      rw [Logged.ensures_bind]
      refine ensures_reduction ρ fun count' m₁ hk hs => ?_
      have hshrunk := hk.shrunk el (.data width value count') hs (by rw [hu]; rfl)
        (by rw [hu]; exact fun h => ⟨h.2, fun h' => ⟨h.1, h'⟩⟩) (by rw [hu]; exact fun _ => rfl)
      rw [Logged.ensures_bind, setBody, Logged.ensures_modify, Logged.ensures_bind]
      refine ensures_estimating trivial fun r hr hok => ?_
      rw [Logged.ensures_bind, Logged.ensures_ofOption]
      refine ⟨fun b hb => Logged.ensures_pure.mpr ?_, fun _ => trivial⟩
      refine ⟨hshrunk, hsimple hs, fun hcmd => ?_, fun hH hl ha w hw => ?_⟩
      · rw [hu] at hcmd
        cases hcmd
      · dsimp only at hw
        rw [Store.u_setBody, if_pos rfl] at hw
        cases hw
  · exact Logged.ensures_stop.mpr trivial

theorem slack_shrinks {cmd : Bool} {lo hi minsz maxsz : Word} (hlo : lo.toInt ≤ minsz.toInt)
    (hhi : maxsz.toInt ≤ hi.toInt) (hne : ¬(lo = minsz ∧ hi = maxsz))
    (hcmd : cmd = true → minsz.toInt ≤ maxsz.toInt) :
    1 + slackOf cmd (if minsz = maxsz then .const minsz else .range minsz maxsz)
      ≤ slackOf cmd (.range lo hi) := by
  have hne' : ¬(lo.toInt = minsz.toInt ∧ hi.toInt = maxsz.toInt) := fun h =>
    hne ⟨BitVec.eq_of_toInt_eq h.1, BitVec.eq_of_toInt_eq h.2⟩
  have hmin := Support.toInt_window minsz
  have hmax := Support.toInt_window maxsz
  split
  · next heq =>
      subst heq
      simp only [slackOf]
      split <;> omega
  · simp only [slackOf]
    split
    · next hc =>
        have hord := hcmd hc
        omega
    · omega

/-- The new size of an element whose bounds were recomputed. -/
theorem allows_iff {minsz maxsz w : Word} :
    (if minsz = maxsz then Expr.const minsz else .range minsz maxsz).Allows w ↔
      w ∈ (⟨minsz, maxsz⟩ : Bounds) := by
  split
  · next heq =>
      subst heq
      refine ⟨?_, fun hw => BitVec.eq_of_toInt_eq (le_antisymm hw.2 hw.1)⟩
      rintro rfl
      exact ⟨le_rfl, le_rfl⟩
  · exact Iff.rfl

/-- A range that has become smaller, and still leaves open what the command needs. -/
theorem shrunk_setSize {H : Prop} {st : Store} {el : ElemId} {lo hi minsz maxsz : Word}
    {size : Expr}
    (hsize : st.size el = .range lo hi) (hwithin : (⟨minsz, maxsz⟩ : Bounds).Within ⟨lo, hi⟩)
    (hnew : size = if minsz = maxsz then .const minsz else .range minsz maxsz)
    (hright : H → Layout ρ st → Allowed ρ st → ∀ p, meant ρ (st.element el).u = some p →
      need p ∈ (⟨minsz, maxsz⟩ : Bounds)) :
    Shrunk H ρ st (st.setSize el size) ∧
      (H → Layout ρ st → Allowed ρ (st.setSize el size) → FitsSize ρ (st.setSize el size) el) := by
  have hu : ∀ n, ((st.setSize el size).element n).u = (st.element n).u := by
    intro n
    by_cases hn : n = el <;> simp [Store.setSize, hn]
  have hother : ∀ n ≠ el, (st.setSize el size).size n = st.size n := fun n hn => by
    rw [Store.size_setSize, if_neg hn]
  have hself : (st.setSize el size).size el = size := by rw [Store.size_setSize, if_pos rfl]
  have hallows : ∀ w, size.Allows w ↔ w ∈ (⟨minsz, maxsz⟩ : Bounds) := fun w =>
    hnew ▸ allows_iff
  have hnarrowed : st.Narrowed (st.setSize el size) := by
    refine ⟨fun n => by rw [hu], fun n => ?_⟩
    by_cases hn : n = el
    · subst hn
      rw [hself, hsize]
      refine ⟨⟨minsz, maxsz⟩, hwithin, ?_⟩
      rw [hnew]
      split
      · next heq => exact .inr ⟨heq, rfl⟩
      · exact .inl rfl
    · rw [hother n hn]
      exact .refl _
  have hfit : H → Layout ρ st → Allowed ρ (st.setSize el size) →
      FitsSize ρ (st.setSize el size) el := by
    intro hH hl ha
    refine ⟨?_, fun w hw => ?_⟩
    · rw [hself, hnew]
      split <;> rfl
    · rw [hu] at hw
      rw [hself, hallows]
      exact hright hH hl (hnarrowed.allowed ha) w hw
  refine ⟨⟨hnarrowed, fun _ hl ha => ?_, fun _ _ _ n => by rw [hu], fun hH hl ha n hf => ?_⟩, hfit⟩
  · refine ⟨⟨hl.formed.name, fun n hn hr => ?_⟩, fun n => hu n ▸ hl.bodies n,
      ⟨hl.agrees.aligned, hl.agrees.name, fun n hr => ?_⟩, hl.range⟩
    · by_cases hne : n = el
      · subst hne
        rw [hself, hnew] at hr ⊢
        split
        · exact .const _
        · next heq =>
            rw [if_neg heq] at hr
            cases hr
      · rw [hother n hne] at hr ⊢
        exact hl.formed.size n hn hr
    · by_cases hne : n = el
      · subst hne
        have hopen := ha n
        rw [hself] at hr hopen ⊢
        generalize size = x at hr hopen hnew
        split at hnew
        · subst hnew
          exact hopen
        · subst hnew
          cases hr
      · rw [hother n hne] at hr ⊢
        exact hl.agrees.size n hr
  · by_cases hne : n = el
    · exact hne ▸ hfit hH hl ha
    · refine ⟨hother n hne ▸ hf.1, fun w hw => ?_⟩
      rw [hu] at hw
      rw [hother n hne]
      exact hf.2 w hw

theorem optimizeElement_spec (ρ : Valuation) (fuel : Nat) (el : ElemId) (m : Memory) :
    Ensures ok (fun _ => True) (optimizeElement fuel el) (fun r m' =>
      Shrunk (∀ d, ok d → d.Ok ρ) ρ m.store m'.store ∧
      r.1 + m'.store.slack el ≤ m.store.slack el ∧
      (∀ n ≠ el, (m.store.size n).isSimple = true → m'.store.size n = m.store.size n) ∧
      ((m.store.size el).isRange = true → (∀ d, ok d → d.Ok ρ) → Layout ρ m.store →
        Allowed ρ m'.store → FitsSize ρ m'.store el)) m := by
  rw [optimizeElement, Logged.ensures_bind, Logged.ensures_get]
  split
  · next hconst =>
      refine Logged.ensures_pure.mpr ⟨.refl _ _ _, (Nat.zero_add _).le, fun _ _ _ => rfl, ?_⟩
      intro hrange
      obtain ⟨c, hc⟩ := Expr.isConst_iff.mp hconst
      rw [hc] at hrange
      cases hrange
  · rw [Logged.ensures_bind]
    refine (recompute_spec ρ fuel el m).mono ?_
    rintro ⟨⟨minsz, maxsz⟩, errors⟩ m₁ ⟨hshrunk, hsame, hcmd, hright⟩
    rw [Logged.ensures_bind, shrinkTo, Logged.ensures_bind, Logged.ensures_get]
    split
    · next lo hi hsize =>
        -- the size was a range before, or something else that has been reduced to one
        have hslack : m₁.store.slack el ≤ m.store.slack el := hshrunk.narrowed.slack el
        split
        · next heq =>
            obtain ⟨rfl, rfl⟩ := heq
            refine Logged.ensures_pure.mpr (Logged.ensures_pure.mpr
              ⟨hshrunk, ?_, fun n _ => hsame n, ?_⟩)
            · rw [Nat.zero_add]
              exact hslack
            · intro hrange hH hl ha
              refine ⟨by rw [hsize]; rfl, fun w hw => ?_⟩
              rw [hsize]
              exact hright hH (hshrunk.layout hH hl ha) ha w hw
        · next hne =>
            split
            · next hwithin =>
                obtain ⟨hlo, hhi⟩ := hwithin
                rw [BitVec.sle_iff_toInt_le] at hlo hhi
                obtain ⟨hnew, hfit⟩ := shrunk_setSize hsize ⟨hlo, hhi⟩ rfl hright
                rw [Logged.ensures_bind, Logged.ensures_modify]
                refine Logged.ensures_pure.mpr (Logged.ensures_pure.mpr
                  ⟨hshrunk.trans hnew, ?_, fun n hn hs => ?_, fun hrange hH hl ha => ?_⟩)
                · have hcmd₁ : (m₁.store.element el).u.isCmd = (m.store.element el).u.isCmd :=
                    hshrunk.narrowed.cmd el
                  have hless := slack_shrinks hlo hhi hne fun h => hcmd (hcmd₁ ▸ h)
                  refine le_trans ?_ hslack
                  rw [Store.slack, Store.slack, hnew.narrowed.cmd el, Store.size_setSize,
                    if_pos rfl, hsize]
                  exact hless
                · rw [← hsame n hs]
                  exact (Store.size_setSize _ _ _ _).trans (if_neg hn)
                · exact hfit hH (hshrunk.layout hH hl (hnew.narrowed.allowed ha)) ha
            · exact Logged.ensures_stop.mpr trivial
    · exact Logged.ensures_stop.mpr trivial

/-- What all elements together can still shrink. -/
def Store.slacks (st : Store) (els : List ElemId) : Nat := (els.map st.slack).sum

theorem Store.Narrowed.slacks {st st' : Store} (h : st.Narrowed st') (els : List ElemId) :
    st'.slacks els ≤ st.slacks els := by
  induction els with
  | nil => exact le_rfl
  | cons el els ih =>
      simp only [Store.slacks, List.map_cons, List.sum_cons]
      exact Nat.add_le_add (h.slack el) ih

theorem pass_spec (ρ : Valuation) (fuel : Nat) (els : List ElemId) (m : Memory) :
    Ensures ok (fun _ => True) (passOptimizeOffsets fuel els) (fun r m' =>
      Shrunk (∀ d, ok d → d.Ok ρ) ρ m.store m'.store ∧
      r.1 + m'.store.slacks els ≤ m.store.slacks els ∧
      ((∀ d, ok d → d.Ok ρ) → Layout ρ m.store → Allowed ρ m'.store →
        ∀ n ∈ els, (m.store.size n).isRange = true → FitsSize ρ m'.store n)) m := by
  induction els generalizing m with
  | nil =>
      refine Logged.ensures_pure.mpr ⟨.refl _ _ _, (Nat.zero_add _).le, fun _ _ _ n hn => ?_⟩
      cases hn
  | cons el els ih =>
      rw [passOptimizeOffsets, Logged.ensures_bind]
      refine (optimizeElement_spec ρ fuel el m).mono ?_
      rintro ⟨k, errors⟩ m₁ ⟨hshrunk, hslack, hother, hfit⟩
      rw [Logged.ensures_bind]
      refine (ih m₁).mono ?_
      rintro ⟨k', errors'⟩ m₂ ⟨hshrunk', hslacks, hfits⟩
      refine Logged.ensures_pure.mpr ⟨hshrunk.trans hshrunk', ?_, fun hH hl ha n hn hrange => ?_⟩
      · have hrest := hshrunk.narrowed.slacks els
        have hself := hshrunk'.narrowed.slack el
        simp only [Store.slacks, List.map_cons, List.sum_cons] at *
        omega
      · have ha₁ := hshrunk'.narrowed.allowed ha
        have hl₁ := hshrunk.layout hH hl ha₁
        by_cases hne : n = el
        · subst hne
          exact hshrunk'.fits hH hl₁ ha n (hfit hrange hH hl ha₁)
        · have hmem : n ∈ els := (List.mem_cons.mp hn).resolve_left hne
          have hsame : m₁.store.size n = m.store.size n :=
            hother n hne (by simp [Expr.isSimple, hrange])
          exact hfits hH hl₁ ha n hmem (hsame ▸ hrange)

/-- The loop: it is a sequence of passes, each of which but the last shrinks something. -/
theorem optimize_spec (ok : Doubt → Prop) (ρ : Valuation) (fuel : Nat) (els : List ElemId)
    (maxpasses : Nat) (m : Memory) :
    Ensures ok (fun _ => True) (optimize fuel els maxpasses) (fun o m' =>
      Shrunk (∀ d, ok d → d.Ok ρ) ρ m.store m'.store ∧
      o.shrinks + m'.store.slacks els ≤ m.store.slacks els ∧ o.passes ≤ o.shrinks + 1 ∧
      (0 < maxpasses → (∀ d, ok d → d.Ok ρ) → Layout ρ m.store → Allowed ρ m'.store →
        ∀ n ∈ els, (m.store.size n).isRange = true → FitsSize ρ m'.store n)) m := by
  induction maxpasses generalizing m with
  | zero =>
      exact Logged.ensures_pure.mpr ⟨.refl _ _ _, (Nat.zero_add _).le, Nat.zero_le _,
        fun h => absurd h (lt_irrefl 0)⟩
  | succ maxpasses ih =>
      rw [optimize, Logged.ensures_bind]
      refine (pass_spec ρ fuel els m).mono ?_
      rintro ⟨effect, errors⟩ m₁ ⟨hshrunk, hslack, hfits⟩
      dsimp only at hslack ⊢
      split
      · exact Logged.ensures_pure.mpr ⟨hshrunk, by dsimp only; omega, le_rfl, fun _ => hfits⟩
      · next heffect =>
          rw [Logged.ensures_bind]
          refine (ih m₁).mono ?_
          rintro o m₂ ⟨hshrunk', hslack', hpasses, -⟩
          refine Logged.ensures_pure.mpr ⟨hshrunk.trans hshrunk', by dsimp only; omega,
            by dsimp only; omega, fun _ hH hl ha n hn hrange => ?_⟩
          have ha₁ := hshrunk'.narrowed.allowed ha
          exact hshrunk'.fits hH (hshrunk.layout hH hl ha₁) ha n (hfits hH hl ha₁ n hn hrange)

end

/-! ### Freezing -/

/-- What `pass_freeze` makes of the size of a command. -/
def Expr.Freezes (size size' : Expr) : Prop :=
  size' = size ∨ ∃ lo hi, size = .range lo hi ∧ size' = .const hi

theorem Expr.Freezes.trans {size size' size'' : Expr} (h : size.Freezes size')
    (h' : size'.Freezes size'') : size.Freezes size'' := by
  rcases h with rfl | ⟨lo, hi, rfl, rfl⟩
  · exact h'
  · rcases h' with rfl | ⟨_, _, hc, -⟩
    · exact .inr ⟨lo, hi, rfl, rfl⟩
    · cases hc

theorem freezeElement_spec (el : ElemId) (m : Memory) :
    Ensures (fun _ => True) (fun _ => True) (freezeElement el) (fun _ m' =>
      (∀ n, (m'.store.element n).u = (m.store.element n).u) ∧
      (∀ n, (m.store.element n).u.isCmd = true → (m.store.size n).Freezes (m'.store.size n)) ∧
      ((m.store.element el).u.isCmd = true → (m'.store.size el).isConst = true)) m := by
  have hu : ∀ size n, ((m.store.setSize el size).element n).u = (m.store.element n).u := by
    intro size n
    by_cases hn : n = el <;> simp [Store.setSize, hn]
  rw [freezeElement, Logged.ensures_bind, Logged.ensures_get]
  split
  · next hconst =>
      exact Logged.ensures_pure.mpr ⟨fun _ => rfl, fun _ _ => .inl rfl, fun _ => hconst⟩
  · split
    · exact Logged.ensures_stop.mpr trivial
    · next width value count hdata =>
        rw [Logged.ensures_bind, Logged.ensures_ofOption]
        refine ⟨fun size _ => Logged.ensures_modify.mpr
          ⟨hu size, fun n hn => .inl ?_, fun hcmd => ?_⟩, fun _ => trivial⟩
        · have hne : n ≠ el := by
            rintro rfl
            rw [hdata] at hn
            cases hn
          exact (Store.size_setSize _ _ _ _).trans (if_neg hne)
        · rw [hdata] at hcmd
          cases hcmd
    · split
      · next lo hi hsize =>
          refine Logged.ensures_modify.mpr ⟨hu _, fun n _ => ?_, fun _ => ?_⟩
          · by_cases hne : n = el
            · subst hne
              exact .inr ⟨lo, hi, hsize, (Store.size_setSize _ _ _ _).trans (if_pos rfl)⟩
            · exact .inl ((Store.size_setSize _ _ _ _).trans (if_neg hne))
          · show ((m.store.setSize el (.const hi)).size el).isConst = true
            rw [Store.size_setSize, if_pos rfl]
            rfl
      · exact Logged.ensures_stop.mpr trivial

theorem freeze_spec (els : List ElemId) (m : Memory) :
    Ensures (fun _ => True) (fun _ => True) (passFreeze els) (fun _ m' =>
      (∀ n, (m'.store.element n).u = (m.store.element n).u) ∧
      (∀ n, (m.store.element n).u.isCmd = true → (m.store.size n).Freezes (m'.store.size n)) ∧
      ∀ n ∈ els, (m.store.element n).u.isCmd = true → (m'.store.size n).isConst = true) m := by
  induction els generalizing m with
  | nil => exact Logged.ensures_pure.mpr ⟨fun _ => rfl, fun _ _ => .inl rfl, by simp⟩
  | cons el els ih =>
      rw [passFreeze, Logged.ensures_bind]
      refine (freezeElement_spec el m).mono fun _ m₁ ⟨hu, hfreezes, hconst⟩ => ?_
      refine (ih m₁).mono fun _ m₂ ⟨hu', hfreezes', hconst'⟩ => ?_
      refine ⟨fun n => (hu' n).trans (hu n), fun n hn => ?_, fun n hn hcmd => ?_⟩
      · exact (hfreezes n hn).trans (hfreezes' n ((hu n).symm ▸ hn))
      · by_cases hmem : n ∈ els
        · exact hconst' n hmem ((hu n).symm ▸ hcmd)
        · obtain rfl : n = el := (List.mem_cons.mp hn).resolve_right hmem
          obtain ⟨c, hc⟩ := Expr.isConst_iff.mp (hconst hcmd)
          rcases hfreezes' n ((hu n).symm ▸ hcmd) with heq | ⟨lo, hi, hrange, -⟩
          · rw [heq, hc]
            rfl
          · rw [hc] at hrange
            cases hrange

/-! ### What comes of it -/

section

variable {fuel maxpasses : Nat} {els : List ElemId} {m m₁ m₂ : Memory} {o : Optimized}
  {log log' : List Doubt}

/-- **The loop ends by itself**: of its passes each but the last shrinks something, sizes get
narrower only, and the shrinks are paid for by what the ranges have left open. -/
theorem optimize_ends (hrun : optimize fuel els maxpasses m = (.ok (o, m₁), log)) :
    m.store.Narrowed m₁.store ∧ o.passes ≤ o.shrinks + 1 ∧
      o.shrinks + m₁.store.slacks els ≤ m.store.slacks els := by
  obtain ⟨hshrunk, hslacks, hpasses, -⟩ :=
    (optimize_spec (fun _ => True) .ones fuel els maxpasses m).run hrun fun _ _ => trivial
  exact ⟨hshrunk.narrowed, hpasses, hslacks⟩

/-- A slot that is large enough: the command is generated, fills the slot, and stands for the
opcode and the argument. -/
theorem cmdGenerate_fits {opcode arg c : Word} (h : need (opcode, arg) = c ∨
    (need (opcode, arg)).toInt ≤ c.toInt) :
    ∃ out, cmdGenerate (lowByte opcode) arg c.toInt = .ok (c.toInt, out) ∧ out.length = c.toInt ∧
      (lowByte opcode &&& 0xf = 0 → reaches 0 out = some (lowByte opcode, arg)) := by
  have hle : (cmdSize arg : Int) ≤ c.toInt := by
    have hneed : (need (opcode, arg)).toInt = cmdSize arg := toInt_cmdSize arg
    rcases h with h | h
    · rw [← h, hneed]
    · rwa [hneed] at h
  have hone := one_le_cmdSize arg
  have hne : c.toInt ≠ 0 := by omega
  rcases hgen : generate (lowByte opcode) arg c.toInt.toNat with written | ⟨room, out⟩
  · have hroom := (generate_error hgen).1
    omega
  · obtain ⟨hlen, hroom⟩ := generate_ok hgen
    have hout : out ≠ [] := by
      rintro rfl
      simp at hlen
      omega
    refine ⟨List.replicate room opcodePfix ++ out, ?_, ?_, fun hop => ?_⟩
    · rw [cmdGenerate, if_pos hne, hgen]
      show (if c.toInt ≠ 0 then _ else _) = _
      rw [if_pos hne]
      rfl
    · rw [List.length_append, List.length_replicate]
      omega
    · rw [reaches_replicate room hout]
      exact generate_reaches hop hgen

/-- **Every command fits.**  If nothing that the passes relied on was wrong, then in every layout
that agreed with the names and the sizes before, and uses sizes that the passes have left open, the
slot in which `pass_freeze` leaves a command takes it, and what is generated there loads the
argument that the command had. -/
theorem optimize_fits {ρ : Valuation} (hpos : 0 < maxpasses)
    (hrun : optimize fuel els maxpasses m = (.ok (o, m₁), log)) (hlog : ∀ d ∈ log, d.Ok ρ)
    (hfreeze : passFreeze els m₁ = (.ok ((), m₂), log')) (hl : Layout ρ m.store)
    (ha : Allowed ρ m₁.store) {n : ElemId} (hn : n ∈ els)
    (hrange : (m.store.size n).isRange = true) {opcode arg : Word}
    (hmeant : meant ρ (m.store.element n).u = some (opcode, arg)) :
    meant ρ (m₂.store.element n).u = some (opcode, arg) ∧
      ∃ c out, m₂.store.size n = .const c ∧
        cmdGenerate (lowByte opcode) arg c.toInt = .ok (c.toInt, out) ∧ out.length = c.toInt ∧
        (lowByte opcode &&& 0xf = 0 → reaches 0 out = some (lowByte opcode, arg)) := by
  obtain ⟨hshrunk, -, -, hfits⟩ :=
    (optimize_spec (Doubt.Ok ρ) ρ fuel els maxpasses m).run hrun hlog
  obtain ⟨hu, hfreezes, hconst⟩ := (freeze_spec els m₁).run hfreeze fun _ _ => trivial
  have hcmd : (m₁.store.element n).u.isCmd = true := by
    rw [hshrunk.narrowed.cmd n]
    generalize (m.store.element n).u = u at hmeant
    cases u <;> first | rfl | cases hmeant
  have hmeant₁ : meant ρ (m₁.store.element n).u = some (opcode, arg) := by
    rw [hshrunk.meant (fun _ => id) hl ha n, hmeant]
  have hopen := (hfits hpos (fun _ => id) hl ha n hn hrange).2 _ hmeant₁
  obtain ⟨c, hc⟩ := Expr.isConst_iff.mp (hconst n hn hcmd)
  have hlarge : need (opcode, arg) = c ∨ (need (opcode, arg)).toInt ≤ c.toInt := by
    rcases hfreezes n hcmd with heq | ⟨lo, hi, hsize, hhi⟩
    · rw [← heq, hc] at hopen
      exact .inl hopen
    · rw [hsize] at hopen
      rw [hc] at hhi
      cases hhi
      exact .inr hopen.2
  obtain ⟨out, hgen, hlen, hreach⟩ := cmdGenerate_fits hlarge
  exact ⟨hu n ▸ hmeant₁, c, out, hc, hgen, hlen, hreach⟩

end

/-! ### A jump -/

/-- A jump over a block of 5 bytes, whose size is not known yet. -/
def jumpMemory : Memory where
  store :=
    { Store.unknown with
      element := fun el =>
        if el = 0 then ⟨.range 1 8, .cmd 0 (.elsum [.element 1])⟩ else ⟨.const 5, .block []⟩ }
  answers _ := false

/-- The length of the block is in the place of the block. -/
def jumpReduced : Memory where
  store := jumpMemory.store.setBody 0 (.cmd 0 (.const 5))
  answers _ := false

/-- One byte is enough. -/
def jumpShrunk : Memory where
  store := jumpReduced.store.setSize 0 (.const 1)
  answers _ := false

theorem recompute_jump : recompute 9 0 jumpMemory =
    (.ok (((1, 1), 0), jumpReduced), [.estimate jumpReduced.store (.const 5)]) := by
  have hbounds : cmdBounds (.const 5) = some (1, 1) := by
    rw [cmdBounds, show cmdSize (5 : Word) = 1 from by
      rw [cmdSize, if_neg (by decide), countNibbles, dif_pos (by decide)]]
    rfl
  let rest : Optimizer ((Word × Word) × Nat) := do
    let bounds ← ofOption .abort (cmdBounds (.const 5))
    return (bounds, 0)
  have hrun : recompute 9 0 jumpMemory = ((rest jumpReduced).1,
      .estimate jumpReduced.store (.const 5) :: (rest jumpReduced).2) := rfl
  rw [hrun]
  simp only [rest, hbounds]
  rfl

theorem optimize_jump : optimize 9 [0] 8 jumpMemory =
    (.ok (⟨2, 1, 0⟩, jumpShrunk), [.estimate jumpReduced.store (.const 5)]) := by
  have helement : optimizeElement 9 0 jumpMemory =
      (.ok ((1, 0), jumpShrunk), [.estimate jumpReduced.store (.const 5)]) := by
    have hrun : optimizeElement 9 0 jumpMemory = (recompute 9 0 >>= fun r => do
        let n ← shrinkTo 0 r.1.1 r.1.2
        return (n, r.2)) jumpMemory := rfl
    rw [hrun, Logged.bind_ok recompute_jump]
    rfl
  have hpass : passOptimizeOffsets 9 [0] jumpMemory =
      (.ok ((1, 0), jumpShrunk), [.estimate jumpReduced.store (.const 5)]) := by
    rw [passOptimizeOffsets, Logged.bind_ok helement]
    rfl
  rw [optimize, Logged.bind_ok hpass]
  rfl

/-- The layout in which the jump takes one byte. -/
def jumpLayout : Valuation where
  name _ := 0
  size el := if el = 0 then 1 else 5
  range lo _ := lo

theorem layout_jump : Layout jumpLayout jumpMemory.store where
  formed := by
    refine ⟨fun np v _ hv => (by cases hv), fun el _ hr => ?_⟩
    by_cases hel : el = 0
    · subst hel
      cases hr
    · have hsize : jumpMemory.store.size el = .const 5 := by
        simp [Store.size, jumpMemory, hel]
      rw [hsize]
      exact .const 5
  bodies el := by
    by_cases hel : el = 0
    · subst hel
      refine .elsum fun x hx => ?_
      obtain rfl : x = .element 1 := by simpa using hx
      exact .element trivial
    · have hu : (jumpMemory.store.element el).u = .block [] := by simp [jumpMemory, hel]
      rw [hu]
      trivial
  agrees := by
    refine ⟨fun np _ => dvd_zero _, fun np v hv => (by cases hv), fun el hr => ?_⟩
    by_cases hel : el = 0
    · subst hel
      cases hr
    · simp [Store.size, jumpMemory, jumpLayout, hel]
  range lo hi h := ⟨le_rfl, h⟩

/-- Two passes: the second finds nothing to shrink. -/
theorem optimize_ends_jump : jumpMemory.store.Narrowed jumpShrunk.store ∧ 2 ≤ 1 + 1 ∧
    1 + jumpShrunk.store.slacks [0] ≤ jumpMemory.store.slacks [0] :=
  optimize_ends optimize_jump

/-- The jump is one byte. -/
theorem optimize_fits_jump : meant jumpLayout (jumpShrunk.store.element 0).u = some (0, 5) ∧
    ∃ c out, jumpShrunk.store.size 0 = .const c ∧
      cmdGenerate (lowByte 0) 5 c.toInt = .ok (c.toInt, out) ∧ out.length = c.toInt ∧
      (lowByte 0 &&& 0xf = 0 → reaches 0 out = some (lowByte 0, 5)) := by
  have hfreeze : passFreeze [0] jumpShrunk = (.ok ((), jumpShrunk), []) := rfl
  refine optimize_fits (by decide) optimize_jump ?_ hfreeze layout_jump (fun el => ?_)
    (List.mem_singleton_self 0) rfl rfl
  · intro d hd
    obtain rfl : d = .estimate jumpReduced.store (.const 5) := by simpa using hd
    exact estimateSound_iff.mpr ⟨⟨5, 5⟩, ⟨1, rfl⟩, le_rfl, fun _ _ => ⟨le_rfl, le_rfl⟩⟩
  · by_cases hel : el = 0
    · subst hel
      rfl
    · have hsize : jumpShrunk.store.size el = .const 5 := by
        simp [Store.size, jumpShrunk, jumpReduced, jumpMemory, Store.setSize, Store.setBody, hel]
      rw [hsize]
      simp [Expr.Allows, jumpLayout, hel]

end Ttools
