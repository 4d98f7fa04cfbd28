import Ttools.Expr.Build
import Ttools.Expr.Store

/-!
# The shape of expressions

`Built P s e`: the leaves of `e` other than constants satisfy `P`, and a `COLON` stands under every
`QUEST` and nowhere else; `s` says that `e` is itself such a `COLON`.  With `P` true of everything
it is what `expr_questop` promises to the rest of the code, and with other `P` it follows what the
code does to the names and elements of an expression.

`Store.Closed P`: what the store holds for the names and elements in `P` is built from `P` again.
-/

namespace Ttools

inductive Built (P : Expr → Prop) : Bool → Expr → Prop where
  | const (c : Word) : Built P false (.const c)
  | name {np : NameId} (h : P (.name np)) : Built P false (.name np)
  | range {lo hi : Word} (h : P (.range lo hi)) : Built P false (.range lo hi)
  | element {el : ElemId} (h : P (.element el)) : Built P false (.element el)
  | elsum {v : List Expr} (h : ∀ m ∈ v, Built P false m) : Built P false (.elsum v)
  | unop {t : UnTag} {r : Expr} (h : Built P false r) : Built P false (.unop t r)
  | binop {t : BinTag} {l r : Expr} (hq : t ≠ .quest) (hc : t ≠ .colon) (hl : Built P false l)
      (hr : Built P false r) : Built P false (.binop t l r)
  | quest {l r : Expr} (hl : Built P false l) (hr : Built P true r) :
      Built P false (.binop .quest l r)
  | colon {l r : Expr} (hl : Built P false l) (hr : Built P false r) :
      Built P true (.binop .colon l r)

/-- `COLON` stands where the code expects it. -/
abbrev Expr.Formed (e : Expr) : Prop := Built (fun _ => True) false e

namespace Built

variable {P Q : Expr → Prop} {s : Bool} {e l r : Expr} {t : BinTag}

theorem mono (h : Built P s e) (hPQ : ∀ x, P x → Q x) : Built Q s e := by
  induction h with
  | const c => exact .const c
  | name h => exact .name (hPQ _ h)
  | range h => exact .range (hPQ _ h)
  | element h => exact .element (hPQ _ h)
  | elsum _ ih => exact .elsum ih
  | unop _ ih => exact .unop ih
  | binop hq hc _ _ ihl ihr => exact .binop hq hc ihl ihr
  | quest _ _ ihl ihr => exact .quest ihl ihr
  | colon _ _ ihl ihr => exact .colon ihl ihr

theorem ne_colon (h : Built P false e) (l r : Expr) : e ≠ .binop .colon l r := by
  rintro rfl
  cases h with
  | binop _ hc _ _ => exact hc rfl

/-- Away from a `COLON` the selector plays no role. -/
theorem value_sel (h : Built P false e) (ρ : Valuation) (s s' : Bool) :
    e.value ρ s = e.value ρ s' :=
  Expr.value_sel h.ne_colon

theorem left (h : Built P s (.binop t l r)) : Built P false l := by
  cases h with
  | binop _ _ hl _ => exact hl
  | quest hl _ => exact hl
  | colon hl _ => exact hl

theorem right (h : Built P s (.binop t l r)) : Built P (t == .quest) r := by
  cases h with
  | binop hq _ _ hr => rwa [beq_eq_false_iff_ne.mpr hq]
  | quest _ hr => exact hr
  | colon _ hr => exact hr

/-- The tags that are neither `QUEST` nor `COLON`. -/
theorem right_of_ne (h : Built P s (.binop t l r)) (hq : t ≠ .quest) : Built P false r := by
  rw [← beq_eq_false_iff_ne.mpr hq]
  exact h.right

/-- Operands may be replaced. -/
theorem congr {l' r' : Expr} (h : Built P s (.binop t l r)) (hl : Built Q false l')
    (hr : Built Q (t == .quest) r') : Built Q s (.binop t l' r') := by
  cases h with
  | binop hq hc _ _ => exact .binop hq hc hl (by rwa [beq_eq_false_iff_ne.mpr hq] at hr)
  | quest _ _ => exact .quest hl hr
  | colon _ _ => exact .colon hl hr

/-! ### The constructors -/

theorem exprNode {lone : Bool} (hq : t ≠ .quest) (hc : t ≠ .colon) (hl : Built P false l)
    (hr : Built P false r) : Built P false (exprNode lone t l r) := by
  unfold Ttools.exprNode
  split
  · exact .binop hq hc hl.left (.const _)
  · split
    · exact .binop hq hc (.binop hq hc hl.left hr) (.const _)
    · exact .binop hq hc hl hr
  · exact .binop hq hc hl hr

theorem exprBinop {lone : Bool} (hq : t ≠ .quest) (hc : t ≠ .colon) (hl : Built P false l)
    (hr : Built P false r) (h : exprBinop lone t l r = some e) : Built P false e := by
  unfold Ttools.exprBinop at h
  split at h
  · obtain ⟨x, -, rfl⟩ := Option.map_eq_some_iff.mp h
    exact .const x
  · split at h
    · cases h
      exact exprNode hq hc hr hl
    · cases h
      exact exprNode hq hc hl hr

theorem exprUnop {u : UnTag} (hr : Built P false r) (h : exprUnop u r = some e) :
    Built P false e := by
  unfold Ttools.exprUnop at h
  split at h
  · exact exprBinop (by decide) (by decide) (.const 0) hr h
  · split at h
    · cases h
      exact .const _
    · cases h
      exact .unop hr

theorem exprAsgPlus {lone : Bool} (hl : Built P false l) (hr : Built P false r)
    (h : exprAsgPlus lone l r = some e) : Built P false e := by
  unfold Ttools.exprAsgPlus at h
  split at h
  · cases h
    exact .binop (by decide) (by decide) hl.left (.const _)
  · exact exprBinop (by decide) (by decide) hl hr h

end Built

/-! ### Stores -/

namespace Store

/-- What the store holds for `P` is built from `P`. -/
structure Closed (P : Expr → Prop) (st : Store) : Prop where
  name : ∀ np v, P (.name np) → st.localVal np = some v → Built P false v
  size : ∀ el, P (.element el) → (st.size el).isRange = false → Built P false (st.size el)

/-- The store's own expressions have `COLON` where the code expects it. -/
abbrev Formed (st : Store) : Prop := st.Closed fun _ => True

/-- What the store holds for a name or an element is of lower rank: none leads back to itself. -/
structure Ranked (rank : Expr → Nat) (st : Store) : Prop where
  name : ∀ np v, st.localVal np = some v → Built (rank · < rank (.name np)) false v
  size : ∀ el, (st.size el).isRange = false → Built (rank · < rank (.element el)) false (st.size el)

/-- `np->val = v`. -/
def setVal (st : Store) (np : NameId) (v : Expr) : Store :=
  { st with name := fun n => if n = np then { st.name n with val := some v } else st.name n }

/-- `el->size = size`. -/
def setSize (st : Store) (el : ElemId) (size : Expr) : Store :=
  { st with element := fun n => if n = el then { st.element n with size } else st.element n }

@[simp] theorem size_setVal (st : Store) (np : NameId) (v : Expr) (el : ElemId) :
    (st.setVal np v).size el = st.size el := rfl

@[simp] theorem localVal_setSize (st : Store) (el : ElemId) (size : Expr) (np : NameId) :
    (st.setSize el size).localVal np = st.localVal np := rfl

theorem align_setVal (st : Store) (np n : NameId) (v : Expr) :
    ((st.setVal np v).name n).align = (st.name n).align := by
  by_cases hn : n = np
  · simp [setVal, hn]
  · simp [setVal, hn]

theorem localVal_setVal {st : Store} {np n : NameId} {v x : Expr}
    (h : (st.setVal np v).localVal n = some x) : n = np ∧ x = v ∨ st.localVal n = some x := by
  by_cases hn : n = np
  · subst hn
    simp only [localVal, setVal, if_true] at h
    split at h
    · cases h
    · exact .inl ⟨rfl, (Option.some.inj h).symm⟩
  · exact .inr (by simpa [localVal, setVal, hn] using h)

theorem size_setSize (st : Store) (el : ElemId) (size : Expr) (n : ElemId) :
    (st.setSize el size).size n = if n = el then size else st.size n := by
  by_cases hn : n = el
  · simp [Store.size, setSize, hn]
  · simp [Store.size, setSize, hn]

/-- What `st'` holds has been made from what `st` holds for the same name or element. -/
structure Follows (st st' : Store) : Prop where
  name : ∀ np v', st'.localVal np = some v' → ∃ v, st.localVal np = some v ∧
    ∀ P, st.Closed P → Built P false v → Built P false v'
  size : ∀ el, st'.size el = st.size el ∨ (st.size el).isRange = false ∧
    ∀ P, st.Closed P → Built P false (st.size el) → Built P false (st'.size el)

variable {P : Expr → Prop} {st st' st'' : Store}

theorem Follows.refl (st : Store) : st.Follows st :=
  ⟨fun _ v h => ⟨v, h, fun _ _ hv => hv⟩, fun _ => .inl rfl⟩

theorem Follows.closed (h : st.Follows st') (hP : st.Closed P) : st'.Closed P where
  name np v' hn hv := by
    obtain ⟨v, hv, hb⟩ := h.name np v' hv
    exact hb P hP (hP.name np v hn hv)
  size el hel hr := by
    rcases h.size el with heq | ⟨hr', hb⟩
    · rw [heq] at hr ⊢
      exact hP.size el hel hr
    · exact hb P hP (hP.size el hel hr')

theorem Follows.trans (h : st.Follows st') (h' : st'.Follows st'') : st.Follows st'' where
  name np v'' hv := by
    obtain ⟨v', hv', hb'⟩ := h'.name np v'' hv
    obtain ⟨v, hv, hb⟩ := h.name np v' hv'
    exact ⟨v, hv, fun P hP hbv => hb' P (h.closed hP) (hb P hP hbv)⟩
  size el := by
    rcases h.size el with heq | ⟨hr, hb⟩
    · rcases h'.size el with heq' | ⟨hr', hb'⟩
      · exact .inl (heq'.trans heq)
      · rw [heq] at hr' hb'
        exact .inr ⟨hr', fun P hP hbs => hb' P (h.closed hP) hbs⟩
    · rcases h'.size el with heq' | ⟨-, hb'⟩
      · exact .inr ⟨hr, fun P hP hbs => heq' ▸ hb P hP hbs⟩
      · exact .inr ⟨hr, fun P hP hbs => hb' P (h.closed hP) (hb P hP hbs)⟩

/-- `np->val` is replaced by something made from it. -/
theorem Follows.setVal (h : st.Follows st') {np : NameId} {v v' : Expr}
    (hv : st.localVal np = some v) (hb : ∀ P, st.Closed P → Built P false v → Built P false v') :
    st.Follows (st'.setVal np v') where
  name n x hx := by
    rcases localVal_setVal hx with ⟨rfl, rfl⟩ | hx
    · exact ⟨v, hv, hb⟩
    · exact h.name n x hx
  size := h.size

/-- `el->size` is replaced by something made from it. -/
theorem Follows.setSize (h : st.Follows st') {el : ElemId} {size : Expr}
    (hr : (st.size el).isRange = false)
    (hb : ∀ P, st.Closed P → Built P false (st.size el) → Built P false size) :
    st.Follows (st'.setSize el size) where
  name := h.name
  size n := by
    rw [size_setSize]
    split
    · next heq =>
        subst heq
        exact .inr ⟨hr, hb⟩
    · exact h.size n

theorem Ranked.closed {rank : Expr → Nat} (h : st.Ranked rank) (k : Nat) :
    st.Closed (rank · < k) where
  name np v hn hv := (h.name np v hv).mono fun _ hx => lt_trans hx hn
  size el hel hr := (h.size el hr).mono fun _ hx => lt_trans hx hel

theorem Ranked.follows {rank : Expr → Nat} (h : st.Ranked rank) (hf : st.Follows st') :
    st'.Ranked rank where
  name np v' hv' := by
    obtain ⟨v, hv, hb⟩ := hf.name np v' hv'
    exact hb _ (h.closed _) (h.name np v hv)
  size el hr := by
    rcases hf.size el with heq | ⟨hr', hb⟩
    · rw [heq] at hr ⊢
      exact h.size el hr
    · exact hb _ (h.closed _) (h.size el hr')

end Store

end Ttools
