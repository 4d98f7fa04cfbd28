import Ttools.Expr.Halt

/-!
# References to elements

`el->nrefs` counts the `EXPR_ELEMENT` nodes that refer to an element: in the values of names, in
the sizes of other elements, in the expressions that the elements of the chains hold, and wherever
else an expression is held.

* `exprReduce_settles`: with enough fuel a reduction is always the same; it keeps the value, and
  of the names it changes the local ones only.
* `Unreferenced.reduce`: no reduction makes a reference.
-/

namespace Ttools

open Support (Logged)
open Support.Logged (Ensures Settles)

/-! ### Counting -/

namespace Expr

mutual

/-- The `EXPR_ELEMENT` nodes for the element. -/
def refs (el : ElemId) : Expr → Nat
  | .element el' => if el' = el then 1 else 0
  | .unop _ r => r.refs el
  | .binop _ l r => l.refs el + r.refs el
  | .elsum v => refsAll el v
  | _ => 0

def refsAll (el : ElemId) : List Expr → Nat
  | [] => 0
  | m :: v => m.refs el + refsAll el v

end

variable {el : ElemId}

theorem refsAll_eq_zero {v : List Expr} : refsAll el v = 0 ↔ ∀ m ∈ v, m.refs el = 0 := by
  induction v with
  | nil => simp [refsAll]
  | cons m v ih => simp [refsAll, ih]

end Expr

theorem Built.of_refs {P : Expr → Prop} {s : Bool} {e : Expr} {el : ElemId} (h : Built P s e)
    (hrefs : e.refs el = 0) : Built (· ≠ .element el) s e := by
  induction h with
  | const c => exact .const c
  | name _ => exact .name (by rintro ⟨⟩)
  | range _ => exact .range (by rintro ⟨⟩)
  | element _ =>
      refine .element ?_
      rintro ⟨⟩
      simp [Expr.refs] at hrefs
  | elsum _ ih =>
      rw [Expr.refs, Expr.refsAll_eq_zero] at hrefs
      exact .elsum fun m hm => ih m hm (hrefs m hm)
  | unop _ ih => exact .unop (ih hrefs)
  | binop hq hc _ _ ihl ihr =>
      rw [Expr.refs, Nat.add_eq_zero_iff] at hrefs
      exact .binop hq hc (ihl hrefs.1) (ihr hrefs.2)
  | quest _ _ ihl ihr =>
      rw [Expr.refs, Nat.add_eq_zero_iff] at hrefs
      exact .quest (ihl hrefs.1) (ihr hrefs.2)
  | colon _ _ ihl ihr =>
      rw [Expr.refs, Nat.add_eq_zero_iff] at hrefs
      exact .colon (ihl hrefs.1) (ihr hrefs.2)

theorem Built.refs {s : Bool} {e : Expr} {el : ElemId} (h : Built (· ≠ .element el) s e) :
    e.refs el = 0 := by
  induction h with
  | element hne =>
      rw [Expr.refs, if_neg]
      rintro rfl
      exact hne rfl
  | elsum _ ih => rwa [Expr.refs, Expr.refsAll_eq_zero]
  | unop _ ih => exact ih
  | binop _ _ _ _ ihl ihr => rw [Expr.refs, ihl, ihr]
  | quest _ _ ihl ihr => rw [Expr.refs, ihl, ihr]
  | colon _ _ ihl ihr => rw [Expr.refs, ihl, ihr]
  | _ => rfl

/-! ### What a reduction leaves alone -/

/-- Only the values of local names may differ. -/
structure Store.Kin (st st' : Store) : Prop where
  global : ∀ np, (st'.name np).global = (st.name np).global
  val : ∀ np, st.localVal np = none → (st'.name np).val = (st.name np).val

namespace Store

variable {st st' st'' : Store}

theorem Kin.refl (st : Store) : st.Kin st := ⟨fun _ => rfl, fun _ _ => rfl⟩

theorem Kin.localVal (h : st.Kin st') {np : NameId} (hv : st.localVal np = none) :
    st'.localVal np = none := by
  have hval := h.val np hv
  rw [Store.localVal] at hv ⊢
  rwa [h.global, hval]

theorem Kin.trans (h : st.Kin st') (h' : st'.Kin st'') : st.Kin st'' where
  global np := (h'.global np).trans (h.global np)
  val np hv := (h'.val np (h.localVal hv)).trans (h.val np hv)

theorem Kin.setVal (h : st.Kin st') {np : NameId} (hv : st.localVal np ≠ none) (v' : Expr) : st.Kin (st'.setVal np v') where
  global n := by
    by_cases hn : n = np
    · simp [Store.setVal, hn, h.global]
    · simp [Store.setVal, hn, h.global]
  val n hnone := by
    have hne : n ≠ np := fun heq => hv (heq ▸ hnone)
    simpa [Store.setVal, hne] using h.val n hnone

end Store

/-- The reduction leaves the global names alone. -/
def LeavesKin (x : Reducer Expr) : Prop :=
  ∀ m, Ensures (fun _ => True) (fun _ => True) x (fun _ m' => m.store.Kin m'.store) m

theorem reduceLeaf_kin {reduce : Expr → Reducer Expr} (h : ∀ e, LeavesKin (reduce e)) (e : Expr) :
    LeavesKin (reduceLeaf reduce e) := by
  intro m
  cases e with
  | elsum v =>
      rw [reduceLeaf, Logged.ensures_bind, reduceElsum, Logged.ensures_bind, Logged.ensures_get,
        Logged.ensures_bind]
      have hsqueeze : Yields (fun _ => True) (squeeze m.store none v) _ := squeeze_spec .ones none v
      refine ((hsqueeze m).weaken (fun _ h => h) fun _ _ => trivial).mono ?_
      rintro ⟨kept, sum⟩ m' ⟨hst, -⟩
      have hkin : m.store.Kin m'.store := hst ▸ .refl _
      have hre : ∀ e, Ensures (fun _ => True) (fun _ => True) (reduce e)
          (fun _ m'' => m.store.Kin m''.store) m' :=
        fun e => (h e m').mono fun _ _ h' => hkin.trans h'
      rcases kept with _ | ⟨k, kept⟩ <;> rcases sum with _ | sum <;> dsimp only
      · exact Logged.ensures_stop.mpr trivial
      · refine Logged.ensures_pure.mpr ?_
        split
        · exact Logged.ensures_pure.mpr hkin
        · exact hre _
      · exact Logged.ensures_pure.mpr (Logged.ensures_pure.mpr hkin)
      · exact Logged.ensures_pure.mpr (hre _)
  | name np =>
      rw [reduceLeaf, Logged.ensures_bind, Logged.ensures_get]
      rcases hv : m.store.localVal np with _ | val
      · exact Logged.ensures_pure.mpr (.refl _)
      · rw [Logged.ensures_bind]
        refine (h val m).mono fun val' m' hval => ?_
        rw [Logged.ensures_bind, Logged.ensures_modify, Logged.ensures_pure]
        exact hval.setVal (by rw [hv]; rintro ⟨⟩) val'
  | element el =>
      rw [reduceLeaf, Logged.ensures_bind, Logged.ensures_get]
      split
      · exact Logged.ensures_pure.mpr (.refl _)
      · rw [Logged.ensures_bind]
        refine (h (m.store.size el) m).mono fun size m' hsize => ?_
        rw [Logged.ensures_bind, Logged.ensures_modify, Logged.ensures_pure]
        exact ⟨hsize.global, hsize.val⟩
  | _ => exact Logged.ensures_pure.mpr (.refl _)

theorem exprReduce_kin (fuel : Nat) (e : Expr) : LeavesKin (exprReduce fuel e) := by
  induction fuel generalizing e with
  | zero => exact fun _ => Logged.ensures_stop.mpr trivial
  | succ fuel ih =>
      rw [exprReduce]
      induction e with
      | unop t r ihr =>
          intro m
          rw [reduceTree, Logged.ensures_bind]
          exact (ihr m).mono fun r' m' hr => Logged.ensures_pure.mpr hr
      | binop t l r ihl ihr =>
          intro m
          rw [reduceTree, Logged.ensures_bind]
          refine (ihl m).mono fun l' m₁ hl => ?_
          rw [Logged.ensures_bind]
          refine (ihr m₁).mono fun r' m₂ hr => ?_
          rw [Logged.ensures_bind]
          have hcheck := exprCheckAlignment_aligns (fun _ => True) .ones fuel m₂.store
          refine (reduceTrivia_spec (fun h => h.1) trivial (hcheck l') (hcheck r') t m₂
            rfl).mono fun e' m₃ htriv => ?_
          refine ((reassociate_spec .ones e' m₃).weaken (fun _ h => h)
            fun _ _ => trivial).mono fun e'' m₄ hre => ?_
          rw [hre.1, htriv.1]
          exact hl.trans hr
      | _ => exact reduceLeaf_kin ih _

/-- **With enough fuel a reduction is always the same**, keeps the value if its risks are met, and
leaves the global names alone. -/
theorem exprReduce_settles (ρ : Valuation) {m : Memory} {e : Expr} {rank : Expr → Nat}
    (hrank : m.store.Ranked rank) (he : e.Formed) :
    Settles (Risk.Ok ρ) .fuel (fun fuel => exprReduce fuel e)
      (fun H e' m' => Kept H ρ m.store e m'.store e' ∧ m.store.Kin m'.store) m := by
  obtain ⟨k, hk⟩ : ∃ k, Built (rank · < k) false e := he.bounded
  obtain ⟨n, hn⟩ := exprReduce_halts ρ hk m hrank
  refine .of_ends (n := n) (fun fuel hf => exprReduce_le hf e) hn fun e' m' log hx => ⟨?_, ?_⟩
  · refine ⟨?_, ?_, fun hH => ?_, fun hH => ?_⟩ <;>
      have hkept := (exprReduce_keeps (· ∈ log) ρ n e m).run hx fun _ hw => hw
    · exact hkept.built
    · exact hkept.follows
    · exact hkept.agrees hH
    · exact hkept.value hH
  · exact (exprReduce_kin n e m).run hx fun _ _ => trivial

/-! ### Holders of expressions -/

/-- Where expressions are held, besides the elements of the chains: the names in the tables, the
elements, whose sizes other expressions find, and the rest. -/
structure Holders where
  names : List NameId
  elements : List ElemId
  held : List Expr

namespace Holders

/-- The expressions that are held. -/
def roots (h : Holders) (st : Store) : List Expr :=
  h.names.filterMap (fun np => (st.name np).val) ++ h.elements.map st.size ++ h.held

/-- `el->nrefs`, with `exprs` held by the elements of the chains. -/
def nrefs (h : Holders) (st : Store) (exprs : List Expr) (el : ElemId) : Nat :=
  ((h.roots st ++ exprs).map (Expr.refs el)).sum

/-- The tables hold everything that is there. -/
structure Complete (h : Holders) (st : Store) : Prop where
  names : ∀ np, np ∉ h.names → (st.name np).val = none
  elements : ∀ el, el ∉ h.elements → (st.size el).isRange = true ∨
    Built (fun _ => False) false (st.size el)

/-- No expression refers to the element. -/
def Unreferenced (h : Holders) (st : Store) (exprs : List Expr) (el : ElemId) : Prop :=
  ∀ e ∈ h.roots st ++ exprs, e.refs el = 0

variable {h : Holders} {st st' : Store} {exprs exprs' : List Expr} {el : ElemId}

theorem nrefs_eq_zero : h.nrefs st exprs el = 0 ↔ h.Unreferenced st exprs el := by
  rw [nrefs, List.sum_eq_zero_iff_forall_eq_nat, List.forall_mem_map]
  rfl

/-- A root is held by a name, an element or neither. -/
theorem mem_roots {e : Expr} : e ∈ h.roots st ↔
    (∃ np ∈ h.names, (st.name np).val = some e) ∨ (∃ x ∈ h.elements, st.size x = e) ∨
      e ∈ h.held := by
  simp [roots]

theorem Unreferenced.subset (hu : h.Unreferenced st exprs el) (hsub : ∀ e ∈ exprs', e ∈ exprs) :
    h.Unreferenced st exprs' el := fun e he =>
  (List.mem_append.mp he).elim (fun he => hu e (List.mem_append_left _ he))
    fun he => hu e (List.mem_append_right _ (hsub e he))

theorem Complete.follows (hc : h.Complete st) (hf : st.Follows st') (hk : st.Kin st') :
    h.Complete st' where
  names np hnp := by
    have hnone := hc.names np hnp
    rw [hk.val np (by simp [Store.localVal, hnone]), hnone]
  elements x hx := by
    rcases hf.size x with heq | ⟨hr, hb⟩
    · rw [heq]
      exact hc.elements x hx
    · refine .inr (hb _ ⟨fun _ _ h => h.elim, fun _ h => h.elim⟩ ?_)
      exact (hc.elements x hx).resolve_left (by rw [hr]; decide)

/-- Where nothing refers to an element, the store holds nothing that does. -/
theorem Complete.closed (hc : h.Complete st) (hst : st.Formed) (hu : h.Unreferenced st exprs el) :
    st.Closed (· ≠ .element el) where
  name np v _ hv := by
    have hval : (st.name np).val = some v := by
      rw [Store.localVal] at hv
      split at hv
      · cases hv
      · exact hv
    have hnp : np ∈ h.names := by
      by_contra hnp
      rw [hc.names np hnp] at hval
      cases hval
    refine (hst.name np v trivial hv).of_refs (hu v (List.mem_append_left _ ?_))
    exact mem_roots.mpr (.inl ⟨np, hnp, hval⟩)
  size x _ hr := by
    by_cases hx : x ∈ h.elements
    · refine (hst.size x trivial hr).of_refs (hu _ (List.mem_append_left _ ?_))
      exact mem_roots.mpr (.inr (.inl ⟨x, hx, rfl⟩))
    · refine ((hc.elements x hx).resolve_left (by rw [hr]; decide)).mono ?_
      exact fun _ h => h.elim

/-- **A reduction makes no reference.** -/
theorem Unreferenced.reduce {H : Prop} {ρ : Valuation} {e e' : Expr} (hc : h.Complete st)
    (hst : st.Formed) (he : e.Formed) (hk : Kept H ρ st e st' e') (hkin : st.Kin st')
    (hu : h.Unreferenced st exprs el) (hmem : e ∈ exprs)
    (hexprs : ∀ x ∈ exprs', x = e' ∨ x ∈ exprs) : h.Unreferenced st' exprs' el := by
  have hcl := hc.closed hst hu
  intro x hx
  rcases List.mem_append.mp hx with hx | hx
  · rcases mem_roots.mp hx with ⟨np, hnp, hval⟩ | ⟨y, hy, rfl⟩ | hheld
    · rcases hv : st'.localVal np with _ | v'
      · -- the name had no local value before either, and has the value it had
        have hnone : st.localVal np = none := by
          rcases hv' : st.localVal np with _ | v
          · rfl
          · rw [Store.localVal] at hv hv'
            rw [hkin.global, hval] at hv
            split at hv <;> simp_all
        rw [hkin.val np hnone] at hval
        exact hu x (List.mem_append_left _ (mem_roots.mpr (.inl ⟨np, hnp, hval⟩)))
      · obtain ⟨v, hv₀, hb⟩ := hk.follows.name np v' hv
        have hv' : v' = x := by
          rw [Store.localVal] at hv
          split at hv
          · cases hv
          · exact Option.some.inj (hv.symm.trans hval)
        rw [← hv']
        exact (hb _ hcl (hcl.name np v (by rintro ⟨⟩) hv₀)).refs
    · have hy₀ := hu (st.size y) (List.mem_append_left _ (mem_roots.mpr (.inr (.inl ⟨y, hy, rfl⟩))))
      rcases hk.follows.size y with heq | ⟨hr, hb⟩
      · rwa [heq]
      · exact (hb _ hcl ((hst.size y trivial hr).of_refs hy₀)).refs
    · exact hu x (List.mem_append_left _ (mem_roots.mpr (.inr (.inr hheld))))
  · rcases hexprs x hx with rfl | hx
    · exact (hk.built _ false hcl (he.of_refs (hu e (List.mem_append_right _ hmem)))).refs
    · exact hu x (List.mem_append_right _ hx)

end Holders

end Ttools
