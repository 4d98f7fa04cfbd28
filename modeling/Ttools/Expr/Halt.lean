import Ttools.Expr.Reduce

/-!
# Reductions end

`expr_reduce` follows names and elements to the expressions they stand for, and an `ELSUM` to the
sizes in it, so its recursion is not over the tree alone.

* `exprReduce_le`: the fuel only matters to a run that lacks it.
* `exprReduce_ends`: a run ends where no name or element leads back to itself.
* `exprReduce_value`: `expr_reduce` keeps the value of every expression, in a run that does not
  abort and whose risks are met.
-/

namespace Ttools

open Support (Logged)
open Support.Logged (noteIf stop ofOption Ensures Le Ends)

/-! ### Fuel -/

section

variable {check check' : Word → Expr → Reducer Word}

theorem checkAlignment_le {name name' : NameId → Reducer Word} {align : Word}
    (h : ∀ np, Le .fuel (name np) (name' np)) (e : Expr) :
    Le .fuel (checkAlignment name align e) (checkAlignment name' align e) := by
  induction e with
  | name np => exact h np
  | binop t l r ihl ihr =>
      cases t with
      | plus | minus => exact ihl.bind fun _ => ihr.bind fun _ => .refl _ _
      | _ => exact .refl _ _
  | _ => exact .refl _ _

theorem exprCheckAlignment_le (fuel : Nat) (align : Word) (e : Expr) :
    Le .fuel (exprCheckAlignment fuel align e) (exprCheckAlignment (fuel + 1) align e) := by
  induction fuel generalizing e with
  | zero => exact Logged.le_stop _ _
  | succ fuel ih =>
      refine checkAlignment_le (fun np => (Le.refl _ _).bind fun m => ?_) e
      split
      · exact .refl _ _
      · split
        · exact ih _
        · exact .refl _ _

theorem reduceConst_le (h : ∀ align e, Le .fuel (check align e) (check' align e)) (t : BinTag)
    (l : Expr) (c : Word) : Le .fuel (reduceConst check t l c) (reduceConst check' t l c) := by
  unfold reduceConst
  repeat' split
  all_goals first | exact .refl _ _ | exact (h _ _).bind fun _ => .refl _ _

theorem reduceTrivia_le (h : ∀ align e, Le .fuel (check align e) (check' align e)) (t : BinTag)
    (l r : Expr) : Le .fuel (reduceTrivia check t l r) (reduceTrivia check' t l r) := by
  have hord : ∀ l r, Le .fuel (reduceOrdered check t l r) (reduceOrdered check' t l r) := by
    intro l r
    unfold reduceOrdered
    split
    · exact reduceConst_le h _ _ _
    all_goals exact .refl _ _
  unfold reduceTrivia
  split
  · exact .refl _ _
  · split
    · exact hord _ _
    · exact hord _ _

theorem reduceLeaf_le {reduce reduce' : Expr → Reducer Expr}
    (h : ∀ e, Le .fuel (reduce e) (reduce' e)) (e : Expr) :
    Le .fuel (reduceLeaf reduce e) (reduceLeaf reduce' e) := by
  cases e with
  | elsum v =>
      refine (Le.refl _ _).bind fun e => ?_
      split
      · exact .refl _ _
      · exact h _
  | name np =>
      refine (Le.refl _ _).bind fun m => ?_
      split
      · exact .refl _ _
      · exact (h _).bind fun _ => .refl _ _
  | element el =>
      refine (Le.refl _ _).bind fun m => ?_
      split
      · exact .refl _ _
      · exact (h _).bind fun _ => .refl _ _
  | _ => exact .refl _ _

theorem reduceTree_le {leaf leaf' : Expr → Reducer Expr} (hleaf : ∀ e, Le .fuel (leaf e) (leaf' e))
    (hcheck : ∀ align e, Le .fuel (check align e) (check' align e)) (e : Expr) :
    Le .fuel (reduceTree leaf check e) (reduceTree leaf' check' e) := by
  induction e with
  | unop t r ih => exact ih.bind fun _ => .refl _ _
  | binop t l r ihl ihr =>
      exact ihl.bind fun l => ihr.bind fun r =>
        (reduceTrivia_le hcheck t l r).bind fun _ => .refl _ _
  | _ => exact hleaf _

/-- More fuel does not change a run that does not lack any. -/
theorem exprReduce_le {fuel fuel' : Nat} (hf : fuel ≤ fuel') (e : Expr) :
    Le .fuel (exprReduce fuel e) (exprReduce fuel' e) := by
  have hsucc : ∀ fuel e, Le .fuel (exprReduce fuel e) (exprReduce (fuel + 1) e) := by
    intro fuel
    induction fuel with
    | zero => exact fun e => Logged.le_stop _ _
    | succ fuel ih => exact reduceTree_le (reduceLeaf_le ih) (exprCheckAlignment_le fuel)
  induction hf with
  | refl => exact .refl _ _
  | step _ ih => exact ih.trans (hsucc _ e)

end

/-! ### It comes to an end -/

section

variable {rank : Expr → Nat} {k : Nat}

/-- `expr_check_alignment` follows names downwards. -/
theorem exprCheckAlignment_ends (ρ : Valuation) {st : Store} (hst : st.Ranked rank) {fuel : Nat}
    {s : Bool} {e : Expr} (he : Built (rank · < k) s e) (hk : k < fuel) :
    Aligns (fun _ => True) (· = .abort) False ρ st (exprCheckAlignment fuel) e := by
  suffices h : ∀ align m, m.store = st → Ensures (fun _ => True) (· = .abort)
      (exprCheckAlignment fuel align e) (fun _ m' => m'.store = st) m from
    fun align m _ hm => (h align m hm).mono fun _ _ h => ⟨h, False.elim⟩
  intro align m hm
  induction fuel generalizing k s e m with
  | zero => omega
  | succ fuel ih =>
      rw [exprCheckAlignment]
      induction e generalizing s m with
      | name np =>
          cases he with
          | name hn =>
              rw [checkAlignment, checkName, Logged.ensures_bind, Logged.ensures_get]
              split
              · simp [hm]
              · rw [hm]
                rcases hv : st.localVal np with _ | val
                · exact Logged.ensures_pure.mpr hm
                · exact ih (hst.name np val hv) (by omega) m hm
      | binop t l r ihl ihr =>
          cases t with
          | plus | minus =>
              rw [checkAlignment, Logged.ensures_bind]
              refine (ihl he.left m hm).mono fun _ m' hm' => ?_
              rw [Logged.ensures_bind]
              refine (ihr he.right m' hm').mono fun _ m'' hm'' => ?_
              exact Logged.ensures_pure.mpr hm''
          | _ => exact Logged.ensures_pure.mpr hm
      | _ => exact Logged.ensures_pure.mpr hm

/-- With enough fuel the reduction ends, in any store of this rank. -/
def Halts (rank : Expr → Nat) (e : Expr) : Prop :=
  ∀ m, m.store.Ranked rank → ∃ fuel, Ends .fuel (exprReduce fuel e) m

theorem Halts.unop {t : UnTag} {r : Expr} (h : Halts rank r) : Halts rank (.unop t r) := by
  intro m hm
  obtain ⟨_ | fuel, hf⟩ := h m hm
  · exact absurd rfl hf
  · exact ⟨fuel + 1, hf.bind fun _ _ _ _ => Logged.ends_pure _ _ _⟩

theorem Halts.left {t : BinTag} {l r : Expr} (h : Halts rank (.binop t l r)) : Halts rank l := by
  intro m hm
  obtain ⟨_ | fuel, hf⟩ := h m hm
  · exact absurd rfl hf
  · exact ⟨fuel + 1, Ends.of_bind hf⟩

/-- A result of `expr_reduce`, and the store it leaves. -/
theorem exprReduce_kept (ρ : Valuation) {e e' : Expr} {m m' : Memory} {fuel : Nat} {log : List Risk}
    (h : exprReduce fuel e m = (.ok (e', m'), log)) :
    Kept (∀ w : Risk, True → w.Ok ρ) ρ m.store e m'.store e' :=
  (exprReduce_keeps (fun _ => True) ρ fuel e m).run h fun _ _ => trivial

/-- An expression has finitely many names and elements. -/
theorem Built.bounded {P : Expr → Prop} {s : Bool} {e : Expr} (h : Built P s e) :
    ∃ k, Built (rank · < k) s e := by
  have hup : ∀ {k k' s e}, k ≤ k' → Built (rank · < k) s e → Built (rank · < k') s e :=
    fun hk h => h.mono fun _ hx => lt_of_lt_of_le hx hk
  induction h with
  | const c => exact ⟨0, .const c⟩
  | name _ => exact ⟨_, .name (Nat.lt_succ_self _)⟩
  | range _ => exact ⟨_, .range (Nat.lt_succ_self _)⟩
  | element _ => exact ⟨_, .element (Nat.lt_succ_self _)⟩
  | @elsum v _ ih =>
      suffices hv : ∀ w ⊆ v, ∃ k, ∀ m ∈ w, Built (rank · < k) false m by
        obtain ⟨k, hk⟩ := hv v (List.Subset.refl v)
        exact ⟨k, .elsum hk⟩
      intro w hw
      induction w with
      | nil => exact ⟨0, fun m hm => by cases hm⟩
      | cons m w ihw =>
          rw [List.cons_subset] at hw
          obtain ⟨k, hk⟩ := ih m hw.1
          obtain ⟨k', hk'⟩ := ihw hw.2
          refine ⟨max k k', List.forall_mem_cons.mpr ⟨hup (le_max_left k k') hk, fun x hx => ?_⟩⟩
          exact hup (le_max_right k k') (hk' x hx)
  | unop _ ih =>
      obtain ⟨k, hk⟩ := ih
      exact ⟨k, .unop hk⟩
  | binop hq hc _ _ ihl ihr =>
      obtain ⟨k, hk⟩ := ihl
      obtain ⟨k', hk'⟩ := ihr
      exact ⟨max k k', .binop hq hc (hup (le_max_left k k') hk) (hup (le_max_right k k') hk')⟩
  | quest _ _ ihl ihr =>
      obtain ⟨k, hk⟩ := ihl
      obtain ⟨k', hk'⟩ := ihr
      exact ⟨max k k', .quest (hup (le_max_left k k') hk) (hup (le_max_right k k') hk')⟩
  | colon _ _ ihl ihr =>
      obtain ⟨k, hk⟩ := ihl
      obtain ⟨k', hk'⟩ := ihr
      exact ⟨max k k', .colon (hup (le_max_left k k') hk) (hup (le_max_right k k') hk')⟩

/-- Where both operands halt, so does the node. -/
theorem Halts.binop (ρ : Valuation) {t : BinTag} {l r : Expr} {P : Expr → Prop} {s : Bool} (hl : Halts rank l)
    (hr : Halts rank r) (hb : Built P s (.binop t l r)) : Halts rank (.binop t l r) := by
  intro m hm
  obtain ⟨k, hk⟩ : ∃ k, Built (rank · < k) s (.binop t l r) := hb.bounded
  obtain ⟨fl, hfl⟩ := hl m hm
  -- the fuel for the right operand is counted from what the left one leaves
  obtain ⟨fr, hfr⟩ : ∃ fr, ∀ l' m₁ log, exprReduce fl l m = (.ok (l', m₁), log) →
      Ends .fuel (exprReduce fr r) m₁ := by
    rcases hx : exprReduce fl l m with ⟨e' | ⟨l', m₁⟩, log⟩
    · exact ⟨0, fun _ _ _ h => by cases h⟩
    · obtain ⟨fr, hfr⟩ := hr m₁ (hm.follows (exprReduce_kept ρ hx).follows)
      refine ⟨fr, ?_⟩
      rintro _ _ _ ⟨⟩
      exact hfr
  let fuel := max (max fl fr) (k + 1)
  have hle : ∀ {f}, f ≤ max fl fr → ∀ e, Le .fuel (exprReduce f e) (exprReduce (fuel + 1) e) :=
    fun hf e => exprReduce_le (by omega) e
  refine ⟨fuel + 1, (hfl.mono (hle (le_max_left _ _) l)).bind fun l' m₁ log hl' => ?_⟩
  have hl'' : exprReduce fl l m = (.ok (l', m₁), log) := by
    rw [← hl']
    exact (hfl.le (hle (le_max_left _ _) l)).symm
  have hkl := exprReduce_kept ρ hl''
  refine ((hfr _ _ _ hl'').mono (hle (le_max_right _ _) r)).bind fun r' m₂ log' hr' => ?_
  have hkr := exprReduce_kept ρ hr'
  have hm₁ := hm.follows hkl.follows
  have hm₂ := hm₁.follows hkr.follows
  have hcheck : ∀ {s e}, Built (rank · < k) s e →
      Aligns (fun _ => True) (· = .abort) False ρ m₂.store (exprCheckAlignment fuel) e :=
    fun he => exprCheckAlignment_ends ρ hm₂ he (by omega)
  have htriv : Ensures (fun _ => True) (· = .abort) (reduceTrivia (exprCheckAlignment fuel) t l' r')
      (fun e m' => m'.store = m₂.store ∧ Same False ρ (.binop t l' r') e) m₂ := by
    refine reduceTrivia_spec False.elim ?_ (hcheck (hkl.built _ _ (hm.closed k) hk.left))
      (hcheck (hkr.built _ _ (hm₁.closed k) hk.right)) t m₂ rfl
    rfl
  refine (htriv.ends (by decide)).bind fun e m₃ log'' _ => ?_
  exact ((reassociate_spec ρ e) m₃).ends (by decide)

theorem Halts.const (rank : Expr → Nat) (c : Word) : Halts rank (.const c) :=
  fun _ _ => ⟨1, Logged.ends_pure _ _ _⟩

theorem Halts.plus (ρ : Valuation) {l r : Expr} (hl : Halts rank l) (hr : Halts rank r)
    (hbl : l.Formed) (hbr : r.Formed) : Halts rank (.binop .plus l r) :=
  hl.binop ρ hr (.binop (by decide) (by decide) hbl hbr)

/-- `expr_binop (EXPR_PLUS, ..)` and `expr_asgop (EXPR_PLUS, ..)` build what halts. -/
theorem Halts.exprNode (ρ : Valuation) (lone : Bool) {l r : Expr} (hl : Halts rank l)
    (hr : Halts rank r) (hbl : l.Formed) (hbr : r.Formed) :
    Halts rank (exprNode lone .plus l r) := by
  unfold Ttools.exprNode
  split
  · exact hl.left.plus ρ (.const rank _) hbl.left (.const _)
  · split
    · refine (hl.left.plus ρ hr hbl.left hbr).plus ρ (.const rank _) ?_ (.const _)
      exact .binop (by decide) (by decide) hbl.left hbr
    · exact hl.plus ρ hr hbl hbr
  · next h _ _ => exact hl.plus ρ hr hbl hbr

theorem Halts.exprAsgPlus (ρ : Valuation) {lone : Bool} {l r e : Expr} (hl : Halts rank l)
    (hr : Halts rank r) (hbl : l.Formed) (hbr : r.Formed) (h : exprAsgPlus lone l r = some e) :
    Halts rank e := by
  unfold Ttools.exprAsgPlus at h
  split at h
  · cases h
    exact hl.left.plus ρ (.const rank _) hbl.left (.const _)
  · unfold exprBinop at h
    split at h
    · obtain ⟨x, -, rfl⟩ := Option.map_eq_some_iff.mp h
      exact .const rank x
    · split at h
      · cases h
        exact hr.exprNode ρ lone hl hbr hbl
      · cases h
        exact hl.exprNode ρ lone hr hbl hbr

/-- What the member is replaced by halts, in any store of this rank. -/
def SqueezedHalts (rank : Expr → Nat) (m : Expr) : Prop :=
  ∀ st : Store, st.Ranked rank → ∀ x, st.squeezed m = some x → Halts rank x ∧ x.Formed

theorem squeeze_halts (ρ : Valuation) {st : Store} (hst : st.Ranked rank) (sum : Option Expr)
    {v : List Expr} (hv : ∀ m ∈ v, SqueezedHalts rank m)
    (hsum : ∀ x, sum = some x → Halts rank x ∧ x.Formed) :
    Yields (fun _ => True) (squeeze st sum v) fun r =>
      (∀ x, r.2 = some x → Halts rank x ∧ x.Formed) ∧ r.1.Sublist v ∧
        (sum = none → r.2.isSome → r.1.length < v.length) := by
  induction v generalizing sum with
  | nil => exact yields_pure ⟨hsum, .refl _, by rintro rfl ⟨⟩⟩
  | cons m v ih =>
      have hv' : ∀ x ∈ v, SqueezedHalts rank x := fun x hx => hv x (List.mem_cons_of_mem _ hx)
      rw [squeeze]
      rcases hm : st.squeezed m with _ | x
      · refine yields_bind (ih sum hv' hsum) ?_
        rintro ⟨kept, sum'⟩ ⟨h1, h2, h3⟩
        refine yields_pure ⟨h1, ?_, ?_⟩
        · exact h2.cons_cons m
        · exact fun hn hs => Nat.succ_lt_succ (h3 hn hs)
      · have hx := hv m List.mem_cons_self st hst x hm
        rcases sum with _ | sum
        · refine fun m₀ => (ih (some x) hv' ?_ m₀).mono ?_
          · rintro y ⟨⟩
            exact hx
          · rintro ⟨kept, sum'⟩ m₁ ⟨hs, h1, h2, -⟩
            exact ⟨hs, h1, h2.cons m, fun _ _ => Nat.lt_succ_of_le h2.length_le⟩
        · have hsum := hsum sum rfl
          refine yields_bind yields_ask fun lone _ => ?_
          refine yields_bind (yields_ofOption _) fun sum' hs => ?_
          refine fun m₀ => (ih (some sum') hv' ?_ m₀).mono ?_
          · rintro y ⟨⟩
            exact ⟨hsum.1.exprAsgPlus ρ hx.1 hsum.2 hx.2 hs, .exprAsgPlus hsum.2 hx.2 hs⟩
          · rintro ⟨kept, sum''⟩ m₁ ⟨hst, h1, h2, -⟩
            exact ⟨hst, h1, h2.cons m, fun hn => by cases hn⟩

/-- A sum halts where its members, and the sizes they stand for, do. -/
theorem Halts.elsum (ρ : Valuation) {v : List Expr}
    (hv : ∀ m ∈ v, SqueezedHalts rank m ∧ m.Formed) : Halts rank (.elsum v) := by
  induction hn : v.length using Nat.strong_induction_on generalizing v with
  | _ n ih =>
      intro m hm
      have hend : Ensures (fun _ => True) (· = .abort) (reduceElsum v)
          (fun e m' => m'.store = m.store ∧ ((∃ w, e = .elsum w) ∨ Halts rank e)) m := by
        rw [reduceElsum, Logged.ensures_bind, Logged.ensures_get, Logged.ensures_bind]
        refine (squeeze_halts ρ hm none (fun x hx => (hv x hx).1) (fun x hx => by cases hx) m).mono ?_
        rintro ⟨kept, sum⟩ m' ⟨hst, hsum, hsub, hlen⟩
        dsimp only at *
        rcases kept with _ | ⟨k, kept⟩ <;> rcases sum with _ | sum <;> dsimp only
        · exact Logged.ensures_stop.mpr rfl
        · exact Logged.ensures_pure.mpr ⟨hst, .inr (hsum sum rfl).1⟩
        · exact Logged.ensures_pure.mpr ⟨hst, .inl ⟨v, rfl⟩⟩
        · have hkept : ∀ x ∈ k :: kept, SqueezedHalts rank x ∧ x.Formed := fun x hx =>
            hv x (hsub.subset hx)
          refine Logged.ensures_pure.mpr ⟨hst, .inr ?_⟩
          refine (ih _ (hn ▸ hlen rfl rfl) hkept rfl).plus ρ (hsum sum rfl).1 ?_ (hsum sum rfl).2
          exact .elsum fun x hx => (hkept x hx).2
      rcases hx : reduceElsum v m with ⟨e' | ⟨e, m'⟩, log⟩
      · refine ⟨1, (hend.ends (by decide)).bind fun _ _ _ h => ?_⟩
        rw [hx] at h
        cases h
      · obtain ⟨hst, he⟩ := hend.run hx fun _ _ => trivial
        obtain ⟨fuel, hf⟩ : ∃ fuel, (∃ w, e = .elsum w) ∨ Ends .fuel (exprReduce fuel e) m' := by
          rcases he with he | he
          · exact ⟨0, .inl he⟩
          · obtain ⟨fuel, hf⟩ := he m' (hst ▸ hm)
            exact ⟨fuel, .inr hf⟩
        refine ⟨fuel + 1, (hend.ends (by decide)).bind fun a m'' log' h => ?_⟩
        rw [hx] at h
        cases h
        rcases hf with ⟨w, rfl⟩ | hf
        · exact Logged.ends_pure _ _ _
        · split
          · exact Logged.ends_pure _ _ _
          · exact hf

theorem Halts.name {np : NameId} (h : ∀ st : Store, st.Ranked rank → ∀ v, st.localVal np = some v →
    Halts rank v) : Halts rank (.name np) := by
  intro m hm
  rcases hv : m.store.localVal np with _ | v
  · refine ⟨1, Ends.get_bind ?_⟩
    rw [hv]
    exact Logged.ends_pure _ _ _
  · obtain ⟨fuel, hf⟩ := h m.store hm v hv m hm
    refine ⟨fuel + 1, Ends.get_bind ?_⟩
    rw [hv]
    exact hf.bind fun _ _ _ _ h => by cases h

theorem Halts.element {el : ElemId} (h : ∀ st : Store, st.Ranked rank →
    (st.size el).isRange = false → Halts rank (st.size el)) : Halts rank (.element el) := by
  intro m hm
  by_cases hr : (m.store.size el).isRange = true
  · refine ⟨1, Ends.get_bind ?_⟩
    rw [if_pos hr]
    exact Logged.ends_pure _ _ _
  · obtain ⟨fuel, hf⟩ := h m.store hm (Bool.not_eq_true _ ▸ hr) m hm
    refine ⟨fuel + 1, Ends.get_bind ?_⟩
    rw [if_neg hr]
    exact hf.bind fun _ _ _ _ h => by cases h

/-- **A reduction comes to an end** where no name or element leads back to itself. -/
theorem exprReduce_halts (ρ : Valuation) {s : Bool} {e : Expr} (h : Built (rank · < k) s e) :
    Halts rank e := by
  induction k using Nat.strong_induction_on generalizing s e with
  | _ k ih =>
      have hsize : ∀ el, rank (.element el) < k → ∀ st : Store, st.Ranked rank →
          (st.size el).isRange = false → Halts rank (st.size el) := fun el hel st hst hr =>
        ih _ hel (hst.size el hr)
      induction h with
      | const c => exact .const rank c
      | name hn => exact .name fun st hst v hv => ih _ hn (hst.name _ v hv)
      | range _ => exact fun _ _ => ⟨1, Logged.ends_pure _ _ _⟩
      | element hel => exact .element (hsize _ hel)
      | elsum hv ihv =>
          refine .elsum ρ fun m hm => ⟨?_, (hv m hm).mono fun _ _ => trivial⟩
          intro st hst x hx
          have hb := hv m hm
          cases m with
          | element el =>
              cases hb with
              | element hel =>
                  rw [Store.squeezed] at hx
                  split at hx
                  · cases hx
                  · next hr =>
                      cases hx
                      have hr : (st.size el).isRange = false := eq_false_of_ne_true hr
                      exact ⟨hsize el hel st hst hr, (hst.size el hr).mono fun _ _ => trivial⟩
          | _ =>
              cases hx
              exact ⟨ihv _ hm, hb.mono fun _ _ => trivial⟩
      | unop _ ihr => exact ihr.unop
      | binop hq hc hl hr ihl ihr => exact ihl.binop ρ ihr (.binop hq hc hl hr)
      | quest hl hr ihl ihr => exact ihl.binop ρ ihr (.quest hl hr)
      | colon hl hr ihl ihr => exact ihl.binop ρ ihr (.colon hl hr)

end

/-! ### The value is kept -/

/-- The run does not abort, and every risk it takes is met. -/
def TakesNoWrongBranch (ρ : Valuation) (e : Expr) (m : Memory) : Prop :=
  ∀ fuel, (exprReduce fuel e m).1 ≠ .error .abort ∧ ∀ w ∈ (exprReduce fuel e m).2, w.Ok ρ

/-- **`expr_reduce` keeps the value** of the expression, under every valuation that agrees with
the store, in a run that takes no wrong branch. -/
theorem exprReduce_value {m : Memory} {e : Expr} {ρ : Valuation} {rank : Expr → Nat}
    (hrank : m.store.Ranked rank) (hst : m.store.Formed) (he : e.Formed) (hρ : m.store.Models ρ)
    (hal : m.store.Aligned ρ) (h : TakesNoWrongBranch ρ e m) :
    ∃ n, ∀ fuel ≥ n, ∃ e' m', (exprReduce fuel e m).1 = .ok (e', m') ∧
      e'.value ρ true = e.value ρ true := by
  obtain ⟨k, hk⟩ : ∃ k, Built (rank · < k) false e := he.bounded
  obtain ⟨n, hn⟩ := exprReduce_halts ρ hk m hrank
  refine ⟨n, fun fuel hf => ?_⟩
  have hn := hn.mono (exprReduce_le hf e)
  obtain ⟨habort, hlog⟩ := h fuel
  rcases hx : exprReduce fuel e m with ⟨e' | ⟨e', m'⟩, log⟩
  · unfold Ends at hn
    rw [hx] at hn habort
    cases e' <;> contradiction
  · rw [hx] at hlog
    have hkept := (exprReduce_keeps (Risk.Ok ρ) ρ fuel e m).run hx hlog
    exact ⟨e', m', rfl, hkept.value (fun _ hw => hw) hst (hρ.agrees hal) false he true⟩

/-- A memory whose names have no value, and where nothing is shared. -/
def Memory.unknown : Memory := ⟨.unknown, fun _ => false⟩

/-- The names are 1, the elements empty. -/
def Valuation.ones : Valuation where
  name _ := 1
  size _ := 0
  range lo _ := lo

theorem models_ones : Store.unknown.Models .ones where
  name _ _ h := by cases h
  size _ := (Expr.value_const _ _ _).symm
  range _ _ h := ⟨le_rfl, h⟩

theorem aligned_ones : Store.unknown.Aligned .ones := fun _ _ => one_dvd _

/-- `(x + 3) - x`. -/
theorem exprReduce_value_cancel : ∃ n, ∀ fuel ≥ n, ∃ e' m',
    (exprReduce fuel (.binop .minus (.binop .plus (.name 0) (.const 3)) (.name 0)) .unknown).1 =
      .ok (e', m') ∧
    e'.value .ones true =
      (Expr.binop .minus (.binop .plus (.name 0) (.const 3)) (.name 0)).value .ones true := by
  have hname : ∀ P : Expr → Prop, P (.name 0) → Built P false (.name 0) := fun P h => .name h
  have hrank : Store.unknown.Ranked fun _ => 0 := ⟨fun _ _ h => (by cases h), fun _ _ => .const 0⟩
  have hst : Store.unknown.Formed := ⟨fun _ _ _ h => (by cases h), fun _ _ _ => .const 0⟩
  refine exprReduce_value hrank hst ?_ models_ones aligned_ones fun fuel => ?_
  · exact .binop (by decide) (by decide)
      (.binop (by decide) (by decide) (hname _ trivial) (.const 3)) (hname _ trivial)
  · rcases fuel with _ | fuel
    · exact ⟨by rintro ⟨⟩, fun w hw => by cases hw⟩
    · have hend : Ends .fuel (exprReduce 1 (.binop .minus (.binop .plus (.name 0) (.const 3))
        (.name 0))) .unknown := by rintro ⟨⟩
      rw [hend.le (exprReduce_le (Nat.succ_le_succ (Nat.zero_le fuel)) _)]
      exact ⟨by rintro ⟨⟩, fun w hw => by cases hw⟩

/-- `(x + 3) - (5 - y)` becomes `(x - 2) - y`. -/
theorem exprReduce_lost_sign :
    let e : Expr := .binop .minus (.binop .plus (.name 0) (.const 3))
      (.binop .minus (.const 5) (.name 1))
    let e' : Expr := .binop .minus (.binop .plus (.name 0) (.const (-2))) (.name 1)
    (∃ m', (exprReduce 1 e .unknown).1 = .ok (e', m')) ∧
      Store.unknown.Models .ones ∧ Store.unknown.Aligned .ones ∧
      e'.value .ones true ≠ e.value .ones true := by
  refine ⟨⟨_, rfl⟩, models_ones, aligned_ones, ?_⟩
  simp [Valuation.ones]

end Ttools
