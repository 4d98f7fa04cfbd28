import Ttools.Expr.Runs

/-!
# Additions in place

`expr_plus_constant`, `expr_plus_element`, `expr_glue_element` and `expr_asgop` for `EXPR_PLUS`
(`shared/expr.c`) on the nodes.  Where the source has the address of a pointer, these functions take
the pointer and return the one that takes its place.  The caller has a reference to the expression;
the functions write into its nodes.

* `Advances`: the value of the caller's expression is greater, and nobody else's has changed.
* `addInPlace_advances`: the constant in the node of `x + C` is written over, in a copy of the node
  where others have it too.
* `growConst_advances`: so is the constant that is the size of a block.
* `exprGlueElement_spec`: glueing makes new nodes only.
* `exprPlusConstant_advances`, `exprAsgPlus_advances`, `exprPlusElement_advances`: so the functions
  may be called on an expression that others share.
* `Request.exec_leaves`: nor do the constructors disturb the other holders.
-/

namespace Ttools

open Support

namespace Heap

/-! ### The functions -/

/-- `e = *ep = expr_unshare (e)`, and the addition of `d` to the constant on its right. -/
def addInPlace (e : Addr) (d : Word) (h : Heap) : Option (Addr × Heap) := do
  let (e, h) ← h.exprUnshare e
  h.addToRight e d

/-- `expr_plus_constant`. -/
def exprPlusConstant (e : Addr) (toadd : Word) (h : Heap) : Option (Addr × Heap) := do
  match ← h.node e with
  | .binop .plus _ r =>
      match (← h.node r).const? with
      | some _ => h.addInPlace e toadd
      | none => general
  | _ => general
where
  /-- Have to do it in the general way. -/
  general : Option (Addr × Heap) :=
    let (temp, h) := h.exprAlloc (.const toadd)
    h.exprBinopOwned .plus e temp

/-- `expr_asgop` for `EXPR_PLUS`. -/
def exprAsgPlus (e1 e2 : Addr) (h : Heap) : Option (Addr × Heap) := do
  match ← h.node e1, ← h.node e2 with
  | .binop .plus _ r, n2 =>
      match (← h.node r).const?, n2.const? with
      -- frequent special case: (x + C) += D -> x + (C+D)
      | some _, some d => h.addInPlace e1 d
      | _, _ => general
  | _, _ => general
where
  /-- Do it in the general way. -/
  general : Option (Addr × Heap) := do
    let (e, h) ← h.exprBinop .plus e1 e2
    let h ← h.free e1
    some (e, h)

/-- `expr_glue_element`; the result `none` is the null pointer.  `fuel` bounds the depth of the
recursion. -/
def exprGlueElement (elexpr : Addr) : Nat → Addr → Heap → Option (Option Addr × Heap)
  | 0, _, _ => none
  | fuel + 1, e, h => do
      match ← h.node e with
      | .elsum _ =>
          let (e, h) ← (h.exprShare e).exprUnshare e
          let h ← h.exprElsumAppend e elexpr
          some (some e, h)
      | .element _ =>
          let (temp, h) := h.exprAlloc (.elsum [])
          let h ← h.exprElsumAppend temp e
          let h ← h.exprElsumAppend temp elexpr
          some (some temp, h)
      | .binop .plus l r =>
          match ← exprGlueElement elexpr fuel l h with
          | (some temp, h) => ((h.exprShare r).exprBinopOwned .plus temp r).map (Prod.map some id)
          | (none, h) =>
              match ← exprGlueElement elexpr fuel r h with
              | (some temp, h) => ((h.exprShare l).exprBinopOwned .plus l temp).map (Prod.map some id)
              | (none, h) => some (none, h)
      | _ => some (none, h)

/-- `expr_plus_element` for an element of this size. -/
def exprPlusElement (fuel : Nat) (e : Addr) (el : ElemId) (size : Expr) (h : Heap) :
    Option (Addr × Heap) :=
  match size.const? with
  | some c => h.exprPlusConstant e c
  | none => do
      let (temp, h) := h.exprElement el
      match ← h.exprGlueElement temp fuel e with
      | (some uemp, h) => do
          let h ← h.free e
          let h ← h.free temp
          some (uemp, h)
      | (none, h) => do
          -- Could not glue -- go the standard way.
          let (e, h) ← h.exprAsgPlus e temp
          let h ← h.free temp
          some (e, h)

/-- `size = expr_unshare (size); size->u.constval += d`, as the emit functions make a block longer. -/
def growConst (e : Addr) (d : Word) (h : Heap) : Option (Addr × Heap) := do
  let (e, h) ← h.exprUnshare e
  match ← h.node e with
  | .const c => some (e, h.assign e (.const (c + d)))
  | _ => none

/-! ### What they should do -/

variable {held : Multiset Addr} {h h₀ h' : Heap} {e e1 e2 p p' x r : Addr} {t t1 t2 : Expr}

/-- What the holders of some references see: each expression has the value it had. -/
def Undisturbed (held : Multiset Addr) (h h' : Heap) : Prop :=
  ∀ b ∈ held, ∀ t, Denotes h.nodes b t → ∃ t', Denotes h'.nodes b t' ∧ t.Same t'

/-- In the place of `p` there is `p'`, whose value is greater by `d`; the other holders see no
difference. -/
structure Advances (held : Multiset Addr) (h : Heap) (p : Addr) (d : Valuation → Word) (h' : Heap)
    (p' : Addr) : Prop where
  ok : Ok (p' ::ₘ held) h'
  value : ∀ t, Denotes h.nodes p t →
    ∃ t', Denotes h'.nodes p' t' ∧ ∀ ρ, t'.value ρ true = t.value ρ true + d ρ
  others : Undisturbed held h h'

theorem Undisturbed.refl (held : Multiset Addr) (h : Heap) : Undisturbed held h h :=
  fun _ _ t ht => ⟨t, ht, fun _ _ => rfl⟩

theorem Undisturbed.trans {h₁ h₂ h₃ : Heap} (h₁₂ : Undisturbed held h₁ h₂)
    (h₂₃ : Undisturbed held h₂ h₃) : Undisturbed held h₁ h₃ := by
  intro b hb t ht
  obtain ⟨t', ht', hsame⟩ := h₁₂ b hb t ht
  obtain ⟨t'', ht'', hsame'⟩ := h₂₃ b hb t' ht'
  exact ⟨t'', ht'', fun ρ s => (hsame' ρ s).trans (hsame ρ s)⟩

theorem Undisturbed.mono {held' : Multiset Addr} (hu : Undisturbed held h h') (hle : held' ⊆ held) :
    Undisturbed held' h h' := fun b hb => hu b (hle hb)

/-- Nothing that the holders get to has been written. -/
theorem undisturbed_of_kept {held₀ held₁ : Multiset Addr} {S : Set Nat} (hok : Ok held₀ h)
    (hok' : Ok held₁ h') (hk : Memory.Kept S h.nodes h'.nodes) (hle : held ⊆ held₁)
    (hfar : ∀ b ∈ held, ∀ a, Reaches h.nodes b a → a ∉ S) : Undisturbed held h h' := by
  intro b hb t ht
  exact ⟨t, ht.kept hok.nodes hok'.nodes hk (hok'.nodes.live (hle hb)) (hfar b hb),
    fun _ _ => rfl⟩

/-- A leaf is made. -/
theorem leaf_spec (hok : Ok held h) {n : Node} (hkids : n.kids = [])
    (hel : ∀ el, n.toElement el = 0) :
    Ok ((h.exprAlloc n).1 ::ₘ held) (h.exprAlloc n).2 ∧ Undisturbed held h (h.exprAlloc n).2 := by
  have hok' : Ok (h.nodes.next ::ₘ held) (h.exprAlloc n).2 :=
    Ok.alloc (by simpa [hkids] using hok) hel
  exact ⟨hok', undisturbed_of_kept hok hok' (.alloc _) (Multiset.subset_cons _ _)
    fun _ _ _ _ => Set.notMem_empty _⟩

/-- One more reference. -/
theorem share_spec (hok : Ok held h) (he : h.nodes.Live e) :
    Ok (e ::ₘ held) (h.exprShare e) ∧ Undisturbed held h (h.exprShare e) :=
  ⟨hok.share he, undisturbed_of_kept hok (hok.share he) (.share he) (Multiset.subset_cons _ _)
    fun _ _ _ _ => Set.notMem_empty _⟩

/-- One reference less. -/
theorem free_spec (hok : Ok (e ::ₘ held) h) :
    ∃ h', h.free e = some h' ∧ Ok held h' ∧ Undisturbed held h h' := by
  obtain ⟨h', hcall, hr⟩ := hok.free
  exact ⟨h', hcall, hr.ok, undisturbed_of_kept hok hr.ok hr.kept (Multiset.Subset.refl _)
    fun _ _ _ _ => Set.notMem_empty _⟩

/-! ### A constant that is written over -/

/-- Who does not get to a node does not get to what only this node refers to. -/
theorem not_reaches_kid {n : Node} (hok : Ok held h) (he : h.nodes.Live e) (hn : h.node e = some n)
    (hr : r ∈ n.kids) (h1 : h.nrefs r = 1) {b : Addr} (hb : h.nodes.Live b) (hne : b ≠ r)
    (hfar : ¬Reaches h.nodes b e) : ¬Reaches h.nodes b r := by
  intro hreach
  rcases Relation.ReflTransGen.cases_tail hreach with heq | ⟨c, hbc, m, hm, hmem⟩
  · exact hne heq.symm
  · have hce : c ≠ e := fun heq => hfar (heq ▸ hbc)
    have htwo := hok.nodes.two_le hce (hok.live_along hb hbc) he hm hn hmem hr
    have : h.nodes.nrefs r = 1 := h1
    omega

/-- A node that has its only reference from `e` is one operand of it, not both. -/
theorem left_ne_right {op : BinTag} (hok : Ok held h) (he : h.nodes.Live e)
    (hn : h.node e = some (.binop op x r)) (h1 : h.nrefs r = 1) : x ≠ r := by
  rintro rfl
  have hle := Memory.le_total (w := fun n => (Node.kids n).count x) (hok.nodes.lt hn) he hn
  have hcount := hok.nodes.count x
  have hone : h.nodes.nrefs x = 1 := h1
  have htwo : (Node.binop op x x).kids.count x = 2 := by simp [Node.kids]
  rw [htwo] at hle
  omega

/-- Who has the only reference to a node is its only holder. -/
theorem Ok.notMem_sole (hok : Ok (e ::ₘ held) h) (h1 : h.nrefs e = 1) : e ∉ held := by
  intro hmem
  have hcount := hok.nodes.count e
  have hone : h.nodes.nrefs e = 1 := h1
  have hpos := Multiset.count_pos.mpr hmem
  rw [Multiset.count_cons_self] at hcount
  omega

/-- The constant in a node that nobody else holds. -/
theorem addToRight_sole {c : Word} {tx : Expr} (hok : Ok (e ::ₘ held) h) (h1 : h.nrefs e = 1)
    (hn : h.node e = some (.binop .plus x r)) (hr : h.node r = some (.const c))
    (hd : Denotes h.nodes e (.binop .plus tx (.const c))) (d : Word) :
    ∃ h', h.addToRight e d = some (e, h') ∧ Ok (e ::ₘ held) h' ∧
      Denotes h'.nodes e (.binop .plus tx (.const (c + d))) ∧ Undisturbed held h h' := by
  have he : h.nodes.Live e := hok.nodes.live (Multiset.mem_cons_self _ _)
  have hrl : h.nodes.Live r := hok.node_live he hn (by simp [Node.kids])
  have hxl : h.nodes.Live x := hok.node_live he hn (by simp [Node.kids])
  obtain ⟨tx', ty, htree, hx, -⟩ := hd.of_binop hn
  obtain ⟨rfl, -⟩ : tx = tx' ∧ Expr.const c = ty := by simpa using htree
  have hxfar : ¬Reaches h.nodes x e := hd.not_cycle ⟨_, hn, by simp [Node.kids]⟩
  have hlive : ∀ b ∈ held, h.nodes.Live b := fun b hb =>
    hok.nodes.live (Multiset.mem_cons_of_mem hb)
  -- the others get neither to `e` nor to a constant that only `e` has
  have hfar : ∀ b ∈ held, ¬Reaches h.nodes b e := by
    intro b hb hreach
    have hbe : b ≠ e := fun heq => hok.notMem_sole h1 (heq ▸ hb)
    exact not_reaches_sole hok (Multiset.mem_cons_self _ _) h1 (hlive b hb) hbe hreach rfl
  by_cases htwo : 1 < h.nrefs r
  · obtain ⟨g, h', hcall, hok', hk, hn', hg⟩ :=
      addToRight_shared (S := {e}) hok (.refl _) (.inl rfl) hn hr htwo d
    have hxl' : h'.nodes.Live x :=
      hok'.node_live (hok'.nodes.live (Multiset.mem_cons_self _ _)) hn' (by simp [Node.kids])
    refine ⟨h', hcall, hok', .binop hn' (hx.kept hok.nodes hok'.nodes hk hxl' ?_) (.const hg),
      undisturbed_of_kept hok hok' hk (Multiset.subset_cons _ _) ?_⟩
    · exact fun a ha hae => hxfar (hae ▸ ha)
    · exact fun b hb a ha hae => hfar b hb (hae ▸ ha)
  · have hone : h.nrefs r = 1 := by
      have hpos : 0 < h.nrefs r := hrl
      omega
    have her : e ≠ r := by
      rintro rfl
      rw [hn] at hr
      cases hr
    have hok₁ : Ok (e ::ₘ held) (h.assign e (.binop .plus x r)) :=
      hok.assign he hn rfl fun _ => rfl
    have hr₁ : (h.assign e (.binop .plus x r)).node r = some (.const c) := by
      rw [← hr]
      exact Memory.node_write_ne her.symm
    have hrl₁ : (h.assign e (.binop .plus x r)).nodes.Live r := by
      unfold Memory.Live
      rw [assign, Memory.nrefs_write]
      exact hrl
    have hok₂ : Ok (e ::ₘ held) ((h.assign e (.binop .plus x r)).assign r (.const (c + d))) :=
      hok₁.assign hrl₁ hr₁ rfl fun _ => rfl
    have hk : Memory.Kept {e, r} h.nodes
        ((h.assign e (.binop .plus x r)).assign r (.const (c + d))).nodes :=
      ((Memory.Kept.refl _).write (.inl (.inl rfl))).write (.inl (.inr rfl))
    have hn₂ : ((h.assign e (.binop .plus x r)).assign r (.const (c + d))).node e
        = some (.binop .plus x r) :=
      (Memory.node_write_ne her).trans ((Memory.node_write hn).trans (if_pos rfl))
    have hr₂ : ((h.assign e (.binop .plus x r)).assign r (.const (c + d))).node r
        = some (.const (c + d)) := (Memory.node_write hr₁).trans (if_pos rfl)
    have hkid : ∀ b, h.nodes.Live b → b ≠ r → ¬Reaches h.nodes b e → ∀ a, Reaches h.nodes b a →
        a ∉ ({e, r} : Set Nat) := by
      rintro b hb hbr hbe a ha (rfl | rfl)
      · exact hbe ha
      · exact not_reaches_kid hok he hn (by simp [Node.kids]) hone hb hbr hbe ha
    refine ⟨_, ?_, hok₂, .binop hn₂ (hx.kept hok.nodes hok₂.nodes hk ?_
      (hkid x hxl (left_ne_right hok he hn hone) hxfar)) (.const hr₂),
      undisturbed_of_kept hok hok₂ hk (Multiset.subset_cons _ _) fun b hb => ?_⟩
    · simp only [addToRight, hn, exprUnshare, hr, htwo, Option.bind_eq_bind, Option.bind_some,
        if_false, hr₁]
    · exact hok₂.node_live (hok₂.nodes.live (Multiset.mem_cons_self _ _)) hn₂ (by simp [Node.kids])
    · refine hkid b (hlive b hb) ?_ (hfar b hb)
      rintro rfl
      exact hok.nodes.sole (Multiset.mem_cons_of_mem hb) hone he hn (by simp [Node.kids])

/-- `addInPlace`, whoever else holds the expression or its constant. -/
theorem addInPlace_advances {c : Word} (hok : Ok (p ::ₘ held) h)
    (hn : h.node p = some (.binop .plus x r)) (hr : h.node r = some (.const c))
    (hd : Denotes h.nodes p t) (d : Word) :
    ∃ p' h', h.addInPlace p d = some (p', h') ∧ Advances held h p (fun _ => d) h' p' := by
  obtain ⟨tx, ty, rfl, hx, hy⟩ := hd.of_binop hn
  obtain rfl := hy.unique (.const hr)
  have hvalue : ∀ u, Denotes h.nodes p u → ∀ ρ, (Expr.binop .plus tx (.const (c + d))).value ρ true
      = u.value ρ true + d := by
    intro u hu ρ
    obtain rfl := hd.unique hu
    simp only [Expr.value_plus, Expr.value_const, add_assoc]
  by_cases h1 : 1 < h.nrefs p
  · obtain ⟨f, g, h', hcall, hm, hf, hg⟩ := unshare_add_spec hok h1 hn hr d
    have hxl : h'.nodes.Live x := hm.ok.node_live hm.live hf (by simp [Node.kids])
    have hfar : ∀ b a, Reaches h.nodes b a → a ∉ (∅ : Set Nat) := fun _ _ _ => Set.notMem_empty _
    have hx' := hx.kept hok.nodes hm.ok.nodes hm.kept hxl (hfar x)
    exact ⟨f, h', hcall, hm.ok, fun u hu => ⟨_, .binop hf hx' (.const hg), hvalue u hu⟩,
      undisturbed_of_kept hok hm.ok hm.kept (Multiset.subset_cons _ _) fun b _ => hfar b⟩
  · have hlive : 0 < h.nrefs p := hok.nodes.live (Multiset.mem_cons_self _ _)
    obtain ⟨h', hcall, hok', hd', hothers⟩ := addToRight_sole hok (by omega) hn hr hd d
    refine ⟨p, h', ?_, hok', fun u hu => ⟨_, hd', hvalue u hu⟩, hothers⟩
    simp only [addInPlace, exprUnshare, hn, h1, Option.bind_eq_bind, Option.bind_some, if_false,
      hcall]

/-- A constant is written over, in a copy if others have it too. -/
theorem growConst_advances {c : Word} (hok : Ok (p ::ₘ held) h) (hn : h.node p = some (.const c))
    (d : Word) :
    ∃ p' h', h.growConst p d = some (p', h') ∧ Advances held h p (fun _ => d) h' p' := by
  have hvalue : ∀ u, Denotes h.nodes p u → ∀ ρ : Valuation,
      (Expr.const (c + d)).value ρ true = u.value ρ true + d := by
    intro u hu ρ
    obtain rfl := hu.unique (.const hn)
    rw [Expr.value_const, Expr.value_const]
  by_cases h1 : 1 < h.nrefs p
  · obtain ⟨f, h₁, hcall, hm, hf, -⟩ := unshare_spec hok h1 hn (by simp)
    have hok' : Ok (f ::ₘ held) (h₁.assign f (.const (c + d))) :=
      hm.ok.assign hm.live hf rfl fun _ => rfl
    have hf' : (h₁.assign f (.const (c + d))).node f = some (.const (c + d)) :=
      (Memory.node_write hf).trans (if_pos rfl)
    refine ⟨f, _, by simp [growConst, hcall, hf], hok',
      fun u hu => ⟨_, .const hf', hvalue u hu⟩, ?_⟩
    exact undisturbed_of_kept (S := ∅) hok hok' (hm.kept.write (.inr hm.fresh))
      (Multiset.subset_cons _ _) fun _ _ _ _ => Set.notMem_empty _
  · have hlive : 0 < h.nrefs p := hok.nodes.live (Multiset.mem_cons_self _ _)
    have hone : h.nrefs p = 1 := by omega
    have hok' : Ok (p ::ₘ held) (h.assign p (.const (c + d))) :=
      hok.assign hlive hn rfl fun _ => rfl
    have hn' : (h.assign p (.const (c + d))).node p = some (.const (c + d)) :=
      (Memory.node_write hn).trans (if_pos rfl)
    have hk : Memory.Kept {p} h.nodes (h.assign p (.const (c + d))).nodes :=
      (Memory.Kept.refl _).write (.inl rfl)
    refine ⟨p, _, by simp [growConst, exprUnshare, hn, h1], hok',
      fun u hu => ⟨_, .const hn', hvalue u hu⟩, ?_⟩
    refine undisturbed_of_kept hok hok' hk (Multiset.subset_cons _ _) fun b hb a hreach => ?_
    have hne : b ≠ p := fun heq => hok.notMem_sole hone (heq ▸ hb)
    exact not_reaches_sole hok (Multiset.mem_cons_self _ _) hone
      (hok.nodes.live (Multiset.mem_cons_of_mem hb)) hne hreach

/-! ### The general way -/

/-- A sum, which writes into its first operand only if that has no other holder. -/
theorem plus_spec (hok : Ok held h) (hle : {e1, e2} ≤ held) (hd1 : Denotes h.nodes e1 t1)
    (hd2 : Denotes h.nodes e2 t2) :
    ∃ e h' t, h.exprBinop .plus e1 e2 = some (e, h') ∧
      Made {a | a = e1 ∧ h.nrefs e1 = 1} held h h' e ∧ Denotes h'.nodes e t ∧
      (Expr.binop .plus t1 t2).Same t := by
  have hmem1 : e1 ∈ held := Multiset.mem_of_le hle (by simp)
  have hlive1 := hok.nodes.live hmem1
  have hlive2 := hok.nodes.live (Multiset.mem_of_le hle (by simp : e2 ∈ {e1, e2}))
  have hab : ¬h.Aborts .plus e1 e2 := not_aborts (by decide) (by decide) (by decide) (by decide)
  by_cases hl : ∃ x r c, h.Lifts .plus e1 e2 x r c
  · obtain ⟨x, r, c, hl⟩ := hl
    obtain ⟨-, hn, hr, hone, -⟩ := id hl
    obtain ⟨tx, ty, rfl, -, hy⟩ := hd1.of_binop hn
    obtain rfl := hy.unique (.const hr)
    obtain ⟨e, h₁, hcall, hm, -, -, hdone⟩ := exprBinop_lift hok hlive1 hlive2 hl hd1 hd2
    have hfar : ¬Reaches h.nodes e2 e1 := fun hreach =>
      not_reaches_sole hok hmem1 hone hlive2 (ne_of_sole hok hle hone) hreach rfl
    refine ⟨e, h₁, _, hcall, ⟨hm.ok, hm.kept.mono ?_, hm.fresh⟩, (hdone hfar).2, same_lift tx t2 c⟩
    rintro a rfl
    exact ⟨rfl, hone⟩
  · obtain ⟨e, h₁, t, hcall, hm, hd, ht⟩ :=
      exprBinop_spec hok hlive1 hlive2 hd1 hd2 hab fun x r c hlift => hl ⟨x, r, c, hlift⟩
    exact ⟨e, h₁, t, hcall, ⟨hm.ok, hm.kept.mono (Set.empty_subset _), hm.fresh⟩, hd,
      fun ρ s => Expr.value_exprBinop ht s⟩

/-- `expr_binop_owned` of two references, from the point of view of all the others. -/
theorem exprBinopOwned_spec {op : BinTag} (hok : Ok (e1 ::ₘ e2 ::ₘ held) h)
    (hd1 : Denotes h.nodes e1 t1) (hd2 : Denotes h.nodes e2 t2) (hab : ¬h.Aborts op e1 e2) :
    ∃ e h', h.exprBinopOwned op e1 e2 = some (e, h') ∧ Ok (e ::ₘ held) h' ∧
      (∃ t, Denotes h'.nodes e t ∧ (Expr.binop op t1 t2).Same t) ∧ Undisturbed held h h' := by
  have hheld : e1 ::ₘ e2 ::ₘ held = {e1, e2} + held := by
    rw [Multiset.insert_eq_cons, Multiset.cons_add, Multiset.singleton_add]
  have hg : Calling.owned.Given e1 e2 (e1 ::ₘ e2 ::ₘ held) h := by
    rw [hheld]
    exact Multiset.le_add_right _ _
  obtain ⟨e, h', hcall, hok', hvalue, hframe⟩ :=
    (constructor_frames_iff hok hg hd1 hd2).mpr ⟨hab, fun hk => nomatch hk.1⟩
  have hleft : Calling.owned.left e1 e2 (e1 ::ₘ e2 ::ₘ held) = held := by
    rw [Calling.left, hheld, add_tsub_cancel_left]
  rw [hleft] at hok' hframe
  exact ⟨e, h', hcall, hok', hvalue t1 t2 hd1 hd2, fun b hb t ht => hframe b hb b t .refl ht⟩

/-- So the sum takes the place of the first. -/
theorem plusOwned_advances (hok : Ok (p ::ₘ e ::ₘ held) h) (hp : ∃ t, Denotes h.nodes p t)
    (he : Denotes h.nodes e t) :
    ∃ p' h', h.exprBinopOwned .plus p e = some (p', h') ∧
      Advances held h p (fun ρ => t.value ρ true) h' p' := by
  obtain ⟨tp, hp⟩ := hp
  have hab : ¬h.Aborts .plus p e := not_aborts (by decide) (by decide) (by decide) (by decide)
  obtain ⟨p', h', hcall, hok', ⟨u, hu, hsame⟩, hothers⟩ := exprBinopOwned_spec hok hp he hab
  refine ⟨p', h', hcall, hok', fun t' ht' => ⟨u, hu, fun ρ => ?_⟩, hothers⟩
  obtain rfl := hp.unique ht'
  rw [hsame ρ true, Expr.value_plus]

/-- An addition after nodes have been made. -/
theorem Advances.after {held₁ : Multiset Addr} {h₁ : Heap} {d : Valuation → Word}
    (ha : Advances held h₁ p d h' p') (hok : Ok (p ::ₘ held) h) (hok₁ : Ok held₁ h₁)
    (hle : p ::ₘ held ⊆ held₁) (hk : Memory.Kept ∅ h.nodes h₁.nodes) :
    Advances held h p d h' p' := by
  have hp := undisturbed_of_kept hok hok₁ hk hle fun _ _ _ _ => Set.notMem_empty _
  refine ⟨ha.ok, fun t ht => ?_, (hp.mono (Multiset.subset_cons _ _)).trans ha.others⟩
  obtain ⟨t₁, ht₁, hsame⟩ := hp p (Multiset.mem_cons_self _ _) t ht
  obtain ⟨t', ht', hvalue⟩ := ha.value t₁ ht₁
  exact ⟨t', ht', fun ρ => by rw [hvalue, hsame]⟩

/-- A reference less after an addition. -/
theorem Advances.free {d : Valuation → Word} (ha : Advances (e ::ₘ held) h p d h' p') :
    ∃ h'', h'.free e = some h'' ∧ Advances held h p d h'' p' := by
  have hok := ha.ok
  rw [Multiset.cons_swap] at hok
  obtain ⟨h'', hfree, hok', hu⟩ := free_spec hok
  refine ⟨h'', hfree, hok', fun t ht => ?_,
    (ha.others.mono (Multiset.subset_cons _ _)).trans (hu.mono (Multiset.subset_cons _ _))⟩
  obtain ⟨t', ht', hvalue⟩ := ha.value t ht
  obtain ⟨t'', ht'', hsame⟩ := hu p' (Multiset.mem_cons_self _ _) t' ht'
  exact ⟨t'', ht'', fun ρ => by rw [hsame, hvalue]⟩

theorem exprPlusConstant_general (hok : Ok (p ::ₘ held) h) (hd : Denotes h.nodes p t) (c : Word) :
    ∃ p' h', exprPlusConstant.general p c h = some (p', h') ∧
      Advances held h p (fun _ => c) h' p' := by
  have hok₁ : Ok (h.nodes.next ::ₘ p ::ₘ held) (h.exprAlloc (.const c)).2 :=
    Ok.alloc (n := .const c) (by simpa [Node.kids] using hok) fun _ => rfl
  have hk : Memory.Kept ∅ h.nodes (h.exprAlloc (.const c)).2.nodes := .alloc _
  have htemp : Denotes (h.exprAlloc (.const c)).2.nodes h.nodes.next (.const c) :=
    .const (node_alloc_self _)
  have hlive := hok₁.nodes.live (Multiset.mem_cons_of_mem (Multiset.mem_cons_self p held))
  have hp : ∃ t, Denotes (h.exprAlloc (.const c)).2.nodes p t :=
    ⟨t, hd.kept hok.nodes hok₁.nodes hk hlive fun _ _ => Set.notMem_empty _⟩
  have hswap := hok₁
  rw [Multiset.cons_swap] at hswap
  obtain ⟨p', h', hcall, ha⟩ := plusOwned_advances hswap hp htemp
  refine ⟨p', h', hcall, ?_⟩
  have hadds := ha.after hok hok₁ (Multiset.subset_cons _ _) hk
  simpa only [Expr.value_const] using hadds

/-- **`expr_plus_constant`** may be called on an expression that others share. -/
theorem exprPlusConstant_advances (hok : Ok (p ::ₘ held) h) (hd : ∃ t, Denotes h.nodes p t)
    (c : Word) :
    ∃ p' h', h.exprPlusConstant p c = some (p', h') ∧ Advances held h p (fun _ => c) h' p' := by
  obtain ⟨t, hd⟩ := hd
  obtain ⟨n, hn⟩ := hd.node
  have hnode : h.node p = some n := hn
  have hgeneral := exprPlusConstant_general hok hd c
  simp only [exprPlusConstant, hnode, Option.bind_eq_bind, Option.bind_some]
  split
  · next x r =>
      obtain ⟨_, ty, rfl, -, hy⟩ := hd.of_binop hn
      obtain ⟨nr, hnr⟩ := hy.node
      have hr : h.node r = some nr := hnr
      simp only [hr, Option.bind_some]
      split
      · next v hv => exact addInPlace_advances hok hnode (Node.const?_eq_some.mp hv ▸ hr) hd c
      · exact hgeneral
  · exact hgeneral

/-- `expr_asgop` in the general way. -/
theorem exprAsgPlus_general (hok : Ok (p ::ₘ held) h) (hd : Denotes h.nodes p t) (he : e ∈ held)
    (hde : Denotes h.nodes e t1) :
    ∃ p' h', exprAsgPlus.general p e h = some (p', h') ∧
      Advances held h p (fun ρ => t1.value ρ true) h' p' := by
  have hle : {p, e} ≤ p ::ₘ held := by
    rw [Multiset.insert_eq_cons]
    exact (Multiset.cons_le_cons_iff p).mpr (Multiset.singleton_le.mpr he)
  obtain ⟨p', h₁, t', hcall, hm, hd', hsame⟩ := plus_spec hok hle hd hde
  have hheld := hm.ok
  rw [Multiset.cons_swap] at hheld
  obtain ⟨h₂, hfree, hr⟩ := hheld.free
  refine ⟨p', h₂, by simp [exprAsgPlus.general, hcall, hfree], hr.ok, fun u hu => ⟨t', ?_, fun ρ => ?_⟩,
    ?_⟩
  · exact hd'.kept hm.ok.nodes hr.ok.nodes hr.kept (hr.ok.nodes.live (Multiset.mem_cons_self _ _))
      fun _ _ => Set.notMem_empty _
  · obtain rfl := hd.unique hu
    rw [hsame ρ true, Expr.value_plus]
  · refine undisturbed_of_kept hok hr.ok (hm.kept.trans (hr.kept.mono (Set.empty_subset _)))
      (Multiset.subset_cons _ _) ?_
    rintro b hb a hreach ⟨rfl, hone⟩
    have hne : b ≠ a := fun heq => hok.notMem_sole hone (heq ▸ hb)
    exact not_reaches_sole hok (Multiset.mem_cons_self _ _) hone
      (hok.nodes.live (Multiset.mem_cons_of_mem hb)) hne hreach rfl

/-- **`expr_asgop`** for a sum may be called on an expression that others share. -/
theorem exprAsgPlus_advances (hok : Ok (p ::ₘ held) h) (hd : Denotes h.nodes p t) (he : e ∈ held)
    (hde : Denotes h.nodes e t1) :
    ∃ p' h', h.exprAsgPlus p e = some (p', h') ∧
      Advances held h p (fun ρ => t1.value ρ true) h' p' := by
  obtain ⟨n, hn⟩ := hd.node
  obtain ⟨ne, hne⟩ := hde.node
  have hnode : h.node p = some n := hn
  have hnodee : h.node e = some ne := hne
  have hgeneral := exprAsgPlus_general hok hd he hde
  simp only [exprAsgPlus, hnode, hnodee, Option.bind_eq_bind, Option.bind_some]
  split
  · next x r =>
      obtain ⟨_, ty, rfl, -, hy⟩ := hd.of_binop hn
      obtain ⟨nr, hnr⟩ := hy.node
      have hr : h.node r = some nr := hnr
      simp only [hr, Option.bind_some]
      split
      · next v d hv hc =>
          obtain rfl := hde.unique (.const (Node.const?_eq_some.mp hc ▸ hnodee))
          exact addInPlace_advances hok hnode (Node.const?_eq_some.mp hv ▸ hr) hd d
      · exact hgeneral
  · exact hgeneral

/-! ### Glueing -/

/-- `expr_binop_owned` of a node that is new, or that is held by others too. -/
theorem plusOwned_made (hok : Ok (e1 ::ₘ e2 ::ₘ held) h) (hk : Memory.Kept ∅ h₀.nodes h.nodes)
    (hd1 : Denotes h.nodes e1 t1) (hd2 : Denotes h.nodes e2 t2)
    (hfresh : h.nrefs e1 = 1 → h₀.nodes.next ≤ e1) :
    ∃ e h', h.exprBinopOwned .plus e1 e2 = some (e, h') ∧ Made ∅ held h₀ h' e ∧
      ∃ t, Denotes h'.nodes e t ∧ (Expr.binop .plus t1 t2).Same t := by
  have hheld : e1 ::ₘ e2 ::ₘ held = {e1, e2} + held := by
    rw [Multiset.insert_eq_cons, Multiset.cons_add, Multiset.singleton_add]
  have hle : {e1, e2} ≤ e1 ::ₘ e2 ::ₘ held := hheld ▸ Multiset.le_add_right _ _
  obtain ⟨e, h₁, t, hcall, hm, hd, hsame⟩ := plus_spec hok hle hd1 hd2
  obtain ⟨h₂, h₃, hf₁, hf₂, hr⟩ := free_both hm.ok hle
  rw [hheld, add_tsub_cancel_left] at hr
  have hk₁ : Memory.Kept ∅ h₀.nodes h₁.nodes := by
    refine hk.trans_fresh hm.kept ?_
    rintro a ⟨rfl, hone⟩
    exact hfresh hone
  refine ⟨e, h₃, by simp [exprBinopOwned, hcall, hf₁, hf₂],
    ⟨hr.ok, hk₁.trans hr.kept, hk.next.trans hm.fresh⟩, t, ?_, hsame⟩
  exact hd.kept hm.ok.nodes hr.ok.nodes hr.kept (hr.ok.nodes.live (Multiset.mem_cons_self _ _))
    fun _ _ => Set.notMem_empty _

/-- A member more in a new sum. -/
theorem append_made {v : List Addr} {el : ElemId} (hm : Made ∅ held h₀ h p)
    (hn : h.node p = some (.elsum v)) (he : h.nodes.Live e)
    (hel : h.node e = some (.element (some el))) :
    ∃ h', h.exprElsumAppend p e = some h' ∧ Made ∅ held h₀ h' p ∧
      h'.node p = some (.elsum (v ++ [e])) ∧ ∀ b, b ≠ p → h'.node b = h.node b := by
  have hs := Shared.one hm.ok he
  have hn₁ : (h.exprShare e).node p = some (.elsum v) := (hs.node p).trans hn
  have hswap : (e ::ₘ p ::ₘ held) + ↑(Node.elsum v).kids
      = (p ::ₘ held) + ↑(Node.elsum (v ++ [e])).kids := by
    refine Multiset.ext.mpr fun y => ?_
    simp only [Node.kids, Multiset.count_add, Multiset.count_cons, Multiset.coe_count,
      List.count_append, List.count_singleton, beq_iff_eq, eq_comm (a := e)]
    omega
  refine ⟨(h.exprShare e).assign p (.elsum (v ++ [e])), by simp [exprElsumAppend, hn, hel],
    ⟨hs.ok.assign (hs.live hm.live) hn₁ hswap fun _ => rfl, ?_, hm.fresh⟩, ?_, fun b hb => ?_⟩
  · exact (hm.kept.trans hs.kept).write (.inr hm.fresh)
  · exact (Memory.node_write hn₁).trans (if_pos rfl)
  · exact (Memory.node_write_ne hb).trans (hs.node b)

/-- A new sum of members that were there. -/
theorem Made.elsum {w : List Addr} {ts : List Expr} (hok : Ok held h) (hm : Made ∅ held h h' p)
    (hn : h'.node p = some (.elsum w)) (hlen : w.length = ts.length)
    (hw : ∀ q ∈ w.zip ts, Denotes h.nodes q.1 q.2) : Denotes h'.nodes p (.elsum ts) :=
  .elsum hn hlen fun q hq => hm.denotes hok (hw q hq)
    (hm.ok.node_live hm.live hn (List.of_mem_zip hq).1)

/-- What `expr_glue_element` comes back with: nothing, or a new expression with the element in it. -/
def Glued (held : Multiset Addr) (h : Heap) (t : Expr) (el : ElemId) (o : Option Addr) (h' : Heap) :
    Prop :=
  match o with
  | none => h' = h
  | some f => Made ∅ held h h' f ∧
      ∃ t', Denotes h'.nodes f t' ∧ ∀ ρ, t'.value ρ true = t.value ρ true + ρ.size el

section Glue

variable {temp : Addr} {el : ElemId}

/-- A sum is copied, and the element added to the copy. -/
theorem glue_elsum {v : List Addr} {ts : List Expr} (hok : Ok held h) (he : h.nodes.Live e)
    (hn : h.node e = some (.elsum v)) (hlen : v.length = ts.length)
    (hv : ∀ q ∈ v.zip ts, Denotes h.nodes q.1 q.2) (htemp : temp ∈ held)
    (ht : h.node temp = some (.element (some el))) :
    ∃ f h₁ h', (h.exprShare e).exprUnshare e = some (f, h₁) ∧
      h₁.exprElsumAppend f temp = some h' ∧ Glued held h (.elsum ts) el (some f) h' := by
  have hs := Shared.one hok he
  have hcount : (h.exprShare e).nrefs e = h.nrefs e + 1 := by
    simp [nrefs, exprShare, Memory.nrefs_share he]
  have hpos : 0 < h.nrefs e := he
  obtain ⟨f, h₁, hcall, hm, hf, -⟩ :=
    unshare_spec hs.ok (by omega) ((hs.node e).trans hn) (by simp)
  have hm₁ : Made ∅ held h h₁ f := ⟨hm.ok, hs.kept.trans hm.kept, hs.next.ge.trans hm.fresh⟩
  have htl : h₁.nodes.Live temp := hm.ok.nodes.live (Multiset.mem_cons_of_mem htemp)
  have ht₁ : h₁.node temp = some (.element (some el)) :=
    (hm₁.kept.node temp (hok.nodes.lt ht) (Set.notMem_empty _) htl).trans ht
  obtain ⟨h', happ, hm', hf', -⟩ := append_made hm₁ hf htl ht₁
  refine ⟨f, h₁, h', hcall, happ, hm', .elsum (ts ++ [.element el]),
    hm'.elsum hok hf' (by simp [hlen]) fun q hq => ?_, fun ρ => by simp⟩
  rw [List.zip_append hlen] at hq
  rcases List.mem_append.mp hq with hq | hq
  · exact hv q hq
  · obtain rfl : q = (temp, .element el) := by simpa using hq
    exact .element ht

/-- Two elements become a sum. -/
theorem glue_element {el' : ElemId} (hok : Ok held h) (he : h.nodes.Live e)
    (hn : h.node e = some (.element (some el'))) (htemp : temp ∈ held)
    (ht : h.node temp = some (.element (some el))) :
    ∃ h₁ h', (h.exprAlloc (.elsum [])).2.exprElsumAppend (h.exprAlloc (.elsum [])).1 e = some h₁ ∧
      h₁.exprElsumAppend (h.exprAlloc (.elsum [])).1 temp = some h' ∧
      Glued held h (.element el') el (some (h.exprAlloc (.elsum [])).1) h' := by
  have hself : Shared (↑(Node.elsum []).kids + held) h h :=
    ⟨by simpa [Node.kids] using hok, rfl, fun _ => rfl, fun _ => le_rfl, .refl _⟩
  have hm := made_alloc hself fun _ => rfl
  have hnew := node_alloc_self (h := h) (.elsum [])
  have hlt := hok.lt he
  have hn₀ : (h.exprAlloc (.elsum [])).2.node e = some (.element (some el')) :=
    (node_alloc_of_lt hlt).trans hn
  have hl₀ : (h.exprAlloc (.elsum [])).2.nodes.Live e := by
    unfold Memory.Live
    exact lt_of_lt_of_eq he (nrefs_alloc_of_lt hlt).symm
  obtain ⟨h₁, happ₁, hm₁, hf₁, hsame₁⟩ := append_made hm hnew hl₀ hn₀
  have htl : h₁.nodes.Live temp := hm₁.ok.nodes.live (Multiset.mem_cons_of_mem htemp)
  have ht₁ : h₁.node temp = some (.element (some el)) :=
    (hm₁.kept.node temp (hok.nodes.lt ht) (Set.notMem_empty _) htl).trans ht
  obtain ⟨h', happ, hm', hf', -⟩ := append_made hm₁ hf₁ htl ht₁
  refine ⟨h₁, h', happ₁, happ, hm', .elsum [.element el', .element el],
    hm'.elsum hok hf' (by simp) fun q hq => ?_, fun ρ => by simp⟩
  obtain rfl | rfl : q = (e, .element el') ∨ q = (temp, .element el) := by simpa using hq
  · exact .element hn
  · exact .element ht

/-- An operand with the element in it is added to the other, which has to be shared for it. -/
theorem glue_operand {f a : Addr} {h₁ : Heap} {ta u : Expr} (hok : Ok held h)
    (hm : Made ∅ held h h₁ f) (hu : Denotes h₁.nodes f u) (ha : Denotes h.nodes a ta)
    (hal : h₁.nodes.Live a) :
    Denotes (h₁.exprShare a).nodes f u ∧ Denotes (h₁.exprShare a).nodes a ta ∧
      Ok (a ::ₘ f ::ₘ held) (h₁.exprShare a) ∧
      Memory.Kept ∅ h.nodes (h₁.exprShare a).nodes := by
  have hs := Shared.one hm.ok hal
  have hkept : Memory.Kept ∅ h.nodes (h₁.exprShare a).nodes := hm.kept.trans hs.kept
  have hfar : ∀ b c, Reaches h.nodes b c → c ∉ (∅ : Set Nat) := fun _ _ _ => Set.notMem_empty _
  exact ⟨hu.kept hm.ok.nodes hs.ok.nodes hs.kept (hs.live hm.live) fun _ _ => Set.notMem_empty _,
    ha.kept hok.nodes hs.ok.nodes hkept (hs.live hal) (hfar a), hs.ok, hkept⟩

/-- **`expr_glue_element`** makes new nodes only; the recursion ends for want of fuel or of an
element. -/
theorem exprGlueElement_spec (fuel : Nat) (hok : Ok held h)
    (hreach : ∃ b ∈ held, Reaches h.nodes b e) (hd : Denotes h.nodes e t) (htemp : temp ∈ held)
    (ht : h.node temp = some (.element (some el))) :
    (h.exprGlueElement temp fuel e = none ∧ fuel < sizeOf t) ∨
      ∃ o h', h.exprGlueElement temp fuel e = some (o, h') ∧ Glued held h t el o h' := by
  induction fuel generalizing e t with
  | zero => exact .inl ⟨rfl, by cases t <;> simp⟩
  | succ fuel ih =>
      obtain ⟨b, hb, hbe⟩ := hreach
      have he : h.nodes.Live e := live_of_reaches hok hb hbe
      cases hd with
      | const hn | name hn | unop hn _ | range hn =>
          have hnode : h.node e = some _ := hn
          exact .inr ⟨none, h, by simp [Heap.exprGlueElement, hnode], rfl⟩
      | element hn =>
          have hnode : h.node e = some _ := hn
          obtain ⟨h₁, h', happ₁, happ, hg⟩ := glue_element hok he hnode htemp ht
          exact .inr ⟨_, h', by simp [Heap.exprGlueElement, hnode, happ₁, happ], hg⟩
      | elsum hn hlen hv =>
          have hnode : h.node e = some _ := hn
          obtain ⟨f, h₁, h', hcall, happ, hg⟩ := glue_elsum hok he hnode hlen hv htemp ht
          exact .inr ⟨some f, h', by simp [Heap.exprGlueElement, hnode, hcall, happ], hg⟩
      | @binop _ l r op tl tr hn hl hr =>
          have hnode : h.node e = some (.binop op l r) := hn
          by_cases hop : op = .plus
          · subst hop
            have hbl : Reaches h.nodes b l := hbe.tail ⟨_, hn, by simp [Node.kids]⟩
            have hbr : Reaches h.nodes b r := hbe.tail ⟨_, hn, by simp [Node.kids]⟩
            have hkept : ∀ {f h₁ a}, Made ∅ held h h₁ f → Reaches h.nodes b a →
                h₁.nodes.Live a := fun hm hr =>
              live_of_kept hok hm.ok hm.kept (hm.ok.nodes.live (Multiset.mem_cons_of_mem hb)) hr
                fun _ _ => Set.notMem_empty _
            have hsize : sizeOf (Expr.binop .plus tl tr) = 1 + sizeOf BinTag.plus + sizeOf tl +
              sizeOf tr := Expr.binop.sizeOf_spec ..
            rcases ih ⟨b, hb, hbl⟩ hl with ⟨hnone, hlt⟩ | ⟨o, h₁, hcall, hg⟩
            · exact .inl ⟨by simp [Heap.exprGlueElement, hnode, hnone], by omega⟩
            · rcases o with _ | f
              · obtain rfl : h₁ = h := hg
                rcases ih ⟨b, hb, hbr⟩ hr with ⟨hnone, hlt⟩ | ⟨o, h₂, hcall₂, hg₂⟩
                · exact .inl ⟨by simp [Heap.exprGlueElement, hnode, hcall, hnone], by omega⟩
                · rcases o with _ | f
                  · obtain rfl : h₂ = h₁ := hg₂
                    exact .inr ⟨none, h₂, by
                      simp [Heap.exprGlueElement, hnode, hcall, hcall₂], rfl⟩
                  · obtain ⟨hm, u, hu, hvalue⟩ := hg₂
                    have hll := hkept hm hbl
                    obtain ⟨hu', hl', hok', hk'⟩ := glue_operand hok hm hu hl hll
                    -- `l` is held here and referred to by `e`
                    have hmany : (h₂.exprShare l).nrefs l ≠ 1 := by
                      intro hone
                      have hel := (Shared.one hm.ok hll).live (hkept hm hbe)
                      have hn' := (hk'.node e (hok.nodes.lt hn) (Set.notMem_empty _) hel).trans hn
                      exact hok'.nodes.sole (Multiset.mem_cons_self _ _) hone hel hn'
                        (by simp [Node.kids])
                    obtain ⟨g, h₃, hbin, hm', w, hw, hsame⟩ :=
                      plusOwned_made hok' hk' hl' hu' fun hone => absurd hone hmany
                    refine .inr ⟨some g, h₃, by
                      simp [Heap.exprGlueElement, hnode, hcall, hcall₂, hbin], hm', w, hw,
                      fun ρ => ?_⟩
                    rw [hsame ρ true, Expr.value_plus, Expr.value_plus, hvalue, add_assoc]
              · obtain ⟨hm, u, hu, hvalue⟩ := hg
                obtain ⟨hu', hr', hok', hk'⟩ := glue_operand hok hm hu hr (hkept hm hbr)
                have hswap := hok'
                rw [Multiset.cons_swap] at hswap
                obtain ⟨g, h₂, hbin, hm', w, hw, hsame⟩ :=
                  plusOwned_made hswap hk' hu' hr' fun _ => hm.fresh
                refine .inr ⟨some g, h₂, by simp [Heap.exprGlueElement, hnode, hcall, hbin],
                  hm', w, hw, fun ρ => ?_⟩
                rw [hsame ρ true, Expr.value_plus, Expr.value_plus, hvalue, add_right_comm]
          · exact .inr ⟨none, h, by cases op <;> simp_all [Heap.exprGlueElement], rfl⟩

end Glue

/-! ### `expr_plus_element` -/

/-- **`expr_plus_element`** may be called on an expression that others share, and `fuel` that is
enough for the depth of the expression is enough for it. -/
theorem exprPlusElement_advances (hok : Ok (p ::ₘ held) h) (hd : Denotes h.nodes p t) (fuel : Nat)
    (el : ElemId) (size : Expr) :
    (h.exprPlusElement fuel p el size = none ∧ fuel < sizeOf t) ∨
      ∃ p' h', h.exprPlusElement fuel p el size = some (p', h') ∧
        Advances held h p (fun ρ => size.const?.getD (ρ.size el)) h' p' := by
  unfold exprPlusElement
  rcases size.const? with _ | c
  · have hm := made_element hok el
    have ht : (h.exprElement el).2.node (h.exprElement el).1 = some (.element (some el)) :=
      node_alloc_self _
    have hheld : p ∈ h.nodes.next ::ₘ p ::ₘ held := by simp
    have hd₁ : Denotes (h.exprElement el).2.nodes p t :=
      hm.denotes hok hd (hm.ok.nodes.live hheld)
    have hsub : p ::ₘ held ⊆ h.nodes.next ::ₘ p ::ₘ held := Multiset.subset_cons _ _
    rcases exprGlueElement_spec fuel hm.ok ⟨p, hheld, .refl⟩ hd₁
      (Multiset.mem_cons_self _ _) ht with ⟨hnone, hlt⟩ | ⟨o, h₂, hcall, hg⟩
    · exact .inl ⟨by simp [hnone], hlt⟩
    · rcases o with _ | f
      · obtain rfl : h₂ = (h.exprElement el).2 := hg
        have hswap := hm.ok
        rw [Multiset.cons_swap] at hswap
        obtain ⟨p', h₃, hasg, ha⟩ :=
          exprAsgPlus_advances hswap hd₁ (Multiset.mem_cons_self _ _) (.element ht)
        obtain ⟨h₄, hfree, ha⟩ := ha.free
        refine .inr ⟨p', h₄, by simp [hcall, hasg, hfree], ?_⟩
        have hadds := ha.after hok hm.ok hsub hm.kept
        simpa only [Expr.value_element, Option.getD_none] using hadds
      · obtain ⟨hmade, u, hu, hvalue⟩ := hg
        have hheld' : f ::ₘ (h.exprElement el).1 ::ₘ p ::ₘ held
            = p ::ₘ (h.exprElement el).1 ::ₘ f ::ₘ held := by
          rw [Multiset.cons_swap _ p, Multiset.cons_swap f p, Multiset.cons_swap f]
        obtain ⟨h₃, hf₃, hr₃⟩ := (hheld' ▸ hmade.ok).free
        obtain ⟨h₄, hf₄, hr₄⟩ := hr₃.ok.free
        have hk : Memory.Kept ∅ h₂.nodes h₄.nodes := hr₃.kept.trans hr₄.kept
        refine .inr ⟨f, h₄, by simp [hcall, hf₃, hf₄], hr₄.ok, fun t' ht' => ⟨u, ?_, fun ρ => ?_⟩, ?_⟩
        · exact hu.kept hmade.ok.nodes hr₄.ok.nodes hk
            (hr₄.ok.nodes.live (Multiset.mem_cons_self _ _)) fun _ _ => Set.notMem_empty _
        · obtain rfl := hd.unique ht'
          exact hvalue ρ
        · exact undisturbed_of_kept hok hr₄.ok ((hm.kept.trans hmade.kept).trans hk)
            (Multiset.subset_cons _ _) fun _ _ _ _ => Set.notMem_empty _
  · obtain ⟨p', h', hcall, ha⟩ := exprPlusConstant_advances hok ⟨t, hd⟩ c
    exact .inr ⟨p', h', hcall, ha⟩

/-! ### The other callers -/

section Adds

/-- There is one more reference, to an expression; the other holders see no difference. -/
structure Adds (held : Multiset Addr) (h h' : Heap) (e : Addr) : Prop where
  ok : Ok (e ::ₘ held) h'
  tree : ∃ t, Denotes h'.nodes e t
  others : Undisturbed held h h'

/-- A node whose operands have been shared for it. -/
theorem node_spec {n : Node} (hok : Ok (↑n.kids + held) h) (hel : ∀ el, n.toElement el = 0) :
    Ok ((h.exprAlloc n).1 ::ₘ held) (h.exprAlloc n).2 ∧ Undisturbed held h (h.exprAlloc n).2 ∧
      ∀ b ∈ n.kids, ∀ t, Denotes h.nodes b t → Denotes (h.exprAlloc n).2.nodes b t := by
  have hok' : Ok ((h.exprAlloc n).1 ::ₘ held) (h.exprAlloc n).2 := hok.alloc hel
  have hread : ∀ b t, (h.exprAlloc n).2.nodes.Live b → Denotes h.nodes b t →
      Denotes (h.exprAlloc n).2.nodes b t := fun b t hb ht =>
    ht.kept hok.nodes hok'.nodes (.alloc n) hb fun _ _ => Set.notMem_empty _
  refine ⟨hok', fun b hb t ht => ?_, fun b hb t ht => ?_⟩
  · exact ⟨t, hread b t (hok'.nodes.live (Multiset.mem_cons_of_mem hb)) ht, fun _ _ => rfl⟩
  · exact hread b t (hok'.node_live (hok'.nodes.live (Multiset.mem_cons_self _ _))
      (node_alloc_self n) hb) ht

theorem Adds.leaf (hok : Ok held h) {n : Node} (hkids : n.kids = [])
    (hel : ∀ el, n.toElement el = 0)
    (ht : ∀ m a, Memory.node m a = some n → ∃ t, Denotes m a t) :
    Adds held h (h.exprAlloc n).2 (h.exprAlloc n).1 :=
  have hspec := leaf_spec hok hkids hel
  ⟨hspec.1, ht _ _ (node_alloc_self n), hspec.2⟩

theorem Adds.share (hok : Ok held h) (he : e ∈ held) (hd : ∃ t, Denotes h.nodes e t) :
    Adds held h (h.exprShare e) e := by
  obtain ⟨hok', hu⟩ := share_spec hok (hok.nodes.live he)
  obtain ⟨t, ht⟩ := hd
  obtain ⟨t', ht', -⟩ := hu e he t ht
  exact ⟨hok', ⟨t', ht'⟩, hu⟩

/-- `expr_unop`. -/
theorem exprUnop_adds (hok : Ok held h) (he : e ∈ held) (hd : Denotes h.nodes e t) (op : UnTag) :
    ∃ f h', h.exprUnop op e = some (f, h') ∧ Adds held h h' f := by
  obtain ⟨hok₁, hu₁⟩ := share_spec hok (hok.nodes.live he)
  obtain ⟨t₁, ht₁, -⟩ := hu₁ e he t hd
  unfold exprUnop
  split
  · obtain ⟨hok₂, hu₂⟩ := leaf_spec hok₁ (n := .const 0) rfl fun _ => rfl
    obtain ⟨t₂, ht₂, -⟩ := hu₂ e (Multiset.mem_cons_self _ _) t₁ ht₁
    obtain ⟨f, h', hcall, hok', ⟨t', ht', -⟩, hu'⟩ := exprBinopOwned_spec hok₂
      (.const (node_alloc_self _)) ht₂
      (not_aborts (show BinTag.minus ≠ .quest by decide) (by decide) (by decide) (by decide))
    exact ⟨f, h', hcall, hok', ⟨t', ht'⟩,
      (hu₁.trans (hu₂.mono (Multiset.subset_cons _ _))).trans hu'⟩
  · obtain ⟨n, hn⟩ := hd.node
    have hnode : h.node e = some n := hn
    rcases hc : n.const? with _ | c
    · have hkids : Ok (↑(Node.unop op e).kids + held) (h.exprShare e) := by
        simpa [Node.kids] using hok₁
      obtain ⟨hok', hu', hkid⟩ := node_spec hkids fun _ => rfl
      exact ⟨_, _, by simp [hnode, hc], hok',
        ⟨_, .unop (node_alloc_self _) (hkid e (by simp [Node.kids]) t₁ ht₁)⟩, hu₁.trans hu'⟩
    · exact ⟨_, _, by simp only [hnode, hc, Option.bind_eq_bind, Option.bind_some],
        .leaf hok (n := .const (evalUn op c)) rfl (fun _ => rfl) fun _ _ h => ⟨_, .const h⟩⟩

/-- A node with two operands, which are shared. -/
theorem exprPair_adds (hok : Ok held h) (op : BinTag) (he1 : e1 ∈ held) (he2 : e2 ∈ held)
    (hd1 : Denotes h.nodes e1 t1) (hd2 : Denotes h.nodes e2 t2) :
    Adds held h (h.exprPair op e1 e2).2 (h.exprPair op e1 e2).1 := by
  obtain ⟨hm, hn⟩ := pair_spec op hok (hok.nodes.live he1) (hok.nodes.live he2)
  have hlive : ∀ b ∈ held, (h.exprPair op e1 e2).2.nodes.Live b := fun b hb =>
    hm.ok.nodes.live (Multiset.mem_cons_of_mem hb)
  exact ⟨hm.ok, ⟨_, .binop hn (hm.denotes hok hd1 (hlive _ he1)) (hm.denotes hok hd2 (hlive _ he2))⟩,
    undisturbed_of_kept hok hm.ok hm.kept (Multiset.subset_cons _ _) fun _ _ _ _ =>
      Set.notMem_empty _⟩

/-- `expr_questop`. -/
theorem exprQuestop_adds (hok : Ok held h) {cond iftrue ifnot : Addr}
    (hle : {cond, iftrue, ifnot} ≤ held) (htree : ∀ b ∈ held, ∃ t, Denotes h.nodes b t) :
    ∃ f h', h.exprQuestop cond iftrue ifnot = some (f, h') ∧ Adds held h h' f := by
  have hcond : cond ∈ held := Multiset.mem_of_le hle (by simp)
  have htrue : iftrue ∈ held := Multiset.mem_of_le hle (by simp)
  have hnot : ifnot ∈ held := Multiset.mem_of_le hle (by simp)
  obtain ⟨tc, htc⟩ := htree cond hcond
  obtain ⟨t1, ht1⟩ := htree iftrue htrue
  obtain ⟨t2, ht2⟩ := htree ifnot hnot
  obtain ⟨n, hn⟩ := htc.node
  have hnode : h.node cond = some n := hn
  simp only [exprQuestop, hnode, Option.bind_eq_bind, Option.bind_some]
  rcases hc : n.const? with _ | c
  · obtain ⟨hok₁, ⟨tcolon, htcolon⟩, hu₁⟩ := exprPair_adds hok .colon htrue hnot ht1 ht2
    obtain ⟨tc₁, htc₁, -⟩ := hu₁ cond hcond tc htc
    have hmem : cond ∈ (h.exprPair .colon iftrue ifnot).1 ::ₘ held := Multiset.mem_cons_of_mem hcond
    obtain ⟨hok₂, hu₂⟩ := share_spec hok₁ (hok₁.nodes.live hmem)
    obtain ⟨tc₂, htc₂, -⟩ := hu₂ cond hmem tc₁ htc₁
    obtain ⟨tcolon₂, htcolon₂, -⟩ := hu₂ _ (Multiset.mem_cons_self _ _) tcolon htcolon
    rw [Multiset.cons_swap, ← kids_binop .quest] at hok₂
    obtain ⟨hok', hu', hkid⟩ := node_spec hok₂ fun _ => rfl
    exact ⟨_, _, rfl, hok', ⟨_, .binop (node_alloc_self _) (hkid _ (by simp [Node.kids]) _ htc₂)
        (hkid _ (by simp [Node.kids]) _ htcolon₂)⟩,
      (hu₁.trans (hu₂.mono (Multiset.subset_cons _ _))).trans hu'⟩
  · refine ⟨_, _, rfl, ?_⟩
    split
    · exact .share hok htrue ⟨t1, ht1⟩
    · exact .share hok hnot ⟨t2, ht2⟩

/-- `expr_binop` where it does not write into its first operand. -/
theorem exprBinop_adds {op : BinTag} (hok : Ok held h) (he1 : e1 ∈ held) (he2 : e2 ∈ held)
    (hd1 : Denotes h.nodes e1 t1) (hd2 : Denotes h.nodes e2 t2) (hab : ¬h.Aborts op e1 e2)
    (hop : op ≠ .plus) : ∃ f h', h.exprBinop op e1 e2 = some (f, h') ∧ Adds held h h' f := by
  obtain ⟨f, h', t, hcall, hm, hd, -⟩ := exprBinop_spec hok (hok.nodes.live he1)
    (hok.nodes.live he2) hd1 hd2 hab fun _ _ _ hlift => hop hlift.1
  exact ⟨f, h', hcall, hm.ok, ⟨t, hd⟩, undisturbed_of_kept hok hm.ok hm.kept
    (Multiset.subset_cons _ _) fun _ _ _ _ => Set.notMem_empty _⟩

end Adds

end Heap

namespace Request

open Heap

variable {held others : Multiset Addr} {h h' : Heap}

/-- The calls that write into no node but those whose references they consume. -/
def Owned : Request → Prop
  | .append _ _ | .binop .borrowed .plus _ _ => False
  | _ => True

/-- What a call leaves, `others` being the references of the caller. -/
structure Leaves (held others : Multiset Addr) (h : Heap) (c : Request) (e : Option Addr)
    (h' : Heap) : Prop where
  ok : Ok (held + c.after others e) h'
  tree : ∀ b ∈ c.after others e, b ∈ others - c.taken ∨ ∃ t, Denotes h'.nodes b t
  undisturbed : Undisturbed (held + (others - c.taken)) h h'

/-- A call that consumes nothing and returns a reference. -/
theorem leaves_made {c : Request} {e : Addr} (hc : c.taken = 0)
    (ha : Adds (held + others) h h' e) : Leaves held others h c (some e) h' := by
  have hafter : c.after others (some e) = e ::ₘ others := after_some hc
  refine ⟨?_, fun b hb => ?_, by rw [hc, tsub_zero]; exact ha.others⟩
  · rw [hafter, Multiset.add_cons]
    exact ha.ok
  · rw [hafter] at hb
    rw [hc, tsub_zero]
    exact (Multiset.mem_cons.mp hb).elim (fun heq => .inr (heq ▸ ha.tree)) .inl

/-- A call that returns a reference in the place of those it consumes. -/
theorem leaves_owned {c : Request} {e : Addr} {left : Multiset Addr} (hc : others = c.taken + left)
    (ha : Adds (held + left) h h' e) : Leaves held others h c (some e) h' := by
  have hleft : others - c.taken = left := by rw [hc, add_tsub_cancel_left]
  have hafter : c.after others (some e) = e ::ₘ left := by
    rw [after, hleft, Option.toList_some, Multiset.coe_singleton, add_comm,
      Multiset.singleton_add]
  refine ⟨?_, fun b hb => ?_, by rw [hleft]; exact ha.others⟩
  · rw [hafter, Multiset.add_cons]
    exact ha.ok
  · rw [hafter] at hb
    rw [hleft]
    exact (Multiset.mem_cons.mp hb).elim (fun heq => .inr (heq ▸ ha.tree)) .inl

/-- **A call with references of its own** leaves all the others as they were. -/
theorem exec_leaves {c : Request} (hok : Ok (held + others) h)
    (htree : ∀ b ∈ held + others, ∃ t, Denotes h.nodes b t) (hc : c.Owned)
    (hg : c.Given others h) : ∃ e h', c.exec h = some (e, h') ∧ Leaves held others h c e h' := by
  obtain ⟨hle, hgiven⟩ := hg
  have hmem : ∀ b ∈ c.args, b ∈ held + others := fun b hb =>
    Multiset.mem_add.mpr (.inr (Multiset.mem_of_le hle hb))
  -- a call that consumes nothing
  have hmade : ∀ {r : Option (Addr × Heap)}, c.taken = 0 → c.exec h = r.map (Prod.map some id) →
      (∃ e h', r = some (e, h') ∧ Adds (held + others) h h' e) →
      ∃ e h', c.exec h = some (e, h') ∧ Leaves held others h c e h' := by
    rintro r htaken hexec ⟨e, h', rfl, ha⟩
    exact ⟨some e, h', hexec, leaves_made htaken ha⟩
  cases c with
  | const c =>
      exact hmade (r := some _) rfl rfl
        ⟨_, _, rfl, .leaf hok rfl (fun _ => rfl) fun _ _ h => ⟨_, .const h⟩⟩
  | name np =>
      exact hmade (r := some _) rfl rfl
        ⟨_, _, rfl, .leaf hok rfl (fun _ => rfl) fun _ _ h => ⟨_, .name h⟩⟩
  | range lo hi =>
      exact hmade (r := some _) rfl rfl
        ⟨_, _, rfl, .leaf hok rfl (fun _ => rfl) fun _ _ h => ⟨_, .range h⟩⟩
  | elsum =>
      exact hmade (r := some _) rfl rfl
        ⟨_, _, rfl, .leaf hok rfl (fun _ => rfl) fun _ _ h => ⟨.elsum [], .elsum h rfl (by simp)⟩⟩
  | element el =>
      have hm := made_element hok el
      exact hmade (r := some _) rfl rfl ⟨_, _, rfl, hm.ok, ⟨_, .element (node_alloc_self _)⟩,
        undisturbed_of_kept hok hm.ok hm.kept (Multiset.subset_cons _ _) fun _ _ _ _ =>
          Set.notMem_empty _⟩
  | share e =>
      have he := hmem e (by simp [args])
      exact hmade (r := some _) rfl rfl ⟨_, _, rfl, .share hok he (htree e he)⟩
  | free e =>
      obtain ⟨left, rfl⟩ := Multiset.le_iff_exists_add.mp hle
      have hheld : held + ((free e).args + left) = e ::ₘ (held + left) := by
        rw [args, Multiset.singleton_add, Multiset.add_cons]
      obtain ⟨h', hcall, hok', hu⟩ := free_spec (hheld ▸ hok)
      have hafter : (free e).after ((free e).args + left) none = left := by
        rw [after, show taken (.free e) = args (.free e) from rfl, add_tsub_cancel_left]
        exact add_zero left
      refine ⟨none, h', by simp [exec, hcall], by rwa [hafter], fun b hb => .inl ?_, ?_⟩
      · rw [hafter] at hb
        rwa [show taken (.free e) = args (.free e) from rfl, add_tsub_cancel_left]
      · rwa [show taken (.free e) = args (.free e) from rfl, add_tsub_cancel_left]
  | unshare e =>
      obtain ⟨left, rfl⟩ := Multiset.le_iff_exists_add.mp hle
      have hheld : held + ((unshare e).args + left) = e ::ₘ (held + left) := by
        rw [args, Multiset.singleton_add, Multiset.add_cons]
      obtain ⟨t, ht⟩ := htree e (hmem e (by simp [args]))
      have hok₁ := hheld ▸ hok
      by_cases h1 : 1 < h.nrefs e
      · obtain ⟨f, h', hcall, hm, ht'⟩ := unshare_made hok₁ h1 ht
        refine ⟨some f, h', by simp [exec, hcall], leaves_owned rfl ⟨hm.ok, ⟨t, ht'⟩, ?_⟩⟩
        exact undisturbed_of_kept hok₁ hm.ok hm.kept (Multiset.subset_cons _ _)
          fun _ _ _ _ => Set.notMem_empty _
      · obtain ⟨n, hn⟩ := ht.node
        have hnode : h.node e = some n := hn
        exact ⟨some e, h, by simp [exec, exprUnshare, hnode, h1],
          leaves_owned rfl ⟨hok₁, ⟨t, ht⟩, .refl _ _⟩⟩
  | unop op e =>
      have he := hmem e (by simp [args])
      obtain ⟨t, ht⟩ := htree e he
      exact hmade rfl rfl (exprUnop_adds hok he ht op)
  | questop cond iftrue ifnot =>
      exact hmade rfl rfl (exprQuestop_adds hok (hle.trans (Multiset.le_add_left _ _)) htree)
  | append e eel => exact hc.elim
  | binop k op e1 e2 =>
      have he1 := hmem e1 (by simp [args])
      have he2 := hmem e2 (by simp [args])
      obtain ⟨t1, h1⟩ := htree e1 he1
      obtain ⟨t2, h2⟩ := htree e2 he2
      cases k with
      | borrowed =>
          have hop : op ≠ .plus := by
            rintro rfl
            exact hc
          exact hmade rfl rfl (exprBinop_adds hok he1 he2 h1 h2 hgiven hop)
      | owned =>
          obtain ⟨left, rfl⟩ := Multiset.le_iff_exists_add.mp hle
          have hheld : held + ((binop .owned op e1 e2).args + left) = e1 ::ₘ e2 ::ₘ (held + left) := by
            rw [args, Multiset.insert_eq_cons, Multiset.cons_add, Multiset.singleton_add,
              Multiset.add_cons, Multiset.add_cons]
          obtain ⟨e, h', hcall, hok', ⟨t, ht, -⟩, hu⟩ :=
            exprBinopOwned_spec (hheld ▸ hok) h1 h2 hgiven
          exact ⟨some e, h', by simp [exec, Calling.call, hcall],
            leaves_owned rfl ⟨hok', ⟨t, ht⟩, hu⟩⟩

end Request

end Ttools
