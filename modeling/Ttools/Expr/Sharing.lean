import Ttools.Expr.Heap

/-!
# What building an expression does to the others

`expr_binop` folds a constant into an operand and lifts one out of an operand.  The first copies
the nodes it changes; the second writes into the node of `x + C` when its `nrefs` is 1, which says
that one holder has it, not that the holder gave it away.

`Calling` is the convention of the call: `expr_binop` borrows its operands, `expr_binop_owned` takes
a reference to each.  `Calling.Frames` says what is expected of both.

* `Denotes.kept`, `Denotes.revalue`: the trees after a change of some nodes.
* `exprBinop_spec`: `expr_binop` on nodes makes the tree that `Ttools.exprBinop` makes.
* `exprBinop_lift`: the branch that writes into `e1`.
* `constructor_frames_iff`: when a call keeps to what is expected.
-/

namespace Ttools

open Support

/-- The same value at every valuation. -/
def Expr.Same (t t' : Expr) : Prop := ∀ (ρ : Valuation) (s : Bool), t'.value ρ s = t.value ρ s

namespace Denotes

variable {m m' : Memory Node} {S : Set Nat} {held held' : Multiset Addr} {a x : Addr} {t : Expr}

/-- A tree is still read where it was when none of its nodes is in `S`. -/
theorem kept (h : Denotes m a t) (hc : m.Counted Node.kids held) (hc' : m'.Counted Node.kids held')
    (hk : Memory.Kept S m m') (ha : m'.Live a) (hS : ∀ b, Reaches m a b → b ∉ S) :
    Denotes m' a t := by
  refine h.transport (P := fun b => m'.Live b ∧ Reaches m a b) ⟨ha, .refl⟩ ?_ ?_
  · rintro b n ⟨hl, hr⟩ hn
    rw [hk.node b (hc.lt hn) (hS b hr) hl, hn]
  · rintro b c ⟨hl, hr⟩ ⟨n, hn, hmem⟩
    have hn' : m'.node b = some n := by rw [hk.node b (hc.lt hn) (hS b hr) hl, hn]
    exact ⟨hc'.kid_live hl hn' hmem, hr.tail ⟨n, hn, hmem⟩⟩

/-- The members of a sum, one by one. -/
theorem members : ∀ {v : List Addr} {ts : List Expr}, v.length = ts.length →
    (∀ p ∈ v.zip ts, ∃ u, Denotes m' p.1 u ∧ p.2.Same u) →
    ∃ us : List Expr, v.length = us.length ∧ (∀ p ∈ v.zip us, Denotes m' p.1 p.2) ∧
      ∀ ρ, Expr.values ρ us = Expr.values ρ ts
  | [], [], _, _ => ⟨[], rfl, by simp, fun _ => rfl⟩
  | b :: v, y :: ts, hlen, h => by
      obtain ⟨u, hu, hsame⟩ := h (b, y) (by simp)
      obtain ⟨us, hlen', hus, hvalues⟩ := members (Nat.succ.inj hlen)
        (fun p hp => h p (List.mem_cons_of_mem _ hp))
      refine ⟨u :: us, by simp [hlen'], ?_, fun ρ => by simp [hsame ρ true, hvalues ρ]⟩
      intro p hp
      rcases List.mem_cons.mp hp with rfl | hp
      · exact hu
      · exact hus p hp

/-- When the one node that was changed keeps its value, every node does. -/
theorem revalue (h : Denotes m a t) (hc : m.Counted Node.kids held)
    (hc' : m'.Counted Node.kids held') (hk : Memory.Kept {x} m m') (ha : m'.Live a)
    (hx : ∀ u, Denotes m x u → ∃ u', Denotes m' x u' ∧ u.Same u') :
    ∃ t', Denotes m' a t' ∧ t.Same t' := by
  have hself : ∀ {b u n}, Denotes m b u → m'.Live b → m.node b = some n →
      (∃ u', Denotes m' b u' ∧ u.Same u') ∨
        m'.node b = some n ∧ ∀ c ∈ n.kids, m'.Live c := by
    intro b u n hu hl hn
    by_cases hb : b = x
    · subst hb
      exact .inl (hx u hu)
    · have hn' : m'.node b = some n := by rw [hk.node b (hc.lt hn) hb hl, hn]
      exact .inr ⟨hn', fun c hmem => hc'.kid_live hl hn' hmem⟩
  induction h with
  | const h => 
      rcases hself (.const h) ha h with hdone | ⟨hn, -⟩
      · exact hdone
      · exact ⟨_, .const hn, fun _ _ => rfl⟩
  | name h =>
      rcases hself (.name h) ha h with hdone | ⟨hn, -⟩
      · exact hdone
      · exact ⟨_, .name hn, fun _ _ => rfl⟩
  | range h =>
      rcases hself (.range h) ha h with hdone | ⟨hn, -⟩
      · exact hdone
      · exact ⟨_, .range hn, fun _ _ => rfl⟩
  | element h =>
      rcases hself (.element h) ha h with hdone | ⟨hn, -⟩
      · exact hdone
      · exact ⟨_, .element hn, fun _ _ => rfl⟩
  | unop h hr ih =>
      rcases hself (.unop h hr) ha h with hdone | ⟨hn, hkids⟩
      · exact hdone
      · obtain ⟨y, hy, hsame⟩ := ih (hkids _ (by simp [Node.kids]))
        exact ⟨_, .unop hn hy, fun ρ s => by simp [hsame ρ]⟩
  | binop h hl hr ihl ihr =>
      rcases hself (.binop h hl hr) ha h with hdone | ⟨hn, hkids⟩
      · exact hdone
      · obtain ⟨y, hy, hysame⟩ := ihl (hkids _ (by simp [Node.kids]))
        obtain ⟨z, hz, hzsame⟩ := ihr (hkids _ (by simp [Node.kids]))
        exact ⟨_, .binop hn hy hz, fun ρ s => Expr.value_binop_congr s (hysame ρ) (hzsame ρ)⟩
  | @elsum b v ts h hlen hv ih =>
      rcases hself (.elsum h hlen hv) ha h with hdone | ⟨hn, hkids⟩
      · exact hdone
      · obtain ⟨ts', hlen', hv', hsame⟩ := members hlen
          (fun p hp => ih p hp (hkids _ (List.of_mem_zip hp).1))
        exact ⟨_, .elsum hn hlen' hv', fun ρ s => by simp [hsame ρ]⟩

end Denotes

namespace Heap

variable {held : Multiset Addr} {h h' : Heap} {e e1 e2 x r : Addr} {op : BinTag}

theorem Ok.node_live (hok : Ok held h) {a b : Addr} {n : Node} (ha : h.nodes.Live a)
    (hn : h.node a = some n) (hb : b ∈ n.kids) : h.nodes.Live b := hok.nodes.kid_live ha hn hb

/-! ### The steps of the constructors -/

/-- A call has made the node `e` for its caller; of the old nodes, only those in `S` may differ. -/
structure Made (S : Set Nat) (held : Multiset Addr) (h h' : Heap) (e : Addr) : Prop where
  ok : Ok (e ::ₘ held) h'
  kept : Memory.Kept S h.nodes h'.nodes
  fresh : h.nodes.next ≤ e

theorem Made.live {S : Set Nat} (hm : Made S held h h' e) : h'.nodes.Live e :=
  hm.ok.nodes.live (Multiset.mem_cons_self _ _)

/-- What sharing some nodes does: it only adds to the counts. -/
structure Shared (held : Multiset Addr) (h h' : Heap) : Prop where
  ok : Ok held h'
  next : h'.nodes.next = h.nodes.next
  node : ∀ b, h'.node b = h.node b
  more : ∀ b, h.nrefs b ≤ h'.nrefs b
  kept : Memory.Kept ∅ h.nodes h'.nodes

theorem Shared.one (hok : Ok held h) (he : h.nodes.Live e) :
    Shared (e ::ₘ held) h (h.exprShare e) where
  ok := hok.share he
  next := rfl
  node _ := Memory.node_share
  more b := by
    rw [nrefs, nrefs, exprShare, Memory.nrefs_share he]
    exact Nat.le_add_right _ _
  kept := .share he

theorem Shared.trans {held₁ held₂ : Multiset Addr} {h₁ h₂ h₃ : Heap} (h₁₂ : Shared held₁ h₁ h₂)
    (h₂₃ : Shared held₂ h₂ h₃) : Shared held₂ h₁ h₃ where
  ok := h₂₃.ok
  next := h₂₃.next.trans h₁₂.next
  node b := (h₂₃.node b).trans (h₁₂.node b)
  more b := (h₁₂.more b).trans (h₂₃.more b)
  kept := h₁₂.kept.trans h₂₃.kept

theorem Shared.live {b : Addr} (hs : Shared held h h') (hb : h.nodes.Live b) : h'.nodes.Live b :=
  Nat.lt_of_lt_of_le hb (hs.more b)

theorem Shared.list (ks : List Addr) (hok : Ok held h) (hks : ∀ k ∈ ks, h.nodes.Live k) :
    Shared (↑ks + held) h (ks.foldl (fun h k => h.exprShare k) h) := by
  induction ks generalizing h held with
  | nil => exact ⟨by simpa using hok, rfl, fun _ => rfl, fun _ => le_rfl, .refl _⟩
  | cons k ks ih =>
      have hone := Shared.one hok (hks k List.mem_cons_self)
      have hrest := ih hone.ok fun b hb => hone.live (hks b (List.mem_cons_of_mem _ hb))
      have hheld : (↑(k :: ks) + held : Multiset Addr) = ↑ks + k ::ₘ held := by
        rw [← Multiset.cons_coe, Multiset.cons_add, Multiset.add_cons]
      rw [hheld]
      exact hone.trans hrest

theorem made_alloc {h₀ : Heap} {n : Node} (hs : Shared (↑n.kids + held) h₀ h)
    (hel : ∀ el, n.toElement el = 0) :
    Made ∅ held h₀ (h.exprAlloc n).2 (h.exprAlloc n).1 where
  ok := hs.ok.alloc hel
  kept := hs.kept.trans (.alloc n)
  fresh := hs.next.ge

theorem node_alloc_self (n : Node) : (h.exprAlloc n).2.node (h.exprAlloc n).1 = some n := by
  simp [Heap.node, exprAlloc, Memory.node_alloc]

theorem node_alloc_of_lt {n : Node} {b : Addr} (hb : b < h.nodes.next) :
    (h.exprAlloc n).2.node b = h.node b := by
  simp [Heap.node, exprAlloc, Memory.node_alloc, hb.ne]

theorem nrefs_alloc_of_lt {n : Node} {b : Addr} (hb : b < h.nodes.next) :
    (h.exprAlloc n).2.nrefs b = h.nrefs b := by
  simp [nrefs, exprAlloc, Memory.nrefs_alloc, hb.ne]

/-- `expr_unshare` of a node that others hold too, when it is not an `ELEMENT`. -/
theorem unshare_spec {n : Node} (hok : Ok (e ::ₘ held) h) (h1 : 1 < h.nrefs e)
    (hn : h.node e = some n) (hel : ∀ el, n ≠ .element el) :
    ∃ f h', h.exprUnshare e = some (f, h') ∧ Made ∅ held h h' f ∧ h'.node f = some n ∧
      h.nrefs e ≤ h'.nrefs e + 1 := by
  have he : h.nodes.Live e := Nat.lt_of_succ_lt h1
  have hlt : e < h.nodes.next := hok.lt he
  have hs := Shared.list n.kids hok fun k hk => hok.node_live he hn hk
  have hel' : ∀ el, n.toElement el = 0 := by
    intro el
    cases n <;> first | rfl | exact absurd rfl (hel _)
  have hcopy : h.exprNodeCopy n = some (n.kids.foldl (fun h k => h.exprShare k) h) := by
    cases n <;> first | rfl | exact absurd rfl (hel _)
  generalize n.kids.foldl (fun h k => h.exprShare k) h = h₁ at hs hcopy
  have hm := made_alloc (n := n) hs hel'
  have hcount : (h₁.exprAlloc n).2.nrefs e = h₁.nrefs e :=
    nrefs_alloc_of_lt (hlt.trans_le hs.next.ge)
  have hmore : h.nrefs e ≤ h₁.nrefs e := hs.more e
  refine ⟨_, (h₁.exprAlloc n).2.unref e, ?_, ⟨?_, ?_, hm.fresh⟩, ?_, ?_⟩
  · simp only [exprUnshare, hn, Option.bind_eq_bind, Option.bind_some, if_pos h1, hcopy]
  · have hok' := hm.ok
    rw [Multiset.cons_swap] at hok'
    exact hok'.unref (by omega)
  · exact hm.kept.trans .drop
  · rw [← node_alloc_self (h := h₁) n]
    exact Memory.node_drop
  · have : ((h₁.exprAlloc n).2.unref e).nrefs e = (h₁.exprAlloc n).2.nrefs e - 1 := by
      simp [nrefs, unref, Memory.nrefs_drop]
    omega

/-- References of two contents that differ in one operand. -/
theorem exchange {a b c : Addr} :
    (a ::ₘ held) + ↑[b, c] = (b ::ₘ held) + (↑[a, c] : Multiset Addr) := by
  refine Multiset.ext.mpr fun y => ?_
  simp only [← Multiset.cons_coe, Multiset.count_add, Multiset.count_cons]
  omega

theorem kids_binop (op : BinTag) (l r : Addr) :
    (↑(Node.binop op l r).kids + held : Multiset Addr) = r ::ₘ l ::ₘ held := by
  simp [Node.kids, ← Multiset.cons_coe]

/-- The constant on the right of `e`, which others refer to as well, is replaced by the sum of it
and `d`. -/
theorem addToRight_shared {S : Set Nat} {h₀ : Heap} {t : BinTag} {c : Word}
    (hok : Ok (e ::ₘ held) h) (hk : Memory.Kept S h₀.nodes h.nodes)
    (he : e ∈ S ∨ h₀.nodes.next ≤ e) (hn : h.node e = some (.binop t x r))
    (hr : h.node r = some (.const c)) (h1 : 1 < h.nrefs r) (d : Word) :
    ∃ g h', h.addToRight e d = some (e, h') ∧ Ok (e ::ₘ held) h' ∧
      Memory.Kept S h₀.nodes h'.nodes ∧ h'.node e = some (.binop t x g) ∧
      h'.node g = some (.const (c + d)) := by
  have hrlt : r < h.nodes.next := hok.nodes.lt hr
  have helt : e < h.nodes.next := hok.nodes.lt hn
  -- the copy of the constant
  have hok₁ : Ok (h.nodes.next ::ₘ e ::ₘ held) (h.exprAlloc (.const c)).2 :=
    Ok.alloc (n := .const c) (by simpa [Node.kids] using hok) fun _ => rfl
  have hkept₁ : Memory.Kept S h₀.nodes (h.exprAlloc (.const c)).2.nodes := hk.trans (.alloc _)
  have hg₁ := node_alloc_self (h := h) (.const c)
  have hn₁ : (h.exprAlloc (.const c)).2.node e = some (.binop t x r) := by
    rw [node_alloc_of_lt helt, hn]
  have hr₁ : 1 < (h.exprAlloc (.const c)).2.nrefs r := by rwa [nrefs_alloc_of_lt hrlt]
  have hcall : h.exprUnshare r = some (h.nodes.next, (h.exprAlloc (.const c)).2.unref r) := by
    simp only [exprUnshare, hr, Option.bind_eq_bind, Option.bind_some, if_pos h1, exprNodeCopy,
      Node.kids, List.foldl_nil]
    rfl
  have hlive₁ : (h.exprAlloc (.const c)).2.nodes.Live e := hok₁.nodes.live (by simp)
  generalize (h.exprAlloc (.const c)).2 = h₁ at *
  -- it takes the place of the constant in `e`
  have hok₂ : Ok (r ::ₘ e ::ₘ held) (h₁.assign e (.binop t x h.nodes.next)) :=
    hok₁.assign hlive₁ hn₁ exchange fun _ => rfl
  have hcomm : (h₁.unref r).assign e (.binop t x h.nodes.next)
      = (h₁.assign e (.binop t x h.nodes.next)).unref r := by
    simp only [assign, unref, Memory.write_drop_comm]
  have hok₃ := hok₂.unref (by simpa [nrefs, assign] using hr₁)
  have hkept₃ : Memory.Kept S h₀.nodes
      ((h₁.assign e (.binop t x h.nodes.next)).unref r).nodes :=
    (hkept₁.write he).trans .drop
  have hn₃ : ((h₁.assign e (.binop t x h.nodes.next)).unref r).node e
      = some (.binop t x h.nodes.next) := by
    simp [Heap.node, assign, unref, Memory.node_write hn₁]
  have hg₃ : ((h₁.assign e (.binop t x h.nodes.next)).unref r).node h.nodes.next
      = some (.const c) := by
    rw [← hg₁]
    simp [Heap.node, assign, unref, Memory.node_write hn₁, helt.ne', exprAlloc]
  generalize (h₁.assign e (.binop t x h.nodes.next)).unref r = h₃ at *
  have hlive₃ : h₃.nodes.Live h.nodes.next :=
    hok₃.node_live (hok₃.nodes.live (by simp)) hn₃ (by simp [Node.kids])
  refine ⟨h.nodes.next, h₃.assign h.nodes.next (.const (c + d)), ?_, ?_, ?_, ?_, ?_⟩
  · simp only [addToRight, hn, Option.bind_eq_bind, Option.bind_some, hcall, hcomm, hg₃]
  · exact hok₃.assign hlive₃ hg₃ (by simp [Node.kids]) fun _ => rfl
  · exact hkept₃.write (.inr hk.next)
  · rw [← hn₃]
    exact Memory.node_write_ne helt.ne
  · simp [Heap.node, assign, Memory.node_write hg₃]

/-- `(x + C) + D -> x + (C+D)` in a node that others hold too: it is copied, and the constant with
it. -/
theorem unshare_add_spec {c : Word} (hok : Ok (e1 ::ₘ held) h) (h1 : 1 < h.nrefs e1)
    (hn : h.node e1 = some (.binop .plus x r)) (hr : h.node r = some (.const c)) (d : Word) :
    ∃ f g h', (do
        let (e, h) ← h.exprUnshare e1
        h.addToRight e d) = some (f, h') ∧
      Made ∅ held h h' f ∧ h'.node f = some (.binop .plus x g) ∧
      h'.node g = some (.const (c + d)) := by
  obtain ⟨f, h₂, hcall, hm, hf, hle⟩ := unshare_spec hok h1 hn (by simp)
  have hlive : h₂.nodes.Live e1 := by
    unfold Memory.Live
    change 0 < h₂.nrefs e1
    omega
  have hn₂ : h₂.node e1 = some (.binop .plus x r) := by
    rw [← hn]
    exact hm.kept.node e1 (hok.nodes.lt hn) (Set.notMem_empty _) hlive
  have hrlive : h₂.nodes.Live r := hm.ok.node_live hlive hn₂ (by simp [Node.kids])
  have hr₂ : h₂.node r = some (.const c) := by
    rw [← hr]
    exact hm.kept.node r (hok.nodes.lt hr) (Set.notMem_empty _) hrlive
  have hne : e1 ≠ f := ((hok.nodes.lt hn).trans_le hm.fresh).ne
  have htwo : 1 < h₂.nrefs r :=
    hm.ok.nodes.two_le hne hlive hm.live hn₂ hf (by simp [Node.kids]) (by simp [Node.kids])
  obtain ⟨g, h₃, hadd, hok₃, hk₃, hf₃, hg₃⟩ :=
    addToRight_shared hm.ok hm.kept (.inr hm.fresh) hf hr₂ htwo d
  exact ⟨f, g, h₃, by simp [hcall, hadd], ⟨hok₃, hk₃, hm.fresh⟩, hf₃, hg₃⟩

/-- `(x + C) + D -> x + (C+D)` copies what it changes. -/
theorem fold_spec {c : Word} (hok : Ok held h) (he : h.nodes.Live e1)
    (hn : h.node e1 = some (.binop .plus x r)) (hr : h.node r = some (.const c)) (d : Word) :
    ∃ f g h', (do
        let (e, h) ← (h.exprShare e1).exprUnshare e1
        h.addToRight e d) = some (f, h') ∧
      Made ∅ held h h' f ∧ h'.node f = some (.binop .plus x g) ∧
      h'.node g = some (.const (c + d)) := by
  have hs := Shared.one hok he
  have hcount : (h.exprShare e1).nrefs e1 = h.nrefs e1 + 1 := by
    simp [nrefs, exprShare, Memory.nrefs_share he]
  have hpos : 0 < h.nrefs e1 := he
  obtain ⟨f, g, h', hcall, hm, hf, hg⟩ :=
    unshare_add_spec hs.ok (by omega) ((hs.node e1).trans hn) ((hs.node r).trans hr) d
  exact ⟨f, g, h', hcall, ⟨hm.ok, hs.kept.trans hm.kept, hs.next.ge.trans hm.fresh⟩, hf, hg⟩

/-- A new node over the two operands. -/
theorem pair_spec (op : BinTag) (hok : Ok held h) (h1 : h.nodes.Live e1) (h2 : h.nodes.Live e2) :
    Made ∅ held h (h.exprPair op e1 e2).2 (h.exprPair op e1 e2).1 ∧
      (h.exprPair op e1 e2).2.node (h.exprPair op e1 e2).1 = some (.binop op e1 e2) := by
  have hs₁ := Shared.one hok h1
  have hs := hs₁.trans (.one hs₁.ok (hs₁.live h2))
  rw [← kids_binop op] at hs
  exact ⟨made_alloc hs fun _ => rfl, node_alloc_self _⟩

/-- `(x + C) + y -> (x + y) + C` writes into the node of `x + C`. -/
theorem lift_spec (op : BinTag) (hok : Ok held h) (h1 : h.nodes.Live e1) (h2 : h.nodes.Live e2)
    (hn : h.node e1 = some (.binop .plus x r)) :
    ∃ e h', h.exprLift op e1 e2 x r = (e, h') ∧ Made {e1} held h h' e ∧
      h'.node e = some (.binop op e1 r) ∧
      (∀ b < h.nodes.next, h'.node b = if b = e1 then some (.binop .plus x e2) else h.node b) ∧
      ∀ b < h.nodes.next, h.nrefs b ≤ h'.nrefs b := by
  have hs := Shared.one hok h2
  have hn₁ : (h.exprShare e2).node e1 = some (.binop .plus x r) := by rw [hs.node, hn]
  have hok₂ : Ok (r ::ₘ held) ((h.exprShare e2).assign e1 (.binop .plus x e2)) :=
    hs.ok.assign (hs.live h1) hn₁ exchange fun _ => rfl
  have hkept₂ : Memory.Kept {e1} h.nodes ((h.exprShare e2).assign e1 (.binop .plus x e2)).nodes :=
    Memory.Kept.write (.share h2) (.inl rfl)
  have hlive₂ : ∀ b, ((h.exprShare e2).assign e1 (.binop .plus x e2)).nrefs b
      = (h.exprShare e2).nrefs b := fun b => by simp [nrefs, assign]
  have hl₂ : ((h.exprShare e2).assign e1 (.binop .plus x e2)).nodes.Live e1 := by
    have := hs.live h1
    unfold Memory.Live at *
    rwa [← nrefs, hlive₂]
  have hs₃ := Shared.one hok₂ hl₂
  have hnode₃ : ∀ b, (((h.exprShare e2).assign e1 (.binop .plus x e2)).exprShare e1).node b
      = if b = e1 then some (.binop .plus x e2) else h.node b := by
    intro b
    rw [hs₃.node, ← hs.node]
    exact Memory.node_write hn₁
  refine ⟨_, _, rfl, ⟨?_, ?_, le_rfl⟩, node_alloc_self _, ?_, ?_⟩
  · refine Ok.alloc (n := .binop op e1 r) ?_ fun _ => rfl
    rw [kids_binop, Multiset.cons_swap]
    exact hs₃.ok
  · exact (hkept₂.trans (.share hl₂)).trans (.alloc _)
  · intro b hb
    rw [← hnode₃ b]
    exact node_alloc_of_lt hb
  · intro b hb
    have hle := (hs.more b).trans ((hlive₂ b).ge.trans (hs₃.more b))
    refine hle.trans (ge_of_eq (nrefs_alloc_of_lt ?_))
    exact hb

/-! ### `expr_binop` -/

variable {t t1 t2 : Expr}

/-- Where nothing is folded or lifted, the tree is the operator over the two operands. -/
theorem exprNode_pair (hno : ∀ x c, op = .plus → t1 = .binop .plus x (.const c) → t2.const? = none) :
    Ttools.exprNode false op t1 t2 = .binop op t1 t2 := by
  unfold Ttools.exprNode
  split
  · next x c d => exact absurd (hno x c rfl rfl) (by simp)
  · rfl
  · rfl

/-- The branch of `expr_binop` that writes into `e1`. -/
def Lifts (h : Heap) (op : BinTag) (e1 e2 x r : Addr) (c : Word) : Prop :=
  op = .plus ∧ h.node e1 = some (.binop .plus x r) ∧ h.node r = some (.const c) ∧
    h.nrefs e1 = 1 ∧ ∀ d, h.node e2 ≠ some (.const d)

/-- `eval` is called on an operator it does not handle, or on a division whose quotient does not fit
in a word. -/
def Aborts (h : Heap) (op : BinTag) (e1 e2 : Addr) : Prop :=
  ∃ c d, h.node e1 = some (.const c) ∧ h.node e2 = some (.const d) ∧
    (op = .quest ∨ op = .colon ∨ op.traps c d = true)

theorem not_aborts (h1 : op ≠ .quest) (h2 : op ≠ .colon) (hd : op ≠ .div) (hr : op ≠ .rem) :
    ¬h.Aborts op e1 e2 := by
  rintro ⟨c, d, -, -, hq | hc | ht⟩
  · exact h1 hq
  · exact h2 hc
  · rw [traps_of_ne hd hr] at ht
    cases ht

theorem Made.denotes (hm : Made ∅ held h h' e) (hok : Ok held h) {a : Addr}
    (hd : Denotes h.nodes a t) (ha : h'.nodes.Live a) : Denotes h'.nodes a t :=
  hd.kept hok.nodes hm.ok.nodes hm.kept ha fun _ _ => Set.notMem_empty _

/-- What `expr_binop` does after the swap, unless it writes into `e1`. -/
theorem exprNode_spec (hok : Ok held h) (h1 : h.nodes.Live e1) (h2 : h.nodes.Live e2)
    (hd1 : Denotes h.nodes e1 t1) (hd2 : Denotes h.nodes e2 t2)
    (hno : ∀ x r c, ¬ h.Lifts op e1 e2 x r c) :
    ∃ e h', h.exprNode op e1 e2 = some (e, h') ∧ Made ∅ held h h' e ∧
      Denotes h'.nodes e (Ttools.exprNode false op t1 t2) := by
  obtain ⟨n1, hn1⟩ := hd1.node
  obtain ⟨n2, hn2⟩ := hd2.node
  have hnode1 : h.node e1 = some n1 := hn1
  have hnode2 : h.node e2 = some n2 := hn2
  obtain ⟨hpair, hpairNode⟩ := pair_spec op hok h1 h2
  have hpairDenotes : Denotes (h.exprPair op e1 e2).2.nodes (h.exprPair op e1 e2).1
      (.binop op t1 t2) := by
    have hkid := fun b => hpair.ok.node_live (b := b) hpair.live hpairNode
    exact .binop hpairNode (hpair.denotes hok hd1 (hkid e1 (by simp [Node.kids])))
      (hpair.denotes hok hd2 (hkid e2 (by simp [Node.kids])))
  by_cases hsum : ∃ x r c, op = .plus ∧ h.node e1 = some (.binop .plus x r) ∧
      h.node r = some (.const c)
  · obtain ⟨x, r, c, rfl, hn, hr⟩ := hsum
    obtain ⟨tx, ty, rfl, hx, hy⟩ := hd1.of_binop hn
    obtain rfl := hy.unique (.const hr)
    by_cases hconst : ∃ d, h.node e2 = some (.const d)
    · obtain ⟨d, hd⟩ := hconst
      obtain rfl := hd2.unique (.const hd)
      obtain ⟨f, g, h', hcall, hm, hf, hg⟩ := fold_spec hok h1 hn hr d
      refine ⟨f, h', ?_, hm, ?_⟩
      · simpa [Heap.exprNode, hn, hr, hd] using hcall
      · have hxl := hm.ok.node_live hm.live hf (b := x) (by simp [Node.kids])
        exact .binop hf (hm.denotes hok hx hxl) (.const hg)
    · have hc : n2.const? = none := by
        rw [Option.eq_none_iff_forall_ne_some]
        rintro d hd
        exact hconst ⟨d, by rw [hnode2, Node.const?_eq_some.mp hd]⟩
      have hshared : h.nrefs e1 ≠ 1 := fun hone =>
        hno x r c ⟨rfl, hn, hr, hone, fun d hd => hconst ⟨d, hd⟩⟩
      refine ⟨_, _, by simp [Heap.exprNode, hn, hnode2, hr, hc, hshared], hpair, ?_⟩
      rw [exprNode_pair fun _ _ _ _ => (hd2.const?_eq hn2).trans hc]
      exact hpairDenotes
  · have hcall : h.exprNode op e1 e2 = some (h.exprPair op e1 e2) := by
      unfold Heap.exprNode
      simp only [hnode1, hnode2, Option.bind_eq_bind, Option.bind_some]
      split
      · next x r =>
          obtain ⟨tx, ty, rfl, hx, hy⟩ := hd1.of_binop hn1
          obtain ⟨nr, hnr⟩ := hy.node
          have hnr' : h.node r = some nr := hnr
          have hc : nr.const? = none := by
            rw [Option.eq_none_iff_forall_ne_some]
            rintro c hc
            exact hsum ⟨x, r, c, rfl, hn1, by rw [hnr', Node.const?_eq_some.mp hc]⟩
          simp [hnr', hc]
      · rfl
    refine ⟨_, _, hcall, hpair, ?_⟩
    rw [exprNode_pair]
    · exact hpairDenotes
    · rintro x c rfl rfl
      cases hd1 with
      | binop hb _ hr =>
          obtain ⟨nr, hnr⟩ := hr.node
          obtain rfl := Node.const?_eq_some.mp (hr.const?_eq hnr).symm
          exact absurd ⟨_, _, c, rfl, hb, hnr⟩ hsum

/-- `expr_binop` makes the tree of the other modules, unless it writes into `e1`. -/
theorem exprBinop_spec (hok : Ok held h) (h1 : h.nodes.Live e1) (h2 : h.nodes.Live e2)
    (hd1 : Denotes h.nodes e1 t1) (hd2 : Denotes h.nodes e2 t2) (hab : ¬ h.Aborts op e1 e2)
    (hno : ∀ x r c, ¬ h.Lifts op e1 e2 x r c) :
    ∃ e h' t, h.exprBinop op e1 e2 = some (e, h') ∧ Made ∅ held h h' e ∧
      Denotes h'.nodes e t ∧ Ttools.exprBinop false op t1 t2 = some t := by
  obtain ⟨n1, hn1⟩ := hd1.node
  obtain ⟨n2, hn2⟩ := hd2.node
  have hnode1 : h.node e1 = some n1 := hn1
  have hnode2 : h.node e2 = some n2 := hn2
  simp only [Heap.exprBinop, hnode1, hnode2, Option.bind_eq_bind, Option.bind_some,
    Ttools.exprBinop, hd1.const?_eq hn1, hd2.const?_eq hn2, Expr.isConst]
  cases hc : n1.const? with
  | none =>
      simp only [Option.isSome_none, Bool.and_false, Bool.false_eq_true, if_false]
      obtain ⟨e, h', hcall, hm, hd⟩ := exprNode_spec hok h1 h2 hd1 hd2 hno
      exact ⟨e, h', _, hcall, hm, hd, rfl⟩
  | some c =>
      obtain rfl := Node.const?_eq_some.mp hc
      cases hd : n2.const? with
      | some d =>
          obtain rfl := Node.const?_eq_some.mp hd
          obtain ⟨v, hv⟩ : ∃ v, eval op c d = some v := by
            refine Option.ne_none_iff_exists'.mp fun hnone => ?_
            exact hab ⟨c, d, hnode1, hnode2, eval_eq_none.mp hnone⟩
          have hs : Shared (↑(Node.const v).kids + held) h h :=
            ⟨by simpa [Node.kids] using hok, rfl, fun _ => rfl, fun _ => le_rfl, .refl _⟩
          exact ⟨_, _, .const v, by simp [hv], made_alloc hs fun _ => rfl,
            .const (node_alloc_self _), by simp [hv]⟩
      | none =>
          simp only [Option.isSome_some, Bool.and_true]
          split
          · -- `e1` is a constant, and so there is nothing to lift in `e2`
            have hswap : ∀ x r c, ¬ h.Lifts op e2 e1 x r c := by
              rintro x r c' ⟨-, -, -, -, hne⟩
              exact hne c hnode1
            obtain ⟨e, h', hcall, hm, hd⟩ := exprNode_spec hok h2 h1 hd2 hd1 hswap
            exact ⟨e, h', _, hcall, hm, hd, rfl⟩
          · obtain ⟨e, h', hcall, hm, hd⟩ := exprNode_spec hok h1 h2 hd1 hd2 hno
            exact ⟨e, h', _, hcall, hm, hd, rfl⟩

/-- `expr_binop` where it writes into `e1`: `e1` becomes the sum without the constant. -/
theorem exprBinop_lift {c : Word} {tx : Expr} (hok : Ok held h) (h1 : h.nodes.Live e1)
    (h2 : h.nodes.Live e2) (hl : h.Lifts op e1 e2 x r c)
    (hd1 : Denotes h.nodes e1 (.binop .plus tx (.const c))) (hd2 : Denotes h.nodes e2 t2) :
    ∃ e h', h.exprBinop op e1 e2 = some (e, h') ∧ Made {e1} held h h' e ∧
      (∀ b < h.nodes.next, h'.node b = if b = e1 then some (.binop .plus x e2) else h.node b) ∧
      (∀ b < h.nodes.next, h.nrefs b ≤ h'.nrefs b) ∧
      (¬ Reaches h.nodes e2 e1 → Denotes h'.nodes e1 (.binop .plus tx t2) ∧
        Denotes h'.nodes e (.binop .plus (.binop .plus tx t2) (.const c))) := by
  obtain ⟨rfl, hn, hr, hone, hconst⟩ := hl
  obtain ⟨n2, hn2⟩ := hd2.node
  have hnode2 : h.node e2 = some n2 := hn2
  have hc2 : n2.const? = none := by
    rw [Option.eq_none_iff_forall_ne_some]
    rintro d hd
    exact hconst d (by rw [hnode2, Node.const?_eq_some.mp hd])
  obtain ⟨e, h', hlift, hm, hne, hnodes, hnrefs⟩ := lift_spec .plus hok h1 h2 hn
  have hcall : h.exprBinop .plus e1 e2 = some (e, h') := by
    have hn1 : (Node.binop .plus x r).const? = none := rfl
    simp [Heap.exprBinop, Heap.exprNode, hn, hnode2, hn1, hr, hc2, hone, hlift]
  refine ⟨e, h', hcall, hm, hnodes, hnrefs, fun hfar => ?_⟩
  obtain ⟨tx', ty', htree, hx, hy⟩ := hd1.of_binop hn
  obtain ⟨rfl, rfl⟩ : tx = tx' ∧ Expr.const c = ty' := by simpa using htree
  have hlive1 : h'.nodes.Live e1 := Nat.lt_of_lt_of_le h1 (hnrefs e1 (hok.lt h1))
  have hlive2 : h'.nodes.Live e2 := Nat.lt_of_lt_of_le h2 (hnrefs e2 (hok.lt h2))
  have hxl : h.nodes.Live x := hok.node_live h1 hn (by simp [Node.kids])
  have hrl : h.nodes.Live r := hok.node_live h1 hn (by simp [Node.kids])
  have hlivex : h'.nodes.Live x := Nat.lt_of_lt_of_le hxl (hnrefs x (hok.lt hxl))
  have hlt1 : e1 < h.nodes.next := hok.lt h1
  have hn1 : h'.node e1 = some (.binop .plus x e2) := by rw [hnodes e1 hlt1, if_pos rfl]
  have hr' : h'.node r = some (.const c) := by
    have hre : r ≠ e1 := by
      rintro rfl
      rw [hn] at hr
      cases hr
    rw [hnodes r (hok.lt hrl), if_neg hre, hr]
  have hxfar : ¬ Reaches h.nodes x e1 := hd1.not_cycle ⟨_, hn, by simp [Node.kids]⟩
  have hdx := hx.kept hok.nodes hm.ok.nodes hm.kept hlivex fun b hb hbe => hxfar (hbe ▸ hb)
  have hde := hd2.kept hok.nodes hm.ok.nodes hm.kept hlive2 fun b hb hbe => hfar (hbe ▸ hb)
  have hdone : Denotes h'.nodes e1 (.binop .plus tx t2) := .binop hn1 hdx hde
  exact ⟨hdone, .binop hne hdone (.const hr')⟩

/-! ### Callers -/

/-- Who keeps the references to the operands: the caller of `expr_binop`, or nobody after
`expr_binop_owned`. -/
inductive Calling where
  | borrowed | owned
  deriving DecidableEq, Repr

namespace Calling

/-- The call. -/
def call : Calling → BinTag → Addr → Addr → Heap → Option (Addr × Heap)
  | .borrowed, op, e1, e2, h => h.exprBinop op e1 e2
  | .owned, op, e1, e2, h => h.exprBinopOwned op e1 e2

/-- The references that stay with their holders. -/
def left (k : Calling) (e1 e2 : Addr) (held : Multiset Addr) : Multiset Addr :=
  match k with
  | .borrowed => held
  | .owned => held - {e1, e2}

/-- What the caller must have: a way to the operands, or a reference to each to give away. -/
def Given (k : Calling) (e1 e2 : Addr) (held : Multiset Addr) (h : Heap) : Prop :=
  match k with
  | .borrowed => (∃ b ∈ held, Reaches h.nodes b e1) ∧ ∃ b ∈ held, Reaches h.nodes b e2
  | .owned => {e1, e2} ≤ held

/-- The call returns a node denoting `op(e1, e2)`, the counts are right after it, and what the
other holders get to denotes what it denoted. -/
def Frames (k : Calling) (op : BinTag) (e1 e2 : Addr) (held : Multiset Addr) (h : Heap) : Prop :=
  ∃ e h', k.call op e1 e2 h = some (e, h') ∧ Ok (e ::ₘ k.left e1 e2 held) h' ∧
    (∀ t1 t2, Denotes h.nodes e1 t1 → Denotes h.nodes e2 t2 →
      ∃ t, Denotes h'.nodes e t ∧ (Expr.binop op t1 t2).Same t) ∧
    ∀ b ∈ k.left e1 e2 held, ∀ a t, Reaches h.nodes b a → Denotes h.nodes a t →
      ∃ t', Denotes h'.nodes a t' ∧ t.Same t'

end Calling

/-- The node of `x + C` is written into, and it matters: the other operand is built on it, or does
not always denote `C`. -/
def Spoils (h : Heap) (op : BinTag) (e1 e2 : Addr) : Prop :=
  ∃ x r c, h.Lifts op e1 e2 x r c ∧
    (Reaches h.nodes e2 e1 ∨ ∃ t2 ρ, Denotes h.nodes e2 t2 ∧ t2.value ρ true ≠ c)

theorem Ok.live_along (hok : Ok held h) {a b : Addr} (hb : h.nodes.Live b)
    (hr : Reaches h.nodes b a) : h.nodes.Live a := by
  induction hr with
  | refl => exact hb
  | tail _ hstep ih =>
      obtain ⟨n, hn, hmem⟩ := hstep
      exact hok.node_live ih hn hmem

theorem live_of_reaches (hok : Ok held h) {a b : Addr} (hb : b ∈ held) (hr : Reaches h.nodes b a) :
    h.nodes.Live a := hok.live_along (hok.nodes.live hb) hr

theorem Calling.Given.live {k : Calling} (hok : Ok held h) (hg : k.Given e1 e2 held h) :
    h.nodes.Live e1 ∧ h.nodes.Live e2 := by
  cases k with
  | borrowed =>
      obtain ⟨⟨b, hb, hr⟩, ⟨b', hb', hr'⟩⟩ := hg
      exact ⟨live_of_reaches hok hb hr, live_of_reaches hok hb' hr'⟩
  | owned =>
      exact ⟨hok.nodes.live (Multiset.mem_of_le hg (by simp)),
        hok.nodes.live (Multiset.mem_of_le hg (by simp))⟩

/-- `EXPR_FREE (e1); EXPR_FREE (e2)`. -/
theorem free_both (hok : Ok (e ::ₘ held) h) (hle : {e1, e2} ≤ held) :
    ∃ h₁ h₂, h.free e1 = some h₁ ∧ h₁.free e2 = some h₂ ∧
      Released (e ::ₘ (held - {e1, e2})) h h₂ := by
  obtain ⟨left, rfl⟩ := Multiset.le_iff_exists_add.mp hle
  rw [add_tsub_cancel_left]
  have hheld : e ::ₘ ({e1, e2} + left) = e1 ::ₘ e2 ::ₘ e ::ₘ left := by
    refine Multiset.ext.mpr fun y => ?_
    simp only [Multiset.insert_eq_cons, Multiset.count_add, Multiset.count_cons,
      Multiset.count_singleton]
    omega
  rw [hheld] at hok
  obtain ⟨h₁, hf₁, hr₁⟩ := hok.free
  obtain ⟨h₂, hf₂, hr₂⟩ := hr₁.ok.free
  exact ⟨h₁, h₂, hf₁, hf₂, hr₁.trans hr₂⟩

/-- Along references that are kept everything stays live. -/
theorem live_of_kept {S : Set Nat} {held' : Multiset Addr} {a b : Addr} (hok : Ok held h)
    (hok' : Ok held' h') (hk : Memory.Kept S h.nodes h'.nodes) (hb : h'.nodes.Live b)
    (hr : Reaches h.nodes b a) (hS : ∀ c, Reaches h.nodes b c → c ∉ S) : h'.nodes.Live a := by
  induction hr with
  | refl => exact hb
  | @tail c d hc hstep ih =>
      obtain ⟨n, hn, hmem⟩ := hstep
      have hn' : h'.node c = some n := by
        rw [← hn]
        exact hk.node c (hok.nodes.lt hn) (hS c hc) ih
      exact hok'.node_live ih hn' hmem

/-- A call that leaves alone what the other holders get to. -/
theorem frames_of_made {k : Calling} {S : Set Nat} {h₁ : Heap} (hok : Ok held h)
    (hg : k.Given e1 e2 held h) (hcall : h.exprBinop op e1 e2 = some (e, h₁))
    (hm : Made S held h h₁ e) (hd : Denotes h₁.nodes e t)
    (hsame : ∀ t1 t2, Denotes h.nodes e1 t1 → Denotes h.nodes e2 t2 →
      (Expr.binop op t1 t2).Same t)
    (hfar : ∀ b ∈ k.left e1 e2 held, ∀ a, Reaches h.nodes b a → a ∉ S) :
    k.Frames op e1 e2 held h := by
  obtain ⟨h₂, hcall₂, hok₂, hk₂⟩ : ∃ h₂, k.call op e1 e2 h = some (e, h₂) ∧
      Ok (e ::ₘ k.left e1 e2 held) h₂ ∧ Memory.Kept ∅ h₁.nodes h₂.nodes := by
    cases k with
    | borrowed => exact ⟨h₁, hcall, hm.ok, .refl _⟩
    | owned =>
        obtain ⟨h', h₂, hf₁, hf₂, hr⟩ := free_both hm.ok hg
        exact ⟨h₂, by simp [Calling.call, exprBinopOwned, hcall, hf₁, hf₂], hr.ok, hr.kept⟩
  have hk : Memory.Kept S h.nodes h₂.nodes := hm.kept.trans (hk₂.mono (Set.empty_subset S))
  refine ⟨e, h₂, hcall₂, hok₂, fun t1 t2 hd1 hd2 => ⟨t, ?_, hsame t1 t2 hd1 hd2⟩, ?_⟩
  · exact hd.kept hm.ok.nodes hok₂.nodes hk₂ (hok₂.nodes.live (by simp))
      fun _ _ => Set.notMem_empty _
  · intro b hb a u hr hu
    have hbl : h₂.nodes.Live b := hok₂.nodes.live (Multiset.mem_cons_of_mem hb)
    have hal := live_of_kept hok hok₂ hk hbl hr (hfar b hb)
    exact ⟨u, hu.kept hok.nodes hok₂.nodes hk hal fun c hc => hfar b hb c (hr.trans hc),
      fun _ _ => rfl⟩

/-- Who holds the only reference to `e1` is the only one to get to it. -/
theorem not_reaches_sole (hok : Ok held h) (he : e1 ∈ held) (h1 : h.nrefs e1 = 1) {a b : Addr}
    (hb : h.nodes.Live b) (hne : b ≠ e1) (hr : Reaches h.nodes b a) : a ≠ e1 := by
  have hal : h.nodes.Live a ∧ a ≠ e1 := by
    induction hr with
    | refl => exact ⟨hb, hne⟩
    | tail _ hstep ih =>
        obtain ⟨n, hn, hmem⟩ := hstep
        refine ⟨hok.node_live ih.1 hn hmem, ?_⟩
        rintro rfl
        exact hok.nodes.sole he h1 ih.1 hn hmem
  exact hal.2

/-- `(x + y) + C` has the value of `(x + C) + y`. -/
theorem same_lift (x y : Expr) (c : Word) :
    (Expr.binop .plus (.binop .plus x (.const c)) y).Same
      (.binop .plus (.binop .plus x y) (.const c)) := by
  intro ρ s
  simp only [Expr.value_plus, Expr.value_const]
  ring

theorem frames_plain {k : Calling} (hok : Ok held h) (hg : k.Given e1 e2 held h)
    (hd1 : Denotes h.nodes e1 t1) (hd2 : Denotes h.nodes e2 t2) (hab : ¬ h.Aborts op e1 e2)
    (hno : ∀ x r c, ¬ h.Lifts op e1 e2 x r c) : k.Frames op e1 e2 held h := by
  obtain ⟨h1, h2⟩ := hg.live hok
  obtain ⟨e, h₁, t, hcall, hm, hd, ht⟩ := exprBinop_spec hok h1 h2 hd1 hd2 hab hno
  refine frames_of_made hok hg hcall hm hd ?_ fun _ _ _ _ => Set.notMem_empty _
  intro u1 u2 hu1 hu2
  obtain rfl := hd1.unique hu1
  obtain rfl := hd2.unique hu2
  exact fun ρ s => Expr.value_exprBinop ht s

/-- The caller gave the node of `x + C` away: nobody else sees that it is written into. -/
theorem frames_owned_lift {x r : Addr} {c : Word} (hok : Ok held h)
    (hg : Calling.owned.Given e1 e2 held h) (hl : h.Lifts op e1 e2 x r c)
    (hd1 : Denotes h.nodes e1 t1) (hd2 : Denotes h.nodes e2 t2) :
    Calling.owned.Frames op e1 e2 held h := by
  obtain ⟨h1, h2⟩ := hg.live hok
  obtain ⟨rfl, hn, hr, hone, hconst⟩ := id hl
  obtain ⟨tx, ty, rfl, hx, hy⟩ := hd1.of_binop hn
  obtain rfl := hy.unique (.const hr)
  obtain ⟨e, h₁, hcall, hm, -, -, hdone⟩ := exprBinop_lift hok h1 h2 hl hd1 hd2
  have he1 : e1 ∈ held := Multiset.mem_of_le hg (by simp)
  -- one reference in all, and that is the one given away
  have hcount : held.count e1 ≤ 1 := by
    have := hok.nodes.count e1
    have : h.nodes.nrefs e1 = 1 := hone
    omega
  have hle := Multiset.count_le_of_le e1 hg
  have hne : e2 ≠ e1 := by
    rintro rfl
    simp at hle
    omega
  have hpos : 0 < Multiset.count e1 {e1, e2} := Multiset.count_pos.mpr (by simp)
  have hnotleft : ∀ b ∈ held - {e1, e2}, b ≠ e1 := by
    rintro b hb rfl
    have := Multiset.count_pos.mpr hb
    rw [Multiset.count_sub] at this
    omega
  have hfar2 : ¬ Reaches h.nodes e2 e1 := fun hr => not_reaches_sole hok he1 hone h2 hne hr rfl
  refine frames_of_made hok hg hcall hm (hdone hfar2).2 ?_ ?_
  · intro u1 u2 hu1 hu2
    obtain rfl := hd1.unique hu1
    obtain rfl := hd2.unique hu2
    exact same_lift tx t2 c
  · intro b hb a hra
    exact not_reaches_sole hok he1 hone
      (hok.nodes.live (Multiset.mem_of_le (Multiset.sub_le_self _ _) hb)) (hnotleft b hb) hra

/-- `e1` becomes a sum of the same value. -/
theorem frames_borrowed_lift {x r : Addr} {c : Word} (hok : Ok held h)
    (hg : Calling.borrowed.Given e1 e2 held h) (hl : h.Lifts op e1 e2 x r c)
    (hd1 : Denotes h.nodes e1 t1) (hd2 : Denotes h.nodes e2 t2)
    (hsp : ¬ h.Spoils op e1 e2) : Calling.borrowed.Frames op e1 e2 held h := by
  obtain ⟨h1, h2⟩ := hg.live hok
  have hfar : ¬ Reaches h.nodes e2 e1 := fun hr => hsp ⟨x, r, c, hl, .inl hr⟩
  have hvalue : ∀ ρ, t2.value ρ true = c := by
    intro ρ
    by_contra hne
    exact hsp ⟨x, r, c, hl, .inr ⟨t2, ρ, hd2, hne⟩⟩
  obtain ⟨rfl, hn, hr, hone, hconst⟩ := id hl
  obtain ⟨tx, ty, rfl, hx, hy⟩ := hd1.of_binop hn
  obtain rfl := hy.unique (.const hr)
  obtain ⟨e, h₁, hcall, hm, -, hnrefs, hdone⟩ := exprBinop_lift hok h1 h2 hl hd1 hd2
  obtain ⟨hd1', hde⟩ := hdone hfar
  refine ⟨e, h₁, hcall, hm.ok, ?_, ?_⟩
  · intro u1 u2 hu1 hu2
    obtain rfl := hd1.unique hu1
    obtain rfl := hd2.unique hu2
    exact ⟨_, hde, same_lift tx t2 c⟩
  · intro b hb a u hr hu
    have hal : h.nodes.Live a := live_of_reaches hok hb hr
    have hal' : h₁.nodes.Live a := Nat.lt_of_lt_of_le hal (hnrefs a (hok.lt hal))
    refine hu.revalue hok.nodes hm.ok.nodes hm.kept hal' fun v hv => ⟨_, hd1', ?_⟩
    obtain rfl := hd1.unique hv
    intro ρ s
    simp [hvalue ρ]

/-- A way to `e1` does not use what `e1` refers to. -/
theorem reaches_of_node {a : Addr} (hok : Ok held h) (hr : Reaches h.nodes a e1)
    (hnode : ∀ b < h.nodes.next, b ≠ e1 → h'.node b = h.node b) : Reaches h'.nodes a e1 := by
  induction hr using Relation.ReflTransGen.head_induction_on with
  | refl => exact .refl
  | @head b c hstep _ ih =>
      by_cases hb : b = e1
      · exact hb ▸ .refl
      · obtain ⟨n, hn, hmem⟩ := hstep
        exact ih.head ⟨n, (hnode b (hok.nodes.lt hn) hb).trans hn, hmem⟩

theorem not_frames_of_spoils (hok : Ok held h) (hg : Calling.borrowed.Given e1 e2 held h)
    (hd1 : Denotes h.nodes e1 t1) (hd2 : Denotes h.nodes e2 t2) (hsp : h.Spoils op e1 e2) :
    ¬ Calling.borrowed.Frames op e1 e2 held h := by
  rintro ⟨e, h₁, hcall₁, -, -, hframe⟩
  obtain ⟨x, r, c, hl, hwrong⟩ := hsp
  obtain ⟨h1, h2⟩ := hg.live hok
  obtain ⟨rfl, hn, hr, hone, hconst⟩ := id hl
  obtain ⟨tx, ty, rfl, hx, hy⟩ := hd1.of_binop hn
  obtain rfl := hy.unique (.const hr)
  obtain ⟨e', h₂, hcall, hm, hnodes, hnrefs, hdone⟩ := exprBinop_lift hok h1 h2 hl hd1 hd2
  obtain ⟨-, rfl⟩ : e' = e ∧ h₂ = h₁ := by simpa [Calling.call, hcall] using hcall₁
  -- what `e1` denotes now
  obtain ⟨⟨b, hb, hreach⟩, -⟩ := hg
  obtain ⟨u, hu, hsame⟩ := hframe b hb e1 _ hreach hd1
  have hn1 : h₂.node e1 = some (.binop .plus x e2) := by rw [hnodes e1 (hok.lt h1), if_pos rfl]
  have hfar : ¬ Reaches h.nodes e2 e1 := fun hback =>
    hu.not_cycle ⟨_, hn1, by simp [Node.kids]⟩
      (reaches_of_node hok hback fun b hb hne => by rw [hnodes b hb, if_neg hne])
  obtain rfl := hu.unique (hdone hfar).1
  rcases hwrong with hback | ⟨t, ρ, ht, hne⟩
  · exact hfar hback
  · obtain rfl := hd2.unique ht
    have := hsame ρ true
    simp only [Expr.value_plus, Expr.value_const, add_right_inj] at this
    exact hne this

/-- `expr_binop` and `expr_binop_owned` return a node denoting the operator over its operands and
leave every other expression as it was, but for two cases: `eval` has no value for two constants,
and an operand that the caller of `expr_binop` keeps is written into. -/
theorem constructor_frames_iff {k : Calling} (hok : Ok held h) (hg : k.Given e1 e2 held h)
    (hd1 : Denotes h.nodes e1 t1) (hd2 : Denotes h.nodes e2 t2) :
    k.Frames op e1 e2 held h ↔
      ¬ h.Aborts op e1 e2 ∧ ¬ (k = .borrowed ∧ h.Spoils op e1 e2) := by
  constructor
  · intro hf
    refine ⟨?_, ?_⟩
    · rintro ⟨c, d, hc, hd, hop⟩
      obtain ⟨e, h', hcall, -⟩ := hf
      have heval : eval op c d = none := eval_eq_none.mpr hop
      have hnone : h.exprBinop op e1 e2 = none := by
        simp [Heap.exprBinop, hc, hd, heval]
      cases k <;> simp [Calling.call, exprBinopOwned, hnone] at hcall
    · rintro ⟨rfl, hsp⟩
      exact not_frames_of_spoils hok hg hd1 hd2 hsp hf
  · rintro ⟨hab, hsp⟩
    by_cases hl : ∃ x r c, h.Lifts op e1 e2 x r c
    · obtain ⟨x, r, c, hl⟩ := hl
      cases k with
      | borrowed => exact frames_borrowed_lift hok hg hl hd1 hd2 fun hs => hsp ⟨rfl, hs⟩
      | owned => exact frames_owned_lift hok hg hl hd1 hd2
    · exact frames_plain hok hg hd1 hd2 hab fun x r c hlift => hl ⟨x, r, c, hlift⟩

/-! ### A running address -/

/-- `litdump`'s `point`, the node 2, is the name 0 plus 5; its argument, the node 3, is the
name 1. -/
def litdumpHeap : Heap where
  nodes := (((Memory.empty.alloc (.name 0)).alloc (.const 5)).alloc (.binop .plus 0 1)).alloc
    (.name 1)
  elnrefs _ := 0

theorem litdumpHeap_ok : Ok (3 ::ₘ 2 ::ₘ 0) litdumpHeap := by
  have h₀ : Ok 0 ⟨Memory.empty, fun _ => 0⟩ := ⟨.empty, fun _ => by simp [Memory.total, Memory.empty]⟩
  have h₁ : Ok (0 ::ₘ 0) _ := Ok.alloc (n := .name 0) (by simpa [Node.kids] using h₀) fun _ => rfl
  have h₂ : Ok (1 ::ₘ 0 ::ₘ 0) _ :=
    Ok.alloc (n := .const 5) (by simpa [Node.kids] using h₁) fun _ => rfl
  have h₃ : Ok (2 ::ₘ 0) _ :=
    Ok.alloc (n := .binop .plus 0 1) (by rw [kids_binop]; exact h₂) fun _ => rfl
  exact Ok.alloc (n := .name 1) (by simpa [Node.kids] using h₃) fun _ => rfl

theorem litdumpHeap_point :
    Denotes litdumpHeap.nodes 2 (.binop .plus (.name 0) (.const 5)) :=
  .binop (l := 0) (r := 1) rfl (.name rfl) (.const rfl)

theorem litdumpHeap_arg : Denotes litdumpHeap.nodes 3 (.name 1) := .name rfl

/-- Given away, `point` becomes part of the sum. -/
theorem constructor_frames_iff_litdump :
    Calling.owned.Frames .plus 2 3 (3 ::ₘ 2 ::ₘ 0) litdumpHeap := by
  have hg : Calling.owned.Given 2 3 (3 ::ₘ 2 ::ₘ 0) litdumpHeap := by
    unfold Calling.Given
    decide
  refine (constructor_frames_iff litdumpHeap_ok hg litdumpHeap_point litdumpHeap_arg).mpr ⟨?_, ?_⟩
  · exact not_aborts (by decide) (by decide) (by decide) (by decide)
  · rintro ⟨hk, -⟩
    cases hk

/-- `expr_binop (EXPR_PLUS, point, arg)` leaves `point` without its constant. -/
theorem point_overwritten :
    Ok (3 ::ₘ 2 ::ₘ 0) litdumpHeap ∧ Calling.borrowed.Given 2 3 (3 ::ₘ 2 ::ₘ 0) litdumpHeap ∧
      Denotes litdumpHeap.nodes 2 (.binop .plus (.name 0) (.const 5)) ∧
      Denotes litdumpHeap.nodes 3 (.name 1) ∧
      ¬ Calling.borrowed.Frames .plus 2 3 (3 ::ₘ 2 ::ₘ 0) litdumpHeap := by
  have hg : Calling.borrowed.Given 2 3 (3 ::ₘ 2 ::ₘ 0) litdumpHeap :=
    ⟨⟨2, by simp, .refl⟩, 3, by simp, .refl⟩
  refine ⟨litdumpHeap_ok, hg, litdumpHeap_point, litdumpHeap_arg,
    not_frames_of_spoils litdumpHeap_ok hg litdumpHeap_point litdumpHeap_arg ?_⟩
  refine ⟨0, 1, 5, ⟨rfl, rfl, rfl, rfl, ?_⟩, .inr ⟨.name 1, ⟨fun _ => 0, fun _ => 0, fun _ _ => 0⟩,
    litdumpHeap_arg, ?_⟩⟩
  · intro d hd
    cases (hd : some (Node.name 1) = some (Node.const d))
  · rw [Expr.value_name]
    decide

end Heap

end Ttools
