import Ttools.Expr.Build
import Ttools.Support.Counted

/-!
# Expression nodes

`shared/expr.c` with the pointers left in: `struct expr` at an address, with its `nrefs`, and the
functions that allocate, share, copy, release and build nodes.  A function that follows a pointer
to a node that is no longer there gives `none`, as a failing assertion does.

`Denotes m a t`: from `a` the tree `t` can be read.  This is the abstraction from nodes to the
`Expr` of the other modules.  `Ok held h`: every `nrefs` is the number of the references there are,
`held` being those from outside the nodes, and `el->nrefs` covers the nodes that refer to `el`.

* `Denotes.unique`, `Denotes.transport`, `Denotes.not_cycle`: a node denotes one tree, the tree is read
  in another memory where its nodes are the same, and there is no cycle below it.
* `Ok.free`: `EXPR_FREE` succeeds on a reference that is held, and leaves what is still referred to.
-/

namespace Ttools

open Support

/-- A `struct expr *`. -/
abbrev Addr := Nat

/-- `struct expr` without its counts.  An element is `none` while `lit` has none to attach. -/
inductive Node where
  | const (constval : Word)
  | name (np : NameId)
  | unop (tag : UnTag) (r : Addr)
  | binop (tag : BinTag) (l r : Addr)
  | range (lo hi : Word)
  | element (el : Option ElemId)
  | elsum (vector : List Addr)
  deriving DecidableEq, Repr

namespace Node

/-- The nodes a node refers to, in the order in which `expr_free` releases them. -/
def kids : Node → List Addr
  | .unop _ r => [r]
  | .binop _ l r => [r, l]
  | .elsum v => v
  | _ => []

/-- `EXPR_ISCONST`, giving the constant. -/
def const? : Node → Option Word
  | .const c => some c
  | _ => none

/-- The references of a node to the element `el`. -/
def toElement (el : ElemId) : Node → Nat
  | .element (some el') => if el' = el then 1 else 0
  | _ => 0

@[simp] theorem const?_const (c : Word) : (Node.const c).const? = some c := rfl

theorem const?_eq_some {n : Node} {c : Word} : n.const? = some c ↔ n = .const c := by
  cases n <;> simp [const?]

end Node

/-- The allocated nodes, and `nrefs` of the elements. -/
structure Heap where
  nodes : Memory Node
  elnrefs : ElemId → Nat

namespace Heap

/-- `e->tag` and `e->u`. -/
def node (h : Heap) (e : Addr) : Option Node := h.nodes.node e

/-- `e->nrefs`. -/
def nrefs (h : Heap) (e : Addr) : Nat := h.nodes.nrefs e

/-- `expr_alloc`, and the assignments to the new node. -/
def exprAlloc (n : Node) (h : Heap) : Addr × Heap :=
  (h.nodes.next, { h with nodes := h.nodes.alloc n })

/-- `expr_share`: `e->nrefs++`. -/
def exprShare (e : Addr) (h : Heap) : Heap := { h with nodes := h.nodes.share e }

/-- `e->nrefs--`. -/
def unref (e : Addr) (h : Heap) : Heap := { h with nodes := h.nodes.drop e }

/-- An assignment to the fields of `e`. -/
def assign (e : Addr) (n : Node) (h : Heap) : Heap := { h with nodes := h.nodes.write e n }

/-- `el->nrefs--` for the element of an `ELEMENT` node, with the assertion before it. -/
def unrefElement (n : Node) (h : Heap) : Option Heap :=
  match n with
  | .element (some el) =>
      if 0 < h.elnrefs el then
        some { h with elnrefs := Function.update h.elnrefs el (h.elnrefs el - 1) }
      else none
  | _ => some h

/-- `expr_free`.  `fuel` bounds the depth of the recursion. -/
def exprFree : Nat → Addr → Heap → Option Heap
  | 0, _, _ => none
  | fuel + 1, e, h => do
      let n ← h.node e
      let h := h.unref e
      -- there are other holders, shouldn't really free it
      if 0 < h.nrefs e then some h
      else
        let h ← h.unrefElement n
        let h ← n.kids.foldlM (fun h k => if h.nrefs k = 1 then exprFree fuel k h else h.unref k) h
        some { h with nodes := h.nodes.erase e }

/-- `EXPR_FREE`; there are no deeper expressions than there are nodes. -/
def free (e : Addr) (h : Heap) : Option Heap :=
  if h.nrefs e = 1 then h.exprFree h.nodes.next e else h.unref e

/-- `expr_node_copy`: the references of the node that is copied are now held twice. -/
def exprNodeCopy (n : Node) (h : Heap) : Option Heap :=
  match n with
  | .element none => none
  | .element (some el) =>
      some { h with elnrefs := Function.update h.elnrefs el (h.elnrefs el + 1) }
  | n => some (n.kids.foldl (fun h k => h.exprShare k) h)

/-- `expr_unshare`. -/
def exprUnshare (e : Addr) (h : Heap) : Option (Addr × Heap) := do
  let n ← h.node e
  if 1 < h.nrefs e then
    let h ← h.exprNodeCopy n
    let (f, h) := h.exprAlloc n
    some (f, h.unref e)
  else some (e, h)

/-- `e->u.ptr.r = expr_unshare (e->u.ptr.r); e->u.ptr.r->u.constval += d; return e`. -/
def addToRight (e : Addr) (d : Word) (h : Heap) : Option (Addr × Heap) := do
  match ← h.node e with
  | .binop tag l r =>
      let (r', h) ← h.exprUnshare r
      let h := h.assign e (.binop tag l r')
      match ← h.node r' with
      | .const c => some (e, h.assign r' (.const (c + d)))
      | _ => none
  | _ => none

/-- The end of `expr_binop`: a new node over both operands. -/
def exprPair (op : BinTag) (e1 e2 : Addr) (h : Heap) : Addr × Heap :=
  ((h.exprShare e1).exprShare e2).exprAlloc (.binop op e1 e2)

/-- `(x + C) + y -> (x + y) + C`, in the node `e1` of `x + C`. -/
def exprLift (op : BinTag) (e1 e2 x c : Addr) (h : Heap) : Addr × Heap :=
  (((h.exprShare e2).assign e1 (.binop .plus x e2)).exprShare e1).exprAlloc (.binop op e1 c)

/-- `expr_binop` after the swap. -/
def exprNode (op : BinTag) (e1 e2 : Addr) (h : Heap) : Option (Addr × Heap) := do
  let n1 ← h.node e1
  let n2 ← h.node e2
  match op, n1 with
  | .plus, .binop .plus x r =>
      match (← h.node r).const?, n2.const? with
      -- frequent special case: (x + C) + D -> x + (C+D)
      | some _, some d =>
          let (e, h) ← (h.exprShare e1).exprUnshare e1
          h.addToRight e d
      -- lift constant, but not if it requires real unsharing
      | some _, none =>
          if h.nrefs e1 = 1 then h.exprLift op e1 e2 x r else h.exprPair op e1 e2
      | none, _ => h.exprPair op e1 e2
  | _, _ => h.exprPair op e1 e2

/-- `expr_binop`; `none` also stands for the `abort ()` in `eval`. -/
def exprBinop (op : BinTag) (e1 e2 : Addr) (h : Heap) : Option (Addr × Heap) := do
  let n1 ← h.node e1
  let n2 ← h.node e2
  match n1.const?, n2.const? with
  | some c, some d => do
      let x ← eval op c d
      h.exprAlloc (.const x)
  | c, _ => if op.isComm && c.isSome then h.exprNode op e2 e1 else h.exprNode op e1 e2

/-- `expr_binop_owned`. -/
def exprBinopOwned (op : BinTag) (e1 e2 : Addr) (h : Heap) : Option (Addr × Heap) := do
  let (e, h) ← h.exprBinop op e1 e2
  let h ← h.free e1
  let h ← h.free e2
  some (e, h)

end Heap

/-! ### Reading a tree -/

/-- From `a` the tree can be read. -/
inductive Denotes (m : Memory Node) : Addr → Expr → Prop where
  | const {a : Addr} {c : Word} (h : m.node a = some (.const c)) : Denotes m a (.const c)
  | name {a : Addr} {np : NameId} (h : m.node a = some (.name np)) : Denotes m a (.name np)
  | unop {a r : Addr} {t : UnTag} {x : Expr} (h : m.node a = some (.unop t r))
      (hr : Denotes m r x) : Denotes m a (.unop t x)
  | binop {a l r : Addr} {t : BinTag} {x y : Expr} (h : m.node a = some (.binop t l r))
      (hl : Denotes m l x) (hr : Denotes m r y) : Denotes m a (.binop t x y)
  | range {a : Addr} {lo hi : Word} (h : m.node a = some (.range lo hi)) : Denotes m a (.range lo hi)
  | element {a : Addr} {el : ElemId} (h : m.node a = some (.element (some el))) :
      Denotes m a (.element el)
  | elsum {a : Addr} {v : List Addr} {ts : List Expr} (h : m.node a = some (.elsum v))
      (hlen : v.length = ts.length) (hv : ∀ p ∈ v.zip ts, Denotes m p.1 p.2) :
      Denotes m a (.elsum ts)

/-- A live node refers to another. -/
def Refers (m : Memory Node) (a b : Addr) : Prop := ∃ n, m.node a = some n ∧ b ∈ n.kids

/-- From `a` one gets to `b` along the references. -/
def Reaches (m : Memory Node) : Addr → Addr → Prop := Relation.ReflTransGen (Refers m)

namespace Denotes

variable {m m' : Memory Node} {a b : Addr} {t t' : Expr}

theorem mem_zip {v : List Addr} {ts : List Expr} {i : Nat} (hi : i < v.length)
    (hi' : i < ts.length) : (v[i], ts[i]) ∈ v.zip ts := by
  have hz : i < (v.zip ts).length := by simp [hi, hi']
  rw [← List.getElem_zip (h := hz)]
  exact List.getElem_mem hz

theorem node (h : Denotes m a t) : ∃ n, m.node a = some n := by
  cases h <;> exact ⟨_, by assumption⟩

/-- A node denotes one tree. -/
theorem unique (h : Denotes m a t) (h' : Denotes m a t') : t = t' := by
  induction h generalizing t' with
  | const h => cases h' <;> simp_all
  | name h => cases h' <;> simp_all
  | range h => cases h' <;> simp_all
  | element h => cases h' <;> simp_all
  | unop h _ ih =>
      cases h' with
      | unop h₂ hr =>
          rw [h] at h₂
          cases h₂
          rw [ih hr]
      | _ => simp_all
  | binop h _ _ ihl ihr =>
      cases h' with
      | binop h₂ hl hr =>
          rw [h] at h₂
          cases h₂
          rw [ihl hl, ihr hr]
      | _ => simp_all
  | @elsum a v ts h hlen _ ih =>
      cases h' with
      | elsum h₂ hlen' hv' =>
          rw [h] at h₂
          cases h₂
          congr 1
          refine List.ext_getElem (hlen.symm.trans hlen') fun i hi hi' => ?_
          have hi₂ : i < v.length := hlen ▸ hi
          exact ih _ (mem_zip hi₂ hi) (hv' _ (mem_zip hi₂ hi'))
      | _ => simp_all

/-- The tree of a binary node is made of those of its operands. -/
theorem of_binop {op : BinTag} {l r : Addr} (h : Denotes m a t)
    (hn : m.node a = some (.binop op l r)) :
    ∃ x y, t = .binop op x y ∧ Denotes m l x ∧ Denotes m r y := by
  cases h with
  | binop h hl hr =>
      rw [hn] at h
      cases h
      exact ⟨_, _, rfl, hl, hr⟩
  | const h | name h | unop h _ | range h | element h | elsum h _ _ =>
      rw [hn] at h
      cases h

/-- The tree is a constant when the node is. -/
theorem const?_eq {n : Node} (h : Denotes m a t) (hn : m.node a = some n) :
    t.const? = n.const? := by
  cases h with
  | const h | name h | unop h _ | binop h _ _ | range h | element h | elsum h _ _ =>
      rw [hn] at h
      cases h
      rfl

/-- The tree is read in any memory that has the nodes below `a` as they are. -/
theorem transport {P : Addr → Prop} (h : Denotes m a t) (ha : P a)
    (hnode : ∀ b n, P b → m.node b = some n → m'.node b = some n)
    (hkids : ∀ b c, P b → Refers m b c → P c) : Denotes m' a t := by
  induction h with
  | const h => exact .const (hnode _ _ ha h)
  | name h => exact .name (hnode _ _ ha h)
  | range h => exact .range (hnode _ _ ha h)
  | element h => exact .element (hnode _ _ ha h)
  | unop h _ ih => exact .unop (hnode _ _ ha h) (ih (hkids _ _ ha ⟨_, h, by simp [Node.kids]⟩))
  | binop h _ _ ihl ihr =>
      exact .binop (hnode _ _ ha h) (ihl (hkids _ _ ha ⟨_, h, by simp [Node.kids]⟩))
        (ihr (hkids _ _ ha ⟨_, h, by simp [Node.kids]⟩))
  | elsum h hlen _ ih =>
      refine .elsum (hnode _ _ ha h) hlen fun p hp => ih p hp (hkids _ _ ha ⟨_, h, ?_⟩)
      exact (List.of_mem_zip hp).1

/-- What a node refers to is read to a smaller tree. -/
theorem kid (h : Denotes m a t) (hb : Refers m a b) : ∃ u, Denotes m b u ∧ sizeOf u < sizeOf t := by
  obtain ⟨n, hn, hmem⟩ := hb
  cases h with
  | const h | name h | range h | element h =>
      rw [h] at hn
      cases hn
      simp [Node.kids] at hmem
  | unop h hr =>
      rw [h] at hn
      cases hn
      obtain rfl : b = _ := by simpa [Node.kids] using hmem
      exact ⟨_, hr, by simp⟩
  | binop h hl hr =>
      rw [h] at hn
      cases hn
      rcases List.mem_cons.mp hmem with rfl | hmem
      · exact ⟨_, hr, by simp⟩
      · obtain rfl : b = _ := by simpa using hmem
        exact ⟨_, hl, by simp; omega⟩
  | @elsum _ v ts h hlen hv =>
      rw [h] at hn
      cases hn
      obtain ⟨i, hi, rfl⟩ := List.mem_iff_getElem.mp hmem
      have hi' : i < ts.length := hlen ▸ hi
      refine ⟨ts[i], hv _ (mem_zip hi hi'), ?_⟩
      have := List.sizeOf_lt_of_mem (List.getElem_mem hi')
      rw [Expr.elsum.sizeOf_spec]
      omega

/-- Nothing below a node that denotes a tree leads back to it. -/
theorem not_cycle (h : Denotes m a t) (hb : Refers m a b) : ¬ Reaches m b a := by
  intro hpath
  have hsize : ∀ c, Reaches m b c → ∃ u, Denotes m c u ∧ sizeOf u < sizeOf t := by
    intro c hc
    induction hc with
    | refl => exact h.kid hb
    | tail _ hstep ih =>
        obtain ⟨u, hu, hlt⟩ := ih
        obtain ⟨w, hw, hlt'⟩ := hu.kid hstep
        exact ⟨w, hw, hlt'.trans hlt⟩
  obtain ⟨u, hu, hlt⟩ := hsize a hpath
  rw [hu.unique h] at hlt
  exact absurd hlt (lt_irrefl _)

end Denotes

/-! ### The counts -/

namespace Heap

/-- The counts are right: `held` are the references from outside the nodes. -/
structure Ok (held : Multiset Addr) (h : Heap) : Prop where
  nodes : Memory.Counted Node.kids held h.nodes
  elements : ∀ el, h.nodes.total (Node.toElement el) ≤ h.elnrefs el

/-- From `h` to `h'` nodes were released only, and the references left are `held`. -/
structure Released (held : Multiset Addr) (h h' : Heap) : Prop where
  ok : Ok held h'
  kept : Memory.Kept ∅ h.nodes h'.nodes
  fewer : h'.nodes.population ≤ h.nodes.population

variable {held : Multiset Addr} {h : Heap} {e : Addr} {n n' : Node}

theorem Ok.lt (hok : Ok held h) (he : h.nodes.Live e) : e < h.nodes.next := hok.nodes.live_lt he

theorem Ok.share (hok : Ok held h) (he : h.nodes.Live e) : Ok (e ::ₘ held) (h.exprShare e) where
  nodes := hok.nodes.share he
  elements el := by
    rw [exprShare, Memory.total_share (hok.lt he) he]
    exact hok.elements el

theorem Ok.unref (hok : Ok (e ::ₘ held) h) (h1 : 1 < h.nrefs e) : Ok held (h.unref e) where
  nodes := hok.nodes.drop h1
  elements el := by
    have he : h.nodes.Live e := Nat.lt_of_succ_lt h1
    rw [Heap.unref, Memory.total_drop (hok.lt he) h1]
    exact hok.elements el

theorem Ok.alloc (hok : Ok (↑n.kids + held) h) (hel : ∀ el, n.toElement el = 0) :
    Ok (h.nodes.next ::ₘ held) (h.exprAlloc n).2 where
  nodes := hok.nodes.alloc
  elements el := by
    rw [exprAlloc, Memory.total_alloc, hel, Nat.add_zero]
    exact hok.elements el

/-- The references of the two contents are exchanged for each other. -/
theorem Ok.assign {held' : Multiset Addr} (hok : Ok held h) (he : h.nodes.Live e)
    (hn : h.node e = some n') (hswap : held + ↑n'.kids = held' + ↑n.kids)
    (hel : ∀ el, n.toElement el = 0) : Ok held' (h.assign e n) where
  nodes := hok.nodes.write he hn hswap
  elements el := by
    have := Memory.total_write (w := Node.toElement el) (n := n) (hok.lt he) he hn
    rw [hel] at this
    exact (by omega : (h.nodes.write e n).total _ ≤ h.nodes.total _).trans (hok.elements el)

/-- The last reference to a node is given up: what it refers to is for the caller to release. -/
theorem Ok.bury (hok : Ok (e ::ₘ held) h) (h1 : h.nrefs e = 1) (hn : h.node e = some n) :
    ∃ h', (h.unref e).unrefElement n = some h' ∧ h'.nodes = h.nodes.drop e ∧
      Ok (↑n.kids + held) h' := by
  have hnodes := hok.nodes.bury h1 hn
  have hlt := hok.nodes.lt hn
  have htotal := fun el => Memory.total_bury (w := Node.toElement el) hlt h1 hn
  by_cases hel : ∃ el, n = .element (some el)
  · obtain ⟨el, rfl⟩ := hel
    have hself : (h.nodes.drop e).total (Node.toElement el) + 1 ≤ h.elnrefs el := by
      have := htotal el
      simp only [Node.toElement, if_true] at this
      exact this.trans_le (hok.elements el)
    refine ⟨_, if_pos (show 0 < h.elnrefs el by omega), rfl, hnodes, fun el' => ?_⟩
    have := htotal el'
    have := hok.elements el'
    simp only [Heap.unref, Function.update_apply]
    split
    · next he => subst he; omega
    · omega
  · have hsame : (h.unref e).unrefElement n = some (h.unref e) := by
      unfold unrefElement
      split
      · exact absurd ⟨_, rfl⟩ hel
      · rfl
    refine ⟨_, hsame, rfl, hnodes, fun el => ?_⟩
    have := htotal el
    have := hok.elements el
    simp only [Heap.unref]
    omega

theorem Released.refl (hok : Ok held h) : Released held h h := ⟨hok, .refl _, le_rfl⟩

theorem Released.trans {held₁ held₂ : Multiset Addr} {h₁ h₂ h₃ : Heap}
    (h₁₂ : Released held₁ h₁ h₂) (h₂₃ : Released held₂ h₂ h₃) : Released held₂ h₁ h₃ :=
  ⟨h₂₃.ok, h₁₂.kept.trans h₂₃.kept, h₂₃.fewer.trans h₁₂.fewer⟩

/-- A reference that is not the last. -/
theorem Released.unref (hok : Ok (e ::ₘ held) h) (h1 : 1 < h.nrefs e) :
    Released held h (h.unref e) := by
  have he : h.nodes.Live e := Nat.lt_of_succ_lt h1
  refine ⟨hok.unref h1, Memory.Kept.drop, ?_⟩
  unfold Memory.population
  rw [Heap.unref, Memory.total_drop (hok.lt he) h1]

/-- A list of references is released when each can be. -/
theorem Released.foldlM {bound : Nat} {f : Heap → Addr → Option Heap}
    (hf : ∀ {held h k}, Ok (k ::ₘ held) h → h.nodes.population ≤ bound →
      ∃ h', f h k = some h' ∧ Released held h h') (ks : List Addr) (hok : Ok (↑ks + held) h)
    (hb : h.nodes.population ≤ bound) : ∃ h', ks.foldlM f h = some h' ∧ Released held h h' := by
  induction ks generalizing h with
  | nil => exact ⟨h, rfl, .refl (by simpa using hok)⟩
  | cons k ks ih =>
      have hk : Ok (k ::ₘ (↑ks + held)) h := by
        rwa [← Multiset.cons_add, Multiset.cons_coe]
      obtain ⟨h₁, hf₁, hr₁⟩ := hf hk hb
      obtain ⟨h₂, hf₂, hr₂⟩ := ih hr₁.ok (hr₁.fewer.trans hb)
      exact ⟨h₂, by simp [hf₁, hf₂], hr₁.trans hr₂⟩

/-- Induction on the fuel: every level of the recursion has one live node less. -/
theorem Ok.exprFree {fuel : Nat} (hok : Ok (e ::ₘ held) h) (hb : h.nodes.population ≤ fuel) :
    ∃ h', h.exprFree fuel e = some h' ∧ Released held h h' := by
  induction fuel generalizing e held h with
  | zero =>
      have he : h.nodes.Live e := hok.nodes.live (Multiset.mem_cons_self _ _)
      obtain ⟨n, hn⟩ := he.node
      have : 1 ≤ h.nodes.population := Memory.le_total (w := fun _ => 1) (hok.lt he) he hn
      omega
  | succ fuel ih =>
      have he : h.nodes.Live e := hok.nodes.live (Multiset.mem_cons_self _ _)
      obtain ⟨n, hn⟩ := he.node
      have hnode : h.node e = some n := hn
      have hcount : (h.unref e).nrefs e = h.nrefs e - 1 := by
        simp [nrefs, Heap.unref, Memory.nrefs_drop]
      unfold Heap.exprFree
      simp only [hnode, Option.bind_eq_bind, Option.bind_some, hcount]
      have hpos : 0 < h.nrefs e := he
      by_cases h1 : 1 < h.nrefs e
      · rw [if_pos (by omega)]
        exact ⟨_, rfl, .unref hok h1⟩
      · have hone : h.nrefs e = 1 := by omega
        rw [if_neg (by omega)]
        obtain ⟨h₁, hel, hnodes, hok₁⟩ := hok.bury hone hn
        have hpop : h₁.nodes.population + 1 = h.nodes.population := by
          unfold Memory.population
          rw [hnodes]
          exact Memory.total_bury (w := fun _ => 1) (hok.lt he) hone hn
        have hone' : ∀ {held : Multiset Addr} {h : Heap} {k : Addr}, Ok (k ::ₘ held) h →
            h.nodes.population ≤ fuel → ∃ h',
              (if h.nrefs k = 1 then Heap.exprFree fuel k h else some (h.unref k)) = some h' ∧
                Released held h h' := by
          intro held h k hok hb
          split
          · exact ih hok hb
          · have hk : 0 < h.nrefs k := hok.nodes.live (Multiset.mem_cons_self _ _)
            exact ⟨_, rfl, .unref hok (by omega)⟩
        obtain ⟨h₂, hkids, hr₂⟩ := Released.foldlM hone' n.kids hok₁ (by omega)
        have hlt₁ : e < h₁.nodes.next := by rw [hnodes]; exact hok.lt he
        have hdead₁ : ¬ h₁.nodes.Live e := by
          rw [hnodes, Memory.Live, Memory.nrefs_drop]
          simp [show h.nodes.nrefs e = 1 from hone]
        have hdead : h₂.nodes.nrefs e = 0 := by
          by_contra hne
          exact hdead₁ (hr₂.kept.live e hlt₁ (Nat.pos_of_ne_zero hne))
        have hlt₂ : e < h₂.nodes.next := hlt₁.trans_le hr₂.kept.next
        refine ⟨_, by rw [hel, Option.bind_some, hkids, Option.bind_some], ?_, ?_, ?_⟩
        · refine ⟨hr₂.ok.nodes.erase hlt₂ hdead, fun el => ?_⟩
          rw [Memory.total_erase hlt₂ hdead]
          exact hr₂.ok.elements el
        · have hkept : Memory.Kept ∅ h.nodes h₁.nodes := hnodes ▸ Memory.Kept.drop
          exact (hkept.trans hr₂.kept).trans Memory.Kept.erase
        · have herase : (h₂.nodes.erase e).population = h₂.nodes.population :=
            Memory.total_erase hlt₂ hdead
          have := hr₂.fewer
          simp only [herase]
          omega

/-- `EXPR_FREE` of a reference that is held. -/
theorem Ok.free (hok : Ok (e ::ₘ held) h) : ∃ h', h.free e = some h' ∧ Released held h h' := by
  unfold Heap.free
  split
  · exact hok.exprFree Memory.population_le
  · have : 0 < h.nrefs e := hok.nodes.live (Multiset.mem_cons_self _ _)
    exact ⟨_, rfl, .unref hok (by omega)⟩

end Heap

end Ttools
