import Ttools.Expr.Sharing

/-!
# Runs of the expression interface

What a caller does with expressions (`shared/expr.c`): it makes leaves, shares and releases
references, copies shared nodes, and builds expressions with `expr_unop`, `expr_binop`,
`expr_questop` and `expr_elsum_append`.  `Request.exec` is one call on the nodes.

* `Sound`: the counts are right, and from every node that is there an expression can be read.
* `Sound.reached`: then there is no garbage: from a reference that is held one gets to every node.
* `Request.exec_sound`: a call with references that the caller holds comes back and keeps this.
* `requests_sound`: so does every sequence of such calls, and when the caller has released what it
  held, nothing is left.

`expr_asgop`, `expr_plus_constant` and `expr_plus_element`, which add to an expression in place, are in
`Ttools.Expr.InPlace`; the reductions are left out.
-/

namespace Ttools

open Support

namespace Heap

/-! ### The other constructors -/

/-- `expr_element`. -/
def exprElement (el : ElemId) (h : Heap) : Addr × Heap :=
  let (e, h) := h.exprAlloc (.element (some el))
  (e, { h with elnrefs := Function.update h.elnrefs el (h.elnrefs el + 1) })

/-- `expr_unop`. -/
def exprUnop (op : UnTag) (e1 : Addr) (h : Heap) : Option (Addr × Heap) :=
  if op = .neg then
    -- (0-e1)
    let (z, h) := (h.exprShare e1).exprAlloc (.const 0)
    h.exprBinopOwned .minus z e1
  else do
    let n1 ← h.node e1
    match n1.const? with
    | some c => some (h.exprAlloc (.const (evalUn op c)))
    | none => some ((h.exprShare e1).exprAlloc (.unop op e1))

/-- `expr_questop`.  The node of the `COLON` is allocated before that of the `QUEST` here. -/
def exprQuestop (cond iftrue ifnot : Addr) (h : Heap) : Option (Addr × Heap) := do
  let n ← h.node cond
  match n.const? with
  | some c =>
      let e := if c ≠ 0 then iftrue else ifnot
      some (e, h.exprShare e)
  | none =>
      let (colon, h) := h.exprPair .colon iftrue ifnot
      some ((h.exprShare cond).exprAlloc (.binop .quest cond colon))

/-- `expr_elsum_append`, with the assertion before it. -/
def exprElsumAppend (e eel : Addr) (h : Heap) : Option Heap := do
  match ← h.node e, ← h.node eel with
  | .elsum v, .element _ => some ((h.exprShare eel).assign e (.elsum (v ++ [eel])))
  | _, _ => none

end Heap

open Heap

/-! ### Requests -/

/-- What a caller asks for. -/
inductive Request where
  | const (c : Word)
  | name (np : NameId)
  | range (lo hi : Word)
  | element (el : ElemId)
  | elsum
  | share (e : Addr)
  | free (e : Addr)
  | unshare (e : Addr)
  | unop (op : UnTag) (e1 : Addr)
  | binop (k : Calling) (op : BinTag) (e1 e2 : Addr)
  | questop (cond iftrue ifnot : Addr)
  | append (e eel : Addr)
  deriving DecidableEq, Repr

namespace Request

/-- The call: what it returns, if anything, and the nodes after it. -/
def exec : Request → Heap → Option (Option Addr × Heap)
  | .const c, h => some ((h.exprAlloc (.const c)).map some id)
  | .name np, h => some ((h.exprAlloc (.name np)).map some id)
  | .range lo hi, h => some ((h.exprAlloc (.range lo hi)).map some id)
  | .element el, h => some ((h.exprElement el).map some id)
  | .elsum, h => some ((h.exprAlloc (.elsum [])).map some id)
  | .share e, h => some (some e, h.exprShare e)
  | .free e, h => (h.free e).map fun h => (none, h)
  | .unshare e, h => (h.exprUnshare e).map (Prod.map some id)
  | .unop op e1, h => (h.exprUnop op e1).map (Prod.map some id)
  | .binop k op e1 e2, h => (k.call op e1 e2 h).map (Prod.map some id)
  | .questop cond iftrue ifnot, h => (h.exprQuestop cond iftrue ifnot).map (Prod.map some id)
  | .append e eel, h => (h.exprElsumAppend e eel).map fun h => (none, h)

/-- The references that are passed to it. -/
def args : Request → Multiset Addr
  | .share e | .free e | .unshare e | .unop _ e => {e}
  | .binop _ _ e1 e2 | .append e1 e2 => {e1, e2}
  | .questop cond iftrue ifnot => {cond, iftrue, ifnot}
  | _ => 0

/-- The references that it consumes. -/
def taken : Request → Multiset Addr
  | .free e | .unshare e => {e}
  | .binop .owned _ e1 e2 => {e1, e2}
  | _ => 0

/-- What the caller sees to: it holds what it passes; two constants are not joined by `QUEST` or
`COLON`, nor by a division whose quotient does not fit in a word; and only a sum that nobody else
holds is added to, an element. -/
def Given (held : Multiset Addr) (h : Heap) (c : Request) : Prop :=
  c.args ≤ held ∧
    match c with
    | .binop _ op e1 e2 => ¬ h.Aborts op e1 e2
    | .append e eel => h.nrefs e = 1 ∧ (∃ v, h.node e = some (.elsum v)) ∧
        ∃ el, h.node eel = some (.element (some el))
    | _ => True

/-- The references that are held after it. -/
def after (held : Multiset Addr) (c : Request) (e : Option Addr) : Multiset Addr :=
  held - c.taken + (e.toList : Multiset Addr)

end Request

/-! ### What a call keeps -/

namespace Heap

variable {held held' : Multiset Addr} {h h' : Heap} {e e1 e2 : Addr} {op : BinTag}

/-- The counts are right, what nobody refers to has been freed, and from every node that is there
an expression can be read. -/
structure Sound (held : Multiset Addr) (h : Heap) : Prop where
  ok : Ok held h
  tidy : Memory.Tidy ∅ h.nodes
  tree : ∀ a, h.nodes.Live a → ∃ t, Denotes h.nodes a t

/-- What does not lead to a node that has been changed is read as before. -/
theorem Sound.keep {S : Set Nat} (hs : Sound held h) (hok : Ok held' h')
    (htidy : Memory.Tidy ∅ h'.nodes) (hk : Memory.Kept S h.nodes h'.nodes)
    (hstay : ∀ a, h'.nodes.Live a →
      (a < h.nodes.next ∧ ∀ b, Reaches h.nodes a b → b ∉ S) ∨ ∃ t, Denotes h'.nodes a t) :
    Sound held' h' := by
  refine ⟨hok, htidy, fun a ha => (hstay a ha).elim (fun hold => ?_) id⟩
  obtain ⟨t, ht⟩ := hs.tree a (hk.live a hold.1 ha)
  exact ⟨t, ht.kept hs.ok.nodes hok.nodes hk ha hold.2⟩

/-- A call that has made nodes and changed none. -/
theorem Sound.made (hs : Sound held h) (hok : Ok held' h') (htidy : Memory.Tidy ∅ h'.nodes)
    (hk : Memory.Kept ∅ h.nodes h'.nodes)
    (hnew : ∀ a, h.nodes.next ≤ a → h'.nodes.Live a → ∃ t, Denotes h'.nodes a t) :
    Sound held' h' := by
  refine hs.keep hok htidy hk fun a ha => ?_
  rcases Nat.lt_or_ge a h.nodes.next with hlt | hge
  · exact .inl ⟨hlt, fun _ _ => Set.notMem_empty _⟩
  · exact .inr (hnew a hge ha)

/-- A call that has made one node, and changed none. -/
theorem Sound.made_one (hs : Sound held' h) (hm : Made ∅ held h h' e)
    (htidy : Memory.Tidy ∅ h'.nodes) (hnext : h'.nodes.next = h.nodes.next + 1)
    (ht : ∃ t, Denotes h'.nodes e t) :
    Sound (e ::ₘ held) h' := by
  refine hs.made hm.ok htidy hm.kept fun a hge ha => ?_
  have hlt : a ≤ h.nodes.next := Nat.le_of_lt_succ ((hm.ok.lt ha).trans_eq hnext)
  have hlt' : e ≤ h.nodes.next := Nat.le_of_lt_succ ((hm.ok.lt hm.live).trans_eq hnext)
  obtain rfl : a = e := (hlt.antisymm hge).trans (hm.fresh.antisymm hlt')
  exact ht

theorem Sound.leaf (hs : Sound held h) {n : Node} (hkids : n.kids = [])
    (hel : ∀ el, n.toElement el = 0) (ht : ∀ m a, Memory.node m a = some n → ∃ t, Denotes m a t) :
    Sound ((h.exprAlloc n).1 ::ₘ held) (h.exprAlloc n).2 := by
  have hshared : Shared (↑n.kids + held) h h :=
    ⟨by simpa [hkids] using hs.ok, rfl, fun _ => rfl, fun _ => le_rfl, .refl _⟩
  exact hs.made_one (made_alloc hshared hel) (hs.tidy.alloc n) rfl (ht _ _ (node_alloc_self n))

/-- `el->nrefs` covers the new node. -/
theorem made_element (hok : Ok held h) (el : ElemId) :
    Made ∅ held h (h.exprElement el).2 (h.exprElement el).1 := by
  have hnodes : (h.exprElement el).2.nodes = h.nodes.alloc (.element (some el)) := rfl
  have hcounted : Memory.Counted Node.kids (h.nodes.next ::ₘ held)
      (h.nodes.alloc (.element (some el))) := by
    refine Memory.Counted.alloc ?_
    simpa [Node.kids] using hok.nodes
  refine ⟨⟨hcounted, fun el' => ?_⟩, hnodes ▸ Memory.Kept.alloc _, le_rfl⟩
  have hold := hok.elements el'
  rw [hnodes, Memory.total_alloc, Node.toElement]
  show _ ≤ Function.update h.elnrefs el (h.elnrefs el + 1) el'
  rw [Function.update_apply]
  split
  · next heq =>
      subst heq
      rw [if_pos rfl]
      omega
  · next hne =>
      rw [if_neg (Ne.symm hne)]
      omega

theorem Sound.element (hs : Sound held h) (el : ElemId) :
    Sound ((h.exprElement el).1 ::ₘ held) (h.exprElement el).2 :=
  hs.made_one (made_element hs.ok el) (hs.tidy.alloc _) rfl ⟨_, .element (node_alloc_self _)⟩

theorem Sound.share (hs : Sound held h) (he : h.nodes.Live e) :
    Sound (e ::ₘ held) (h.exprShare e) := by
  have hok := hs.ok.share he
  exact hs.made hok (hs.tidy.share e) (.share he) fun a hge ha =>
    absurd (hok.lt ha) (Nat.not_lt.mpr hge)

/-! ### Releasing -/

/-- What releasing does to the nodes as a whole: no node is made, and none is left behind. -/
def Frees (h h' : Heap) : Prop :=
  h'.nodes.next = h.nodes.next ∧ ∀ S, Memory.Tidy S h.nodes → Memory.Tidy S h'.nodes

theorem frees_unref (hne : h.nrefs e ≠ 1) : Frees h (h.unref e) := ⟨rfl, fun _ ht => ht.drop hne⟩

theorem exprFree_frees : ∀ {fuel : Nat} {e : Addr} {h h' : Heap}, h.exprFree fuel e = some h' →
    Frees h h'
  | 0, _, _, _, hcall => by cases hcall
  | fuel + 1, e, h, h', hcall => by
      have hkids : ∀ (ks : List Addr) (h₁ h₂ : Heap), ks.foldlM (fun h k =>
          if h.nrefs k = 1 then exprFree fuel k h else h.unref k) h₁ = some h₂ → Frees h₁ h₂ := by
        intro ks
        induction ks with
        | nil =>
            rintro h₁ h₂ ⟨⟩
            exact ⟨rfl, fun _ => id⟩
        | cons k ks ih =>
            intro h₁ h₂ hfold
            rw [List.foldlM_cons, Option.bind_eq_bind, Option.bind_eq_some_iff] at hfold
            obtain ⟨h₃, hk, hrest⟩ := hfold
            have hfirst : Frees h₁ h₃ := by
              split at hk
              · exact exprFree_frees hk
              · next hne =>
                  cases hk
                  exact frees_unref hne
            have hlater := ih h₃ h₂ hrest
            exact ⟨hlater.1.trans hfirst.1, fun S ht => hlater.2 S (hfirst.2 S ht)⟩
      rw [exprFree, Option.bind_eq_bind, Option.bind_eq_some_iff] at hcall
      obtain ⟨n, -, hcall⟩ := hcall
      dsimp only at hcall
      split at hcall
      · next hpos =>
          cases hcall
          exact ⟨rfl, fun S ht => ht.bury.of_live hpos⟩
      · rw [Option.bind_eq_bind, Option.bind_eq_some_iff] at hcall
        obtain ⟨h₁, hel, hcall⟩ := hcall
        rw [Option.bind_eq_some_iff] at hcall
        obtain ⟨h₂, hfold, ⟨⟩⟩ := hcall
        have hel' : h₁.nodes = h.nodes.drop e := by
          unfold unrefElement at hel
          split at hel
          · split at hel
            · cases hel
              rfl
            · cases hel
          · cases hel
            rfl
        obtain ⟨hnext, htidy⟩ := hkids _ _ _ hfold
        rw [hel'] at hnext htidy
        exact ⟨hnext, fun S ht => (htidy _ ht.bury).erase⟩

theorem free_frees (hcall : h.free e = some h') : Frees h h' := by
  unfold Heap.free at hcall
  split at hcall
  · exact exprFree_frees hcall
  · next hne =>
      cases hcall
      exact frees_unref hne

theorem Sound.free (hs : Sound (e ::ₘ held) h) : ∃ h', h.free e = some h' ∧ Sound held h' := by
  obtain ⟨h', hcall, hr⟩ := hs.ok.free
  obtain ⟨hnext, htidy⟩ := free_frees hcall
  refine ⟨h', hcall, hs.made hr.ok (htidy _ hs.tidy) hr.kept fun a hge ha => ?_⟩
  exact absurd ((hr.ok.lt ha).trans_eq hnext) (Nat.not_lt.mpr hge)

/-! ### Copies -/

/-- A copy of an element: it refers to the element too. -/
theorem unshare_element {el : ElemId} (hok : Ok (e ::ₘ held) h) (h1 : 1 < h.nrefs e)
    (hn : h.node e = some (.element (some el))) :
    ∃ f h', h.exprUnshare e = some (f, h') ∧ Made ∅ held h h' f ∧
      h'.node f = some (.element (some el)) := by
  have hlt : e < h.nodes.next := hok.lt (Nat.lt_of_succ_lt h1)
  have hcounted : Memory.Counted Node.kids (h.nodes.next ::ₘ e ::ₘ held)
      (h.nodes.alloc (.element (some el))) := by
    refine Memory.Counted.alloc ?_
    simpa [Node.kids] using hok.nodes
  have hcount : (h.nodes.alloc (.element (some el))).nrefs e = h.nrefs e := by
    simp [Heap.nrefs, Memory.nrefs_alloc, hlt.ne]
  rw [Multiset.cons_swap] at hcounted
  refine ⟨h.nodes.next, ⟨(h.nodes.alloc (.element (some el))).drop e,
    Function.update h.elnrefs el (h.elnrefs el + 1)⟩, ?_, ⟨⟨?_, fun el' => ?_⟩,
    (Memory.Kept.alloc _).trans .drop, le_rfl⟩, ?_⟩
  · simp [exprUnshare, hn, if_pos h1, exprNodeCopy, exprAlloc, Heap.unref]
  · exact hcounted.drop (by rw [hcount]; exact h1)
  · have hold := hok.elements el'
    have hlive : 1 < (h.nodes.alloc (.element (some el))).nrefs e := by rw [hcount]; exact h1
    have hltnext : e < (h.nodes.alloc (.element (some el))).next := Nat.lt_succ_of_lt hlt
    show ((h.nodes.alloc _).drop e).total _ ≤ Function.update h.elnrefs el _ el'
    rw [Memory.total_drop hltnext hlive, Memory.total_alloc, Node.toElement, Function.update_apply]
    split
    · next heq =>
        subst heq
        rw [if_pos rfl]
        omega
    · next hne =>
        rw [if_neg (Ne.symm hne)]
        omega
  · show ((h.nodes.alloc _).drop e).node h.nodes.next = _
    rw [Memory.node_drop, Memory.node_alloc, if_pos rfl]

/-- What is read from a node is read from a copy of it. -/
theorem denotes_copy {m m' : Memory Node} {a b : Addr} {n : Node} {t : Expr} (h : Denotes m a t)
    (ha : m.node a = some n) (hb : m'.node b = some n)
    (hkids : ∀ c ∈ n.kids, ∀ u, Denotes m c u → Denotes m' c u) : Denotes m' b t := by
  cases h with
  | const h | name h | range h | element h =>
      rw [ha] at h
      cases h
      first | exact .const hb | exact .name hb | exact .range hb | exact .element hb
  | unop h hr =>
      rw [ha] at h
      cases h
      exact .unop hb (hkids _ (by simp [Node.kids]) _ hr)
  | binop h hl hr =>
      rw [ha] at h
      cases h
      exact .binop hb (hkids _ (by simp [Node.kids]) _ hl) (hkids _ (by simp [Node.kids]) _ hr)
  | elsum h hlen hv =>
      rw [ha] at h
      cases h
      exact .elsum hb hlen fun p hp => hkids _ (List.of_mem_zip hp).1 _ (hv p hp)

theorem foldl_share (ks : List Addr) (h : Heap) :
    (ks.foldl (fun h k => h.exprShare k) h).nodes.next = h.nodes.next ∧
      (∀ b, h.nrefs b ≤ (ks.foldl (fun h k => h.exprShare k) h).nrefs b) ∧
      (Memory.Tidy ∅ h.nodes →
        Memory.Tidy ∅ (ks.foldl (fun h k => h.exprShare k) h).nodes) := by
  induction ks generalizing h with
  | nil => exact ⟨rfl, fun _ => le_rfl, id⟩
  | cons k ks ih =>
      obtain ⟨hnext, hmore, htidy⟩ := ih (h.exprShare k)
      refine ⟨hnext, fun b => le_trans ?_ (hmore b), fun ht => htidy (ht.share k)⟩
      unfold nrefs exprShare Memory.share Memory.put Memory.nrefs
      by_cases hb : b = k
      · subst hb
        rcases h.nodes.cell b with _ | c <;> simp
      · simp [hb]

/-- A copy is the next node, and the node that was copied is still there. -/
theorem exprUnshare_next (h1 : 1 < h.nrefs e) {f : Addr} (hcall : h.exprUnshare e = some (f, h')) :
    f = h.nodes.next ∧ h'.nodes.next = h.nodes.next + 1 ∧
      (Memory.Tidy ∅ h.nodes → Memory.Tidy ∅ h'.nodes) := by
  rw [exprUnshare, Option.bind_eq_bind, Option.bind_eq_some_iff] at hcall
  obtain ⟨n, hn, hcall⟩ := hcall
  rw [if_pos h1, Option.bind_eq_bind, Option.bind_eq_some_iff] at hcall
  obtain ⟨h₁, hcopy, ⟨⟩⟩ := hcall
  obtain ⟨hnext, hmore, htidy⟩ : h₁.nodes.next = h.nodes.next ∧ (∀ b, h.nrefs b ≤ h₁.nrefs b) ∧
      (Memory.Tidy ∅ h.nodes → Memory.Tidy ∅ h₁.nodes) := by
    unfold exprNodeCopy at hcopy
    split at hcopy
    · cases hcopy
    · cases hcopy
      exact ⟨rfl, fun _ => le_rfl, id⟩
    · cases hcopy
      exact foldl_share _ _
  refine ⟨hnext, by rw [← hnext]; rfl, fun ht => ((htidy ht).alloc n).drop ?_⟩
  have hlt : e < h₁.nodes.next := hnext ▸ (ht e n hn).1
  rw [Memory.nrefs_alloc, if_neg hlt.ne]
  exact (h1.trans_le (hmore e)).ne'

/-- The copy of a node that others hold too is read as the node was. -/
theorem unshare_made {t : Expr} (hok : Ok (e ::ₘ held) h) (h1 : 1 < h.nrefs e)
    (ht : Denotes h.nodes e t) :
    ∃ f h', h.exprUnshare e = some (f, h') ∧ Made ∅ held h h' f ∧ Denotes h'.nodes f t := by
  obtain ⟨n, hn⟩ := ht.node
  have hnode : h.node e = some n := hn
  obtain ⟨f, h', hcall, hm, hf⟩ : ∃ f h', h.exprUnshare e = some (f, h') ∧ Made ∅ held h h' f ∧
      h'.node f = some n := by
    by_cases hel : ∃ el, n = .element el
    · obtain ⟨el, rfl⟩ := hel
      cases ht with
      | element hel =>
          rw [hn] at hel
          cases hel
          exact unshare_element hok h1 hnode
      | const h | name h | unop h _ | binop h _ _ | range h | elsum h _ _ =>
          rw [hn] at h
          cases h
    · rw [not_exists] at hel
      obtain ⟨f, h', hcall, hm, hf, -⟩ := unshare_spec hok h1 hnode hel
      exact ⟨f, h', hcall, hm, hf⟩
  refine ⟨f, h', hcall, hm, denotes_copy ht hn hf fun c hc u hu => ?_⟩
  exact hu.kept hok.nodes hm.ok.nodes hm.kept (hm.ok.node_live hm.live hf hc)
    fun _ _ => Set.notMem_empty _

theorem Sound.unshare (hs : Sound (e ::ₘ held) h) :
    ∃ f h', h.exprUnshare e = some (f, h') ∧ Sound (f ::ₘ held) h' := by
  obtain ⟨t, ht⟩ := hs.tree e (hs.ok.nodes.live (Multiset.mem_cons_self _ _))
  obtain ⟨n, hn⟩ := ht.node
  have hnode : h.node e = some n := hn
  by_cases h1 : 1 < h.nrefs e
  · obtain ⟨f, h', hcall, hm, ht'⟩ := unshare_made hs.ok h1 ht
    obtain ⟨rfl, hnext, htidy⟩ := exprUnshare_next h1 hcall
    refine ⟨_, h', hcall, hs.made hm.ok (htidy hs.tidy) hm.kept fun a hge ha => ⟨t, ?_⟩⟩
    obtain rfl : a = h.nodes.next :=
      (Nat.le_of_lt_succ ((hm.ok.lt ha).trans_eq hnext)).antisymm hge
    exact ht'
  · exact ⟨e, h, by simp [exprUnshare, hnode, h1], hs⟩

/-! ### Expressions of two operands -/

/-- Of the nodes that are new in `h'`, all but `e` are constants, and none is left behind. -/
structure Grown (h h' : Heap) (e : Addr) : Prop where
  tidy : Memory.Tidy ∅ h'.nodes
  fresh : ∀ a, h.nodes.next ≤ a → h'.nodes.Live a → a = e ∨ ∃ c, h'.node a = some (.const c)

theorem Grown.one (htidy : Memory.Tidy ∅ h'.nodes) (hnext : h'.nodes.next = h.nodes.next + 1)
    (he : e = h.nodes.next) : Grown h h' e := by
  refine ⟨htidy, fun a hge ha => .inl ?_⟩
  obtain ⟨n, hn⟩ := ha.node
  have hlt : a < h.nodes.next + 1 := (htidy a n hn).1.trans_eq hnext
  exact ((Nat.le_of_lt_succ hlt).antisymm hge).trans he.symm

/-- The sum of the constants is in a second new node, unless the first one has it to itself. -/
theorem fold_grown {d : Word} (ht : Memory.Tidy ∅ h.nodes) (he : h.nodes.Live e1) (hcall : (do
      let (e, h) ← (h.exprShare e1).exprUnshare e1
      h.addToRight e d) = some (e, h')) : Grown h h' e := by
  have hpos : 0 < h.nrefs e1 := he
  have h1 : 1 < (h.exprShare e1).nrefs e1 := by
    simp only [nrefs, exprShare, Memory.nrefs_share he, if_pos]
    exact Nat.lt_add_of_pos_left hpos
  rw [Option.bind_eq_bind, Option.bind_eq_some_iff] at hcall
  obtain ⟨⟨f, h₂⟩, hunshare, hcall⟩ := hcall
  obtain ⟨rfl, hnext, htidy⟩ := exprUnshare_next h1 hunshare
  have ht₂ := htidy (ht.share e1)
  have hnext₂ : h₂.nodes.next = h.nodes.next + 1 := hnext
  simp only [addToRight, Option.bind_eq_bind, Option.bind_eq_some_iff] at hcall
  obtain ⟨n, hn, hcall⟩ := hcall
  cases n with
  | binop t l r =>
      obtain ⟨⟨r', h₃⟩, hright, hcall⟩ := Option.bind_eq_some_iff.mp hcall
      obtain ⟨n', hn', hcall⟩ := Option.bind_eq_some_iff.mp hcall
      cases n' with
      | const c =>
          cases hcall
          by_cases hr : 1 < h₂.nrefs r
          · obtain ⟨rfl, hnext₃, htidy₃⟩ := exprUnshare_next hr hright
            refine ⟨((htidy₃ ht₂).write _ _).write _ _, fun a hge ha => ?_⟩
            rcases Nat.lt_or_ge a h₂.nodes.next with hlt | hge₂
            · refine .inl (Nat.le_antisymm (Nat.le_of_lt_succ ?_) hge)
              exact hlt.trans_eq hnext₂
            · obtain ⟨n, hn₃⟩ := ha.node
              have hlt := ((((htidy₃ ht₂).write _ _).write _ _) a n hn₃).1
              obtain rfl : a = h₂.nodes.next :=
                (Nat.le_of_lt_succ (hlt.trans_eq hnext₃)).antisymm hge₂
              exact .inr ⟨_, (Memory.node_write hn').trans (if_pos rfl)⟩
          · rw [exprUnshare, Option.bind_eq_bind, Option.bind_eq_some_iff] at hright
            obtain ⟨n₂, -, hright⟩ := hright
            rw [if_neg hr] at hright
            cases hright
            exact .one ((ht₂.write _ _).write _ _) hnext₂ rfl
      | _ => cases hcall
  | _ => cases hcall

theorem exprNode_grown (ht : Memory.Tidy ∅ h.nodes) (h1 : h.nodes.Live e1)
    (hcall : h.exprNode op e1 e2 = some (e, h')) : Grown h h' e := by
  simp only [exprNode, Option.bind_eq_bind, Option.bind_eq_some_iff] at hcall
  obtain ⟨n1, -, n2, -, hcall⟩ := hcall
  have hpair : h.exprPair op e1 e2 = (e, h') → Grown h h' e := by
    rintro ⟨⟩
    exact .one (((ht.share e1).share e2).alloc _) rfl rfl
  split at hcall
  · obtain ⟨n, -, hcall⟩ := Option.bind_eq_some_iff.mp hcall
    split at hcall
    · exact fold_grown ht h1 hcall
    · split at hcall
      · cases hcall
        exact .one ((((ht.share e2).write e1 _).share e1).alloc _) rfl rfl
      · exact hpair (Option.some.inj hcall)
    · exact hpair (Option.some.inj hcall)
  · exact hpair (Option.some.inj hcall)

/-- Of the nodes that `expr_binop` makes, all but the one it returns are constants. -/
theorem exprBinop_grown (ht : Memory.Tidy ∅ h.nodes) (h1 : h.nodes.Live e1) (h2 : h.nodes.Live e2)
    (hcall : h.exprBinop op e1 e2 = some (e, h')) : Grown h h' e := by
  simp only [exprBinop, Option.bind_eq_bind, Option.bind_eq_some_iff] at hcall
  obtain ⟨n1, -, n2, -, hcall⟩ := hcall
  split at hcall
  · obtain ⟨x, -, ⟨⟩⟩ := Option.bind_eq_some_iff.mp hcall
    exact .one (ht.alloc _) rfl rfl
  · split at hcall
    · exact exprNode_grown ht h2 hcall
    · exact exprNode_grown ht h1 hcall

/-- Two references to one node are two of its count. -/
theorem ne_of_sole (hok : Ok held h) (hle : {e1, e2} ≤ held) (h1 : h.nrefs e1 = 1) : e2 ≠ e1 := by
  rintro rfl
  have hcount := Multiset.count_le_of_le e2 hle
  have hall := hok.nodes.count e2
  have hone : h.nodes.nrefs e2 = 1 := h1
  simp at hcount
  omega

theorem Sound.binop (hs : Sound held h) (hle : {e1, e2} ≤ held) (hab : ¬ h.Aborts op e1 e2) :
    ∃ e h', h.exprBinop op e1 e2 = some (e, h') ∧ Sound (e ::ₘ held) h' := by
  have hmem1 : e1 ∈ held := Multiset.mem_of_le hle (by simp)
  have hmem2 : e2 ∈ held := Multiset.mem_of_le hle (by simp)
  have hlive1 := hs.ok.nodes.live hmem1
  have hlive2 := hs.ok.nodes.live hmem2
  obtain ⟨t1, ht1⟩ := hs.tree e1 hlive1
  obtain ⟨t2, ht2⟩ := hs.tree e2 hlive2
  have hnew : ∀ {e h'}, Grown h h' e → (∃ t, Denotes h'.nodes e t) →
      ∀ a, h.nodes.next ≤ a → h'.nodes.Live a → ∃ t, Denotes h'.nodes a t :=
    fun hg hd a hge ha => (hg.fresh a hge ha).elim (fun heq => heq ▸ hd) fun ⟨_, hc⟩ =>
      ⟨_, .const hc⟩
  by_cases hl : ∃ x r c, h.Lifts op e1 e2 x r c
  · obtain ⟨x, r, c, hl⟩ := hl
    obtain ⟨-, hn, hr, hone, -⟩ := id hl
    obtain ⟨tx, ty, rfl, -, hy⟩ := ht1.of_binop hn
    obtain rfl := hy.unique (.const hr)
    obtain ⟨e, h', hcall, hm, -, -, hdone⟩ := exprBinop_lift hs.ok hlive1 hlive2 hl ht1 ht2
    have hne := ne_of_sole hs.ok hle hone
    obtain ⟨hd1, hd⟩ := hdone fun hr => not_reaches_sole hs.ok hmem1 hone hlive2 hne hr rfl
    have hg := exprBinop_grown hs.tidy hlive1 hlive2 hcall
    refine ⟨e, h', hcall, hs.keep hm.ok hg.tidy hm.kept fun a ha => ?_⟩
    rcases Nat.lt_or_ge a h.nodes.next with hlt | hge
    · by_cases hae : a = e1
      · exact .inr ⟨_, hae ▸ hd1⟩
      · refine .inl ⟨hlt, fun b hb => ?_⟩
        exact not_reaches_sole hs.ok hmem1 hone (hm.kept.live a hlt ha) hae hb
    · exact .inr (hnew hg ⟨_, hd⟩ a hge ha)
  · obtain ⟨e, h', t, hcall, hm, hd, -⟩ :=
      exprBinop_spec hs.ok hlive1 hlive2 ht1 ht2 hab fun x r c hlift => hl ⟨x, r, c, hlift⟩
    have hg := exprBinop_grown hs.tidy hlive1 hlive2 hcall
    exact ⟨e, h', hcall, hs.made hm.ok hg.tidy hm.kept (hnew hg ⟨t, hd⟩)⟩

theorem Sound.binopOwned (hs : Sound held h) (hle : {e1, e2} ≤ held) (hab : ¬ h.Aborts op e1 e2) :
    ∃ e h', h.exprBinopOwned op e1 e2 = some (e, h') ∧ Sound (e ::ₘ (held - {e1, e2})) h' := by
  obtain ⟨e, h₁, hcall, hs₁⟩ := hs.binop hle hab
  obtain ⟨left, rfl⟩ := Multiset.le_iff_exists_add.mp hle
  have hheld : e ::ₘ ({e1, e2} + left) = e1 ::ₘ e2 ::ₘ e ::ₘ left := by
    refine Multiset.ext.mpr fun y => ?_
    simp only [Multiset.insert_eq_cons, Multiset.count_add, Multiset.count_cons,
      Multiset.count_singleton]
    omega
  rw [hheld] at hs₁
  obtain ⟨h₂, hf₁, hs₂⟩ := hs₁.free
  obtain ⟨h₃, hf₂, hs₃⟩ := hs₂.free
  rw [add_tsub_cancel_left]
  exact ⟨e, h₃, by simp [exprBinopOwned, hcall, hf₁, hf₂], hs₃⟩

/-! ### The others -/

theorem Sound.unop (hs : Sound held h) (he : e ∈ held) (op : UnTag) :
    ∃ f h', h.exprUnop op e = some (f, h') ∧ Sound (f ::ₘ held) h' := by
  have hlive := hs.ok.nodes.live he
  unfold exprUnop
  split
  · -- the zero is new, so it is not the node of `x + C` that might be written into
    have hs₁ := (hs.share hlive).leaf (n := .const 0) rfl (fun _ => rfl) fun _ _ h => ⟨_, .const h⟩
    have hle : {h.nodes.next, e} ≤ h.nodes.next ::ₘ e ::ₘ held := by
      rw [Multiset.insert_eq_cons, ← Multiset.singleton_add e held]
      exact Multiset.cons_le_cons _ (Multiset.le_add_right _ _)
    obtain ⟨f, h', hcall, hs'⟩ := hs₁.binopOwned hle
      (not_aborts (show BinTag.minus ≠ .quest by decide) (by decide) (by decide) (by decide))
    refine ⟨f, h', hcall, ?_⟩
    have hsub : h.nodes.next ::ₘ e ::ₘ held - {h.nodes.next, e} = held := by
      rw [Multiset.insert_eq_cons, ← Multiset.singleton_add e held, ← Multiset.cons_add,
        add_tsub_cancel_left]
    exact hsub ▸ hs'
  · obtain ⟨t, ht⟩ := hs.tree e hlive
    obtain ⟨n, hn⟩ := ht.node
    have hnode : h.node e = some n := hn
    rcases hc : n.const? with _ | c
    · have hm := made_alloc (n := .unop op e) (by simpa [Node.kids] using Shared.one hs.ok hlive)
        fun _ => rfl
      refine ⟨_, _, by simp [hnode, hc], hs.made_one hm ((hs.tidy.share e).alloc _) rfl
        ⟨.unop op t, ?_⟩⟩
      refine .unop (node_alloc_self _) (hm.denotes hs.ok ht ?_)
      exact hm.ok.node_live hm.live (node_alloc_self _) (by simp [Node.kids])
    · exact ⟨_, _, by simp only [hnode, hc, Option.bind_eq_bind, Option.bind_some],
        hs.leaf (n := .const (evalUn op c)) rfl (fun _ => rfl) fun _ _ h => ⟨_, .const h⟩⟩

theorem Sound.pair (hs : Sound held h) (op : BinTag) (h1 : h.nodes.Live e1)
    (h2 : h.nodes.Live e2) : Sound ((h.exprPair op e1 e2).1 ::ₘ held) (h.exprPair op e1 e2).2 := by
  obtain ⟨t1, ht1⟩ := hs.tree e1 h1
  obtain ⟨t2, ht2⟩ := hs.tree e2 h2
  obtain ⟨hm, hn⟩ := pair_spec op hs.ok h1 h2
  have hkid : ∀ {b t}, b ∈ (Node.binop op e1 e2).kids → Denotes h.nodes b t →
      Denotes (h.exprPair op e1 e2).2.nodes b t := fun hb hd =>
    hm.denotes hs.ok hd (hm.ok.node_live hm.live hn hb)
  exact hs.made_one hm (((hs.tidy.share e1).share e2).alloc _) rfl
    ⟨_, .binop hn (hkid (by simp [Node.kids]) ht1) (hkid (by simp [Node.kids]) ht2)⟩

theorem Sound.questop (hs : Sound held h) {cond iftrue ifnot : Addr}
    (hle : {cond, iftrue, ifnot} ≤ held) :
    ∃ e h', h.exprQuestop cond iftrue ifnot = some (e, h') ∧ Sound (e ::ₘ held) h' := by
  have hlive : ∀ a ∈ ({cond, iftrue, ifnot} : Multiset Addr), h.nodes.Live a := fun a ha =>
    hs.ok.nodes.live (Multiset.mem_of_le hle ha)
  have hcond := hlive cond (by simp)
  have htrue := hlive iftrue (by simp)
  have hnot := hlive ifnot (by simp)
  obtain ⟨t, ht⟩ := hs.tree cond hcond
  obtain ⟨n, hn⟩ := ht.node
  have hnode : h.node cond = some n := hn
  simp only [exprQuestop, hnode, Option.bind_eq_bind, Option.bind_some]
  rcases hc : n.const? with _ | c
  · -- the `COLON` is held while the `QUEST` is made
    have hs₁ := hs.pair .colon htrue hnot
    obtain ⟨hm₁, -⟩ := pair_spec .colon hs.ok htrue hnot
    have hcond₁ : (h.exprPair .colon iftrue ifnot).2.nodes.Live cond :=
      hs₁.ok.nodes.live (Multiset.mem_cons_of_mem (Multiset.mem_of_le hle (by simp)))
    obtain ⟨tc, htc⟩ := hs₁.tree _ hm₁.live
    obtain ⟨t₁, ht₁⟩ := hs₁.tree cond hcond₁
    have hshared := Shared.one hs₁.ok hcond₁
    rw [Multiset.cons_swap, ← kids_binop .quest] at hshared
    have hm := made_alloc hshared fun _ => rfl
    have hself := node_alloc_self (h := (h.exprPair .colon iftrue ifnot).2.exprShare cond)
      (.binop .quest cond (h.exprPair .colon iftrue ifnot).1)
    have hkid : ∀ {b u}, b ∈ (Node.binop .quest cond (h.exprPair .colon iftrue ifnot).1).kids →
        Denotes (h.exprPair .colon iftrue ifnot).2.nodes b u → Denotes _ b u := fun hb hd =>
      hd.kept hs₁.ok.nodes hm.ok.nodes hm.kept (hm.ok.node_live hm.live hself hb)
        fun _ _ => Set.notMem_empty _
    exact ⟨_, _, rfl, hs₁.made_one hm ((hs₁.tidy.share cond).alloc _) rfl
      ⟨_, .binop hself (hkid (by simp [Node.kids]) ht₁) (hkid (by simp [Node.kids]) htc)⟩⟩
  · refine ⟨_, _, rfl, hs.share ?_⟩
    split
    · exact htrue
    · exact hnot

/-- A sum that nobody else holds is made longer. -/
theorem Sound.append (hs : Sound held h) (hle : {e1, e2} ≤ held) (h1 : h.nrefs e1 = 1)
    {v : List Addr} (hv : h.node e1 = some (.elsum v)) {el : ElemId}
    (hel : h.node e2 = some (.element (some el))) :
    ∃ h', h.exprElsumAppend e1 e2 = some h' ∧ Sound held h' := by
  have hmem1 : e1 ∈ held := Multiset.mem_of_le hle (by simp)
  have hlive1 := hs.ok.nodes.live hmem1
  have hlive2 := hs.ok.nodes.live (Multiset.mem_of_le hle (show e2 ∈ {e1, e2} by simp))
  have hne : e2 ≠ e1 := ne_of_sole hs.ok hle h1
  have hshared := Shared.one hs.ok hlive2
  have hn₁ : (h.exprShare e2).node e1 = some (.elsum v) := (hshared.node e1).trans hv
  have hswap : (e2 ::ₘ held) + ↑(Node.elsum v).kids = held + ↑(Node.elsum (v ++ [e2])).kids := by
    refine Multiset.ext.mpr fun y => ?_
    simp only [Node.kids, Multiset.count_add, Multiset.count_cons, Multiset.coe_count,
      List.count_append, List.count_singleton, beq_iff_eq, eq_comm (a := e2)]
    omega
  have hok := hshared.ok.assign (hshared.live hlive1) hn₁ hswap fun _ => rfl
  have hkept : Memory.Kept {e1} h.nodes ((h.exprShare e2).assign e1 (.elsum (v ++ [e2]))).nodes :=
    (Memory.Kept.share hlive2).write (.inl rfl)
  refine ⟨_, by simp [exprElsumAppend, hv, hel], hs.keep hok ((hs.tidy.share e2).write e1 _) hkept
    fun a ha => ?_⟩
  -- nobody else gets to the sum, its members included
  have hfar : ∀ {b}, h.nodes.Live b → b ≠ e1 → ∀ c, Reaches h.nodes b c → c ∉ ({e1} : Set Nat) :=
    fun hb hbe c hc => not_reaches_sole hs.ok hmem1 h1 hb hbe hc
  by_cases hae : a = e1
  · subst hae
    obtain ⟨t, ht⟩ := hs.tree a hlive1
    have hself : ((h.exprShare e2).assign a (.elsum (v ++ [e2]))).nodes.node a
        = some (.elsum (v ++ [e2])) := Memory.node_write hn₁ |>.trans (if_pos rfl)
    have hread : ∀ {b u}, b ∈ v ++ [e2] → h.nodes.Live b → b ≠ a → Denotes h.nodes b u →
        Denotes ((h.exprShare e2).assign a (.elsum (v ++ [e2]))).nodes b u := fun hb hbl hba hd =>
      hd.kept hs.ok.nodes hok.nodes hkept (hok.node_live ha hself hb) (hfar hbl hba)
    cases ht with
    | @elsum _ w ts hw hlen hts =>
        obtain rfl : w = v := by
          have hvw := hw.symm.trans hv
          cases hvw
          rfl
        refine .inr ⟨.elsum (ts ++ [.element el]), .elsum hself (by simp [hlen]) ?_⟩
        rw [List.zip_append hlen]
        intro p hp
        rcases List.mem_append.mp hp with hp | hp
        · have hmem := (List.of_mem_zip hp).1
          have hl : h.nodes.Live p.1 := hs.ok.node_live hlive1 hv hmem
          refine hread (List.mem_append_left _ hmem) hl ?_ (hts p hp)
          intro heq
          exact hs.ok.nodes.sole hmem1 h1 hlive1 hv (heq ▸ hmem)
        · obtain rfl : p = (e2, .element el) := by simpa using hp
          exact hread (by simp) hlive2 hne (.element hel)
    | const h | name h | unop h _ | binop h _ _ | range h | element h =>
        have hvw := h.symm.trans hv
        cases hvw
  · have hlt : a < h.nodes.next := hok.lt ha
    exact .inl ⟨hlt, hfar (hkept.live a hlt ha) hae⟩

/-! ### No garbage -/

/-- From a reference that is held one gets to every node. -/
theorem Sound.reached (hs : Sound held h) {a : Addr} (ha : h.nodes.Live a) :
    ∃ b ∈ held, Reaches h.nodes b a := by
  classical
  -- of the nodes nobody gets to, look at one whose expression is largest: who refers to it?
  by_contra hno
  let size (b : Addr) : Nat := if hb : ∃ t, Denotes h.nodes b t then sizeOf hb.choose else 0
  have hsize : ∀ {b t}, Denotes h.nodes b t → size b = sizeOf t := by
    intro b t ht
    have hb : ∃ t, Denotes h.nodes b t := ⟨t, ht⟩
    rw [show size b = sizeOf hb.choose from dif_pos hb, hb.choose_spec.unique ht]
  let lost := (Finset.range h.nodes.next).filter fun b =>
    h.nodes.Live b ∧ ¬ ∃ c ∈ held, Reaches h.nodes c b
  have hmem : ∀ {b}, b ∈ lost ↔ h.nodes.Live b ∧ ¬ ∃ c ∈ held, Reaches h.nodes c b := by
    intro b
    simp only [lost, Finset.mem_filter, Finset.mem_range, and_iff_right_iff_imp]
    exact fun hb => hs.ok.lt hb.1
  obtain ⟨b, hb, hmax⟩ := lost.exists_max_image size ⟨a, hmem.mpr ⟨ha, hno⟩⟩
  obtain ⟨hblive, hbno⟩ := hmem.mp hb
  obtain ⟨c, n, hclive, hn, hkid⟩ :=
    hs.ok.nodes.referrer hblive fun hheld => hbno ⟨b, hheld, .refl⟩
  have hc : c ∈ lost := hmem.mpr ⟨hclive, fun ⟨d, hd, hr⟩ => hbno ⟨d, hd, hr.tail ⟨n, hn, hkid⟩⟩⟩
  obtain ⟨t, ht⟩ := hs.tree c hclive
  obtain ⟨u, hu, hlt⟩ := ht.kid ⟨n, hn, hkid⟩
  have hle := hmax c hc
  rw [hsize ht, hsize hu] at hle
  omega

/-- When nothing is held, nothing is there. -/
theorem Sound.nothing (hs : Sound 0 h) (a : Addr) : h.node a = none := by
  rcases hn : h.node a with _ | n
  · rfl
  · obtain ⟨b, hb, -⟩ := hs.reached ((hs.tidy a n hn).2 (Set.notMem_empty _))
    exact absurd hb (Multiset.notMem_zero b)

/-- Before the first call. -/
def initial : Heap := ⟨.empty, fun _ => 0⟩

theorem sound_initial : Sound 0 initial where
  ok := ⟨.empty, fun _ => by simp [initial, Memory.total, Memory.empty]⟩
  tidy := .empty
  tree a ha := absurd ha (lt_irrefl 0)

end Heap

/-! ### Runs -/

namespace Request

variable {held : Multiset Addr} {h : Heap}

theorem after_some {c : Request} {e : Addr} (hc : c.taken = 0) :
    c.after held (some e) = e ::ₘ held := by
  rw [after, hc, tsub_zero, Option.toList_some, Multiset.coe_singleton, add_comm,
    Multiset.singleton_add]

theorem after_none {c : Request} (hc : c.taken = 0) : c.after held none = held := by
  rw [after, hc, tsub_zero]
  exact add_zero held

/-- **A call that is given what it needs comes back**, and leaves everything sound. -/
theorem exec_sound {c : Request} (hs : Sound held h) (hg : c.Given held h) :
    ∃ e h', c.exec h = some (e, h') ∧ Sound (c.after held e) h' := by
  obtain ⟨hle, hgiven⟩ := hg
  -- a call that consumes nothing, and returns what it has made
  have hmade : ∀ {r : Option (Addr × Heap)}, c.taken = 0 → c.exec h = r.map (Prod.map some id) →
      (∃ e h', r = some (e, h') ∧ Sound (e ::ₘ held) h') →
      ∃ e h', c.exec h = some (e, h') ∧ Sound (c.after held e) h' := by
    rintro r htaken hexec ⟨e, h', rfl, hs'⟩
    exact ⟨some e, h', hexec, after_some htaken ▸ hs'⟩
  cases c with
  | const c =>
      exact hmade (r := some _) rfl rfl
        ⟨_, _, rfl, hs.leaf rfl (fun _ => rfl) fun _ _ h => ⟨_, .const h⟩⟩
  | name np =>
      exact hmade (r := some _) rfl rfl
        ⟨_, _, rfl, hs.leaf rfl (fun _ => rfl) fun _ _ h => ⟨_, .name h⟩⟩
  | range lo hi =>
      exact hmade (r := some _) rfl rfl
        ⟨_, _, rfl, hs.leaf rfl (fun _ => rfl) fun _ _ h => ⟨_, .range h⟩⟩
  | element el => exact hmade (r := some _) rfl rfl ⟨_, _, rfl, hs.element el⟩
  | elsum =>
      exact hmade (r := some _) rfl rfl ⟨_, _, rfl, hs.leaf rfl (fun _ => rfl) fun _ _ h =>
        ⟨.elsum [], .elsum h rfl (by simp)⟩⟩
  | share e =>
      have he : e ∈ held := Multiset.mem_of_le hle (Multiset.mem_singleton_self e)
      exact hmade (r := some (e, _)) rfl rfl ⟨_, _, rfl, hs.share (hs.ok.nodes.live he)⟩
  | free e =>
      obtain ⟨left, rfl⟩ := Multiset.le_iff_exists_add.mp hle
      obtain ⟨h', hcall, hs'⟩ := Sound.free (Multiset.singleton_add e left ▸ hs)
      refine ⟨none, h', by simp [exec, hcall], ?_⟩
      rw [after, show taken (.free e) = args (.free e) from rfl, add_tsub_cancel_left]
      exact (add_zero left).symm ▸ hs'
  | unshare e =>
      obtain ⟨left, rfl⟩ := Multiset.le_iff_exists_add.mp hle
      obtain ⟨f, h', hcall, hs'⟩ := Sound.unshare (Multiset.singleton_add e left ▸ hs)
      refine ⟨some f, h', by simp [exec, hcall], ?_⟩
      rw [after, show taken (.unshare e) = args (.unshare e) from rfl, add_tsub_cancel_left,
        Option.toList_some, Multiset.coe_singleton, add_comm, Multiset.singleton_add]
      exact hs'
  | unop op e1 =>
      have he : e1 ∈ held := Multiset.mem_of_le hle (Multiset.mem_singleton_self e1)
      exact hmade rfl rfl (hs.unop he op)
  | binop k op e1 e2 =>
      cases k with
      | borrowed => exact hmade rfl rfl (hs.binop hle hgiven)
      | owned =>
          obtain ⟨e, h', hcall, hs'⟩ := hs.binopOwned hle hgiven
          refine ⟨some e, h', by simp [exec, Calling.call, hcall], ?_⟩
          rw [after, Option.toList_some, Multiset.coe_singleton, add_comm, Multiset.singleton_add]
          exact hs'
  | questop cond iftrue ifnot => exact hmade rfl rfl (hs.questop hle)
  | append e eel =>
      obtain ⟨h1, ⟨v, hv⟩, el, hel⟩ := hgiven
      obtain ⟨h', hcall, hs'⟩ := hs.append hle h1 hv hel
      exact ⟨none, h', by simp [exec, hcall], (after_none (c := .append e eel) rfl).symm ▸ hs'⟩

/-- The calls, one after the other: the references that are held, and the nodes, after them. -/
def execAll : Multiset Addr → Heap → List Request → Option (Multiset Addr × Heap)
  | held, h, [] => some (held, h)
  | held, h, c :: cs => (c.exec h).bind fun (e, h) => execAll (c.after held e) h cs

/-- Each call is given what it needs. -/
def AllGiven : Multiset Addr → Heap → List Request → Prop
  | _, _, [] => True
  | held, h, c :: cs =>
      c.Given held h ∧ ∀ e h', c.exec h = some (e, h') → AllGiven (c.after held e) h' cs

theorem AllGiven.cons {c : Request} {cs : List Request} {e : Option Addr} {h' : Heap}
    (hg : c.Given held h) (hexec : c.exec h = some (e, h'))
    (hrest : AllGiven (c.after held e) h' cs) : AllGiven held h (c :: cs) := by
  refine ⟨hg, fun e₁ h₁ hexec₁ => ?_⟩
  rw [hexec] at hexec₁
  cases hexec₁
  exact hrest

theorem execAll_sound {cs : List Request} (hs : Sound held h) (hg : AllGiven held h cs) :
    ∃ held' h', execAll held h cs = some (held', h') ∧ Sound held' h' := by
  induction cs generalizing held h with
  | nil => exact ⟨held, h, rfl, hs⟩
  | cons c cs ih =>
      obtain ⟨e, h₁, hexec, hs₁⟩ := exec_sound hs hg.1
      obtain ⟨held', h', hrest, hs'⟩ := ih hs₁ (hg.2 e h₁ hexec)
      exact ⟨held', h', by simp [execAll, hexec, hrest], hs'⟩

end Request

/-- **Callers that pass what they hold are safe**: every call comes back; from every node an
expression can be read, and from what is held one gets to every node; and when nothing is held any
more, every node has been freed. -/
theorem requests_sound {cs : List Request} (hg : Request.AllGiven 0 Heap.initial cs) :
    ∃ held h, Request.execAll 0 Heap.initial cs = some (held, h) ∧ Ok held h ∧
      (∀ a, h.nodes.Live a → (∃ t, Denotes h.nodes a t) ∧ ∃ b ∈ held, Reaches h.nodes b a) ∧
      (held = 0 → ∀ a, h.node a = none) := by
  obtain ⟨held, h, hexec, hs⟩ := Request.execAll_sound Heap.sound_initial hg
  refine ⟨held, h, hexec, hs.ok, fun a ha => ⟨hs.tree a ha, hs.reached ha⟩, ?_⟩
  rintro rfl
  exact hs.nothing

/-- `-(n + 5)`, and everything released. -/
theorem requests_sound_negated :
    ∃ held h, Request.execAll 0 Heap.initial [.name 0, .const 5, .binop .owned .plus 0 1,
        .unop .neg 2, .free 2, .free 4] = some (held, h) ∧ Ok held h ∧
      (∀ a, h.nodes.Live a → (∃ t, Denotes h.nodes a t) ∧ ∃ b ∈ held, Reaches h.nodes b a) ∧
      (held = 0 → ∀ a, h.node a = none) := by
  refine requests_sound (.cons ⟨by decide, trivial⟩ rfl (.cons ⟨by decide, trivial⟩ rfl
    (.cons ⟨by decide, ?_⟩ rfl (.cons ⟨by decide, trivial⟩ rfl (.cons ⟨by decide, trivial⟩ rfl
    (.cons ⟨by decide, trivial⟩ rfl trivial))))))
  exact Heap.not_aborts (by decide) (by decide) (by decide) (by decide)

end Ttools
