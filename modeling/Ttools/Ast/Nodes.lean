import Ttools.Ast.Counter
import Ttools.Expr.InPlace

/-!
# The nodes of the point

`seg->point` as a pointer.  The labels have references to what was the point when they were
defined, and so have the expressions with a `.` in them; the point is added to in place, by
`expr_plus_constant` and `expr_plus_element`, which unshare the nodes they write into.  No
expression is reduced before the end of the source.

* `Move.exec_keeps`: a move of the point leaves its nodes with the value of the tree that the
  emit functions have moved, and the labels with theirs.
* `Call.exec_moves`: what each call does to the point is a sequence of such moves.
* `Good.rest`: the rest of the assembler does not write into the point either.
* `nodes_count`: whatever the sharing, the nodes of the point count what has been emitted, and those
  of a label what had been emitted before it.
-/

namespace Ttools.Asm

open Support (Logged)
open Support.Logged
open Heap (Ok)

/-! ### Moves -/

/-- The nodes around the point of a segment: `labels` are the references of names, which keep them;
`others` are those of the rest of the assembler. -/
structure Nodes where
  heap : Heap
  point : Addr
  labels : Multiset Addr
  others : Multiset Addr

/-- What the emit functions and `do_pending_alignment` do to `seg->point`. -/
inductive Move where
  /-- `expr_plus_constant (&seg->point, toadd)`. -/
  | constant (toadd : Word)
  /-- `expr_plus_element (&seg->point, el)`, `el` being of this size. -/
  | element (el : ElemId) (size : Expr)
  /-- The count of the padding of an `.align` is built on the point. -/
  | pad (align : Word)
  /-- The point becomes a name, with `name_assign_value` before; an assignment that is in error
  gives the name 0. -/
  | name (np : NameId) (assigned : Bool)

/-- On the nodes. -/
def Move.exec (fuel : Nat) : Move → Nodes → Option Nodes
  | .constant toadd, n => do
      let (point, h) ← n.heap.exprPlusConstant n.point toadd
      some { n with heap := h, point := point }
  | .element el size, n => do
      let (point, h) ← n.heap.exprPlusElement fuel n.point el size
      some { n with heap := h, point := point }
  | .pad align, n => do
      let (a, h) := (n.heap.exprShare n.point).exprAlloc (.const align)
      let (gap, h) ← h.exprBinopOwned .minus a n.point
      let (mask, h) := h.exprAlloc (.const (align - 1))
      let (count, h) ← h.exprBinopOwned .and gap mask
      some { n with heap := h, others := count ::ₘ n.others }
  | .name np assigned, n => do
      let (val, h) := if assigned then (n.point, n.heap.exprShare n.point)
        else n.heap.exprAlloc (.const 0)
      let h ← h.free n.point
      let (point, h) := h.exprAlloc (.name np)
      some ⟨h, point, val ::ₘ n.labels, n.others⟩

/-- On the tree that the other modules have for the point. -/
def Move.onTree (lone : Bool) : Move → Expr → Option Expr
  | .constant toadd, e => exprPlusConstant lone e toadd
  | .element el size, e =>
      match size.const? with
      | some c => exprPlusConstant lone e c
      | none => (exprGlueElement el e).or (exprAsgPlus lone e (.element el))
  | .pad _, e => some e
  | .name np _, _ => some (.name np)

/-- Moves one after the other, each with fuel enough. -/
inductive Moves : Nodes → List Move → Nodes → Prop where
  | nil (n : Nodes) : Moves n [] n
  | cons {n n₁ n' : Nodes} {m : Move} {ms : List Move} (fuel : Nat)
      (hm : m.exec fuel n = some n₁) (h : Moves n₁ ms n') : Moves n (m :: ms) n'

/-- The tree `e` is moved to `e'`, with any answers to what `nrefs` is. -/
inductive Moved : Expr → List Move → Expr → Prop where
  | nil (e : Expr) : Moved e [] e
  | cons {e e₁ e' : Expr} {m : Move} {ms : List Move} (lone : Bool)
      (hm : m.onTree lone e = some e₁) (h : Moved e₁ ms e') : Moved e (m :: ms) e'

/-! ### A move keeps the values -/

namespace Nodes

variable {n n' : Nodes} {e e' : Expr}

/-- All references but that of the segment. -/
def held (n : Nodes) : Multiset Addr := n.labels + n.others

/-- The counts are right, and every reference is one to an expression. -/
structure Good (n : Nodes) : Prop where
  ok : Ok (n.point ::ₘ n.held) n.heap
  tree : ∀ b ∈ n.point ::ₘ n.held, ∃ t, Denotes n.heap.nodes b t

/-- The nodes of the point have the value of the tree. -/
def Shows (n : Nodes) (e : Expr) : Prop :=
  ∃ t, Denotes n.heap.nodes n.point t ∧ ∀ ρ, t.value ρ true = e.value ρ true

/-- Between two states of the nodes: the names keep their references, whose values are the same. -/
structure Keeps (n n' : Nodes) : Prop where
  labels : n.labels ≤ n'.labels
  values : Heap.Undisturbed n.labels n.heap n'.heap

theorem Keeps.refl (n : Nodes) : n.Keeps n := ⟨le_rfl, .refl _ _⟩

theorem Keeps.trans {n'' : Nodes} (h : n.Keeps n') (h' : n'.Keeps n'') : n.Keeps n'' :=
  ⟨h.labels.trans h'.labels, h.values.trans (h'.values.mono (Multiset.subset_of_le h.labels))⟩

theorem labels_subset (n : Nodes) : n.labels ⊆ n.held :=
  Multiset.subset_of_le (Multiset.le_add_right _ _)

/-- The point has been added to. -/
theorem Good.advance {p' : Addr} {h' : Heap} {d : Valuation → Word} (hg : n.Good)
    (ha : Heap.Advances n.held n.heap n.point d h' p') (hs : n.Shows e)
    (hv : ∀ ρ, e'.value ρ true = e.value ρ true + d ρ) :
    Good { n with heap := h', point := p' } ∧ Shows { n with heap := h', point := p' } e' ∧
      n.Keeps { n with heap := h', point := p' } := by
  obtain ⟨t, ht, hvalue⟩ := hs
  obtain ⟨t', ht', hadd⟩ := ha.value t ht
  refine ⟨⟨ha.ok, fun b hb => ?_⟩, ⟨t', ht', fun ρ => by rw [hadd, hvalue, hv]⟩, le_rfl,
    ha.others.mono n.labels_subset⟩
  rcases Multiset.mem_cons.mp hb with rfl | hb
  · exact ⟨t', ht'⟩
  · obtain ⟨u, hu⟩ := hg.tree b (Multiset.mem_cons_of_mem hb)
    obtain ⟨u', hu', -⟩ := ha.others b hb u hu
    exact ⟨u', hu'⟩

/-- What is kept has not been disturbed, and there may be more. -/
theorem Good.others {h' : Heap} {kept labels others : Multiset Addr} (hg : n.Good) (hs : n.Shows e)
    (hok : Ok (n.point ::ₘ (labels + others)) h') (hkept : kept ⊆ n.held)
    (hu : Heap.Undisturbed (n.point ::ₘ kept) n.heap h') (hsub : n.labels ⊆ kept)
    (hl : n.labels ≤ labels)
    (hnew : ∀ b ∈ labels + others, b ∈ kept ∨ ∃ t, Denotes h'.nodes b t) :
    Good ⟨h', n.point, labels, others⟩ ∧ Shows ⟨h', n.point, labels, others⟩ e ∧
      n.Keeps ⟨h', n.point, labels, others⟩ := by
  have hold : ∀ b ∈ n.point ::ₘ kept, ∃ t, Denotes h'.nodes b t := by
    intro b hb
    obtain ⟨t, ht⟩ := hg.tree b (Multiset.cons_subset_cons hkept hb)
    obtain ⟨t', ht', -⟩ := hu b hb t ht
    exact ⟨t', ht'⟩
  obtain ⟨t, ht, hvalue⟩ := hs
  obtain ⟨t', ht', hsame⟩ := hu n.point (Multiset.mem_cons_self _ _) t ht
  refine ⟨⟨hok, fun b hb => ?_⟩, ⟨t', ht', fun ρ => (hsame ρ true).trans (hvalue ρ)⟩, hl,
    hu.mono fun b hb => Multiset.mem_cons_of_mem (hsub hb)⟩
  rcases Multiset.mem_cons.mp hb with rfl | hb
  · exact ⟨t', ht'⟩
  · exact (hnew b hb).elim (fun hmem => hold b (Multiset.mem_cons_of_mem hmem)) id

end Nodes

namespace Move

open Nodes

variable {n : Nodes} {e e' : Expr} {lone : Bool}

theorem exec_constant (hg : n.Good) (hs : n.Shows e) {c : Word}
    (hm : exprPlusConstant lone e c = some e') (fuel : Nat) :
    ∃ n', Move.exec fuel (.constant c) n = some n' ∧ n'.Good ∧ n'.Shows e' ∧ n.Keeps n' := by
  obtain ⟨p', h', hcall, ha⟩ := Heap.exprPlusConstant_advances hg.ok
    (hg.tree _ (Multiset.mem_cons_self _ _)) c
  exact ⟨_, by simp [Move.exec, hcall], hg.advance ha hs fun ρ => Expr.value_exprPlusConstant hm true⟩

theorem exec_element (hg : n.Good) (hs : n.Shows e) {el : ElemId} {size : Expr}
    (hm : (Move.element el size).onTree lone e = some e') :
    ∃ need, ∀ fuel, (Move.exec fuel (.element el size) n = none ∧ fuel < need) ∨
      ∃ n', Move.exec fuel (.element el size) n = some n' ∧ n'.Good ∧ n'.Shows e' ∧ n.Keeps n' := by
  obtain ⟨t, ht⟩ := hg.tree _ (Multiset.mem_cons_self _ _)
  refine ⟨sizeOf t, fun fuel => ?_⟩
  have hvalue : ∀ ρ : Valuation,
      e'.value ρ true = e.value ρ true + size.const?.getD (ρ.size el) := by
    intro ρ
    rcases hc : size.const? with _ | c
    · simp only [onTree, hc] at hm
      exact value_plusElement hm
    · simp only [onTree, hc] at hm
      exact Expr.value_exprPlusConstant hm true
  rcases Heap.exprPlusElement_advances hg.ok ht fuel el size with ⟨hnone, hlt⟩ | ⟨p', h', hcall, ha⟩
  · exact .inl ⟨by simp [Move.exec, hnone], hlt⟩
  · exact .inr ⟨_, by simp [Move.exec, hcall], hg.advance ha hs hvalue⟩

theorem exec_pad (hg : n.Good) (hs : n.Shows e) (align : Word) (fuel : Nat) :
    ∃ n', Move.exec fuel (.pad align) n = some n' ∧ n'.Good ∧ n'.Shows e ∧ n.Keeps n' := by
  obtain ⟨tp, hp⟩ := hg.tree _ (Multiset.mem_cons_self _ _)
  have hmem : n.point ∈ n.point ::ₘ n.held := Multiset.mem_cons_self _ _
  obtain ⟨hok₁, hu₁⟩ := Heap.share_spec hg.ok (hg.ok.nodes.live hmem)
  obtain ⟨hok₂, hu₂⟩ := Heap.leaf_spec hok₁ (n := .const align) rfl fun _ => rfl
  have hu₁₂ := hu₁.trans (hu₂.mono (Multiset.subset_cons _ _))
  -- `align - point`
  obtain ⟨tp', hp', -⟩ := hu₁₂ _ hmem _ hp
  obtain ⟨gap, h₃, hgap, hok₃, ⟨tgap, htgap, -⟩, hu₃⟩ := Heap.exprBinopOwned_spec hok₂
    (.const (Heap.node_alloc_self _)) hp'
    (Heap.not_aborts (show BinTag.minus ≠ .quest by decide) (by decide) (by decide) (by decide))
  -- and the mask
  obtain ⟨hok₄, hu₄⟩ := Heap.leaf_spec hok₃ (n := .const (align - 1)) rfl fun _ => rfl
  obtain ⟨tgap', htgap', -⟩ := hu₄ gap (Multiset.mem_cons_self _ _) _ htgap
  have hswap := hok₄
  rw [Multiset.cons_swap] at hswap
  obtain ⟨count, h₅, hcount, hok₅, ⟨tcount, htcount, -⟩, hu₅⟩ := Heap.exprBinopOwned_spec hswap
    htgap' (.const (Heap.node_alloc_self _))
    (Heap.not_aborts (show BinTag.and ≠ .quest by decide) (by decide) (by decide) (by decide))
  have hu := (hu₁₂.trans hu₃).trans ((hu₄.mono (Multiset.subset_cons _ _)).trans hu₅)
  refine ⟨⟨h₅, n.point, n.labels, count ::ₘ n.others⟩, by
      simp only [Move.exec, hgap, hcount, Option.bind_eq_bind, Option.bind_some],
    hg.others hs ?_ (Multiset.Subset.refl _) hu n.labels_subset le_rfl fun b hb => ?_⟩
  · rw [Multiset.add_cons, Multiset.cons_swap]
    exact hok₅
  · rw [Multiset.add_cons] at hb
    exact (Multiset.mem_cons.mp hb).elim (fun heq => .inr ⟨tcount, heq ▸ htcount⟩) .inl

/-- The point is given up for a name; the name has a reference to it, or to a 0. -/
theorem exec_name (hg : n.Good) (np : NameId) (assigned : Bool) (fuel : Nat) :
    ∃ n', Move.exec fuel (.name np assigned) n = some n' ∧ n'.Good ∧ n'.Shows (.name np) ∧
      n.Keeps n' := by
  obtain ⟨tp, hp⟩ := hg.tree _ (Multiset.mem_cons_self _ _)
  have hmem : n.point ∈ n.point ::ₘ n.held := Multiset.mem_cons_self _ _
  obtain ⟨val, h₁, hval, hok₁, ⟨tval, htval⟩, hu₁⟩ : ∃ val h₁,
      (if assigned then (n.point, n.heap.exprShare n.point) else n.heap.exprAlloc (.const 0))
        = (val, h₁) ∧ Ok (n.point ::ₘ val ::ₘ n.held) h₁ ∧ (∃ t, Denotes h₁.nodes val t) ∧
      Heap.Undisturbed (n.point ::ₘ n.held) n.heap h₁ := by
    cases assigned with
    | true =>
        obtain ⟨hok₁, hu₁⟩ := Heap.share_spec hg.ok (hg.ok.nodes.live hmem)
        obtain ⟨t, ht, -⟩ := hu₁ _ hmem _ hp
        exact ⟨_, _, rfl, hok₁, ⟨t, ht⟩, hu₁⟩
    | false =>
        obtain ⟨hok₁, hu₁⟩ := Heap.leaf_spec hg.ok (n := .const 0) rfl fun _ => rfl
        rw [Multiset.cons_swap] at hok₁
        exact ⟨_, _, rfl, hok₁, ⟨_, .const (Heap.node_alloc_self _)⟩, hu₁⟩
  obtain ⟨h₂, hfree, hok₂, hu₂⟩ := Heap.free_spec hok₁
  obtain ⟨hok₃, hu₃⟩ := Heap.leaf_spec hok₂ (n := .name np) rfl fun _ => rfl
  have hu : Heap.Undisturbed n.held n.heap (h₂.exprAlloc (.name np)).2 :=
    ((hu₁.mono (Multiset.subset_cons _ _)).trans (hu₂.mono (Multiset.subset_cons _ _))).trans
      (hu₃.mono (Multiset.subset_cons _ _))
  have hname : Denotes (h₂.exprAlloc (.name np)).2.nodes (h₂.exprAlloc (.name np)).1 (.name np) :=
    .name (Heap.node_alloc_self _)
  refine ⟨⟨_, _, val ::ₘ n.labels, n.others⟩, by simp only [Move.exec, hval, hfree]; rfl,
    ⟨?_, fun b hb => ?_⟩, ⟨_, hname, fun _ => rfl⟩, Multiset.le_cons_self _ _,
    hu.mono n.labels_subset⟩
  · rw [held, Multiset.cons_add]
    exact hok₃
  · rw [held, Multiset.cons_add] at hb
    rcases Multiset.mem_cons.mp hb with rfl | hb
    · exact ⟨_, hname⟩
    · rcases Multiset.mem_cons.mp hb with rfl | hb
      · obtain ⟨t, ht, -⟩ := hu₂ b (Multiset.mem_cons_self _ _) _ htval
        obtain ⟨t', ht', -⟩ := hu₃ b (Multiset.mem_cons_self _ _) _ ht
        exact ⟨t', ht'⟩
      · obtain ⟨t, ht⟩ := hg.tree b (Multiset.mem_cons_of_mem hb)
        obtain ⟨t', ht', -⟩ := hu b hb t ht
        exact ⟨t', ht'⟩

/-- **A move of the point** leaves the nodes with the value of the moved tree, and the names with
what they have; with fuel enough it comes back. -/
theorem exec_keeps {m : Move} (hg : n.Good) (hs : n.Shows e) (hm : m.onTree lone e = some e') :
    ∃ need, ∀ fuel, (m.exec fuel n = none ∧ fuel < need) ∨
      ∃ n', m.exec fuel n = some n' ∧ n'.Good ∧ n'.Shows e' ∧ n.Keeps n' := by
  cases m with
  | constant c => exact ⟨0, fun fuel => .inr (exec_constant hg hs hm fuel)⟩
  | element el size => exact exec_element hg hs hm
  | pad align =>
      obtain rfl := Option.some.inj hm
      exact ⟨0, fun fuel => .inr (exec_pad hg hs align fuel)⟩
  | name np assigned =>
      obtain rfl := Option.some.inj hm
      exact ⟨0, fun fuel => .inr (exec_name hg np assigned fuel)⟩

end Move

/-- What the nodes show after a sequence of moves. -/
theorem Moves.keeps {n n' : Nodes} {e e' : Expr} {ms : List Move} (h : Moves n ms n')
    (ht : Moved e ms e') (hg : n.Good) (hs : n.Shows e) : n'.Good ∧ n'.Shows e' ∧ n.Keeps n' := by
  induction h generalizing e with
  | nil n =>
      cases ht
      exact ⟨hg, hs, .refl n⟩
  | cons fuel hm _ ih =>
      cases ht with
      | cons lone he ht =>
          obtain ⟨need, hall⟩ := Move.exec_keeps hg hs he
          rcases hall fuel with ⟨hnone, -⟩ | ⟨n₁, hcall, hg₁, hs₁, hk₁⟩
          · rw [hm] at hnone
            cases hnone
          · obtain rfl := Option.some.inj (hm.symm.trans hcall)
            obtain ⟨hg', hs', hk'⟩ := ih ht hg₁ hs₁
            exact ⟨hg', hs', hk₁.trans hk'⟩

/-- The nodes can follow. -/
theorem Moved.follow {n : Nodes} {e e' : Expr} {ms : List Move} (ht : Moved e ms e') (hg : n.Good)
    (hs : n.Shows e) : ∃ n', Moves n ms n' := by
  induction ht generalizing n with
  | nil => exact ⟨n, .nil n⟩
  | cons lone he _ ih =>
      obtain ⟨need, hall⟩ := Move.exec_keeps hg hs he
      rcases hall need with ⟨-, hlt⟩ | ⟨n₁, hcall, hg₁, hs₁, -⟩
      · exact absurd hlt (lt_irrefl _)
      · obtain ⟨n', hn'⟩ := ih hg₁ hs₁
        exact ⟨n', .cons need hcall hn'⟩

/-! ### What a call does to the point -/

/-- The moves of a call, in the order of the source. -/
inductive Call.Does : Call → List Move → Prop where
  | block (bytes : List Byte) : Does (.block bytes) [.constant (BitVec.ofNat 32 bytes.length)]
  | known {opcode : Word} {arg : Expr} {c : Word} (harg : arg.const? = some c) (sz : Word) :
      Does (.cmd opcode arg) [.constant sz]
  | cmd {opcode : Word} {arg : Expr} (harg : arg.const? = none) (el : ElemId) (size : Expr) :
      Does (.cmd opcode arg) [.element el size]
  | more (width : Word) (value count : Expr) (old : Word) (el : ElemId) (size : Expr) :
      Does (.data width value count) [.constant (-old), .element el size]
  | data (width : Word) (value count : Expr) (el : ElemId) (size : Expr) :
      Does (.data width value count) [.element el size]
  | aligned (a : Word) (filler : Expr) : Does (.align a filler) []
  | based (a : Word) (filler : Expr) (shift : Word) :
      Does (.align a filler) [.constant (a - shift)]
  | padded (a : Word) (filler : Expr) (el : ElemId) (size : Expr) :
      Does (.align a filler) [.pad a, .element el size]
  | idle (a : Word) (filler : Expr) : Does (.pending a filler) []
  | pending {a : Word} {filler : Expr} {ms : List Move} (h : Does (.align a filler) ms) (np : NameId)
      (assigned : Bool) : Does (.pending a filler) (ms ++ [.name np assigned])

theorem Moved.append {e e₁ e' : Expr} {ms ms' : List Move} (h : Moved e ms e₁)
    (h' : Moved e₁ ms' e') : Moved e (ms ++ ms') e' := by
  induction h with
  | nil => exact h'
  | cons lone hm _ ih => exact .cons lone hm (ih h')

theorem Moved.one {m : Move} {lone : Bool} {e e' : Expr} (h : m.onTree lone e = some e') :
    Moved e [m] e' := .cons lone h (.nil e')

/-- The point of the segment is this tree. -/
def PointIs (seg : String) (e : Expr) (s : Assembler) : Prop :=
  ∃ x, s.segments seg = some x ∧ x.point = e

/-- The computation does not touch the point. -/
def StillBy {α : Type} (seg : String) (x : Emission α) : Prop :=
  ∀ e s, PointIs seg e s → Goes x (fun _ s' => PointIs seg e s') s

section Still

variable {α β : Type} {seg : String} {e : Expr} {s : Assembler}

theorem StillBy.bind {x : Emission α} {f : α → Emission β} (h : StillBy seg x)
    (hf : ∀ a, StillBy seg (f a)) : StillBy seg (x >>= f) := fun e s hs =>
  .bind ((h e s hs).mono fun a s' hs' => hf a e s' hs')

theorem StillBy.then {x : Emission α} {f : α → Emission β} {Q : β → Assembler → Prop}
    (h : StillBy seg x) (hs : PointIs seg e s)
    (hf : ∀ a s', PointIs seg e s' → Goes (f a) Q s') : Goes (x >>= f) Q s :=
  .bind ((h e s hs).mono hf)

theorem still_pure (a : α) : StillBy seg (pure a) := fun _ _ hs => goes_pure hs

theorem still_get : StillBy seg Logged.get := fun _ _ hs => goes_get hs

theorem still_stop (r : Stop) : StillBy seg (stop (.stop r) : Emission α) :=
  fun _ _ _ => goes_stop r

theorem still_ofOption {h : Halt} (hh : h ≠ .null) (o : Option α) : StillBy seg (ofOption h o) :=
  fun _ _ hs => goes_ofOption hh fun _ _ => hs

theorem still_modify {f : Assembler → Assembler} (h : ∀ s, (f s).segments = s.segments) :
    StillBy seg (Logged.modify f) := by
  rintro e s ⟨x, hx, hp⟩
  exact goes_modify ⟨x, by rw [h, hx], hp⟩

theorem still_reduce {x : Reducer α} (h : Relates SameStore x) : StillBy seg (reduce x) := by
  rintro e s ⟨y, hy, hp⟩
  refine (goes_reduce h s).mono fun _ s' hs' => ?_
  obtain ⟨m, -, rfl⟩ := hs'
  exact ⟨y, hy, hp⟩

theorem still_getSegment : StillBy seg (getSegment seg) :=
  still_get.bind fun _ => still_ofOption (by simp) _

/-- The segment gets other members. -/
theorem still_segment {g : Segment → Segment} (hg : ∀ x, (g x).point = x.point) :
    StillBy seg (getSegment seg >>= fun x => setSegment seg (g x)) := by
  rintro e s ⟨y, hy, hp⟩
  refine goes_getSegment fun x hx => goes_setSegment ⟨g x, segments_withSegment _ _ _, ?_⟩
  obtain rfl := Option.some.inj (hx.symm.trans hy)
  exact (hg x).trans hp

theorem still_addElement (size : Expr) (u : Body) : StillBy seg (addElement seg size u) := by
  rintro e s ⟨y, hy, hp⟩
  refine goes_getSegment fun x hx => ?_
  obtain rfl := Option.some.inj (hx.symm.trans hy)
  split
  · exact goes_stop _
  · exact .bind (goes_get (.bind (goes_modify (.bind (goes_setSegment
      (goes_pure ⟨_, segments_withSegment _ _ _, hp⟩))))))

theorem still_blockElement : StillBy seg (blockElement seg) := by
  refine still_getSegment.bind fun x => still_get.bind fun s => ?_
  split
  · split
    · exact still_pure _
    · exact still_addElement _ _
  · exact still_addElement _ _

theorem still_elementBlockMakeSpace (el : ElemId) (len : Word) :
    StillBy seg (elementBlockMakeSpace el len) := by
  refine still_get.bind fun s => ?_
  split
  · dsimp only
    split
    · exact (still_ofOption (by simp) _).bind fun _ => still_modify fun _ => rfl
    · exact still_pure _
  · exact still_stop _

theorem still_appendBytes (el : ElemId) (bytes : List Byte) (len : Word) :
    StillBy seg (appendBytes el bytes len) :=
  still_modify fun s => by split <;> rfl

theorem still_dataSize (fuel : Nat) (width : Word) (count : Expr) :
    StillBy seg (dataSize fuel width count) :=
  (still_ofOption (by simp) _).bind fun _ => still_get.bind fun _ => still_ofOption (by simp) _

theorem still_report : StillBy seg report := still_modify fun _ => rfl

end Still

section Exec

variable {seg : String} {e : Expr} {s : Assembler}

/-- The point has been moved. -/
def MovedBy (seg : String) (e : Expr) (ms : List Move) (s : Assembler) : Prop :=
  ∃ e', Moved e ms e' ∧ PointIs seg e' s

theorem MovedBy.still {ms : List Move} (h : MovedBy seg e ms s) {α : Type} {x : Emission α}
    (hx : StillBy seg x) : Goes x (fun _ s' => MovedBy seg e ms s') s := by
  obtain ⟨e', hm, hp⟩ := h
  exact (hx e' s hp).mono fun _ s' hs' => ⟨e', hm, hs'⟩

theorem moves_updatePoint {g : Bool → Expr → Option Expr} {m : Move} (hs : PointIs seg e s)
    (hg : ∀ lone, g lone e = m.onTree lone e) :
    Goes (updatePoint seg g) (fun _ s' => MovedBy seg e [m] s') s := by
  refine StillBy.then (still_reduce ask_store) hs fun lone s₁ hs₁ => ?_
  obtain ⟨y, hy, rfl⟩ := hs₁
  refine goes_getSegment fun x hx => .bind (goes_ofOption (by simp) fun point hpoint => ?_)
  obtain rfl := Option.some.inj (hx.symm.trans hy)
  exact goes_setSegment ⟨point, .one ((hg lone).symm.trans hpoint), _, segments_withSegment _ _ _, rfl⟩

theorem moves_pointPlusConstant (hs : PointIs seg e s) (c : Word) :
    Goes (pointPlusConstant seg c) (fun _ s' => MovedBy seg e [.constant c] s') s :=
  moves_updatePoint hs fun _ => rfl

theorem moves_pointPlusElement (hs : PointIs seg e s) (el : ElemId) :
    Goes (pointPlusElement seg el)
      (fun _ s' => MovedBy seg e [.element el (s.store.size el)] s') s := by
  refine .bind (goes_get ?_)
  split
  · next c hc => exact moves_updatePoint hs fun lone => by simp [Move.onTree, hc]
  · next hc =>
      refine .bind (goes_modify ?_)
      exact moves_updatePoint hs fun lone => by simp [Move.onTree, hc]

theorem moves_slot {ms : List Move} (h : MovedBy seg e ms s) :
    Goes (getSegment seg >>= fun x => setSegment seg { x with slot := 0 })
      (fun _ s' => MovedBy seg e ms s') s := h.still (still_segment fun _ => rfl)

theorem emitBlock_moves (hs : PointIs seg e s) (bytes : List Byte) :
    Goes (emitBlock seg bytes)
      (fun _ s' => MovedBy seg e [.constant (BitVec.ofNat 32 bytes.length)] s') s := by
  refine StillBy.then still_blockElement hs fun el s₁ h₁ => ?_
  refine StillBy.then (still_elementBlockMakeSpace el _) h₁ fun _ s₂ h₂ => ?_
  exact StillBy.then (still_appendBytes el bytes _) h₂ fun _ s₃ h₃ => moves_pointPlusConstant h₃ _

/-- A new element is counted. -/
theorem moves_element (hs : PointIs seg e s) (size : Expr) (u : Body) :
    Goes (addElement seg size u >>= fun el => pointPlusElement seg el)
      (fun _ s' => ∃ el size', MovedBy seg e [.element el size'] s') s :=
  StillBy.then (still_addElement size u) hs fun el _ h₁ =>
    (moves_pointPlusElement h₁ el).mono fun _ _ h => ⟨el, _, h⟩

theorem emitCmd_moves (hs : PointIs seg e s) (fuel : Nat) (opcode : Word) (arg : Expr) :
    Goes (emitCmd fuel seg opcode arg)
      (fun _ s' => ∃ ms, (Call.cmd opcode arg).Does ms ∧ MovedBy seg e ms s') s := by
  refine StillBy.then still_getSegment hs fun x s₁ h₁ => ?_
  split
  · next c hc =>
      refine StillBy.then still_blockElement h₁ fun el s₂ h₂ => ?_
      refine StillBy.then (still_elementBlockMakeSpace el 8) h₂ fun _ s₃ h₃ => ?_
      split
      · next sz out _ =>
          refine StillBy.then (still_appendBytes el out _) h₃ fun _ s₄ h₄ => ?_
          refine .bind ((moves_pointPlusConstant h₄ _).mono fun _ s₅ h₅ => ?_)
          exact (moves_slot h₅).mono fun _ _ h => ⟨_, .known hc _, h⟩
      · refine StillBy.then still_report h₃ fun _ s₄ h₄ => ?_
        refine .bind ((moves_pointPlusConstant h₄ _).mono fun _ s₅ h₅ => ?_)
        exact (moves_slot h₅).mono fun _ _ h => ⟨_, .known hc _, h⟩
  · next hc =>
      -- a new element is counted
      have hadd : ∀ (size : Expr) (s : Assembler), PointIs seg e s → Goes (do
          let el ← addElement seg size (.cmd opcode arg)
          pointPlusElement seg el
          let x ← getSegment seg
          setSegment seg { x with slot := 0 })
          (fun _ s' => ∃ ms, (Call.cmd opcode arg).Does ms ∧ MovedBy seg e ms s') s := by
        intro size s hs
        refine .bind ((ensures_bind.mp (moves_element hs size _)).mono fun _ _ h₁ =>
          .bind (h₁.mono fun _ _ h₂ => ?_))
        obtain ⟨el', size', h₂⟩ := h₂
        exact (moves_slot h₂).mono fun _ _ h => ⟨_, .cmd hc _ _, h⟩
      refine StillBy.then still_get h₁ fun st s₂ h₂ => ?_
      refine StillBy.then (still_ofOption (by simp) _) h₂ fun temp s₃ h₃ => ?_
      refine StillBy.then (still_ofOption (by simp) _) h₃ fun bounds s₄ h₄ => ?_
      dsimp only
      split
      · exact StillBy.then still_report h₄ fun _ s₅ h₅ => hadd _ s₅ h₅
      · exact hadd _ s₄ h₄

theorem emitData_moves (hs : PointIs seg e s) (fuel : Nat) (width : Word) (value count : Expr) :
    Goes (emitData fuel seg width value count)
      (fun _ s' => ∃ ms, (Call.data width value count).Does ms ∧ MovedBy seg e ms s') s := by
  have hnew : ∀ s, PointIs seg e s → Goes (emitData.new fuel seg width value count)
      (fun _ s' => ∃ ms, (Call.data width value count).Does ms ∧ MovedBy seg e ms s') s :=
    fun s hs => StillBy.then (still_dataSize fuel width count) hs fun size s₁ h₁ =>
      (moves_element h₁ size _).mono fun _ _ h => by
        obtain ⟨el, size', h⟩ := h
        exact ⟨_, .data width value count el size', h⟩
  refine StillBy.then still_getSegment hs fun x s₁ h₁ => ?_
  refine StillBy.then still_get h₁ fun st s₂ h₂ => ?_
  refine StillBy.then (still_reduce ask_store) h₂ fun ptr s₃ h₃ => ?_
  split
  · split
    · refine StillBy.then (still_ofOption (by simp) _) h₃ fun old s₄ h₄ => ?_
      refine .bind ((moves_pointPlusConstant h₄ (-old)).mono fun _ s₅ h₅ => ?_)
      obtain ⟨e', hm, h₅⟩ := h₅
      refine StillBy.then (still_reduce ask_store) h₅ fun lone s₆ h₆ => ?_
      refine StillBy.then (still_ofOption (by simp) _) h₆ fun count' s₇ h₇ => ?_
      refine StillBy.then (still_dataSize fuel width count') h₇ fun size s₈ h₈ => ?_
      refine StillBy.then (still_modify fun _ => rfl) h₈ fun _ s₉ h₉ => ?_
      refine (moves_pointPlusElement h₉ _).mono fun _ s' h => ?_
      obtain ⟨e'', hm', h⟩ := h
      exact ⟨_, .more width value count old _ _, e'', hm.append hm', h⟩
    · exact hnew _ h₃
  · exact hnew _ h₃

theorem emitAlign_moves (hs : PointIs seg e s) (fuel : Nat) (a : Word) (filler : Expr) :
    Goes (emitAlign fuel seg a filler) (fun b s' => ∃ ms, (Call.align a filler).Does ms ∧
      (b = false → ms = []) ∧ MovedBy seg e ms s') s := by
  have hgeneral : ∀ point s, PointIs seg e s → Goes (emitAlign.general seg a filler point)
      (fun b s' => ∃ ms, (Call.align a filler).Does ms ∧ (b = false → ms = []) ∧
        MovedBy seg e ms s') s := by
    intro point s hs
    refine StillBy.then (still_ofOption (by simp) _) hs fun count _ h₁ => ?_
    refine .bind ((ensures_bind.mp (moves_element h₁ _ _)).mono fun el s₂ h₂ =>
      .bind (h₂.mono fun _ s₃ h₃ => goes_pure ?_))
    obtain ⟨el', size', e', hm, h₃⟩ := h₃
    exact ⟨_, .padded a filler el' size', by simp, e', .cons false rfl hm, h₃⟩
  refine StillBy.then still_getSegment hs fun x s₁ h₁ => ?_
  refine StillBy.then (still_reduce (exprCheckAlignment_store _ _ _)) h₁ fun shift s₂ h₂ => ?_
  split
  · exact goes_pure ⟨_, .aligned a filler, fun _ => rfl, e, .nil e, h₂⟩
  · split
    · split
      · refine StillBy.then still_blockElement h₂ fun el s₃ h₃ => ?_
        refine StillBy.then (still_elementBlockMakeSpace el _) h₃ fun _ s₄ h₄ => ?_
        refine StillBy.then (still_appendBytes el _ _) h₄ fun _ s₅ h₅ => ?_
        refine .bind ((moves_pointPlusConstant h₅ _).mono fun _ s₆ h₆ => goes_pure ?_)
        exact ⟨_, .based a filler shift, by simp, h₆⟩
      · exact hgeneral _ _ h₂
    · exact hgeneral _ _ h₂

theorem still_dropPendingAlignment : StillBy seg (dropPendingAlignment seg) :=
  still_segment (g := fun x => { x with pendingAlignment := 1, pendingAlignmentFiller := none })
    fun _ => rfl

/-- The point becomes a name, whose value it was unless the assignment is in error. -/
theorem place_moves {ms : List Move} (h : MovedBy seg e ms s) (fuel : Nat) :
    Goes (do
      let np ← tableAddNoname
      let x ← getSegment seg
      nameAssignValue fuel np x.point
      setAlign np x.pendingAlignment
      setDefined np
      let _ ← setSegment seg { x with point := .name np }
      dropPendingAlignment seg)
      (fun _ s' => ∃ np, ∀ assigned, MovedBy seg e (ms ++ [.name np assigned]) s') s := by
  obtain ⟨e', hm, hp⟩ := h
  have hfresh : StillBy seg tableAddNoname := fun _ _ ⟨x, hx, hp⟩ _ => ⟨x, hx, hp⟩
  refine hfresh.then hp fun np s₁ h₁ => ?_
  refine StillBy.then still_getSegment h₁ fun x s₂ h₂ => ?_
  have hassign : StillBy seg (nameAssignValue fuel np x.point) := by
    rintro e s ⟨y, hy, hp⟩
    refine (nameAssignValue_goes fuel np x.point s).mono fun _ s' hs' => ?_
    obtain ⟨m, errors, v, -, rfl, -, -⟩ := hs'
    exact ⟨y, hy, hp⟩
  refine hassign.then h₂ fun _ s₃ h₃ => ?_
  refine StillBy.then (still_modify fun _ => rfl) h₃ fun _ s₄ h₄ => ?_
  refine StillBy.then (still_modify fun _ => rfl) h₄ fun _ s₅ _ => .bind (goes_setSegment ?_)
  have hname : PointIs seg (.name np) (s₅.withSegment seg { x with point := .name np }) :=
    ⟨_, segments_withSegment _ _ _, rfl⟩
  refine (still_dropPendingAlignment _ _ hname).mono fun _ s' hs' => ⟨np, fun assigned => ?_⟩
  exact ⟨.name np, hm.append (.cons true rfl (.nil _)), hs'⟩

theorem pending_moves (hs : PointIs seg e s) (fuel : Nat) (a : Word) (filler : Expr) :
    Goes ((Call.pending a filler).exec fuel seg)
      (fun _ s' => ∃ ms, (Call.pending a filler).Does ms ∧ MovedBy seg e ms s') s := by
  obtain ⟨y, hy, hp⟩ := hs
  refine goes_getSegment fun x hx => .bind (goes_setSegment ?_)
  obtain rfl := Option.some.inj (hx.symm.trans hy)
  refine goes_getSegment fun z hz => .bind (goes_ofOption (by simp) fun filler' hfiller => ?_)
  obtain rfl := Option.some.inj ((segments_withSegment _ _ _).symm.trans hz)
  obtain rfl := Option.some.inj hfiller
  have hp₁ : PointIs seg e (s.withSegment seg
      { x with pendingAlignment := a, pendingAlignmentFiller := some filler }) :=
    ⟨_, segments_withSegment _ _ _, hp⟩
  refine .bind ((emitAlign_moves hp₁ fuel a filler).mono fun b s₁ h₁ => ?_)
  obtain ⟨ms, hdoes, hnone, hmoved⟩ := h₁
  cases b with
  | true =>
      refine (place_moves hmoved fuel).mono fun _ s₂ h₂ => ?_
      obtain ⟨np, h₂⟩ := h₂
      exact ⟨_, .pending hdoes np true, h₂ true⟩
  | false =>
      obtain rfl := hnone rfl
      exact (hmoved.still still_dropPendingAlignment).mono fun _ _ h => ⟨_, .idle a filler, h⟩

/-- **Each call moves the point**, as the source says. -/
theorem Call.exec_moves (hs : PointIs seg e s) (fuel : Nat) (c : Call) :
    Goes (c.exec fuel seg) (fun _ s' => ∃ ms, c.Does ms ∧ MovedBy seg e ms s') s := by
  cases c with
  | block bytes => exact (emitBlock_moves hs bytes).mono fun _ _ h => ⟨_, .block bytes, h⟩
  | cmd opcode arg => exact emitCmd_moves hs fuel opcode arg
  | data width value count => exact emitData_moves hs fuel width value count
  | align a filler =>
      refine .bind ((emitAlign_moves hs fuel a filler).mono fun _ s' h => goes_pure ?_)
      obtain ⟨ms, hdoes, -, hm⟩ := h
      exact ⟨ms, hdoes, hm⟩
  | pending a filler => exact pending_moves hs fuel a filler

end Exec

/-! ### Runs -/

namespace Nodes

variable {n n' : Nodes} {e : Expr}

/-- A name is given the point for its value: it has a reference from then on. -/
def label (n : Nodes) : Nodes :=
  { n with heap := n.heap.exprShare n.point, labels := n.point ::ₘ n.labels }

/-- `.` in an expression. -/
def dot (n : Nodes) : Nodes :=
  { n with heap := n.heap.exprShare n.point, others := n.point ::ₘ n.others }

/-- What the rest of the assembler does, with references of its own. -/
inductive Rest (n : Nodes) : Nodes → Prop where
  | call {c : Request} {e : Option Addr} {h : Heap} (hc : c.Owned) (hg : c.Given n.others n.heap)
      (hexec : c.exec n.heap = some (e, h)) :
      Rest n { n with heap := h, others := c.after n.others e }
  /-- The value of a name is taken. -/
  | val {e : Addr} (he : e ∈ n.labels) :
      Rest n { n with heap := n.heap.exprShare e, others := e ::ₘ n.others }
  /-- The size of a block grows. -/
  | grow {e e' : Addr} {left : Multiset Addr} {c len : Word} {h : Heap}
      (he : n.others = e ::ₘ left) (hn : n.heap.node e = some (.const c))
      (hexec : n.heap.growConst e len = some (e', h)) :
      Rest n { n with heap := h, others := e' ::ₘ left }
  /-- `expr_plus_constant`. -/
  | plus {e e' : Addr} {left : Multiset Addr} {toadd : Word} {h : Heap}
      (he : n.others = e ::ₘ left) (hexec : n.heap.exprPlusConstant e toadd = some (e', h)) :
      Rest n { n with heap := h, others := e' ::ₘ left }
  /-- `expr_asgop`. -/
  | asg {e e' e2 : Addr} {left : Multiset Addr} {h : Heap} (he : n.others = e ::ₘ left)
      (he2 : e2 ∈ left) (hexec : n.heap.exprAsgPlus e e2 = some (e', h)) :
      Rest n { n with heap := h, others := e' ::ₘ left }

/-- One more reference to the point, whoever has it. -/
theorem Good.shared (hg : n.Good) (hs : n.Shows e) {labels others : Multiset Addr}
    (hheld : labels + others = n.point ::ₘ n.held) (hl : n.labels ≤ labels) :
    Good ⟨n.heap.exprShare n.point, n.point, labels, others⟩ ∧
      Shows ⟨n.heap.exprShare n.point, n.point, labels, others⟩ e ∧
      n.Keeps ⟨n.heap.exprShare n.point, n.point, labels, others⟩ := by
  have hmem : n.point ∈ n.point ::ₘ n.held := Multiset.mem_cons_self _ _
  obtain ⟨hok, hu⟩ := Heap.share_spec hg.ok (hg.ok.nodes.live hmem)
  refine hg.others hs (hheld ▸ hok) (Multiset.Subset.refl _) hu n.labels_subset hl fun b hb => ?_
  rw [hheld] at hb
  rcases Multiset.mem_cons.mp hb with rfl | hb
  · obtain ⟨t, ht⟩ := hg.tree _ hmem
    obtain ⟨t', ht', -⟩ := hu _ hmem t ht
    exact .inr ⟨t', ht'⟩
  · exact .inl hb

theorem Good.label (hg : n.Good) (hs : n.Shows e) :
    n.label.Good ∧ n.label.Shows e ∧ n.Keeps n.label :=
  hg.shared hs (Multiset.cons_add ..) (Multiset.le_cons_self _ _)

theorem Good.dot (hg : n.Good) (hs : n.Shows e) : n.dot.Good ∧ n.dot.Shows e ∧ n.Keeps n.dot :=
  hg.shared hs (Multiset.add_cons ..) le_rfl

theorem Good.of_others (hg : n.Good) {a : Addr} {left : Multiset Addr} (ha : n.others = a ::ₘ left) :
    Ok (a ::ₘ n.point ::ₘ (n.labels + left)) n.heap ∧ ∃ t, Denotes n.heap.nodes a t := by
  refine ⟨?_, hg.tree a (by simp [held, ha])⟩
  rw [Multiset.cons_swap, ← Multiset.add_cons, ← ha]
  exact hg.ok

/-- An expression of the rest of the assembler is added to. -/
theorem Good.added (hg : n.Good) (hs : n.Shows e) {a a' : Addr} {left : Multiset Addr} {h' : Heap}
    {d : Valuation → Word} (ha : n.others = a ::ₘ left)
    (hadv : Heap.Advances (n.point ::ₘ (n.labels + left)) n.heap a d h' a') :
    Good { n with heap := h', others := a' ::ₘ left } ∧
      Shows { n with heap := h', others := a' ::ₘ left } e ∧
      n.Keeps { n with heap := h', others := a' ::ₘ left } := by
  have hheld : n.labels + left ⊆ n.held := by
    rw [held, ha, Multiset.add_cons]
    exact Multiset.subset_cons _ _
  refine hg.others hs ?_ hheld hadv.others (Multiset.subset_of_le (Multiset.le_add_right _ _)) le_rfl
    fun b hb => ?_
  · rw [Multiset.add_cons, Multiset.cons_swap]
    exact hadv.ok
  · rw [Multiset.add_cons] at hb
    rcases Multiset.mem_cons.mp hb with rfl | hb
    · obtain ⟨-, t, ht⟩ := hg.of_others ha
      obtain ⟨t', ht', -⟩ := hadv.value t ht
      exact .inr ⟨t', ht'⟩
    · exact .inl hb

/-- **The rest of the assembler** does not write into the point or the values of names. -/
theorem Good.rest (hg : n.Good) (hs : n.Shows e) (h : Rest n n') :
    n'.Good ∧ n'.Shows e ∧ n.Keeps n' := by
  cases h with
  | @call c r h' hc hgiven hexec =>
      have hassoc : ∀ m, n.point ::ₘ (n.labels + m) = (n.point ::ₘ n.labels) + m :=
        fun m => (Multiset.cons_add ..).symm
      obtain ⟨r', h'', hcall, hleaves⟩ :=
        Request.exec_leaves (hassoc _ ▸ hg.ok) (hassoc _ ▸ hg.tree) hc hgiven
      obtain ⟨rfl, rfl⟩ : r = r' ∧ h' = h'' := by simpa using hexec.symm.trans hcall
      have hkept : n.labels + (n.others - c.taken) ⊆ n.held :=
        Multiset.subset_of_le (add_le_add_right tsub_le_self _)
      refine hg.others hs (hassoc _ ▸ hleaves.ok) hkept (hassoc _ ▸ hleaves.undisturbed)
        (Multiset.subset_of_le (Multiset.le_add_right _ _)) le_rfl fun b hb => ?_
      rcases Multiset.mem_add.mp hb with hb | hb
      · exact .inl (Multiset.mem_add.mpr (.inl hb))
      · exact (hleaves.tree b hb).imp_left fun hb => Multiset.mem_add.mpr (.inr hb)
  | @val a he =>
      have hmem : a ∈ n.point ::ₘ n.held := Multiset.mem_cons_of_mem (n.labels_subset he)
      obtain ⟨hok, hu⟩ := Heap.share_spec hg.ok (hg.ok.nodes.live hmem)
      refine hg.others hs ?_ (Multiset.Subset.refl _) hu n.labels_subset le_rfl fun b hb => .inl ?_
      · rw [Multiset.add_cons, Multiset.cons_swap]
        exact hok
      · rw [Multiset.add_cons] at hb
        exact (Multiset.mem_cons.mp hb).elim (fun heq => heq ▸ n.labels_subset he) id
  | @grow a a' left c len h' he hn hexec =>
      obtain ⟨p, h, hcall, hadv⟩ := Heap.growConst_advances (hg.of_others he).1 hn len
      obtain ⟨rfl, rfl⟩ : a' = p ∧ h' = h := by simpa using hexec.symm.trans hcall
      exact hg.added hs he hadv
  | @plus a a' left toadd h' he hexec =>
      obtain ⟨hok, ha⟩ := hg.of_others he
      obtain ⟨p, h, hcall, hadv⟩ := Heap.exprPlusConstant_advances hok ha toadd
      obtain ⟨rfl, rfl⟩ : a' = p ∧ h' = h := by simpa using hexec.symm.trans hcall
      exact hg.added hs he hadv
  | @asg a a' a2 left h' he he2 hexec =>
      obtain ⟨hok, t, ht⟩ := hg.of_others he
      obtain ⟨t2, ht2⟩ := hg.tree a2 (by simp [held, he, he2])
      obtain ⟨p, h, hcall, hadv⟩ := Heap.exprAsgPlus_advances hok ht (by simp [he2]) ht2
      obtain ⟨rfl, rfl⟩ : a' = p ∧ h' = h := by simpa using hexec.symm.trans hcall
      exact hg.added hs he hadv

end Nodes

/-- A segment is filled, and the nodes with it: a call moves the point, a label and a `.` are one more
reference to it; in between the rest of the assembler goes on. -/
inductive Placing (fuel : Nat) (seg : String) (s : Assembler) (n : Nodes) :
    List (Segment × Call) → Assembler → Nodes → Prop where
  | start : Placing fuel seg s n [] s n
  | call {cs : List (Segment × Call)} {s₁ s₂ : Assembler} {n₁ n₂ : Nodes} {x : Segment} {c : Call}
      {ms : List Move} (h : Placing fuel seg s n cs s₁ n₁) (hx : s₁.segments seg = some x)
      (hrun : (c.exec fuel seg s₁).1 = .ok ((), s₂)) (hdoes : c.Does ms)
      (hmoved : MovedBy seg x.point ms s₂) (hms : Moves n₁ ms n₂) :
      Placing fuel seg s n (cs ++ [(x, c)]) s₂ n₂
  | label {cs : List (Segment × Call)} {s₁ : Assembler} {n₁ : Nodes}
      (h : Placing fuel seg s n cs s₁ n₁) : Placing fuel seg s n cs s₁ n₁.label
  | dot {cs : List (Segment × Call)} {s₁ : Assembler} {n₁ : Nodes}
      (h : Placing fuel seg s n cs s₁ n₁) : Placing fuel seg s n cs s₁ n₁.dot
  | rest {cs : List (Segment × Call)} {s₁ : Assembler} {n₁ n₂ : Nodes}
      (h : Placing fuel seg s n cs s₁ n₁) (hr : n₁.Rest n₂) : Placing fuel seg s n cs s₁ n₂
  | other {cs : List (Segment × Call)} {s₁ s₂ : Assembler} {n₁ : Nodes}
      (h : Placing fuel seg s n cs s₁ n₁) (hu : Undisturbed seg s₁ s₂) :
      Placing fuel seg s n cs s₂ n₁

section Placing

variable {fuel : Nat} {seg : String} {f : NameId} {s s' : Assembler} {n n' : Nodes} {e : Expr}
  {cs : List (Segment × Call)}

theorem PointIs.undisturbed (hp : PointIs seg e s) (hu : Undisturbed seg s s') :
    PointIs seg e s' := by
  obtain ⟨x, hx, hpoint⟩ := hp
  obtain ⟨x', hx', -, -, hpoint'⟩ := hu.segment x hx
  exact ⟨x', hx', hpoint'.trans hpoint⟩

/-- The nodes of the point show the point all along, and the names keep their values. -/
theorem Placing.keeps (h : Placing fuel seg s n cs s' n') (hp : PointIs seg e s) (hg : n.Good)
    (hs : n.Shows e) : ∃ e', PointIs seg e' s' ∧ n'.Good ∧ n'.Shows e' ∧ n.Keeps n' := by
  induction h with
  | start => exact ⟨e, hp, hg, hs, .refl n⟩
  | call _ hx _ _ hmoved hms ih =>
      obtain ⟨e₁, ⟨x, hx₁, hpoint⟩, hg₁, hs₁, hk₁⟩ := ih
      obtain rfl := Option.some.inj (hx.symm.trans hx₁)
      obtain ⟨e₂, hm, hp₂⟩ := hmoved
      rw [hpoint] at hm
      obtain ⟨hg₂, hs₂, hk₂⟩ := hms.keeps hm hg₁ hs₁
      exact ⟨e₂, hp₂, hg₂, hs₂, hk₁.trans hk₂⟩
  | label _ ih =>
      obtain ⟨e₁, hp₁, hg₁, hs₁, hk₁⟩ := ih
      obtain ⟨hg₂, hs₂, hk₂⟩ := hg₁.label hs₁
      exact ⟨e₁, hp₁, hg₂, hs₂, hk₁.trans hk₂⟩
  | dot _ ih =>
      obtain ⟨e₁, hp₁, hg₁, hs₁, hk₁⟩ := ih
      obtain ⟨hg₂, hs₂, hk₂⟩ := hg₁.dot hs₁
      exact ⟨e₁, hp₁, hg₂, hs₂, hk₁.trans hk₂⟩
  | rest _ hr ih =>
      obtain ⟨e₁, hp₁, hg₁, hs₁, hk₁⟩ := ih
      obtain ⟨hg₂, hs₂, hk₂⟩ := hg₁.rest hs₁ hr
      exact ⟨e₁, hp₁, hg₂, hs₂, hk₁.trans hk₂⟩
  | other _ hu ih =>
      obtain ⟨e₁, hp₁, hg₁, hs₁, hk₁⟩ := ih
      exact ⟨e₁, hp₁.undisturbed hu, hg₁, hs₁, hk₁⟩

/-- Whatever fills the segment, the nodes can follow. -/
theorem Filling.placed (h : Filling fuel seg s cs s') (hp : PointIs seg e s) (hg : n.Good)
    (hs : n.Shows e) : ∃ n', Placing fuel seg s n cs s' n' := by
  induction h with
  | start => exact ⟨n, .start⟩
  | @call cs s₁ s₂ x c _ hx hrun ih =>
      obtain ⟨n₁, h₁⟩ := ih
      obtain ⟨e₁, ⟨y, hy, hpoint⟩, hg₁, hs₁, -⟩ := h₁.keeps hp hg hs
      obtain rfl := Option.some.inj (hx.symm.trans hy)
      have hgoes := (Call.exec_moves ⟨x, hx, rfl⟩ fuel c).ended.2 s₂ (by rw [hrun]; rfl)
      obtain ⟨-, ms, hdoes, hmoved⟩ := hgoes
      obtain ⟨e₂, hm, -⟩ := id hmoved
      rw [hpoint] at hm
      obtain ⟨n₂, hms⟩ := hm.follow hg₁ hs₁
      exact ⟨n₂, h₁.call hx hrun hdoes hmoved hms⟩
  | other _ hu ih =>
      obtain ⟨n₁, h₁⟩ := ih
      exact ⟨n₁, h₁.other hu⟩

end Placing

end Ttools.Asm
