import Ttools.Ast.Anchors

/-!
# The location counter

What the emit functions do to a fragment: its elements are chained in order, and `seg->point`
counts their sizes.

* `Tally`: the point and the elements of the fragment that is being emitted, up to what an emit
  function has added to the elements but not yet to the point.
* `Call.exec_goes`: each call keeps the count and puts what it emits at the end.
* `point_counts`: the point after any sequence of calls, and the labels on the way.

The point is a tree here; `Ttools.Ast.Nodes` has its nodes.
-/

namespace Ttools.Asm

open Support (Logged)
open Support.Logged

/-! ### Contents -/

/-- What a fragment holds. -/
inductive Item where
  | byte (b : Byte)
  | cmd (opcode : Word) (arg : Expr)
  | data (width : Word) (value : Expr)
  deriving DecidableEq, Repr

/-- Items in their order, and how often each comes. -/
abbrev Contents := List (Item × Word)

/-- Data that comes again is counted with what is there. -/
def Contents.put (c : Contents) (i : Item) (n : Word) : Contents :=
  match c.getLast? with
  | some (j, m) => if j = i then c.dropLast ++ [(j, m + n)] else c ++ [(i, n)]
  | none => [(i, n)]

/-- What an element adds. -/
def Contents.add (ρ : Valuation) (c : Contents) : Body → Contents
  | .block ptr => c ++ ptr.map fun b => (.byte b, 1)
  | .cmd opcode arg => c ++ [(.cmd opcode arg, 1)]
  | .data width value count => c.put (.data width value) (count.value ρ true)

/-- The elements one after the other. -/
def contents (ρ : Valuation) (bs : List Body) : Contents := bs.foldl (Contents.add ρ) []

theorem contents_append (ρ : Valuation) (bs : List Body) (b : Body) :
    contents ρ (bs ++ [b]) = (contents ρ bs).add ρ b := by
  rw [contents, List.foldl_append]
  rfl

theorem Contents.put_put (c : Contents) (i : Item) (m n : Word) :
    (c.put i m).put i n = c.put i (m + n) := by
  rcases List.eq_nil_or_concat c with rfl | ⟨c, ⟨j, k⟩, rfl⟩
  · simp [put]
  · by_cases h : j = i
    · simp [put, h, BitVec.add_assoc]
    · simp [put, h]

/-- A block that is longer. -/
theorem contents_block (ρ : Valuation) (bs : List Body) (ptr bytes : List Byte) :
    contents ρ (bs ++ [.block (ptr ++ bytes)]) =
      contents ρ (bs ++ [.block ptr] ++ [.block bytes]) := by
  rw [contents_append, contents_append, contents_append]
  simp [Contents.add]

/-- Data with a greater count. -/
theorem contents_data (ρ : Valuation) (bs : List Body) (width : Word) (value : Expr)
    {count count' more : Expr} (h : count'.value ρ true = count.value ρ true + more.value ρ true) :
    contents ρ (bs ++ [.data width value count']) =
      contents ρ (bs ++ [.data width value count] ++ [.data width value more]) := by
  rw [contents_append, contents_append, contents_append]
  show Contents.put _ _ _ = Contents.put (Contents.put _ _ _) _ _
  rw [Contents.put_put, h]

/-! ### The count -/

namespace Assembler

/-- The valuation gives the local names their values. -/
def Names (s : Assembler) (ρ : Valuation) : Prop :=
  ∀ np v, s.store.localVal np = some v → ρ.name np = v.value ρ true

/-- The size of `DATA` whose size is not known yet is that of all it repeats. -/
def Sized (s : Assembler) (els : List ElemId) (ρ : Valuation) : Prop :=
  ∀ el ∈ els, ∀ size width value count, s.store.element el = ⟨size, .data width value count⟩ →
    size.const? = none → ρ.size el = count.value ρ true * width

/-- The size of an element, if it is known, or that which the valuation gives it. -/
def extent (s : Assembler) (ρ : Valuation) (el : ElemId) : Word :=
  (s.store.size el).const?.getD (ρ.size el)

def total (s : Assembler) (ρ : Valuation) (els : List ElemId) : Word :=
  (els.map (s.extent ρ)).sum

def bodies (s : Assembler) (els : List ElemId) : List Body := els.map fun el => (s.store.element el).u

end Assembler

/-- The last fragment of a segment is `f`, with the elements `els`, which hold what `ps` says; the
point is at `pt`, where all of them are counted but for what is owed.  `R` and `S` have held of the
valuations before. -/
structure Tally (seg : String) (f : NameId) (R S : Valuation → Prop) (els : List ElemId)
    (ps : List Body) (pt owed : Valuation → Word) (s : Assembler) : Prop where
  inv : Rooted s
  segment : ∃ x fs, s.segments seg = some x ∧ x.fragments = fs ++ [⟨f, els⟩] ∧
    x.curel = els.getLast? ∧ ∀ g ∈ fs, ∀ el ∈ g.elts, el < s.nextElement ∧ el ∉ els
  numbered : ∀ el ∈ els, el < s.nextElement
  nodup : els.Nodup
  point : ∀ x ρ, s.segments seg = some x → s.Names ρ → x.point.value ρ true = pt ρ
  count : ∀ ρ, s.Names ρ → pt ρ + owed ρ = ρ.name f + s.total ρ els
  holds : ∀ ρ, contents ρ (s.bodies els) = contents ρ ps
  names : ∀ ρ, s.Names ρ → R ρ
  sized : ∀ ρ, s.Sized els ρ → S ρ

variable {seg : String} {f : NameId} {R S : Valuation → Prop} {els : List ElemId} {ps : List Body}
  {pt pt' owed owed' : Valuation → Word} {s s' : Assembler} {el : ElemId}

theorem localVal_eq_none {np : NameId} (h : s.val np = none) : s.store.localVal np = none := by
  rw [Assembler.val] at h
  simp [Store.localVal, h]

theorem names_of_name (h : s'.store.name = s.store.name) {ρ : Valuation} (hρ : s'.Names ρ) :
    s.Names ρ := fun np v hv => hρ np v (by rw [← hv, Store.localVal, h]; rfl)

theorem extent_congr {ρ : Valuation} (h : s'.store.element el = s.store.element el) :
    s'.extent ρ el = s.extent ρ el := by
  rw [Assembler.extent, Store.size, h]
  rfl

theorem total_congr {ρ : Valuation} (h : ∀ el ∈ els, s'.store.element el = s.store.element el) :
    s'.total ρ els = s.total ρ els :=
  congrArg List.sum (List.map_congr_left fun el hel => extent_congr (h el hel))

theorem bodies_congr (h : ∀ el ∈ els, s'.store.element el = s.store.element el) :
    s'.bodies els = s.bodies els :=
  List.map_congr_left fun el hel => congrArg Element.u (h el hel)

@[simp] theorem total_snoc (s : Assembler) (ρ : Valuation) (els : List ElemId) (el : ElemId) :
    s.total ρ (els ++ [el]) = s.total ρ els + s.extent ρ el := by
  simp [Assembler.total]

@[simp] theorem bodies_snoc (s : Assembler) (els : List ElemId) (el : ElemId) :
    s.bodies (els ++ [el]) = s.bodies els ++ [(s.store.element el).u] := by
  simp [Assembler.bodies]

/-- The point and what is owed to it may be written in another way. -/
theorem Tally.owes (h : Tally seg f R S els ps pt owed s) (hp : ∀ ρ, pt' ρ = pt ρ)
    (ho : ∀ ρ, owed' ρ = owed ρ) : Tally seg f R S els ps pt' owed' s := by
  obtain rfl : owed' = owed := funext ho
  obtain rfl : pt' = pt := funext hp
  exact h

/-- What is counted is the same; the point may be written in another way. -/
theorem Tally.transfer (h : Tally seg f R S els ps pt owed s) (hinv : Rooted s')
    (hseg : ∀ x, s.segments seg = some x → ∃ x', s'.segments seg = some x' ∧
      x'.fragments = x.fragments ∧ x'.curel = x.curel ∧
      ∀ ρ, s'.Names ρ → x'.point.value ρ true = x.point.value ρ true)
    (hel : ∀ el ∈ els, s'.store.element el = s.store.element el)
    (hn : s.nextElement ≤ s'.nextElement) (hnames : ∀ ρ, s'.Names ρ → s.Names ρ) :
    Tally seg f R S els ps pt owed s' := by
  obtain ⟨x, fs, hx, hf, hc, hother⟩ := h.segment
  obtain ⟨x', hx', hf', hc', hp⟩ := hseg x hx
  refine ⟨hinv, ⟨x', fs, hx', hf'.trans hf, hc'.trans hc, fun g hg el hgel => ?_⟩,
    fun el hel => (h.numbered el hel).trans_le hn, h.nodup, fun y ρ hy hρ => ?_, fun ρ hρ => ?_,
    fun ρ => ?_, fun ρ hρ => h.names ρ (hnames ρ hρ), fun ρ hρ => h.sized ρ ?_⟩
  · obtain ⟨hlt, hne⟩ := hother g hg el hgel
    exact ⟨hlt.trans_le hn, hne⟩
  · obtain rfl := Option.some.inj (hx'.symm.trans hy)
    rw [hp ρ hρ, h.point x ρ hx (hnames ρ hρ)]
  · rw [total_congr hel]
    exact h.count ρ (hnames ρ hρ)
  · rw [bodies_congr hel]
    exact h.holds ρ
  · exact fun el hmem size w v c he => hρ el hmem size w v c ((hel el hmem).trans he)

/-- Nothing that is counted has changed. -/
theorem Tally.congr (h : Tally seg f R S els ps pt owed s) (hinv : Rooted s')
    (hst : s'.store = s.store) (hseg : s'.segments = s.segments)
    (hn : s'.nextElement = s.nextElement) : Tally seg f R S els ps pt owed s' :=
  h.transfer hinv (fun x hx => ⟨x, hseg ▸ hx, rfl, rfl, fun _ _ => rfl⟩)
    (fun _ _ => by rw [hst]) hn.ge fun _ => names_of_name (by rw [hst])

/-- The segment changes, but not its chains; the point may go on to what is owed to it. -/
theorem Tally.withSegment (h : Tally seg f R S els ps pt owed s) {x : Segment}
    (hx : s.segments seg = some x) (x' : Segment) (hinv : Rooted (s.withSegment seg x'))
    (hf : x'.fragments = x.fragments) (hc : x'.curel = x.curel) {d : Valuation → Word}
    (hp : ∀ ρ, x'.point.value ρ true = x.point.value ρ true + d ρ) :
    Tally seg f R S els ps (fun ρ => pt ρ + d ρ) (fun ρ => owed ρ - d ρ) (s.withSegment seg x') := by
  obtain ⟨y, fs, hy, hfs, hcur, hother⟩ := h.segment
  obtain rfl := Option.some.inj (hx.symm.trans hy)
  refine ⟨hinv, ⟨x', fs, segments_withSegment _ _ _, hf.trans hfs, hc.trans hcur, hother⟩,
    h.numbered, h.nodup, fun y ρ hy' hρ => ?_, fun ρ hρ => ?_, h.holds, h.names, h.sized⟩
  · obtain rfl := Option.some.inj ((segments_withSegment _ _ _).symm.trans hy')
    rw [hp, h.point x ρ hx hρ]
  · have := h.count ρ hρ
    show pt ρ + d ρ + (owed ρ - d ρ) = _
    rw [add_add_sub_cancel]
    exact this

/-! ### The steps of the emit functions -/

/-- Its fragment, and what is known of the segment. -/
theorem Tally.curel (h : Tally seg f R S els ps pt owed s) {x : Segment}
    (hx : s.segments seg = some x) : x.curel = els.getLast? := by
  obtain ⟨y, fs, hy, -, hcur, -⟩ := h.segment
  obtain rfl := Option.some.inj (hx.symm.trans hy)
  exact hcur

theorem tally_updatePoint {g : Bool → Expr → Option Expr} {d : Valuation → Word}
    (h : Tally seg f R S els ps pt owed s)
    (hm : ∀ lone e e' n, g lone e = some e' → e'.Mentions n → e.Mentions n)
    (hv : ∀ lone e e' ρ, g lone e = some e' → e'.value ρ true = e.value ρ true + d ρ) :
    Goes (updatePoint seg g) (fun _ s' => s'.store = s.store ∧
      Tally seg f R S els ps (fun ρ => pt ρ + d ρ) (fun ρ => owed ρ - d ρ) s') s := by
  refine .bind ((goes_reduce ask_store s).mono fun lone s₁ h₁ => ?_)
  obtain ⟨m, hm₁, rfl⟩ := h₁
  have h₁ : Tally seg f R S els ps pt owed { s with memory := m } :=
    h.congr (h.inv.grows (.of_store hm₁)) hm₁ rfl rfl
  refine goes_getSegment fun x hx => .bind (goes_ofOption (by simp) fun point hp => ?_)
  refine goes_setSegment ⟨hm₁, ?_⟩
  refine h₁.withSegment hx { x with point := point } (h₁.inv.grows ?_) rfl rfl fun ρ => ?_
  · exact .withSegment hx rfl (fun n => hm lone x.point point n hp) rfl
  · exact hv lone x.point point ρ hp

theorem tally_pointPlusConstant (h : Tally seg f R S els ps pt owed s) (c : Word) :
    Goes (pointPlusConstant seg c) (fun _ s' => s'.store = s.store ∧
      Tally seg f R S els ps (fun ρ => pt ρ + c) (fun ρ => owed ρ - c) s') s :=
  tally_updatePoint h (fun _ _ _ _ h hn => mentions_exprPlusConstant h hn)
    fun _ _ _ _ h => Expr.value_exprPlusConstant h true

/-- A node that an element has been glued to. -/
theorem value_exprGlueElement {ρ : Valuation} {e e' : Expr} (h : exprGlueElement el e = some e')
    (b : Bool) : e'.value ρ b = e.value ρ true + ρ.size el := by
  fun_induction exprGlueElement el e generalizing e' b with
  | case1 v => cases h; simp
  | case2 e => cases h; simp
  | case3 l r temp hl ih =>
      rw [Expr.value_exprBinop h, Expr.value_plus, ih hl true, Expr.value_plus]
      ring
  | case4 l r hl temp hr ihl ihr =>
      rw [Expr.value_exprBinop h, Expr.value_plus, ihr hr true, Expr.value_plus]
      ring
  | case5 => cases h
  | case6 => cases h

/-- `expr_plus_element` where the size is not known. -/
theorem value_plusElement {lone : Bool} {ρ : Valuation} {e e' : Expr}
    (h : (exprGlueElement el e).or (exprAsgPlus lone e (.element el)) = some e') :
    e'.value ρ true = e.value ρ true + ρ.size el := by
  cases hglue : exprGlueElement el e with
  | some e'' =>
      rw [hglue] at h
      obtain rfl : e'' = e' := by simpa using h
      exact value_exprGlueElement hglue true
  | none =>
      rw [hglue, Option.none_or] at h
      rw [Expr.value_exprAsgPlus h, Expr.value_element]

theorem tally_pointPlusElement (h : Tally seg f R S els ps pt owed s) (el : ElemId) :
    Goes (pointPlusElement seg el) (fun _ s' => s'.store = s.store ∧
      Tally seg f R S els ps (fun ρ => pt ρ + s.extent ρ el) (fun ρ => owed ρ - s.extent ρ el) s') s := by
  refine .bind (goes_get ?_)
  split
  · next c hc =>
      refine (tally_pointPlusConstant h c).mono fun _ s' h' => ⟨h'.1, h'.2.owes (fun ρ => ?_) fun ρ => ?_⟩ <;>
      · rw [Assembler.extent, hc]
        rfl
  · next hc =>
      refine .bind (goes_modify ?_)
      have hinv : Rooted { s with nrefs := Function.update s.nrefs el (s.nrefs el + 1) } :=
        h.inv.grows ⟨rfl, rfl, rfl, rfl, rfl, rfl, rfl, rfl, le_rfl,
          fun _ x h => ⟨x, h, rfl, fun _ => id, fun _ => .inl⟩⟩
      refine (tally_updatePoint (h.congr hinv rfl rfl rfl) (d := fun ρ => ρ.size el) ?_ ?_).mono
        fun _ s' h' => ⟨h'.1, h'.2.owes (fun ρ => ?_) fun ρ => ?_⟩
      · intro lone e e' n hg hn
        cases hglue : exprGlueElement el e with
        | some e'' =>
            rw [hglue] at hg
            obtain rfl : e'' = e' := by simpa using hg
            exact mentions_exprGlueElement hglue hn
        | none =>
            rw [hglue, Option.none_or] at hg
            exact (mentions_exprAsgPlus hg hn).resolve_right id
      · exact fun lone e e' ρ hg => value_plusElement hg
      all_goals
        rw [Assembler.extent, hc]
        rfl

/-! ### Elements -/

/-- The chains after a new element. -/
theorem chained_eq {x : Segment} {fs : List Fraglist} {n : ElemId}
    (hf : x.fragments = fs ++ [⟨f, els⟩]) (hc : x.curel = els.getLast?)
    (hother : ∀ g ∈ fs, ∀ el ∈ g.elts, el ∉ els) : x.chained n = fs ++ [⟨f, els ++ [n]⟩] := by
  unfold Segment.chained
  rw [hc, hf]
  rcases List.eq_nil_or_concat els with rfl | ⟨els, c, rfl⟩
  · simp
  · have hlast : (els.concat c).getLast? = some c := by simp
    rw [hlast]
    have hfs : fs.map (fun g => if c ∈ g.elts then { g with elts := g.elts ++ [n] } else g) = fs := by
      refine (List.map_congr_left fun g hg => ?_).trans (List.map_id fs)
      exact if_neg fun hm => hother g hg c hm (by simp)
    simp [hfs]

theorem contents_congr {ρ : Valuation} {bs bs' : List Body} (h : contents ρ bs = contents ρ bs')
    (b : Body) : contents ρ (bs ++ [b]) = contents ρ (bs' ++ [b]) := by
  rw [contents_append, contents_append, h]

/-- A new element at the end is owed to the point. -/
theorem tally_addElement (h : Tally seg f R S els ps pt owed s) (size : Expr) (u : Body) :
    Goes (addElement seg size u) (fun n s' => n = s.nextElement ∧
      s'.store.element n = ⟨size, u⟩ ∧
      Tally seg f R S (els ++ [n]) (ps ++ [u]) pt (fun ρ => owed ρ + s'.extent ρ n) s') s := by
  obtain ⟨x, fs, hx, hf, hc, hother⟩ := h.segment
  refine ((growsBy_addElement seg size u s).and (ensures_bind.mpr (ensures_bind.mpr
    (ensures_get.mpr (ensures_ofOption.mpr ⟨fun y hy => ?_, fun _ => trivial⟩))) :
      Ensures (fun _ => True) (fun _ => True) _ (fun n s' => n = s.nextElement ∧
        s' = ({ s.withElement n ⟨size, u⟩ with
          nextElement := n + 1
          nrefs := Function.update s.nrefs n 0
          allocated := Function.update s.allocated n 0 } : Assembler).withSegment seg
            { x with fragments := fs ++ [⟨f, els ++ [n]⟩], curel := some n }) s)).mono ?_
  · obtain rfl := Option.some.inj (hx.symm.trans hy)
    rw [if_neg (by simp [hf])]
    refine ensures_bind.mpr (ensures_get.mpr (ensures_bind.mpr (ensures_modify.mpr
      (ensures_bind.mpr (ensures_modify.mpr (ensures_pure.mpr ⟨rfl, ?_⟩))))))
    rw [chained_eq hf hc fun g hg el hel => (hother g hg el hel).2]
  · rintro n s' ⟨hgrows, rfl, rfl⟩
    set s' := Assembler.withSegment _ seg _ with hs'
    have hold : ∀ el ∈ els, s'.store.element el = s.store.element el := fun el hel =>
      Function.update_of_ne (h.numbered el hel).ne _ _
    have hself : s'.store.element s.nextElement = ⟨size, u⟩ := Function.update_self _ _ _
    refine ⟨rfl, hself, h.inv.grows hgrows, ⟨_, fs, segments_withSegment _ _ _, rfl, by simp, ?_⟩,
      ?_, ?_, fun y ρ hy hρ => ?_, fun ρ hρ => ?_, fun ρ => ?_, fun ρ hρ => h.names ρ hρ,
      fun ρ hρ => ?_⟩
    · intro g hg el hel
      obtain ⟨hlt, hne⟩ := hother g hg el hel
      exact ⟨Nat.lt_succ_of_lt hlt, by simp [hne, hlt.ne]⟩
    · simp only [List.mem_append, List.mem_singleton]
      rintro el (hel | rfl)
      · exact Nat.lt_succ_of_lt (h.numbered el hel)
      · exact Nat.lt_succ_self _
    · rw [← List.concat_eq_append]
      exact h.nodup.concat fun hel => (h.numbered _ hel).ne rfl
    · obtain rfl := Option.some.inj ((segments_withSegment _ _ _).symm.trans hy)
      exact h.point x ρ hx hρ
    · rw [total_snoc, total_congr hold, ← add_assoc, ← add_assoc, h.count ρ hρ]
    · rw [bodies_snoc, bodies_congr hold, hself]
      exact contents_congr (h.holds ρ) u
    · refine h.sized ρ fun el hel size' w v c he => hρ el (List.mem_append_left _ hel) size' w v c ?_
      exact (hold el hel).trans he

theorem element_withElement (s : Assembler) (el : ElemId) (y : Element) :
    (s.withElement el y).store.element el = y := Function.update_self _ _ _

/-- The last element changes. -/
theorem Tally.replace (h : Tally seg f R S els ps pt owed s) (hlast : els.getLast? = some el)
    {y : Element} {c : Word} {p : Body} (hinv : Rooted (s.withElement el y))
    (hc : s.store.size el = .const c)
    (hp : ∀ ρ bs, contents ρ (bs ++ [y.u]) = contents ρ (bs ++ [(s.store.element el).u] ++ [p])) :
    Tally seg f R S els (ps ++ [p]) pt
      (fun ρ => owed ρ + (s.withElement el y).extent ρ el - c) (s.withElement el y) := by
  obtain ⟨els, rfl⟩ : ∃ init, els = init ++ [el] := by
    rcases List.eq_nil_or_concat els with rfl | ⟨init, c, rfl⟩
    · cases hlast
    · obtain rfl : c = el := by simpa using hlast
      exact ⟨init, List.concat_eq_append⟩
  have hmem : el ∉ els := fun hm => by
    have := h.nodup
    rw [← List.concat_eq_append, List.nodup_concat] at this
    exact this.1 hm
  have hother : ∀ el' ∈ els, (s.withElement el y).store.element el' = s.store.element el' :=
    fun el' hel' => Function.update_of_ne (by rintro rfl; exact hmem hel') _ _
  refine ⟨hinv, h.segment, h.numbered, h.nodup, fun x ρ hx hρ => h.point x ρ hx hρ, fun ρ hρ => ?_, fun ρ => ?_,
    fun ρ hρ => h.names ρ hρ, fun ρ hρ => h.sized ρ fun el' hel' size w v c' he hsize => ?_⟩
  · have hcount := h.count ρ hρ
    have hext : s.extent ρ el = c := by
      rw [Assembler.extent, hc]
      rfl
    rw [total_snoc, hext] at hcount
    rw [total_snoc, total_congr hother]
    linear_combination hcount
  · rw [bodies_snoc, bodies_congr hother, element_withElement, hp, ← bodies_snoc]
    exact contents_congr (h.holds ρ) p
  · rcases List.mem_append.mp hel' with hm | hm
    · exact hρ el' hel' size w v c' ((hother el' hm).trans he) hsize
    · -- its size was known
      obtain rfl := List.mem_singleton.mp hm
      rw [Store.size, he] at hc
      rw [show size = .const c from hc] at hsize
      cases hsize

/-- What is held may be written in another way. -/
theorem Tally.holding (h : Tally seg f R S els ps pt owed s) {ps' : List Body}
    (hps : ∀ ρ, contents ρ ps = contents ρ ps') : Tally seg f R S els ps' pt owed s :=
  { h with holds := fun ρ => (h.holds ρ).trans (hps ρ) }

theorem contents_empty (ρ : Valuation) (bs : List Body) :
    contents ρ (bs ++ [.block []]) = contents ρ bs := by
  rw [contents_append]
  simp [Contents.add]

/-! ### Blocks -/

/-- The current block, with room in it. -/
theorem tally_block {α : Type} {g : ElemId → Emission α} {Q : α → Assembler → Prop} (len : Word)
    (h : Tally seg f R S els ps pt owed s)
    (hg : ∀ el s' els' c ptr, Tally seg f R S els' ps pt owed s' → els'.getLast? = some el →
      s'.store.element el = ⟨.const c, .block ptr⟩ → Goes (g el) Q s') :
    Goes (do
      let el ← blockElement seg
      elementBlockMakeSpace el len
      g el) Q s := by
  have hspace : ∀ el s' els' size ptr, Tally seg f R S els' ps pt owed s' →
      els'.getLast? = some el → s'.store.element el = ⟨size, .block ptr⟩ →
      Goes (elementBlockMakeSpace el len >>= fun _ => g el) Q s' := by
    intro el s' els' size ptr h' hlast hel
    refine .bind (.bind (goes_get ?_))
    split
    · next ptr' c _ hc =>
        have hel' : s'.store.element el = ⟨.const c, .block ptr⟩ := by
          rw [hel, ← Expr.const?_eq_some.mp hc, Store.size, hel]
        dsimp only
        split
        · refine .bind (goes_ofOption (by simp) fun n _ => goes_modify ?_)
          refine hg el _ els' c ptr (h'.congr (h'.inv.grows ?_) rfl rfl rfl) hlast hel'
          exact ⟨rfl, rfl, rfl, rfl, rfl, rfl, rfl, rfl, le_rfl,
            fun _ x h => ⟨x, h, rfl, fun _ => id, fun _ => .inl⟩⟩
        · exact goes_pure (hg el _ els' c ptr h' hlast hel')
    · exact goes_stop _
  have hnew : Goes (do
      let el ← addElement seg (.const 0) (.block [])
      elementBlockMakeSpace el len
      g el) Q s := by
    refine .bind ((tally_addElement h _ _).mono fun el s' h' => ?_)
    obtain ⟨rfl, hel, h'⟩ := h'
    refine hspace _ s' _ _ [] ((h'.holding (contents_empty · ps)).owes (fun _ => rfl) ?_) (by simp) hel
    intro ρ
    rw [Assembler.extent, Store.size, hel]
    exact (add_zero _).symm
  refine .bind (goes_getSegment fun x hx => .bind (goes_get ?_))
  have hcur := h.curel hx
  split
  · next el hel =>
      rw [hel] at hcur
      split
      · next ptr hu =>
          refine goes_pure (hspace el s els (s.store.size el) ptr h hcur.symm ?_)
          rw [← hu]
          rfl
      · exact ensures_bind.mp hnew
  · exact ensures_bind.mp hnew

/-- Bytes that are counted. -/
theorem tally_bytes {c : Word} {ptr : List Byte} (h : Tally seg f R S els ps pt (fun _ => 0) s)
    (hlast : els.getLast? = some el) (hel : s.store.element el = ⟨.const c, .block ptr⟩)
    (bytes : List Byte) (len : Word) :
    Goes (appendBytes el bytes len >>= fun _ => pointPlusConstant seg len) (fun _ s' =>
      Tally seg f R S els (ps ++ [.block bytes]) (fun ρ => pt ρ + len) (fun _ => 0) s') s := by
  refine .bind (((growsBy_appendBytes el bytes len s).and (ensures_modify.mpr rfl :
    Ensures (fun _ => True) (fun _ => True) _ (fun _ s' => s' = _) s)).mono fun _ s' h' => ?_)
  obtain ⟨hgrows, rfl⟩ := h'
  rw [hel] at hgrows ⊢
  have h' := h.replace hlast (y := ⟨.const (c + len), .block (ptr ++ bytes)⟩) (c := c)
    (p := .block bytes) (h.inv.grows hgrows) (by rw [Store.size, hel]) fun ρ bs => by
      rw [hel]
      exact contents_block ρ bs ptr bytes
  refine (tally_pointPlusConstant h' len).mono fun _ s'' h'' => ?_
  refine h''.2.owes (fun _ => rfl) fun ρ => ?_
  have hext : (s.withElement el ⟨.const (c + len), .block (ptr ++ bytes)⟩).extent ρ el = c + len := by
    rw [Assembler.extent, Store.size, element_withElement]
    rfl
  rw [hext]
  ring

/-! ### The calls -/

/-- The calls that fill a fragment; the last is `do_pending_alignment`, on an alignment that is
pending. -/
inductive Call where
  | block (bytes : List Byte)
  | cmd (opcode : Word) (arg : Expr)
  | data (width : Word) (value count : Expr)
  | align (align : Word) (filler : Expr)
  | pending (align : Word) (filler : Expr)

def Call.exec (fuel : Nat) (seg : String) : Call → Emission Unit
  | block bytes => emitBlock seg bytes
  | cmd opcode arg => emitCmd fuel seg opcode arg
  | data width value count => emitData fuel seg width value count
  | align a filler => do
      let _ ← emitAlign fuel seg a filler
      return ()
  | pending a filler => do
      let x ← getSegment seg
      setSegment seg { x with pendingAlignment := a, pendingAlignmentFiller := some filler }
      doPendingAlignment fuel seg

/-- Padding is bytes, or data whose count depends on the point. -/
def Pads (point : Expr) (a : Word) (filler : Expr) (ps : List Body) : Prop :=
  ps = [] ∨ (∃ c n, filler = .const c ∧ ps = [.block (List.replicate n (lowByte c))]) ∨
    ∃ count, alignCount a point = some count ∧ ps = [.data 1 filler count]

/-- What a call is asked to emit into `x`. -/
def Call.Emits (x : Segment) : Call → List Body → Prop
  | block bytes, ps => ps = [.block bytes]
  | cmd opcode arg, ps =>
      match arg.const? with
      | some c =>
          match cmdGenerate (lowByte opcode) c x.slot.toInt with
          | .ok (_, out) => ps = [.block out]
          -- too narrow: an error
          | .error _ => ps = []
      | none => ps = [.cmd opcode arg]
  | data width value count, ps => ps = [.data width value count]
  | align a filler, ps | pending a filler, ps => Pads x.point a filler ps

theorem tally_emitBlock (h : Tally seg f R S els ps pt (fun _ => 0) s) (bytes : List Byte) :
    Goes (emitBlock seg bytes) (fun _ s' => ∃ els' pt',
      Tally seg f R S els' (ps ++ [.block bytes]) pt' (fun _ => 0) s') s := by
  refine tally_block _ h fun el s' els' c ptr h' hlast hel => ?_
  exact (tally_bytes h' hlast hel bytes _).mono fun _ s'' h'' => ⟨els', _, h''⟩

/-- A new element that is counted. -/
theorem tally_element (h : Tally seg f R S els ps pt (fun _ => 0) s) (size : Expr) (u : Body) :
    Goes (addElement seg size u >>= fun el => pointPlusElement seg el) (fun _ s' => ∃ n,
      s'.store.element n = ⟨size, u⟩ ∧ Tally seg f R S (els ++ [n]) (ps ++ [u])
        (fun ρ => pt ρ + s'.extent ρ n) (fun _ => 0) s') s := by
  refine .bind ((tally_addElement h size u).mono fun n s₁ h₁ => ?_)
  obtain ⟨-, hel, h₁⟩ := h₁
  refine (tally_pointPlusElement h₁ n).mono fun _ s₂ h₂ => ?_
  obtain ⟨hst, h₂⟩ := h₂
  have hext : ∀ ρ, s₂.extent ρ n = s₁.extent ρ n := fun ρ => extent_congr (by rw [hst])
  refine ⟨n, by rw [hst, hel], h₂.owes (fun ρ => by rw [hext]) fun ρ => ?_⟩
  rw [zero_add, sub_self]

/-- An error changes nothing that is counted. -/
theorem Tally.reported (h : Tally seg f R S els ps pt owed s) :
    Tally seg f R S els ps pt owed { s with errors := s.errors + 1 } := by
  refine h.congr (h.inv.grows ?_) rfl rfl rfl
  exact ⟨rfl, rfl, rfl, rfl, rfl, rfl, rfl, rfl, le_rfl,
    fun _ x h => ⟨x, h, rfl, fun _ => id, fun _ => .inl⟩⟩

/-- The segment changes in what is not counted. -/
theorem Tally.within (h : Tally seg f R S els ps pt owed s) {x : Segment}
    (hx : s.segments seg = some x) (x' : Segment) (hf : x'.fragments = x.fragments)
    (hc : x'.curel = x.curel) (hp : x'.point = x.point) :
    Tally seg f R S els ps pt owed (s.withSegment seg x') := by
  refine h.transfer (h.inv.withSegment ?_ ?_) (fun y hy => ?_) (fun _ _ => rfl) le_rfl
    fun _ hρ => hρ
  · rw [hp]
    exact h.inv.point seg x hx
  · rw [hc]
    exact fun el => h.inv.curel seg x el hx
  · obtain rfl := Option.some.inj (hx.symm.trans hy)
    exact ⟨x', segments_withSegment _ _ _, hf, hc, fun _ _ => by rw [hp]⟩

theorem tally_slot (h : Tally seg f R S els ps pt (fun _ => 0) s) :
    Goes (do
      let x ← getSegment seg
      setSegment seg { x with slot := 0 }) (fun _ s' =>
        Tally seg f R S els ps pt (fun _ => 0) s') s :=
  goes_getSegment fun _ hx => goes_setSegment (h.within hx _ rfl rfl rfl)

theorem tally_emitCmd (h : Tally seg f R S els ps pt (fun _ => 0) s) {x : Segment}
    (hx : s.segments seg = some x) (fuel : Nat) (opcode : Word) (arg : Expr) :
    Goes (emitCmd fuel seg opcode arg) (fun _ s' => ∃ els' pt' p,
      (Call.cmd opcode arg).Emits x p ∧ Tally seg f R S els' (ps ++ p) pt' (fun _ => 0) s') s := by
  refine goes_getSegment fun y hy => ?_
  obtain rfl := Option.some.inj (hx.symm.trans hy)
  split
  · next c' hc =>
      refine tally_block _ h fun el s' els' c ptr h' hlast hel => ?_
      have hpieces : ∀ p, (match cmdGenerate (lowByte opcode) c' x.slot.toInt with
          | .ok (_, out) => p = [Body.block out]
          | .error _ => p = []) → (Call.cmd opcode arg).Emits x p := by
        intro p hp
        rw [Call.Emits, hc]
        exact hp
      split
      · next sz out hgen =>
          refine .bind ((ensures_bind.mp (tally_bytes h' hlast hel out _)).mono fun _ s₁ h₁ =>
            .bind (h₁.mono fun _ s₂ h₂ => (tally_slot h₂).mono fun _ s₃ h₃ => ?_))
          exact ⟨els', _, _, hpieces _ (by rw [hgen]), h₃⟩
      · next e hgen =>
          refine .bind (goes_modify (.bind ((tally_pointPlusConstant h'.reported 0).mono
            fun _ s₂ h₂ => ?_)))
          refine (tally_slot (h₂.2.owes (fun _ => rfl) fun _ => (sub_zero _).symm)).mono
            fun _ s₃ h₃ => ⟨els', fun ρ => pt ρ + 0, [], hpieces _ (by rw [hgen]), ?_⟩
          rw [List.append_nil]
          exact h₃
  · next hc =>
      have hpieces : (Call.cmd opcode arg).Emits x [.cmd opcode arg] := by
        rw [Call.Emits, hc]
      have hadd : ∀ s' bounds, Tally seg f R S els ps pt (fun _ => 0) s' → Goes (do
          let el ← addElement seg (cmdSizeExpr x.slot bounds) (.cmd opcode arg)
          pointPlusElement seg el
          let x ← getSegment seg
          setSegment seg { x with slot := 0 }) (fun _ s'' => ∃ els' pt' p,
            (Call.cmd opcode arg).Emits x p ∧
              Tally seg f R S els' (ps ++ p) pt' (fun _ => 0) s'') s' := by
        intro s' bounds h'
        refine .bind ((ensures_bind.mp (tally_element h' _ _)).mono fun _ s₁ h₁ =>
          .bind (h₁.mono fun _ s₂ h₂ => ?_))
        obtain ⟨n, -, h₂⟩ := h₂
        exact (tally_slot h₂).mono fun _ s₃ h₃ => ⟨_, _, _, hpieces, h₃⟩
      refine .bind (goes_get (.bind (goes_ofOption (by simp) fun temp _ => .bind
        (goes_ofOption (by simp) fun bounds _ => ?_))))
      dsimp only
      split
      · exact .bind (goes_modify (hadd _ bounds h.reported))
      · exact hadd s bounds h

theorem tally_dataSize {α : Type} {g : Expr → Emission α} {Q : α → Assembler → Prop} (fuel : Nat)
    (width : Word) (count : Expr) (hg : ∀ size, Goes (g size) Q s) :
    Goes (dataSize fuel width count >>= g) Q s :=
  .bind (.bind (goes_ofOption (by simp) fun _ _ => .bind (goes_get (goes_ofOption (by simp)
    fun size _ => hg size))))

/-- The memory has other answers. -/
theorem Tally.answered (h : Tally seg f R S els ps pt owed s) {m : Memory} (hm : m.store = s.store) :
    Tally seg f R S els ps pt owed { s with memory := m } :=
  h.congr (h.inv.grows (.of_store hm)) hm rfl rfl

theorem tally_emitData (h : Tally seg f R S els ps pt (fun _ => 0) s) (fuel : Nat) (width : Word)
    (value count : Expr) : Goes (emitData fuel seg width value count) (fun _ s' => ∃ els' pt',
      Tally seg f R S els' (ps ++ [.data width value count]) pt' (fun _ => 0) s') s := by
  have hnew : ∀ s', Tally seg f R S els ps pt (fun _ => 0) s' →
      Goes (emitData.new fuel seg width value count) (fun _ s' => ∃ els' pt',
        Tally seg f R S els' (ps ++ [.data width value count]) pt' (fun _ => 0) s') s' :=
    fun s' h' => tally_dataSize fuel width count fun size =>
      (tally_element h' size _).mono fun _ s₂ h₂ => by
        obtain ⟨n, -, h₂⟩ := h₂
        exact ⟨_, _, h₂⟩
  refine goes_getSegment fun x hx => .bind (goes_get (.bind ?_))
  refine (goes_reduce ask_store s).mono fun ptr s₁ h₁ => ?_
  obtain ⟨m, hm, rfl⟩ := h₁
  have h₁ := h.answered hm
  split
  · next el size width' value' count' hel =>
      obtain ⟨el', hcur, hel⟩ := Option.map_eq_some_iff.mp hel
      simp only [Prod.mk.injEq] at hel
      obtain ⟨rfl, -, hel'⟩ := hel
      split
      · next heq =>
          obtain ⟨rfl, hvalue⟩ : width' = width ∧ exprEqual ptr value' value = true := by
            simpa using heq
          obtain rfl := eq_of_exprEqual hvalue
          refine .bind (goes_ofOption (by simp) fun old hold => ?_)
          obtain rfl := Expr.const?_eq_some.mp hold
          refine .bind ((tally_pointPlusConstant h₁ (-old)).mono fun _ s₂ h₂ => ?_)
          obtain ⟨hst, h₂⟩ := h₂
          refine .bind ((goes_reduce ask_store s₂).mono fun lone s₃ h₃ => ?_)
          obtain ⟨m', hm', rfl⟩ := h₃
          have h₃ := h₂.answered hm'
          refine .bind (goes_ofOption (by simp) fun count'' hcount => ?_)
          refine tally_dataSize fuel width' count'' fun size => .bind (goes_modify ?_)
          have hst' : ({ s₂ with memory := m' } : Assembler).store = s.store :=
            hm'.trans (hst.trans hm)
          have h₄ := h₃.replace (h.curel hx ▸ hcur) (y := ⟨size, .data width' value' count''⟩)
            (c := old) (p := .data width' value' count) (h₃.inv.grows ?_)
            (by rw [Store.size, hst', hel']) fun ρ bs => by
              rw [hst', hel']
              exact contents_data ρ bs width' value' (Expr.value_exprAsgPlus hcount true)
          · refine (tally_pointPlusElement h₄ el').mono fun _ s₅ h₅ => ⟨els, _, h₅.2.owes
              (fun _ => rfl) fun ρ => ?_⟩
            ring
          · exact ⟨rfl, rfl, rfl, rfl, rfl, rfl, rfl, rfl, le_rfl,
              fun _ x h => ⟨x, h, rfl, fun _ => id, fun _ => .inl⟩⟩
      · exact hnew _ h₁
  · exact hnew _ h₁

/-! ### Alignment -/

theorem goes_reduce_eq {α : Type} {x : Reducer α} (h : Relates SameStore x) (s : Assembler) :
    Goes (reduce x) (fun a s' => ∃ m, (x s.memory).1 = .ok (a, m) ∧ m.store = s.store ∧
      s' = { s with memory := m }) s := by
  unfold Goes Ensures reduce
  rcases hx : x s.memory with ⟨e | ⟨a, m⟩, log⟩
  · simp
  · exact fun _ => ⟨m, rfl, h _ _ _ (by rw [hx]), rfl⟩

/-- How far an alignment moves the point. -/
inductive Padded (a shift : Word) (point : Expr) (pt pt' : Valuation → Word)
    (S : Valuation → Prop) : Prop where
  | none (hs : shift = 0) (hp : ∀ ρ, pt' ρ = pt ρ)
  | known (hs : shift.slt a = true) (hp : ∀ ρ, pt' ρ = pt ρ + (a - shift))
  | counted (hp : ∀ ρ, S ρ → pt' ρ = pt ρ + ((a - point.value ρ true) &&& (a - 1)))

theorem Padded.imp {a shift : Word} {point : Expr} {S' : Valuation → Prop}
    (h : Padded a shift point pt pt' S) (hS : ∀ ρ, S' ρ → S ρ) : Padded a shift point pt pt' S' := by
  cases h with
  | none hs hp => exact .none hs hp
  | known hs hp => exact .known hs hp
  | counted hp => exact .counted fun ρ hρ => hp ρ (hS ρ hρ)

theorem value_alignCount {a : Word} {point count : Expr} (h : alignCount a point = some count)
    (ρ : Valuation) : count.value ρ true = (a - point.value ρ true) &&& (a - 1) := by
  obtain ⟨gap, hgap, h⟩ := Option.bind_eq_some_iff.mp h
  rw [Expr.value_exprBinop h, Expr.value_binop (by rw [eval]), Expr.value_exprBinop hgap,
    Expr.value_minus, Expr.value_const, Expr.value_const]

theorem tally_emitAlign (h : Tally seg f R S els ps pt (fun _ => 0) s) {x : Segment}
    (hx : s.segments seg = some x) (fuel : Nat) (a : Word) (filler : Expr) :
    Goes (emitAlign fuel seg a filler) (fun b s' => ∃ els' p pt' shift m,
      (exprCheckAlignment fuel a x.point s.memory).1 = .ok (shift, m) ∧ Pads x.point a filler p ∧
      Tally seg f R S els' (ps ++ p) pt' (fun _ => 0) s' ∧
      Padded a shift x.point pt pt' (s'.Sized els') ∧ (b = false → shift = 0)) s := by
  refine goes_getSegment fun y hy => ?_
  obtain rfl := Option.some.inj (hx.symm.trans hy)
  refine .bind ((goes_reduce_eq (exprCheckAlignment_store fuel a x.point) s).mono fun shift s₁ h₁ => ?_)
  obtain ⟨m, hcheck, hm, rfl⟩ := h₁
  have h₁ := h.answered hm
  have hgeneral : Goes (emitAlign.general seg a filler x.point) (fun b s' => ∃ els' p pt' shift m,
      (exprCheckAlignment fuel a x.point s.memory).1 = .ok (shift, m) ∧ Pads x.point a filler p ∧
      Tally seg f R S els' (ps ++ p) pt' (fun _ => 0) s' ∧
      Padded a shift x.point pt pt' (s'.Sized els') ∧ (b = false → shift = 0)) { s with memory := m } := by
    refine .bind (goes_ofOption (by simp) fun count hcount => ?_)
    refine .bind ((ensures_bind.mp (tally_element h₁ _ _)).mono fun _ s₂ h₂ =>
      .bind (h₂.mono fun _ s₃ h₃ => goes_pure ?_))
    obtain ⟨n, hel, h₃⟩ := h₃
    refine ⟨_, _, _, shift, m, hcheck, .inr (.inr ⟨count, hcount, rfl⟩), h₃, .counted fun ρ hρ => ?_,
      by simp⟩
    have hsize := hρ n (by simp) _ _ _ _ hel rfl
    rw [Assembler.extent, Store.size, hel, ← value_alignCount hcount]
    simpa [Expr.const?] using hsize
  split
  · next hs =>
      exact goes_pure ⟨els, [], pt, shift, m, hcheck, .inl rfl, by rwa [List.append_nil],
        .none hs fun _ => rfl, fun _ => hs⟩
  · split
    · next c hc =>
        split
        · next hlt =>
            refine tally_block _ h₁ fun el s' els' c' ptr h' hlast hel => ?_
            refine .bind ((ensures_bind.mp (tally_bytes h' hlast hel _ _)).mono fun _ s₂ h₂ =>
              .bind (h₂.mono fun _ s₃ h₃ => goes_pure ?_))
            exact ⟨els', _, _, shift, m, hcheck, .inr (.inl ⟨c, _, Expr.const?_eq_some.mp hc, rfl⟩),
              h₃, .known hlt fun _ => rfl, by simp⟩
        · exact hgeneral
    · exact hgeneral

/-- The point becomes a fresh name, whose value it was. -/
theorem tally_place (h : Tally seg f R S els ps pt (fun _ => 0) s) {x : Segment}
    (hx : s.segments seg = some x) (fuel : Nat) : Goes (do
      let np ← tableAddNoname
      let x ← getSegment seg
      nameAssignValue fuel np x.point
      setAlign np x.pendingAlignment
      setDefined np
      let _ ← setSegment seg { x with point := .name np }
      dropPendingAlignment seg) (fun _ s' => Tally seg f R S els ps pt (fun _ => 0) s' ∧
        s'.store.name = Function.update s.store.name (noname s.nonames)
          ⟨some x.point, x.pendingAlignment, false⟩ ∧
        s'.store.element = s.store.element ∧ (∀ n, s.fragment n = true → s'.fragment n = true) ∧
        ∃ x', s'.segments seg = some x' ∧ x'.point = .name (noname s.nonames)) s := by
  refine (?_ : Goes _ (fun _ s' => s'.store.name = Function.update s.store.name (noname s.nonames)
      ⟨some x.point, x.pendingAlignment, false⟩ ∧ s'.store.element = s.store.element ∧
      s'.nextElement = s.nextElement ∧ s'.nonames = s.nonames + 1 ∧
      s'.fragment = Function.update s.fragment (noname s.nonames) false ∧
      (∀ seg', seg' ≠ seg → s'.segments seg' = s.segments seg') ∧
      s'.segments seg = some { x with point := .name (noname s.nonames), pendingAlignment := 1
                                      pendingAlignmentFiller := none }) s).mono ?_
  · have hfresh : Goes tableAddNoname (fun np s' => np = noname s.nonames ∧
        s'.nextElement = s.nextElement ∧ s'.nonames = s.nonames + 1 ∧ s'.segments = s.segments ∧
        s'.store.element = s.store.element ∧
        s'.fragment = Function.update s.fragment np false ∧
        s'.store.name = Function.update s.store.name np nameAlloc) s :=
      fun _ => ⟨rfl, rfl, rfl, rfl, rfl, rfl, rfl⟩
    refine .bind (hfresh.mono fun np s₁ h₁ => ?_)
    obtain ⟨rfl, hn, hnon, hsegs, hel, hfragment, hst⟩ := h₁
    refine goes_getSegment fun y hy => ?_
    obtain rfl := Option.some.inj (hx.symm.trans (hsegs ▸ hy))
    refine .bind ((nameAssignValue_goes _ _ _ _).mono fun _ s₂ h₂ => ?_)
    obtain ⟨m, errors, v, hm, rfl, -, hv⟩ := h₂
    have hname : s₁.store.name (noname s.nonames) = nameAlloc := by rw [hst, Function.update_self]
    -- the point leads to names of before only
    have hno : exprNameMentioned s₁.store (noname s.nonames) fuel x.point ≠ some true := fun hm =>
      (h.inv.point seg x hx).not_leads (not_anchor (h.inv.fresh s.nonames le_rfl).1
        (h.inv.fresh s.nonames le_rfl).2) (leads_mono (fun n w hw => by
          rw [hst, Function.update_apply] at hw
          split at hw
          · cases hw
          · exact hw) (leads_of_mentioned hm))
    obtain rfl : v = x.point := hv hno (by rw [hname]; decide)
    refine .bind (goes_modify (.bind (goes_modify (.bind (goes_setSegment ?_)))))
    refine goes_getSegment fun z hz => goes_setSegment ?_
    obtain rfl := Option.some.inj ((segments_withSegment _ _ _).symm.trans hz)
    refine ⟨?_, ?_, hn, hnon, hfragment, fun seg' hne => ?_, segments_withSegment _ _ _⟩
    · have hname₂ := (congrArg Store.name hm).trans hst
      simp only [Assembler.withSegment, Assembler.withName, Assembler.withStore, hname]
      simp only [Assembler.store] at hname₂ ⊢
      simp [hname₂, nameAlloc]
    · exact (congrArg Store.element hm).trans hel
    · rw [segments_withSegment_of_ne _ _ hne, segments_withSegment_of_ne _ _ hne]
      exact congrFun hsegs seg'
  · rintro _ s' ⟨hname, hel, hn, hnon, hfrag, hsegs, hseg⟩
    have hinv : Rooted s' := h.inv.place hx hseg hsegs rfl rfl hname rfl hfrag hnon hn
    refine ⟨h.transfer hinv (fun y hy => ⟨_, hseg, ?_⟩) (fun el _ => by rw [hel]) hn.ge ?_, hname,
      hel, fun n hn => ?_, _, hseg, rfl⟩
    · obtain rfl := Option.some.inj (hx.symm.trans hy)
      refine ⟨rfl, rfl, fun ρ hρ => ?_⟩
      rw [Expr.value_name]
      exact hρ _ _ (by rw [Store.localVal, hname, Function.update_self]; rfl)
    · intro ρ hρ n v hv
      have hne : n ≠ noname s.nonames := by
        rintro rfl
        rw [localVal_eq_none (h.inv.fresh s.nonames le_rfl).1] at hv
        cases hv
      exact hρ n v (by rw [Store.localVal, hname, Function.update_of_ne hne]; exact hv)
    · rw [hfrag, Function.update_of_ne]
      · exact hn
      · rintro rfl
        exact Bool.noConfusion ((h.inv.fresh s.nonames le_rfl).2.symm.trans hn)

/-- What an alignment does to the names: it may put the point under a fresh one. -/
inductive Rebased (seg : String) (a : Word) (point : Expr) (s s' : Assembler) : Prop where
  | same (hname : s'.store.name = s.store.name) (hfrag : s'.fragment = s.fragment)
      (hp : ∀ x n, s'.segments seg = some x → x.point.Mentions n → point.Mentions n)
  | named (v : Expr) (hname : s'.store.name =
        Function.update s.store.name (noname s.nonames) ⟨some v, a, false⟩)
      (hfrag : ∀ n, s.fragment n = true → s'.fragment n = true)
      (hv : ∀ n, v.Mentions n → point.Mentions n)
      (hp : ∀ x, s'.segments seg = some x → x.point = .name (noname s.nonames))

theorem tally_pending (h : Tally seg f R S els ps pt (fun _ => 0) s) {x : Segment}
    (hx : s.segments seg = some x) (fuel : Nat) (a : Word) (filler : Expr) :
    Goes ((Call.pending a filler).exec fuel seg) (fun _ s' => ∃ els' p pt' shift m,
      (exprCheckAlignment fuel a x.point s.memory).1 = .ok (shift, m) ∧ Pads x.point a filler p ∧
      Tally seg f R S els' (ps ++ p) pt' (fun _ => 0) s' ∧
      Padded a shift x.point pt pt' (s'.Sized els') ∧ Rebased seg a x.point s s') s := by
  refine goes_getSegment fun y hy => .bind (goes_setSegment ?_)
  obtain rfl := Option.some.inj (hx.symm.trans hy)
  have hx₀ : (s.withSegment seg { x with pendingAlignment := a, pendingAlignmentFiller := some filler
      }).segments seg = some _ := segments_withSegment s seg _
  have h₀ := h.within hx { x with pendingAlignment := a, pendingAlignmentFiller := some filler }
    rfl rfl rfl
  refine goes_getSegment fun y hy => .bind (goes_ofOption (by simp) fun filler' hfiller => ?_)
  obtain rfl := Option.some.inj (hx₀.symm.trans hy)
  obtain rfl := Option.some.inj hfiller
  refine .bind (((tally_emitAlign h₀ hx₀ fuel a filler).and (emitAlign_grows fuel seg a filler _)).mono
    fun b s₁ h₁ => ?_)
  obtain ⟨⟨els', p, pt', shift, m, hcheck, hpads, h₁, hpad, hzero⟩, hgrows⟩ := h₁
  obtain ⟨x₁, -, hx₁, -⟩ := h₁.segment
  obtain ⟨x₀, hx₀', hpending, hmention, -⟩ := hgrows.segment seg x₁ hx₁
  obtain rfl := Option.some.inj (hx₀.symm.trans hx₀')
  have hname : s₁.store.name = s.store.name := hgrows.name
  cases b with
  | true =>
      refine (tally_place h₁ hx₁ fuel).mono fun _ s₂ h₂ => ?_
      obtain ⟨h₂, hname₂, hel, hfrag₂, x₂, hx₂, hp₂⟩ := h₂
      have hfrag : s₁.fragment = s.fragment := hgrows.fragment
      rw [hfrag] at hfrag₂
      have hn : s₁.nonames = s.nonames := hgrows.nonames
      rw [hname, hn, hpending] at hname₂
      refine ⟨els', p, pt', shift, m, hcheck, hpads, h₂, hpad.imp fun ρ hρ => ?_,
        .named x₁.point hname₂ hfrag₂ hmention fun x hx => ?_⟩
      · exact fun el hmem size w v c he => hρ el hmem size w v c (by rw [hel, he])
      · obtain rfl := Option.some.inj (hx₂.symm.trans hx)
        rw [hp₂, hn]
  | false =>
      refine goes_getSegment fun y hy => goes_setSegment ?_
      obtain rfl := Option.some.inj (hx₁.symm.trans hy)
      refine ⟨els', p, pt', shift, m, hcheck, hpads, h₁.within hx₁ _ rfl rfl rfl, hpad,
        .same hname hgrows.fragment fun z n hz hn => ?_⟩
      obtain rfl := Option.some.inj ((segments_withSegment _ _ _).symm.trans hz)
      exact hmention n hn

/-- Every call keeps the count, and puts what it emits at the end. -/
theorem Call.exec_goes (h : Tally seg f R S els ps pt (fun _ => 0) s) {x : Segment}
    (hx : s.segments seg = some x) (fuel : Nat) (c : Call) :
    Goes (c.exec fuel seg) (fun _ s' => ∃ els' p pt', c.Emits x p ∧
      Tally seg f R S els' (ps ++ p) pt' (fun _ => 0) s') s := by
  cases c with
  | block bytes =>
      refine (tally_emitBlock h bytes).mono fun _ s' h' => ?_
      obtain ⟨els', pt', h'⟩ := h'
      exact ⟨els', _, pt', rfl, h'⟩
  | cmd opcode arg =>
      refine (tally_emitCmd h hx fuel opcode arg).mono fun _ s' h' => ?_
      obtain ⟨els', pt', p, hp, h'⟩ := h'
      exact ⟨els', p, pt', hp, h'⟩
  | data width value count =>
      refine (tally_emitData h fuel width value count).mono fun _ s' h' => ?_
      obtain ⟨els', pt', h'⟩ := h'
      exact ⟨els', _, pt', rfl, h'⟩
  | align a filler =>
      refine .bind ((tally_emitAlign h hx fuel a filler).mono fun _ s' h' => goes_pure ?_)
      obtain ⟨els', p, pt', -, -, -, hp, h', -, -⟩ := h'
      exact ⟨els', p, pt', hp, h'⟩
  | pending a filler =>
      refine (tally_pending h hx fuel a filler).mono fun _ s' h' => ?_
      obtain ⟨els', p, pt', -, -, -, hp, h', -, -⟩ := h'
      exact ⟨els', p, pt', hp, h'⟩

/-! ### Runs -/

/-- The rest of the assembler does not touch the segment, its elements, the fragments or the names
that have a value. -/
structure Undisturbed (seg : String) (s s' : Assembler) : Prop where
  inv : Rooted s'
  segment : ∀ x, s.segments seg = some x → ∃ x', s'.segments seg = some x' ∧
    x'.fragments = x.fragments ∧ x'.curel = x.curel ∧ x'.point = x.point
  element : ∀ x g el, s.segments seg = some x → g ∈ x.fragments → el ∈ g.elts →
    s'.store.element el = s.store.element el
  nextElement : s.nextElement ≤ s'.nextElement
  names : ∀ np v, s.store.localVal np = some v → s'.store.name np = s.store.name np
  fragment : ∀ np, s.fragment np = true → s'.fragment np = true ∧
    s'.store.name np = s.store.name np

theorem Undisturbed.localVal (h : Undisturbed seg s s') {np : NameId} {v : Expr}
    (hv : s.store.localVal np = some v) : s'.store.localVal np = some v := by
  rw [Store.localVal, h.names np v hv]
  exact hv

/-- A segment is filled by calls, each with the segment that it finds; in between the rest of the
assembler goes on. -/
inductive Filling (fuel : Nat) (seg : String) (s : Assembler) :
    List (Segment × Call) → Assembler → Prop where
  | start : Filling fuel seg s [] s
  | call {cs : List (Segment × Call)} {s₁ s₂ : Assembler} {x : Segment} {c : Call}
      (h : Filling fuel seg s cs s₁) (hx : s₁.segments seg = some x)
      (hrun : (c.exec fuel seg s₁).1 = .ok ((), s₂)) : Filling fuel seg s (cs ++ [(x, c)]) s₂
  | other {cs : List (Segment × Call)} {s₁ s₂ : Assembler} (h : Filling fuel seg s cs s₁)
      (hu : Undisturbed seg s₁ s₂) : Filling fuel seg s cs s₂

/-- The fragment `f` of the segment has just begun. -/
structure Begun (seg : String) (f : NameId) (s : Assembler) : Prop where
  inv : Rooted s
  val : s.val f = none
  fragment : s.fragment f = true
  segment : ∃ x fs, s.segments seg = some x ∧ x.fragments = fs ++ [⟨f, []⟩] ∧ x.curel = none ∧
    x.point = .name f ∧ ∀ g ∈ fs, ∀ el ∈ g.elts, el < s.nextElement

theorem Begun.tally (h : Begun seg f s) : Tally seg f s.Names (s.Sized []) [] []
    (fun ρ => ρ.name f) (fun _ => 0) s := by
  obtain ⟨x, fs, hx, hf, hc, hp, hother⟩ := h.segment
  refine ⟨h.inv, ⟨x, fs, hx, hf, hc, fun g hg el hel => ⟨hother g hg el hel, by simp⟩⟩, by simp,
    List.nodup_nil, fun y ρ hy _ => ?_, fun ρ _ => ?_, fun _ => rfl, fun _ hρ => hρ, fun _ hρ => hρ⟩
  · obtain rfl := Option.some.inj (hx.symm.trans hy)
    rw [hp, Expr.value_name]
  · simp [Assembler.total]

theorem Tally.undisturbed (h : Tally seg f R S els ps pt owed s) (hu : Undisturbed seg s s') :
    Tally seg f R S els ps pt owed s' := by
  obtain ⟨x, fs, hx, hf, -, -⟩ := h.segment
  refine h.transfer hu.inv (fun y hy => ?_) (fun el hel => ?_) hu.nextElement fun ρ hρ np v hv =>
    hρ np v (hu.localVal hv)
  · obtain ⟨y', hy', hf', hc', hp'⟩ := hu.segment y hy
    exact ⟨y', hy', hf', hc', fun _ _ => by rw [hp']⟩
  · exact hu.element x ⟨f, els⟩ el hx (by simp [hf]) hel

/-- Whatever fills the segment is counted. -/
theorem Filling.tally {fuel : Nat} {cs : List (Segment × Call)} (h : Filling fuel seg s cs s')
    (ht : Tally seg f R S els ps pt (fun _ => 0) s) : ∃ els' pss pt',
      List.Forall₂ (fun xc p => xc.2.Emits xc.1 p) cs pss ∧
      Tally seg f R S els' (ps ++ pss.flatten) pt' (fun _ => 0) s' := by
  induction h with
  | start => exact ⟨els, [], pt, .nil, by simpa using ht⟩
  | @call cs s₁ s₂ x c _ hx hrun ih =>
      obtain ⟨els₁, pss, pt₁, hpss, h₁⟩ := ih
      have hgoes := (Call.exec_goes h₁ hx fuel c).ended.2 s₂ (by rw [hrun]; rfl)
      obtain ⟨-, els₂, p, pt₂, hp, h₂⟩ := hgoes
      refine ⟨els₂, pss ++ [p], pt₂, List.rel_append hpss (.cons hp .nil), ?_⟩
      simpa [List.append_assoc] using h₂
  | other _ hu ih =>
      obtain ⟨els₁, pss, pt₁, hpss, h₁⟩ := ih
      exact ⟨els₁, pss, pt₁, hpss, h₁.undisturbed hu⟩

/-- Calls one after the other. -/
def Call.execAll (fuel : Nat) (seg : String) : List Call → Emission Unit
  | [] => pure ()
  | c :: cs => do
      c.exec fuel seg
      execAll fuel seg cs

/-- A later store: what it allows of the names, and of the sizes of these elements, was allowed. -/
structure Narrows (els : List ElemId) (st st' : Store) : Prop where
  name : ∀ ρ, st'.Models ρ → ∀ np v, st.localVal np = some v → ρ.name np = v.value ρ true
  size : ∀ el ∈ els, ∀ ρ v, Store.SizeOk ρ (st'.size el) v → Store.SizeOk ρ (st.size el) v

end Ttools.Asm
