import Ttools.Ast.Actions

/-!
# What emission leaves alone

* `Grows`: the emit functions change no name and no label; a point mentions no new name, and a
  current element that is new has a new number.
* `emitData_grows`, `emitCmd_grows`, `emitBlock_grows`, `emitAlign_grows`: each of them does so.
-/

namespace Ttools

/-- The name occurs in the expression, where `expr_name_mentioned` looks for it. -/
def Expr.Mentions (n : NameId) : Expr → Prop
  | .unop _ r => r.Mentions n
  | .binop _ l r => l.Mentions n ∨ r.Mentions n
  | .name m => m = n
  | _ => False

namespace Asm

open Support (Logged)
open Support.Logged

/-- Between two states of an emission. -/
structure Grows (s s' : Assembler) : Prop where
  name : s'.store.name = s.store.name
  defined : s'.defined = s.defined
  fragment : s'.fragment = s.fragment
  backlab : s'.backlab = s.backlab
  forwlab : s'.forwlab = s.forwlab
  nonames : s'.nonames = s.nonames
  curseg : s'.curseg = s.curseg
  values : s'.values = s.values
  nextElement : s.nextElement ≤ s'.nextElement
  segment : ∀ seg x', s'.segments seg = some x' → ∃ x, s.segments seg = some x ∧
    x'.pendingAlignment = x.pendingAlignment ∧
    (∀ n, x'.point.Mentions n → x.point.Mentions n) ∧
    ∀ el, x'.curel = some el → x.curel = some el ∨ s.nextElement ≤ el ∧ el < s'.nextElement

theorem Grows.refl (s : Assembler) : Grows s s :=
  ⟨rfl, rfl, rfl, rfl, rfl, rfl, rfl, rfl, le_rfl,
    fun _ x' h => ⟨x', h, rfl, fun _ => id, fun _ => .inl⟩⟩

theorem Grows.trans {s s' s'' : Assembler} (h : Grows s s') (h' : Grows s' s'') : Grows s s'' where
  name := h'.name.trans h.name
  defined := h'.defined.trans h.defined
  fragment := h'.fragment.trans h.fragment
  backlab := h'.backlab.trans h.backlab
  forwlab := h'.forwlab.trans h.forwlab
  nonames := h'.nonames.trans h.nonames
  curseg := h'.curseg.trans h.curseg
  values := h'.values.trans h.values
  nextElement := h.nextElement.trans h'.nextElement
  segment seg x'' hx'' := by
    obtain ⟨x', hx', hp', hm', hc'⟩ := h'.segment seg x'' hx''
    obtain ⟨x, hx, hp, hm, hc⟩ := h.segment seg x' hx'
    refine ⟨x, hx, hp'.trans hp, fun n hn => hm n (hm' n hn), fun el hel => ?_⟩
    rcases hc' el hel with hel' | ⟨hlo, hhi⟩
    · rcases hc el hel' with hel'' | ⟨hlo, hhi⟩
      · exact .inl hel''
      · exact .inr ⟨hlo, hhi.trans_le h'.nextElement⟩
    · exact .inr ⟨h.nextElement.trans hlo, hhi⟩

/-! ### Reading -/

/-- If the computation ends it ends in `Q`; it may stop, but it does not follow a null pointer. -/
abbrev Goes {α : Type} (x : Emission α) (Q : α → Assembler → Prop) (s : Assembler) : Prop :=
  Ensures (fun _ => True) (· ≠ Halt.null) x Q s

theorem Goes.bind {α β : Type} {x : Emission α} {f : α → Emission β} {Q : β → Assembler → Prop}
    {s : Assembler} (h : Goes x (fun a s' => Goes (f a) Q s') s) : Goes (x >>= f) Q s :=
  ensures_bind.mpr h

theorem goes_get {Q : Assembler → Assembler → Prop} {s : Assembler} (h : Q s s) :
    Goes Logged.get Q s := ensures_get.mpr h

theorem goes_modify {g : Assembler → Assembler} {Q : Unit → Assembler → Prop} {s : Assembler}
    (h : Q () (g s)) : Goes (Logged.modify g) Q s := ensures_modify.mpr h

theorem goes_pure {α : Type} {a : α} {Q : α → Assembler → Prop} {s : Assembler} (h : Q a s) :
    Goes (pure a) Q s := ensures_pure.mpr h

theorem goes_stop {α : Type} {Q : α → Assembler → Prop} {s : Assembler} (r : Stop) :
    Goes (stop (.stop r)) Q s := ensures_stop.mpr (by simp)

theorem goes_ofOption {α : Type} {e : Halt} {o : Option α} {Q : α → Assembler → Prop}
    {s : Assembler} (he : e ≠ .null) (h : ∀ a, o = some a → Q a s) : Goes (ofOption e o) Q s :=
  ensures_ofOption.mpr ⟨h, fun _ => he⟩

/-- What is done with a segment. -/
theorem goes_getSegment {α : Type} {seg : String} {f : Segment → Emission α}
    {Q : α → Assembler → Prop} {s : Assembler}
    (h : ∀ x, s.segments seg = some x → Goes (f x) Q s) : Goes (getSegment seg >>= f) Q s :=
  .bind (.bind (goes_get (goes_ofOption (by simp) h)))

theorem goes_setSegment {seg : String} {x : Segment} {Q : Unit → Assembler → Prop}
    {s : Assembler} (h : Q () (s.withSegment seg x)) : Goes (setSegment seg x) Q s := goes_modify h

/-- The computation only emits. -/
def GrowsBy {α : Type} (x : Emission α) : Prop := ∀ s, Goes x (fun _ s' => Grows s s') s

theorem GrowsBy.bind {α β : Type} {x : Emission α} {f : α → Emission β} (h : GrowsBy x)
    (hf : ∀ a, GrowsBy (f a)) : GrowsBy (x >>= f) := fun s =>
  .bind ((h s).mono fun a s' hs => (hf a s').mono fun _ _ => hs.trans)

theorem growsBy_pure {α : Type} (a : α) : GrowsBy (pure a) := fun _ => goes_pure (.refl _)

theorem growsBy_get : GrowsBy Logged.get := fun _ => goes_get (.refl _)

theorem growsBy_ofOption {α : Type} {e : Halt} (he : e ≠ .null) (o : Option α) :
    GrowsBy (ofOption e o) := fun _ => goes_ofOption he fun _ _ => .refl _

theorem growsBy_getSegment (seg : String) : GrowsBy (getSegment seg) :=
  growsBy_get.bind fun _ => growsBy_ofOption (by simp) _

/-- The memory may get other answers. -/
theorem Grows.of_store {s : Assembler} {m : Memory} (h : m.store = s.store) :
    Grows s { s with memory := m } :=
  ⟨congrArg Store.name h, rfl, rfl, rfl, rfl, rfl, rfl, rfl, le_rfl,
    fun _ x' h => ⟨x', h, rfl, fun _ => id, fun _ => .inl⟩⟩

/-- The store is the same. -/
def SameStore (m m' : Memory) : Prop := m'.store = m.store

theorem goes_reduce {α : Type} {x : Reducer α} (h : Relates SameStore x) (s : Assembler) :
    Goes (reduce x)
      (fun _ s' => ∃ m : Memory, m.store = s.store ∧ s' = { s with memory := m }) s := by
  unfold Goes Ensures reduce
  rcases hx : x s.memory with ⟨e | ⟨b, m⟩, log⟩
  · simp
  · exact fun _ => ⟨m, h _ _ _ (by rw [hx]), rfl⟩

theorem growsBy_reduce {α : Type} {x : Reducer α} (h : Relates SameStore x) : GrowsBy (reduce x) := by
  refine fun s => (goes_reduce h s).mono fun _ s' hs => ?_
  obtain ⟨m, hm, rfl⟩ := hs
  exact Grows.of_store hm

theorem ask_store : Relates SameStore ask := by
  rintro m a m' ⟨⟩
  rfl

/-- The check of an alignment changes nothing. -/
theorem exprCheckAlignment_store (fuel : Nat) (align : Word) (e : Expr) :
    Relates SameStore (exprCheckAlignment fuel align e) := by
  have hbind : ∀ {α β : Type} {x : Reducer α} {f : α → Reducer β},
      Relates SameStore x →
      (∀ a, Relates SameStore (f a)) →
      Relates SameStore (x >>= f) :=
    fun h hf => h.bind (fun _ _ _ h h' => Eq.trans h' h) hf
  have hpure : ∀ {α : Type} (a : α), Relates SameStore (pure a : Reducer α) :=
    fun a => relates_pure (R := SameStore) fun _ => rfl
  have hcheck : ∀ (name : NameId → Reducer Word),
      (∀ np, Relates SameStore (name np)) →
      ∀ e, Relates SameStore (checkAlignment name align e) := by
    intro name hname e
    induction e with
    | name np => exact hname np
    | binop t l r ihl ihr =>
        cases t with
        | plus | minus => exact hbind ihl fun _ => hbind ihr fun _ => hpure _
        | _ => exact hpure _
    | _ => exact hpure _
  induction fuel generalizing e with
  | zero => exact relates_stop
  | succ fuel ih =>
      refine hcheck _ (fun np => ?_) e
      refine hbind (relates_get fun _ => rfl) fun m => ?_
      split
      · refine hbind ?_ fun _ => hpure _
        unfold noteIf
        split
        · rintro m a m' ⟨⟩
          rfl
        · exact hpure _
      · split
        · exact ih _
        · exact hpure _

/-! ### The point -/

section

variable {lone : Bool} {t : BinTag} {l r e e' : Expr} {n : NameId}

theorem mentions_exprNode (hn : (exprNode lone t l r).Mentions n) : l.Mentions n ∨ r.Mentions n := by
  unfold exprNode at hn
  split at hn
  · exact .inl (by simpa [Expr.Mentions] using hn)
  · split at hn
    · simp only [Expr.Mentions] at hn ⊢
      tauto
    · simpa [Expr.Mentions] using hn
  · simpa [Expr.Mentions] using hn

theorem mentions_exprBinop (h : exprBinop lone t l r = some e) (hn : e.Mentions n) :
    l.Mentions n ∨ r.Mentions n := by
  unfold exprBinop at h
  split at h
  · obtain ⟨c, -, rfl⟩ := Option.map_eq_some_iff.mp h
    exact hn.elim
  · split at h
    · cases h
      exact (mentions_exprNode hn).symm
    · cases h
      exact mentions_exprNode hn

theorem mentions_exprAsgPlus (h : exprAsgPlus lone l r = some e) (hn : e.Mentions n) :
    l.Mentions n ∨ r.Mentions n := by
  unfold exprAsgPlus at h
  split at h
  · cases h
    exact .inl (by simpa [Expr.Mentions] using hn)
  · exact mentions_exprBinop h hn

theorem mentions_exprPlusConstant {c : Word} (h : exprPlusConstant lone e c = some e')
    (hn : e'.Mentions n) : e.Mentions n := by
  unfold exprPlusConstant at h
  split at h
  · cases h
    simpa [Expr.Mentions] using hn
  · exact (mentions_exprBinop h hn).resolve_right id

theorem mentions_exprGlueElement {el : ElemId} {e e' : Expr} (h : exprGlueElement el e = some e')
    (hn : e'.Mentions n) : e.Mentions n := by
  fun_induction exprGlueElement el e generalizing e' with
  | case1 v => cases h; exact hn.elim
  | case2 e => cases h; exact hn.elim
  | case3 l r temp hl ih =>
      exact (mentions_exprBinop h hn).imp (ih hl) id
  | case4 l r hl temp hr ihl ihr =>
      exact (mentions_exprBinop h hn).imp id (ihr hr)
  | case5 => cases h
  | case6 => cases h

end

theorem segments_withSegment (s : Assembler) (seg : String) (x : Segment) :
    (s.withSegment seg x).segments seg = some x := Function.update_self _ _ _

theorem segments_withSegment_of_ne (s : Assembler) {seg seg' : String} (x : Segment)
    (h : seg' ≠ seg) : (s.withSegment seg x).segments seg' = s.segments seg' :=
  Function.update_of_ne h _ _

/-- A segment is changed, but neither its pending alignment nor its current element. -/
theorem Grows.withSegment {s : Assembler} {seg : String} {x x' : Segment}
    (hx : s.segments seg = some x) (hp : x'.pendingAlignment = x.pendingAlignment)
    (hm : ∀ n, x'.point.Mentions n → x.point.Mentions n) (hc : x'.curel = x.curel) :
    Grows s (s.withSegment seg x') := by
  refine ⟨rfl, rfl, rfl, rfl, rfl, rfl, rfl, rfl, le_rfl, fun seg' y hy => ?_⟩
  by_cases h : seg' = seg
  · subst h
    obtain rfl := Option.some.inj ((segments_withSegment s _ _).symm.trans hy)
    exact ⟨x, hx, hp, hm, fun el hel => .inl (hc ▸ hel)⟩
  · exact ⟨y, (segments_withSegment_of_ne s _ h).symm.trans hy, rfl, fun _ => id, fun _ => .inl⟩

theorem growsBy_updatePoint {seg : String} {f : Bool → Expr → Option Expr}
    (hf : ∀ lone e e' n, f lone e = some e' → e'.Mentions n → e.Mentions n) :
    GrowsBy (updatePoint seg f) := by
  refine (growsBy_reduce ask_store).bind fun lone => fun s => ?_
  refine goes_getSegment fun x hx => .bind (goes_ofOption (by simp) fun point hp => ?_)
  exact goes_setSegment (.withSegment hx rfl (fun n => hf lone x.point point n hp) rfl)

theorem growsBy_pointPlusConstant (seg : String) (c : Word) : GrowsBy (pointPlusConstant seg c) :=
  growsBy_updatePoint fun _ _ _ _ h hn => mentions_exprPlusConstant h hn

/-- A change that no name, label or segment sees. -/
theorem growsBy_modify {f : Assembler → Assembler} (hstore : ∀ s, (f s).store.name = s.store.name)
    (h : ∀ s, (f s).defined = s.defined ∧ (f s).fragment = s.fragment ∧
      (f s).backlab = s.backlab ∧ (f s).forwlab = s.forwlab ∧ (f s).nonames = s.nonames ∧
      (f s).curseg = s.curseg ∧ (f s).values = s.values ∧ (f s).nextElement = s.nextElement ∧
      (f s).segments = s.segments) : GrowsBy (Logged.modify f) := by
  refine fun s => goes_modify ?_
  obtain ⟨h1, h2, h3, h4, h5, h6, h7, h8, h9⟩ := h s
  refine ⟨hstore s, h1, h2, h3, h4, h5, h6, h7, h8.ge, fun seg x' hx => ?_⟩
  exact ⟨x', h9 ▸ hx, rfl, fun _ => id, fun _ => .inl⟩

theorem growsBy_pointPlusElement (seg : String) (el : ElemId) :
    GrowsBy (pointPlusElement seg el) := by
  refine growsBy_get.bind fun s => ?_
  split
  · exact growsBy_pointPlusConstant _ _
  · refine GrowsBy.bind ?_ fun _ => growsBy_updatePoint fun lone e e' n h hn => ?_
    · exact growsBy_modify (fun _ => rfl) fun _ => ⟨rfl, rfl, rfl, rfl, rfl, rfl, rfl, rfl, rfl⟩
    cases hg : exprGlueElement el e with
    | some e'' =>
        rw [hg] at h
        obtain rfl : e'' = e' := by simpa using h
        exact mentions_exprGlueElement hg hn
    | none =>
        rw [hg, Option.none_or] at h
        exact (mentions_exprAsgPlus h hn).resolve_right id

/-! ### The elements -/

theorem growsBy_addElement (seg : String) (size : Expr) (u : Body) :
    GrowsBy (addElement seg size u) := by
  refine fun s => goes_getSegment fun x hx => ?_
  split
  · exact goes_stop _
  · refine .bind (goes_get (.bind (goes_modify (.bind ?_))))
    refine goes_setSegment (goes_pure ?_)
    refine ⟨rfl, rfl, rfl, rfl, rfl, rfl, rfl, rfl, Nat.le_succ _, fun seg' y hy => ?_⟩
    by_cases h : seg' = seg
    · subst h
      obtain rfl := Option.some.inj ((segments_withSegment _ _ _).symm.trans hy)
      refine ⟨x, hx, rfl, fun _ => id, fun el hel => ?_⟩
      obtain rfl := Option.some.inj hel
      exact .inr ⟨le_rfl, Nat.lt_succ_self _⟩
    · have hy' := (segments_withSegment_of_ne _ _ h).symm.trans hy
      exact ⟨y, hy', rfl, fun _ => id, fun _ => .inl⟩

theorem growsBy_report : GrowsBy report :=
  growsBy_modify (fun _ => rfl) fun _ => ⟨rfl, rfl, rfl, rfl, rfl, rfl, rfl, rfl, rfl⟩

theorem growsBy_stop {α : Type} (r : Stop) : GrowsBy (stop (.stop r) : Emission α) :=
  fun _ => goes_stop r

theorem growsBy_elementBlockMakeSpace (el : ElemId) (len : Word) :
    GrowsBy (elementBlockMakeSpace el len) := by
  refine growsBy_get.bind fun s => ?_
  split
  · dsimp only
    split
    · refine (growsBy_ofOption (by simp) _).bind fun _ => growsBy_modify (fun _ => rfl) fun _ => ?_
      exact ⟨rfl, rfl, rfl, rfl, rfl, rfl, rfl, rfl, rfl⟩
    · exact growsBy_pure _
  · exact growsBy_stop _

theorem growsBy_blockElement (seg : String) : GrowsBy (blockElement seg) := by
  refine (growsBy_getSegment seg).bind fun x => growsBy_get.bind fun s => ?_
  split
  · split
    · exact growsBy_pure _
    · exact growsBy_addElement _ _ _
  · exact growsBy_addElement _ _ _

theorem growsBy_appendBytes (el : ElemId) (bytes : List Byte) (len : Word) :
    GrowsBy (appendBytes el bytes len) := by
  refine growsBy_modify (fun s => ?_) fun s => ?_
  · split <;> rfl
  · split <;> exact ⟨rfl, rfl, rfl, rfl, rfl, rfl, rfl, rfl, rfl⟩

theorem emitBlock_grows (seg : String) (bytes : List Byte) : GrowsBy (emitBlock seg bytes) :=
  (growsBy_blockElement seg).bind fun _ => (growsBy_elementBlockMakeSpace _ _).bind fun _ =>
    (growsBy_appendBytes _ _ _).bind fun _ => growsBy_pointPlusConstant _ _

theorem growsBy_dataSize (fuel : Nat) (width : Word) (count : Expr) :
    GrowsBy (dataSize fuel width count) :=
  (growsBy_ofOption (by simp) _).bind fun _ => growsBy_get.bind fun _ => growsBy_ofOption (by simp) _

theorem emitData_grows (fuel : Nat) (seg : String) (width : Word) (data count : Expr) :
    GrowsBy (emitData fuel seg width data count) := by
  have hnew : GrowsBy (emitData.new fuel seg width data count) :=
    (growsBy_dataSize _ _ _).bind fun _ => (growsBy_addElement _ _ _).bind fun _ =>
      growsBy_pointPlusElement _ _
  refine (growsBy_getSegment seg).bind fun x => growsBy_get.bind fun s =>
    (growsBy_reduce ask_store).bind fun ptr => ?_
  split
  · split
    · refine (growsBy_ofOption (by simp) _).bind fun old => (growsBy_pointPlusConstant _ _).bind fun _ =>
        (growsBy_reduce ask_store).bind fun _ => (growsBy_ofOption (by simp) _).bind fun _ =>
        (growsBy_dataSize _ _ _).bind fun _ => ?_
      refine GrowsBy.bind ?_ fun _ => growsBy_pointPlusElement _ _
      exact growsBy_modify (fun _ => rfl) fun _ => ⟨rfl, rfl, rfl, rfl, rfl, rfl, rfl, rfl, rfl⟩
    · exact hnew
  · exact hnew

theorem emitAlign_grows (fuel : Nat) (seg : String) (align : Word) (filler : Expr) :
    GrowsBy (emitAlign fuel seg align filler) := by
  have hgeneral : ∀ point, GrowsBy (emitAlign.general seg align filler point) := fun point =>
    (growsBy_ofOption (by simp) _).bind fun _ => (growsBy_addElement _ _ _).bind fun _ =>
      (growsBy_pointPlusElement _ _).bind fun _ => growsBy_pure _
  refine (growsBy_getSegment seg).bind fun x =>
    (growsBy_reduce (exprCheckAlignment_store _ _ _)).bind fun shift => ?_
  split
  · exact growsBy_pure _
  · split
    · split
      · exact (growsBy_blockElement seg).bind fun _ =>
          (growsBy_elementBlockMakeSpace _ _).bind fun _ => (growsBy_appendBytes _ _ _).bind fun _ =>
          (growsBy_pointPlusConstant _ _).bind fun _ => growsBy_pure _
      · exact hgeneral _
    · exact hgeneral _

theorem growsBy_slot (seg : String) (c : Word) :
    GrowsBy (getSegment seg >>= fun x => setSegment seg { x with slot := c }) :=
  fun _ => goes_getSegment fun _ hx =>
    goes_setSegment (.withSegment hx rfl (fun _ => id) rfl)

theorem emitCmd_grows (fuel : Nat) (seg : String) (opcode : Word) (arg : Expr) :
    GrowsBy (emitCmd fuel seg opcode arg) := by
  refine (growsBy_getSegment seg).bind fun x => ?_
  split
  · refine (growsBy_blockElement seg).bind fun _ =>
      (growsBy_elementBlockMakeSpace _ _).bind fun _ => ?_
    split
    · exact (growsBy_appendBytes _ _ _).bind fun _ => (growsBy_pointPlusConstant _ _).bind fun _ =>
        growsBy_slot _ _
    · exact growsBy_report.bind fun _ => (growsBy_pointPlusConstant _ _).bind fun _ =>
        growsBy_slot _ _
  · refine growsBy_get.bind fun s => (growsBy_ofOption (by simp) _).bind fun temp =>
      (growsBy_ofOption (by simp) _).bind fun bounds => ?_
    split
    · exact growsBy_report.bind fun _ => (growsBy_addElement _ _ _).bind fun _ =>
        (growsBy_pointPlusElement _ _).bind fun _ => growsBy_slot _ _
    · exact (growsBy_addElement _ _ _).bind fun _ =>
        (growsBy_pointPlusElement _ _).bind fun _ => growsBy_slot _ _

end Asm

end Ttools
