import Ttools.Ast.Names

/-!
# Common blocks

What `.comm` does to the `.bss` segment.  It is meant to leave the segment as it was, with the
common block put in front of the current fragment; but the common block stays the last fragment, and
what follows in `.bss` goes to it.

* `Rises`: elements get new numbers, along every run.
* `comm_current`: the segment after the directive.
* `comm_not_leftAlone`: it never is what it was.
-/

namespace Ttools.Asm

open Support (Logged)
open Support.Logged

variable {s s' : Assembler}

/-! ### The numbers of elements -/

/-- A current element is one that was so before, or a new one. -/
structure Rises (s s' : Assembler) : Prop where
  nextElement : s.nextElement ≤ s'.nextElement
  curel : ∀ seg x' el, s'.segments seg = some x' → x'.curel = some el →
    (∃ x, s.segments seg = some x ∧ x.curel = some el) ∨
      s.nextElement ≤ el ∧ el < s'.nextElement

theorem Rises.refl (s : Assembler) : Rises s s :=
  ⟨le_rfl, fun _ x _ hx hel => .inl ⟨x, hx, hel⟩⟩

theorem Rises.trans {s'' : Assembler} (h : Rises s s') (h' : Rises s' s'') : Rises s s'' where
  nextElement := h.nextElement.trans h'.nextElement
  curel seg x'' el hx'' hel := by
    rcases h'.curel seg x'' el hx'' hel with ⟨x', hx', hel'⟩ | ⟨hlo, hhi⟩
    · rcases h.curel seg x' el hx' hel' with hx | ⟨hlo, hhi⟩
      · exact .inl hx
      · exact .inr ⟨hlo, hhi.trans_le h'.nextElement⟩
    · exact .inr ⟨h.nextElement.trans hlo, hhi⟩

theorem Grows.rises (h : Grows s s') : Rises s s' where
  nextElement := h.nextElement
  curel seg x' el hx' hel := by
    obtain ⟨x, hx, -, -, hc⟩ := h.segment seg x' hx'
    exact (hc el hel).imp (fun hel => ⟨x, hx, hel⟩) id

/-- If the computation ends, elements have got new numbers only. -/
def RisesBy {α : Type} (x : Emission α) : Prop :=
  ∀ s, Ensures (fun _ => True) (fun _ => True) x (fun _ s' => Rises s s') s

theorem RisesBy.bind {α β : Type} {x : Emission α} {f : α → Emission β} (h : RisesBy x)
    (hf : ∀ a, RisesBy (f a)) : RisesBy (x >>= f) := fun s =>
  ensures_bind.mpr ((h s).mono fun a s' hs => (hf a s').mono fun _ _ => hs.trans)

theorem GrowsBy.rises {α : Type} {x : Emission α} (h : GrowsBy x) : RisesBy x := fun s =>
  ((h s).mono fun _ _ hs => hs.rises).weaken (fun _ _ => trivial) fun _ _ => trivial

theorem risesBy_pure {α : Type} (a : α) : RisesBy (pure a) := fun s => ensures_pure.mpr (.refl s)

theorem risesBy_get : RisesBy Logged.get := fun s => ensures_get.mpr (.refl s)

theorem risesBy_ofOption {α : Type} (e : Halt) (o : Option α) : RisesBy (ofOption e o) := fun s =>
  ensures_ofOption.mpr ⟨fun _ _ => .refl s, fun _ => trivial⟩

theorem risesBy_stop {α : Type} (e : Halt) : RisesBy (stop e : Emission α) := fun _ =>
  ensures_stop.mpr trivial

/-- The segments and the elements stay. -/
theorem risesBy_modify {f : Assembler → Assembler} (hn : ∀ s, (f s).nextElement = s.nextElement)
    (hx : ∀ s, (f s).segments = s.segments) : RisesBy (Logged.modify f) := fun s =>
  ensures_modify.mpr ⟨(hn s).ge, fun _ x _ h hel => .inl ⟨x, hx s ▸ h, hel⟩⟩

theorem RisesBy.of_getSegment {α : Type} {seg : String} {f : Segment → Emission α}
    (h : ∀ s x, s.segments seg = some x →
      Ensures (fun _ => True) (fun _ => True) (f x) (fun _ s' => Rises s s') s) :
    RisesBy (getSegment seg >>= f) := fun s =>
  ensures_bind.mpr (ensures_bind.mpr (ensures_get.mpr (ensures_ofOption.mpr
    ⟨fun x hx => h s x hx, fun _ => trivial⟩)))

/-- A segment keeps its current element, or has none. -/
theorem rises_withSegment {seg : String} {x x' : Segment} (hx : s.segments seg = some x)
    (hn : s'.nextElement = s.nextElement) (hs : s'.segments = s.segments)
    (hc : x'.curel = x.curel ∨ x'.curel = none) : Rises s (s'.withSegment seg x') := by
  refine ⟨hn.ge, fun seg' y el hy hel => .inl ?_⟩
  by_cases hseg : seg' = seg
  · subst hseg
    obtain rfl := Option.some.inj ((segments_withSegment s' _ _).symm.trans hy)
    rcases hc with hc | hc
    · exact ⟨x, hx, hc ▸ hel⟩
    · rw [hc] at hel
      cases hel
  · exact ⟨y, hs ▸ (segments_withSegment_of_ne s' _ hseg).symm.trans hy, hel⟩

theorem risesBy_setSegment {seg : String} {f : Segment → Segment}
    (h : ∀ x, (f x).curel = x.curel ∨ (f x).curel = none) :
    RisesBy (getSegment seg >>= fun x => setSegment seg (f x)) :=
  .of_getSegment fun _ x hx => ensures_modify.mpr (rises_withSegment hx rfl rfl (h x))

theorem risesBy_nameAssignValue (fuel : Nat) (np : NameId) (e : Expr) :
    RisesBy (nameAssignValue fuel np e) := by
  have hval : ∀ v, RisesBy (setVal np v) := fun v => risesBy_modify (fun _ => rfl) fun _ => rfl
  refine risesBy_get.bind fun s => (risesBy_ofOption _ _).bind fun b => ?_
  split
  · exact growsBy_report.rises.bind fun _ => hval _
  · split
    · refine (growsBy_reduce (exprCheckAlignment_store _ _ _)).rises.bind fun offset => ?_
      split
      · exact growsBy_report.rises.bind fun _ => hval _
      · exact hval _
    · exact hval _

theorem risesBy_tableAddNoname : RisesBy tableAddNoname := fun s => by
  unfold Ensures tableAddNoname
  exact fun _ => ⟨le_rfl, fun _ x _ hx hel => .inl ⟨x, hx, hel⟩⟩

theorem risesBy_dropPendingAlignment (seg : String) : RisesBy (dropPendingAlignment seg) :=
  risesBy_setSegment fun _ => .inl rfl

theorem risesBy_addFragment (seg : String) (np : NameId) : RisesBy (addFragment seg np) :=
  risesBy_setSegment fun _ => .inr rfl

theorem risesBy_flushAlignment (fuel : Nat) (seg : String) : RisesBy (flushAlignment fuel seg) := by
  refine (growsBy_getSegment seg).rises.bind fun x => ?_
  split
  · refine (growsBy_getSegment seg).rises.bind fun x => (risesBy_ofOption _ _).bind fun filler =>
      (emitAlign_grows _ _ _ _).rises.bind fun b => ?_
    cases b with
    | true =>
        refine risesBy_tableAddNoname.bind fun np => ?_
        refine RisesBy.of_getSegment fun s x hx => ?_
        refine ensures_bind.mpr (((nameAssignValue_goes fuel np x.point s).weaken
          (fun _ _ => trivial) fun _ _ => trivial).mono fun _ s₁ h₁ => ?_)
        obtain ⟨m, errors, v, -, rfl, -⟩ := h₁
        refine ensures_bind.mpr (ensures_modify.mpr (ensures_bind.mpr (ensures_modify.mpr
          (ensures_bind.mpr (ensures_modify.mpr ?_)))))
        refine ((risesBy_dropPendingAlignment seg) _).mono fun _ s₂ => Rises.trans ?_
        exact rises_withSegment hx rfl rfl (.inl rfl)
    | false => exact risesBy_dropPendingAlignment seg
  · exact risesBy_pure _

theorem risesBy_aligned (fuel : Nat) : RisesBy (aligned fuel) :=
  (risesBy_get.bind fun _ => risesBy_pure _).bind fun seg =>
    (risesBy_flushAlignment fuel seg).bind fun _ => risesBy_pure _

theorem risesBy_push (e : Expr) : RisesBy (push e) := risesBy_modify (fun _ => rfl) fun _ => rfl

theorem risesBy_pop : RisesBy pop := by
  refine risesBy_get.bind fun s => ?_
  split
  · exact RisesBy.bind (risesBy_modify (fun _ => rfl) fun _ => rfl) fun _ => risesBy_pure _
  · exact risesBy_stop _

theorem risesBy_curseg : RisesBy curseg := risesBy_get.bind fun _ => risesBy_pure _

theorem risesBy_reportDefined (np : NameId) : RisesBy (reportDefined np) := by
  refine risesBy_get.bind fun s => ?_
  split
  · exact growsBy_report.rises
  · exact risesBy_pure _

theorem risesBy_setDefined (np : NameId) : RisesBy (setDefined np) :=
  risesBy_modify (fun _ => rfl) fun _ => rfl

theorem risesBy_setFragment (np : NameId) : RisesBy (setFragment np) :=
  risesBy_modify (fun _ => rfl) fun _ => rfl

theorem risesBy_globalizeName (np : NameId) : RisesBy (globalizeName np) :=
  risesBy_modify (fun _ => rfl) fun _ => rfl

theorem risesBy_setAlign (np : NameId) (align : Word) : RisesBy (setAlign np align) :=
  risesBy_modify (fun _ => rfl) fun _ => rfl

theorem risesBy_defaultFragment : RisesBy defaultFragment :=
  risesBy_tableAddNoname.bind fun np => (risesBy_globalizeName np).bind fun _ =>
    (risesBy_setFragment np).bind fun _ => (risesBy_setDefined np).bind fun _ => risesBy_pure _

theorem risesBy_addSegment (seg : String) (np : NameId) : RisesBy (addSegment seg np) := by
  refine RisesBy.bind (fun s => ensures_modify.mpr ⟨le_rfl, fun seg' y el hy hel => ?_⟩) fun _ =>
    risesBy_addFragment seg np
  by_cases hseg : seg' = seg
  · subst hseg
    obtain rfl := Option.some.inj ((segments_withSegment s _ _).symm.trans hy)
    cases hel
  · exact .inl ⟨y, (segments_withSegment_of_ne s _ hseg).symm.trans hy, hel⟩

theorem risesBy_newSegment (ident : String) : RisesBy (newSegment ident) := by
  refine risesBy_defaultFragment.bind fun np => (risesBy_addSegment ident np).bind fun _ => ?_
  split
  · exact risesBy_defaultFragment.bind fun np => risesBy_addFragment ident np
  · exact risesBy_pure _

theorem risesBy_swapLastFragments (seg : String) : RisesBy (swapLastFragments seg) := by
  refine .of_getSegment fun s x hx => ?_
  dsimp only
  split
  · exact ensures_modify.mpr (rises_withSegment hx rfl rfl (.inl rfl))
  · exact risesBy_stop _ s

theorem risesBy_labelAction (fuel : Nat) (np : NameId) : RisesBy (labelAction fuel np) := by
  refine (risesBy_reportDefined np).bind fun _ => (risesBy_setDefined np).bind fun _ =>
    risesBy_curseg.bind fun seg => (growsBy_getSegment seg).rises.bind fun x =>
    (risesBy_setAlign np _).bind fun _ => risesBy_get.bind fun s => ?_
  split
  · exact (risesBy_setFragment np).bind fun _ => (risesBy_dropPendingAlignment seg).bind fun _ =>
      risesBy_addFragment seg np
  · exact (risesBy_flushAlignment fuel seg).bind fun _ => (growsBy_getSegment seg).rises.bind
      fun x => risesBy_nameAssignValue fuel np x.point

theorem risesBy_digLabelAction (fuel : Nat) (d : Fin 10) : RisesBy (digLabelAction fuel d) := by
  refine (risesBy_aligned fuel).bind fun seg => (growsBy_getSegment seg).rises.bind fun x =>
    (RisesBy.bind (risesBy_modify (fun _ => rfl) fun _ => rfl) fun _ => risesBy_get.bind fun s => ?_)
  split
  · exact (risesBy_nameAssignValue fuel _ _).bind fun _ => (risesBy_setDefined _).bind fun _ =>
      risesBy_modify (fun _ => rfl) fun _ => rfl
  · exact risesBy_pure _

theorem risesBy_commAction (fuel : Nat) (np : NameId) : RisesBy (commAction fuel np) := by
  have htail : ∀ count, RisesBy (do
      reportDefined np
      globalizeName np
      setFragment np
      setDefined np
      Logged.modify fun s => { s with common := Function.update s.common np true }
      let seg ← curseg
      let x ← getSegment seg
      setAlign np x.pendingAlignment
      dropPendingAlignment seg
      addFragment "bss" np
      emitData fuel "bss" 1 (.const 0) count
      swapLastFragments "bss") := fun count =>
    (risesBy_reportDefined np).bind fun _ => (risesBy_globalizeName np).bind fun _ =>
      (risesBy_setFragment np).bind fun _ => (risesBy_setDefined np).bind fun _ =>
      RisesBy.bind (risesBy_modify (fun _ => rfl) fun _ => rfl) fun _ =>
      risesBy_curseg.bind fun seg => (growsBy_getSegment seg).rises.bind fun x =>
      (risesBy_setAlign np _).bind fun _ => (risesBy_dropPendingAlignment seg).bind fun _ =>
      (risesBy_addFragment _ np).bind fun _ => (emitData_grows _ _ _ _ _).rises.bind fun _ =>
      risesBy_swapLastFragments _
  refine risesBy_pop.bind fun count => risesBy_get.bind fun s => ?_
  split
  · exact htail count
  · exact (risesBy_newSegment "bss").bind fun _ => htail count

theorem risesBy_alignAction (fuel : Nat) : RisesBy (alignAction fuel) := by
  refine risesBy_pop.bind fun filler => risesBy_pop.bind fun factor => ?_
  split
  · exact growsBy_report.rises
  · split
    · exact risesBy_pure _
    · exact (risesBy_aligned fuel).bind fun seg => risesBy_setSegment fun _ => .inl rfl

/-- Every action gives new numbers to new elements. -/
theorem exec_rises (fuel : Nat) (a : Action) : RisesBy (a.exec fuel) := by
  have hdata : ∀ data count, RisesBy (do
      let seg ← aligned fuel
      emitData fuel seg (← Logged.get).dataWidth data count) := fun data count =>
    (risesBy_aligned fuel).bind fun seg => risesBy_get.bind fun _ =>
      (emitData_grows _ _ _ _ _).rises
  cases a with
  | number c => exact risesBy_push _
  | name i => exact risesBy_push _
  | dot =>
      exact (risesBy_aligned fuel).bind fun seg => (growsBy_getSegment seg).rises.bind fun _ =>
        risesBy_push _
  | digrefB d => exact risesBy_get.bind fun _ => (risesBy_ofOption _ _).bind fun _ => risesBy_push _
  | digrefF d =>
      refine risesBy_get.bind fun s => ?_
      split
      · exact risesBy_push _
      · exact risesBy_tableAddNoname.bind fun np =>
          RisesBy.bind (risesBy_modify (fun _ => rfl) fun _ => rfl) fun _ => risesBy_push _
  | unop op =>
      exact risesBy_pop.bind fun _ => (risesBy_ofOption _ _).bind fun _ => risesBy_push _
  | binop op =>
      refine risesBy_pop.bind fun _ => risesBy_pop.bind fun _ =>
        (growsBy_reduce ask_store).rises.bind fun _ => ?_
      split
      · exact (risesBy_ofOption _ _).bind fun _ => risesBy_push _
      · exact risesBy_stop _
  | questop =>
      exact risesBy_pop.bind fun _ => risesBy_pop.bind fun _ => risesBy_pop.bind fun _ =>
        risesBy_push _
  | label i => exact risesBy_labelAction fuel _
  | labelColon i =>
      exact (risesBy_reportDefined _).bind fun _ => (risesBy_aligned fuel).bind fun seg =>
        (risesBy_setDefined _).bind fun _ => (growsBy_getSegment seg).rises.bind fun _ =>
        risesBy_nameAssignValue _ _ _
  | digLabel d => exact risesBy_digLabelAction fuel d
  | cmdDirect opcode =>
      exact risesBy_pop.bind fun _ => (risesBy_aligned fuel).bind fun _ =>
        (emitCmd_grows _ _ _ _).rises
  | cmdPcrel opcode =>
      exact risesBy_pop.bind fun _ => risesBy_tableAddNoname.bind fun np =>
        (risesBy_aligned fuel).bind fun seg => (growsBy_reduce ask_store).rises.bind fun _ =>
        (risesBy_ofOption _ _).bind fun _ => (emitCmd_grows _ _ _ _).rises.bind fun _ =>
        (growsBy_getSegment seg).rises.bind fun _ => (risesBy_nameAssignValue _ _ _).bind fun _ =>
        risesBy_setDefined _
  | cmdIndir c => exact (risesBy_aligned fuel).bind fun _ => (emitCmd_grows _ _ _ _).rises
  | cmdFpu c =>
      exact (risesBy_aligned fuel).bind fun _ => (emitCmd_grows _ _ _ _).rises.bind fun _ =>
        (emitCmd_grows _ _ _ _).rises
  | segment ident =>
      refine risesBy_get.bind fun s => ?_
      have hcur : RisesBy (Logged.modify fun s : Assembler => { s with curseg := ident }) :=
        risesBy_modify (fun _ => rfl) fun _ => rfl
      split
      · exact hcur
      · exact (risesBy_newSegment ident).bind fun _ => hcur
  | globl i =>
      refine risesBy_get.bind fun s => ?_
      dsimp only
      split
      · exact growsBy_report.rises.bind fun _ => risesBy_globalizeName _
      · exact risesBy_globalizeName _
  | comm i => exact risesBy_commAction fuel _
  | slot =>
      refine risesBy_pop.bind fun e => ?_
      split
      · exact growsBy_report.rises
      · exact risesBy_curseg.bind fun seg => (growsBy_slot seg _).rises
  | width w => exact risesBy_modify (fun _ => rfl) fun _ => rfl
  | defaultFiller => exact risesBy_curseg.bind fun _ => risesBy_push _
  | align => exact risesBy_alignAction fuel
  | datum => exact risesBy_pop.bind fun data => hdata data _
  | space => exact hdata _ _
  | repeated => exact risesBy_pop.bind fun count => risesBy_pop.bind fun data => hdata data count
  | repeatedSpace => exact risesBy_pop.bind fun count => hdata _ count
  | string bytes =>
      refine (risesBy_aligned fuel).bind fun seg => risesBy_get.bind fun s => ?_
      split
      · exact growsBy_report.rises
      · exact (emitBlock_grows _ _).rises
  | assign i =>
      refine risesBy_pop.bind fun e => risesBy_get.bind fun s => ?_
      split
      · exact growsBy_report.rises
      · exact (risesBy_setDefined _).bind fun _ => risesBy_nameAssignValue _ _ _

/-- In every state that is reached the current elements have numbers that were given out. -/
theorem run_numbered {fuel : Nat} {answers : Nat → Bool} {as : List Action}
    (hrun : Assembler.run fuel answers as = .ok s) :
    ∀ seg x el, s.segments seg = some x → x.curel = some el → el < s.nextElement := by
  induction as using List.reverseRecOn generalizing s with
  | nil =>
      obtain ⟨-, h⟩ :=
        (((risesBy_newSegment "head").bind fun _ => risesBy_pure ()) (.empty answers)).ended hrun
      intro seg x el hx hel
      rcases h.curel seg x el hx hel with ⟨y, hy, -⟩ | ⟨-, hlt⟩
      · cases hy
      · exact hlt
  | append_singleton as a ih =>
      rw [run_append] at hrun
      rcases hs : Assembler.run fuel answers as with e | s₀ <;> rw [hs] at hrun
      · cases hrun
      · obtain ⟨-, h⟩ := (exec_rises fuel a s₀).ended hrun
        intro seg x el hx hel
        rcases h.curel seg x el hx hel with ⟨y, hy, hel'⟩ | ⟨-, hlt⟩
        · exact (ih hs seg y el hy hel').trans_le h.nextElement
        · exact hlt

/-! ### The directive -/

/-- `.bss` is as it was, or as it is made if it was not there, and every common block is one element
of `DATA`. -/
structure LeftAlone (s s' : Assembler) : Prop where
  segment : ∀ x, s.segments "bss" = some x → ∃ x', s'.segments "bss" = some x' ∧
    x'.fragments.getLast? = x.fragments.getLast? ∧ x'.curel = x.curel ∧ x'.point = x.point
  fresh : s.segments "bss" = none → ∃ x', s'.segments "bss" = some x' ∧ x'.curel = none
  common : ∀ seg x f, s'.segments seg = some x → f ∈ x.fragments → s'.common f.name = true →
    ∃ el size count, f.elts = [el] ∧ s'.store.element el = ⟨size, .data 1 (.const 0) count⟩

/-- `expr_plus_element` changes the point. -/
theorem pointPlusElement_ensures {seg : String} {x : Segment} (hx : s.segments seg = some x)
    (el : ElemId) : Ensures (fun _ => True) (fun _ => True) (pointPlusElement seg el)
      (fun _ s' => s'.store = s.store ∧ ∃ point,
        s'.segments seg = some { x with point := point }) s := by
  have hpoint : ∀ f s', s'.store = s.store → s'.segments = s.segments →
      Ensures (fun _ => True) (fun _ => True) (updatePoint seg f)
        (fun _ s'' => s''.store = s.store ∧ ∃ point,
          s''.segments seg = some { x with point := point }) s' := by
    intro f s' hst hseg
    refine ensures_bind.mpr (((goes_reduce ask_store s').weaken (fun _ _ => trivial)
      fun _ _ => trivial).mono fun _ s₁ h₁ => ?_)
    obtain ⟨m, hm, rfl⟩ := h₁
    refine ensures_bind.mpr (ensures_bind.mpr (ensures_get.mpr (ensures_ofOption.mpr
      ⟨fun y hy => ensures_bind.mpr (ensures_ofOption.mpr ⟨fun point _ => ensures_modify.mpr ?_,
        fun _ => trivial⟩), fun _ => trivial⟩)))
    obtain rfl : x = y := Option.some.inj (hx.symm.trans ((congrFun hseg seg).symm.trans hy))
    exact ⟨hm.trans hst, point, segments_withSegment _ _ _⟩
  refine ensures_bind.mpr (ensures_get.mpr ?_)
  split
  · exact hpoint _ s rfl rfl
  · exact ensures_bind.mpr (ensures_modify.mpr (hpoint _ _ rfl rfl))

/-- The first element of the last fragment. -/
theorem addElement_ensures {seg : String} {x : Segment} (hx : s.segments seg = some x)
    (hc : x.curel = none) {fs : List Fraglist} {np : NameId} (hf : x.fragments = fs ++ [⟨np, []⟩])
    (size : Expr) (u : Body) :
    Ensures (fun _ => True) (fun _ => True) (addElement seg size u)
      (fun el s' => el = s.nextElement ∧ s'.segments seg = some { x with
        fragments := fs ++ [⟨np, [el]⟩], curel := some el }) s := by
  refine ensures_bind.mpr (ensures_bind.mpr (ensures_get.mpr (ensures_ofOption.mpr
    ⟨fun y hy => ?_, fun _ => trivial⟩)))
  obtain rfl : x = y := Option.some.inj (hx.symm.trans hy)
  rw [if_neg (by simp [hf])]
  refine ensures_bind.mpr (ensures_get.mpr (ensures_bind.mpr (ensures_modify.mpr
    (ensures_bind.mpr (ensures_modify.mpr (ensures_pure.mpr ⟨rfl, ?_⟩))))))
  rw [segments_withSegment, Segment.chained, hc, hf]
  simp

/-- Data in a fragment that is empty. -/
theorem emitData_ensures {seg : String} {x : Segment} (hx : s.segments seg = some x)
    (hc : x.curel = none) {fs : List Fraglist} {np : NameId} (hf : x.fragments = fs ++ [⟨np, []⟩])
    (fuel : Nat) (width : Word) (data count : Expr) :
    Ensures (fun _ => True) (fun _ => True) (emitData fuel seg width data count)
      (fun _ s' => ∃ x', s'.segments seg = some x' ∧ x'.curel = some s.nextElement ∧
        x'.fragments = fs ++ [⟨np, [s.nextElement]⟩]) s := by
  refine ensures_bind.mpr (ensures_bind.mpr (ensures_get.mpr (ensures_ofOption.mpr
    ⟨fun y hy => ?_, fun _ => trivial⟩)))
  obtain rfl : x = y := Option.some.inj (hx.symm.trans hy)
  refine ensures_bind.mpr (ensures_get.mpr (ensures_bind.mpr (((goes_reduce ask_store s).weaken
    (fun _ _ => trivial) fun _ _ => trivial).mono fun _ s₁ h₁ => ?_)))
  obtain ⟨m, hm, rfl⟩ := h₁
  rw [hc]
  refine ensures_bind.mpr (ensures_bind.mpr (ensures_ofOption.mpr ⟨fun uemp _ => ensures_bind.mpr
    (ensures_get.mpr (ensures_ofOption.mpr ⟨fun size _ => ?_, fun _ => trivial⟩)),
      fun _ => trivial⟩))
  refine ensures_bind.mpr ((addElement_ensures (s := { s with memory := m }) hx hc hf size _).mono fun el s₂ h₂ => ?_)
  obtain ⟨rfl, hx₂⟩ := h₂
  refine (pointPlusElement_ensures hx₂ _).mono fun _ s₃ h₃ => ?_
  obtain ⟨-, point, hx₃⟩ := h₃
  exact ⟨_, hx₃, rfl, rfl⟩

/-- A step that gives new numbers to new elements, and what comes after it. -/
theorem RisesBy.then {α β : Type} {x : Emission α} {f : α → Emission β} {Q : β → Assembler → Prop}
    (h : RisesBy x) {n : ElemId} (hn : n ≤ s.nextElement)
    (hf : ∀ a s', n ≤ s'.nextElement →
      Ensures (fun _ => True) (fun _ => True) (f a) Q s') :
    Ensures (fun _ => True) (fun _ => True) (x >>= f) Q s :=
  ensures_bind.mpr ((h s).mono fun a s' hs => hf a s' (hn.trans hs.nextElement))

/-- After the directive the common block is the last fragment, with a new element that is the
current one. -/
theorem comm_current (fuel : Nat) (np : NameId) (s : Assembler) :
    Ensures (fun _ => True) (fun _ => True) (commAction fuel np) (fun _ s' => ∃ x el,
      s'.segments "bss" = some x ∧ s.nextElement ≤ el ∧ x.curel = some el ∧
      x.fragments.getLast? = some ⟨np, [el]⟩) s := by
  have htail : ∀ count s₁, s.nextElement ≤ s₁.nextElement →
      Ensures (fun _ => True) (fun _ => True) (do
      reportDefined np
      globalizeName np
      setFragment np
      setDefined np
      Logged.modify fun s => { s with common := Function.update s.common np true }
      let seg ← curseg
      let x ← getSegment seg
      setAlign np x.pendingAlignment
      dropPendingAlignment seg
      addFragment "bss" np
      emitData fuel "bss" 1 (.const 0) count
      swapLastFragments "bss") (fun _ s' => ∃ x el,
      s'.segments "bss" = some x ∧ s.nextElement ≤ el ∧ x.curel = some el ∧
      x.fragments.getLast? = some ⟨np, [el]⟩) s₁ := by
    intro count s₁ hn
    refine (risesBy_reportDefined np).then hn fun _ s₁ hn => ?_
    refine (risesBy_globalizeName np).then hn fun _ s₁ hn => ?_
    refine (risesBy_setFragment np).then hn fun _ s₁ hn => ?_
    refine (risesBy_setDefined np).then hn fun _ s₁ hn => ?_
    refine RisesBy.then (risesBy_modify (fun _ => rfl) fun _ => rfl) hn fun _ s₁ hn => ?_
    refine risesBy_curseg.then hn fun seg s₁ hn => ?_
    refine (growsBy_getSegment seg).rises.then hn fun x s₁ hn => ?_
    refine (risesBy_setAlign np _).then hn fun _ s₁ hn => ?_
    refine (risesBy_dropPendingAlignment seg).then hn fun _ s₁ hn => ?_
    refine ensures_bind.mpr (ensures_bind.mpr (ensures_bind.mpr (ensures_get.mpr
      (ensures_ofOption.mpr ⟨fun x hx => ensures_modify.mpr ?_, fun _ => trivial⟩))))
    refine ensures_bind.mpr ((emitData_ensures (segments_withSegment _ _ _) rfl rfl
      fuel _ _ _).mono fun _ s₂ h₂ => ?_)
    obtain ⟨x₂, hx₂, hc₂, hf₂⟩ := h₂
    refine ensures_bind.mpr (ensures_bind.mpr (ensures_get.mpr (ensures_ofOption.mpr
      ⟨fun y hy => ?_, fun _ => trivial⟩)))
    obtain rfl : x₂ = y := Option.some.inj (hx₂.symm.trans hy)
    dsimp only
    split
    · next temp last htemp hlast =>
        -- what is swapped is put back at once
        obtain ⟨hlt, rfl⟩ := List.getElem?_eq_some_iff.mp htemp
        refine ensures_modify.mpr ⟨_, _, segments_withSegment _ _ _, hn, hc₂, ?_⟩
        rw [List.set_set, List.set_getElem_self, hf₂]
        exact List.getLast?_concat
    · exact ensures_stop.mpr trivial
  refine risesBy_pop.then le_rfl fun count s₁ hn => ?_
  refine ensures_bind.mpr (ensures_get.mpr ?_)
  split
  · exact htail count s₁ hn
  · exact (risesBy_newSegment "bss").then hn fun _ s₂ hn => htail count s₂ hn

/-- The directive never leaves `.bss` as it was: what follows goes to the common block. -/
theorem comm_not_leftAlone {fuel : Nat} {answers : Nat → Bool} {as : List Action} {i : Nat}
    (hrun : Assembler.run fuel answers as = .ok s)
    (hcomm : Assembler.run fuel answers (as ++ [.comm i]) = .ok s') :
    ¬LeftAlone s s' ∧ ∃ x el, s'.segments "bss" = some x ∧ x.curel = some el ∧
      x.fragments.getLast? = some ⟨identName i, [el]⟩ := by
  rw [run_append, hrun] at hcomm
  obtain ⟨-, x', el, hx', hel, hc, hlast⟩ := (comm_current fuel (identName i) s).ended hcomm
  refine ⟨fun h => ?_, x', el, hx', hc, hlast⟩
  cases hx : s.segments "bss" with
  | none =>
      obtain ⟨y, hy, hnone⟩ := h.fresh hx
      obtain rfl := Option.some.inj (hx'.symm.trans hy)
      cases hnone.symm.trans hc
  | some x =>
      obtain ⟨y, hy, -, hcurel, -⟩ := h.segment x hx
      obtain rfl := Option.some.inj (hx'.symm.trans hy)
      exact (run_numbered hrun "bss" x el hx (hcurel ▸ hc)).not_ge hel

theorem exists_of_isOk {r : Except Halt Assembler} (h : r.isOk = true) : ∃ s, r = .ok s := by
  rcases r with e | s
  · cases h
  · exact ⟨s, rfl⟩

/-- `.bss` with one word in it, and then `.comm a, 4`. -/
theorem comm_not_leftAlone_bss : ∃ s s', Assembler.run 9 (fun _ => true)
      [.segment "bss", .width 4, .space, .number 4] = .ok s ∧
    Assembler.run 9 (fun _ => true) [.segment "bss", .width 4, .space, .number 4, .comm 0] = .ok s' ∧
    ¬LeftAlone s s' ∧ ∃ x el, s'.segments "bss" = some x ∧ x.curel = some el ∧
      x.fragments.getLast? = some ⟨identName 0, [el]⟩ := by
  obtain ⟨s, hs⟩ := exists_of_isOk (r := Assembler.run 9 (fun _ => true)
    [.segment "bss", .width 4, .space, .number 4]) (by decide +kernel)
  obtain ⟨s', hs'⟩ := exists_of_isOk (r := Assembler.run 9 (fun _ => true)
    ([.segment "bss", .width 4, .space, .number 4] ++ [.comm 0])) (by decide +kernel)
  exact ⟨s, s', hs, hs', comm_not_leftAlone hs hs'⟩

/-- `.comm a, 4` at the start of the file. -/
theorem comm_moves_bss : ¬∀ fuel answers as i s s', Assembler.run fuel answers as = .ok s →
    Assembler.run fuel answers (as ++ [.comm i]) = .ok s' → LeftAlone s s' := fun h => by
  obtain ⟨s, hs⟩ := exists_of_isOk (r := Assembler.run 9 (fun _ => true) [.number 4])
    (by decide +kernel)
  obtain ⟨s', hs'⟩ := exists_of_isOk (r := Assembler.run 9 (fun _ => true) ([.number 4] ++ [.comm 0]))
    (by decide +kernel)
  -- before the directive there is no such segment; after it there is a current element
  have hleft := h 9 (fun _ => true) [.number 4] 0 s s' hs hs'
  rw [run_append, hs] at hs'
  obtain ⟨-, x', el, hx', -, hc, -⟩ := (comm_current 9 (identName 0) s).ended hs'
  have hnone : s.segments "bss" = none := by
    have hrun : (Assembler.run 9 (fun _ => true) [.number 4]).map (fun s => (s.segments "bss").isNone)
        = .ok true := by decide +kernel
    rw [hs] at hrun
    simpa using Except.ok.inj hrun
  obtain ⟨y, hy, hcy⟩ := hleft.fresh hnone
  obtain rfl := Option.some.inj (hx'.symm.trans hy)
  cases hcy.symm.trans hc

end Ttools.Asm
