import Ttools.Ast.Labels

/-!
# What a point leads to

The names that a point leads to are those of fragments, which have no value, or of places that have
been aligned.

* `Anchor`: such a name.  `Anchored.not_leads`: they lead to no other.
* `Rooted`: every point leads to such names only.  `Rooted.grows`, `Rooted.assign`, `Rooted.place`:
  what keeps this.
-/

namespace Ttools.Asm

/-- A fragment, or a name whose value leads to fragments only. -/
inductive Anchor (s : Assembler) : NameId → Prop where
  | fragment {np : NameId} (hv : s.val np = none) (hf : s.fragment np = true) : Anchor s np
  | placed {np : NameId} {v : Expr} (hv : s.val np = some v)
      (h : ∀ n, v.Mentions n → Anchor s n) : Anchor s np

/-- Every name in the expression is one. -/
def Anchored (s : Assembler) (e : Expr) : Prop := ∀ n, e.Mentions n → Anchor s n

variable {s s' : Assembler} {np : NameId} {e : Expr}

/-- Other names may change. -/
theorem Anchor.mono (ha : Anchor s np) (h : ∀ n, Anchor s n → s'.val n = s.val n ∧
    (s.fragment n = true → s'.fragment n = true)) : Anchor s' np := by
  induction ha with
  | fragment hv hf =>
      have := h _ (.fragment hv hf)
      exact .fragment (this.1.trans hv) (this.2 hf)
  | placed hv hn ih =>
      exact .placed ((h _ (.placed hv hn)).1.trans hv) ih

theorem not_anchor (hv : s.val np = none) (hf : s.fragment np = false) : ¬Anchor s np := by
  rintro (⟨-, hf'⟩ | ⟨hv', -⟩)
  · simp [hf] at hf'
  · simp [hv] at hv'

/-- What leads to fragments does not lead to anything else. -/
theorem Anchored.not_leads (he : Anchored s e) (hnp : ¬Anchor s np) : ¬s.store.Leads e np := by
  rintro ⟨b, hb, hpath⟩
  replace hb : Anchor s b := he b hb
  clear he
  induction hpath using Relation.ReflTransGen.head_induction_on with
  | refl => exact hnp hb
  | head hstep _ ih =>
      obtain ⟨v, hv, hc⟩ := hstep
      cases hb with
      | fragment hv' hf => cases hv.symm.trans hv'
      | placed hv' hn =>
          obtain rfl := Option.some.inj (hv.symm.trans hv')
          exact ih (hn _ hc)

/-- What holds of the points and segments while the assembler parses. -/
structure Rooted (s : Assembler) : Prop where
  point : ∀ seg x, s.segments seg = some x → Anchored s x.point
  curel : ∀ seg x el, s.segments seg = some x → x.curel = some el → el < s.nextElement
  fresh : ∀ k, s.nonames ≤ k → s.val (noname k) = none ∧ s.fragment (noname k) = false

theorem Rooted.grows (hs : Rooted s) (h : Grows s s') : Rooted s' where
  point seg x' hx' n hn := by
    obtain ⟨x, hx, -, hm, -⟩ := h.segment seg x' hx'
    exact (hs.point seg x hx n (hm n hn)).mono fun n _ => ⟨h.val n, fun hf => h.fragment ▸ hf⟩
  curel seg x' el hx' hel := by
    obtain ⟨x, hx, -, -, hc⟩ := h.segment seg x' hx'
    rcases hc el hel with hel' | ⟨-, hlt⟩
    · exact (hs.curel seg x el hx hel').trans_le h.nextElement
    · exact hlt
  fresh k hk := by
    rw [h.val, h.fragment]
    exact hs.fresh k (h.nonames ▸ hk)

theorem Rooted.withSegment (hs : Rooted s) {seg : String} {x : Segment} (hp : Anchored s x.point)
    (hc : ∀ el, x.curel = some el → el < s.nextElement) : Rooted (s.withSegment seg x) := by
  have ha : ∀ n, Anchor s n → Anchor (s.withSegment seg x) n := fun n ha =>
    ha.mono fun _ _ => ⟨rfl, id⟩
  refine ⟨fun seg' y hy n hn => ?_, fun seg' y el hy hel => ?_, hs.fresh⟩
  · by_cases h : seg' = seg
    · subst h
      obtain rfl := Option.some.inj ((segments_withSegment s _ _).symm.trans hy)
      exact ha n (hp n hn)
    · exact ha n (hs.point seg' y ((segments_withSegment_of_ne s _ h).symm.trans hy) n hn)
  · by_cases h : seg' = seg
    · subst h
      obtain rfl := Option.some.inj ((segments_withSegment s _ _).symm.trans hy)
      exact hc el hel
    · exact hs.curel seg' y el ((segments_withSegment_of_ne s _ h).symm.trans hy) hel

/-- The name may be given a value: it has none, it is no fragment, and not one to come. -/
structure Open (s : Assembler) (np : NameId) : Prop where
  val : s.val np = none
  fragment : s.fragment np = false
  fresh : ∀ k, s.nonames ≤ k → np ≠ noname k

theorem Rooted.assign (hs : Rooted s) (ho : Open s np) (fuel : Nat) (e : Expr) :
    Goes (nameAssignValue fuel np e) (fun _ s' => Rooted s') s := by
  refine (nameAssignValue_goes _ _ _ _).mono fun _ s' h => ?_
  obtain ⟨m, errors, v, hm, rfl, -, -⟩ := h
  have hother : ∀ n, n ≠ np → (({ s with memory := m, errors := errors } : Assembler).withName np
      { s.store.name np with val := some v }).val n = s.val n := fun n hn => by
    rw [Assembler.val, store_assigned hm]
    simp [Store.setVal, hn, Assembler.val]
  refine ⟨fun seg x hx n hn => (hs.point seg x hx n hn).mono fun n ha => ⟨hother n ?_, id⟩, hs.curel,
    fun k hk => ?_⟩
  · rintro rfl
    exact not_anchor ho.val ho.fragment ha
  · rw [hother _ (ho.fresh k hk).symm]
    exact hs.fresh k hk

/-- The point becomes a fresh name, whose value it was. -/
theorem Rooted.place (hs : Rooted s) {seg : String} {x x' : Segment} {n : Name}
    (hx : s.segments seg = some x) (hx' : s'.segments seg = some x')
    (hseg : ∀ seg', seg' ≠ seg → s'.segments seg' = s.segments seg')
    (hp : x'.point = .name (noname s.nonames)) (hc : x'.curel = x.curel)
    (hname : s'.store.name = Function.update s.store.name (noname s.nonames) n)
    (hn : n.val = some x.point)
    (hfrag : s'.fragment = Function.update s.fragment (noname s.nonames) false)
    (hnon : s'.nonames = s.nonames + 1) (hel : s'.nextElement = s.nextElement) : Rooted s' := by
  have hval : ∀ m, m ≠ noname s.nonames → s'.val m = s.val m := fun m hm => by
    rw [Assembler.val, hname, Function.update_of_ne hm]
    rfl
  have ha : ∀ m, Anchor s m → Anchor s' m := fun m ha => ha.mono fun m hm => by
    have hne : m ≠ noname s.nonames := by
      rintro rfl
      exact not_anchor (hs.fresh _ le_rfl).1 (hs.fresh _ le_rfl).2 hm
    exact ⟨hval m hne, fun hf => by rw [hfrag, Function.update_of_ne hne, hf]⟩
  refine ⟨fun seg' y hy m hm => ?_, fun seg' y el hy hcur => ?_, fun k hk => ?_⟩
  · by_cases h : seg' = seg
    · subst h
      obtain rfl := Option.some.inj (hx'.symm.trans hy)
      rw [hp] at hm
      obtain rfl : noname s.nonames = m := hm
      refine .placed (v := x.point) ?_ fun m hm => ha m (hs.point _ x hx m hm)
      rw [Assembler.val, hname, Function.update_self, hn]
    · exact ha m (hs.point seg' y ((hseg seg' h).symm.trans hy) m hm)
  · rw [hel]
    by_cases h : seg' = seg
    · subst h
      obtain rfl := Option.some.inj (hx'.symm.trans hy)
      exact hs.curel _ x el hx (hc ▸ hcur)
    · exact hs.curel seg' y el ((hseg seg' h).symm.trans hy) hcur
  · have hne : noname k ≠ noname s.nonames := fun h => by
      have := noname_inj h
      omega
    rw [hval _ hne, hfrag, Function.update_of_ne hne]
    exact hs.fresh k (by omega)

end Ttools.Asm
