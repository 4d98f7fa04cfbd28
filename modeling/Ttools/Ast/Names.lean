import Ttools.Ast.Frames

/-!
# Names while parsing

What the assembler does with the names that have no identifier: those that a digital label waits
under, and those it makes for a fragment or for an aligned place.

* `nameAssignValue_goes`: what an assignment does.
* `Steady`: a computation leaves the digital labels and the names made before it alone.
* `steady_flushAlignment`, `steady_newSegment`: the computations of several steps that do so.
-/

namespace Ttools.Asm

open Support (Logged)
open Support.Logged

/-- `np->val`, whether the name is global or not. -/
def Assembler.val (s : Assembler) (np : NameId) : Option Expr := (s.store.name np).val

variable {s s' : Assembler} {np : NameId} {e : Expr}

/-! ### Assignment -/

/-- An assignment gives the name the expression, or 0 with an error; it does the first if the
expression does not lead to the name and no alignment is asked of it. -/
theorem nameAssignValue_goes (fuel : Nat) (np : NameId) (e : Expr) (s : Assembler) :
    Goes (nameAssignValue fuel np e) (fun _ s' => ∃ m errors v,
      m.store = s.store ∧ s' = ({ s with memory := m, errors := errors } : Assembler).withName np
        { s.store.name np with val := some v } ∧
      (v = e ∨ v = .const 0) ∧
      (exprNameMentioned s.store np fuel e ≠ some true →
        (1 : Word).slt (s.store.name np).align = false → v = e)) s := by
  refine .bind (goes_get (.bind (goes_ofOption (by simp) fun b hb => ?_)))
  have herror : Goes (report >>= fun _ => setVal np (.const 0))
      (fun _ s' => s' = ({ s with errors := s.errors + 1 } : Assembler).withName np
        { s.store.name np with val := some (.const 0) }) s :=
    .bind (goes_modify (goes_modify rfl))
  cases b with
  | true =>
      refine herror.mono fun _ s' hs => ⟨s.memory, s.errors + 1, .const 0, rfl, hs, .inr rfl, ?_⟩
      exact fun h => absurd hb h
  | false =>
      rw [if_neg (by simp)]
      split
      · next halign =>
          refine .bind ((goes_reduce (exprCheckAlignment_store _ _ _) s).mono fun off s' hs => ?_)
          obtain ⟨m, hm, rfl⟩ := hs
          have hname : ({ s with memory := m } : Assembler).store.name np = s.store.name np :=
            congrArg (fun st => st.name np) hm
          split
          · refine .bind (goes_modify (goes_modify ?_))
            refine ⟨m, s.errors + 1, .const 0, hm, ?_, .inr rfl, fun _ h => ?_⟩
            · rw [← hname]
              rfl
            · rw [h] at halign
              cases halign
          · refine goes_modify ⟨m, s.errors, e, hm, ?_, .inl rfl, fun _ _ => rfl⟩
            rw [← hname]
      · exact goes_modify ⟨s.memory, s.errors, e, rfl, rfl, .inl rfl, fun _ _ => rfl⟩

/-! ### Computations that leave the labels alone -/

/-- The digital labels, and the first `b` names without an identifier, are as they were. -/
structure Kept (b : Nat) (s s' : Assembler) : Prop where
  nonames : s.nonames ≤ s'.nonames
  name : ∀ k < b, s'.store.name (noname k) = s.store.name (noname k)
  backlab : s'.backlab = s.backlab
  forwlab : s'.forwlab = s.forwlab

variable {b : Nat}

theorem Kept.trans {s'' : Assembler} (h : Kept b s s') (h' : Kept b s' s'') : Kept b s s'' where
  nonames := h.nonames.trans h'.nonames
  name k hk := (h'.name k hk).trans (h.name k hk)
  backlab := h'.backlab.trans h.backlab
  forwlab := h'.forwlab.trans h.forwlab

theorem Kept.mono {b' : Nat} (h : Kept b s s') (hb : b' ≤ b) : Kept b' s s' :=
  ⟨h.nonames, fun k hk => h.name k (hk.trans_le hb), h.backlab, h.forwlab⟩

theorem Grows.val (h : Grows s s') (n : NameId) : s'.val n = s.val n := by
  rw [Assembler.val, h.name]
  rfl

theorem Grows.kept (h : Grows s s') : Kept b s s' where
  nonames := h.nonames.ge
  name _ _ := by rw [h.name]
  backlab := h.backlab
  forwlab := h.forwlab

/-- Neither the names nor the labels change. -/
theorem kept_frame (h1 : s'.nonames = s.nonames) (h2 : s'.store.name = s.store.name)
    (h3 : s'.backlab = s.backlab) (h4 : s'.forwlab = s.forwlab) : Kept b s s' :=
  ⟨h1.ge, fun _ _ => by rw [h2], h3, h4⟩

/-- The name is none of the first `b` without an identifier. -/
def Above (b : Nat) (np : NameId) : Prop := ∀ k < b, noname k ≠ np

theorem noname_inj {k l : Nat} (h : noname k = noname l) : k = l := by
  change 2 * k + 1 = 2 * l + 1 at h
  omega

theorem identName_ne_noname (i k : Nat) : identName i ≠ noname k := by
  change 2 * i ≠ 2 * k + 1
  omega

theorem above_identName (i : Nat) : Above b (identName i) := fun k _ =>
  (identName_ne_noname i k).symm

theorem above_noname {k : Nat} (h : b ≤ k) : Above b (noname k) := fun _ hl heq =>
  (hl.trans_le h).ne (noname_inj heq)

theorem kept_withName (ha : Above b np) (n : Name) : Kept b s (s.withName np n) :=
  ⟨le_rfl, fun k hk => Function.update_of_ne (ha k hk) _ _, rfl, rfl⟩

/-- The computation leaves the digital labels and the first `b` names without an identifier alone. -/
def Steady (b : Nat) {α : Type} (x : Emission α) : Prop :=
  ∀ s, b ≤ s.nonames → Goes x (fun _ s' => Kept b s s') s

theorem Steady.bind {α β : Type} {x : Emission α} {f : α → Emission β} (h : Steady b x)
    (hf : ∀ a, Steady b (f a)) : Steady b (x >>= f) := fun s hs =>
  .bind ((h s hs).mono fun a s' hk =>
    (hf a s' (hs.trans hk.nonames)).mono fun _ _ hk' => hk.trans hk')

theorem GrowsBy.steady {α : Type} {x : Emission α} (h : GrowsBy x) : Steady b x := fun s _ =>
  (h s).mono fun _ _ hg => hg.kept

theorem steady_pure {α : Type} (a : α) : Steady b (pure a) := (growsBy_pure a).steady

theorem steady_get : Steady b Logged.get := growsBy_get.steady

theorem steady_report : Steady b report := growsBy_report.steady

theorem steady_getSegment (seg : String) : Steady b (getSegment seg) :=
  (growsBy_getSegment seg).steady

theorem steady_modify {f : Assembler → Assembler} (h : ∀ s, Kept b s (f s)) :
    Steady b (Logged.modify f) := fun s _ => goes_modify (h s)

theorem steady_setSegment (seg : String) (x : Segment) : Steady b (setSegment seg x) :=
  steady_modify fun _ => kept_frame rfl rfl rfl rfl

theorem steady_setDefined (np : NameId) : Steady b (setDefined np) :=
  steady_modify fun _ => kept_frame rfl rfl rfl rfl

theorem steady_setFragment (np : NameId) : Steady b (setFragment np) :=
  steady_modify fun _ => kept_frame rfl rfl rfl rfl

theorem steady_setAlign (ha : Above b np) (align : Word) : Steady b (setAlign np align) :=
  steady_modify fun _ => kept_withName ha _

theorem steady_globalizeName (ha : Above b np) : Steady b (globalizeName np) :=
  steady_modify fun _ => kept_withName ha _

theorem steady_nameAssignValue (ha : Above b np) (fuel : Nat) (e : Expr) :
    Steady b (nameAssignValue fuel np e) := fun s _ =>
  (nameAssignValue_goes fuel np e s).mono fun _ s' h => by
    obtain ⟨m, errors, v, hm, rfl, -, -⟩ := h
    have hframe : Kept b s { s with memory := m, errors := errors } :=
      kept_frame rfl (congrArg Store.name hm) rfl rfl
    exact hframe.trans (kept_withName ha _)

/-- A fresh name. -/
theorem tableAddNoname_goes (s : Assembler) :
    Goes tableAddNoname (fun np s' => np = noname s.nonames ∧ Kept s.nonames s s' ∧
      s'.nonames = s.nonames + 1 ∧ s'.store.name = Function.update s.store.name np nameAlloc ∧
      s'.segments = s.segments ∧ s'.values = s.values ∧ s'.curseg = s.curseg) s := by
  unfold Goes Ensures tableAddNoname
  refine fun _ => ⟨rfl, ⟨Nat.le_succ _, fun k hk => ?_, rfl, rfl⟩, rfl, rfl, rfl, rfl, rfl⟩
  exact Function.update_of_ne (fun h => hk.ne (noname_inj h)) _ _

theorem steady_tableAddNoname {α : Type} {f : NameId → Emission α}
    (hf : ∀ np, Above b np → Steady b (f np)) : Steady b (tableAddNoname >>= f) := fun s hs =>
  .bind ((tableAddNoname_goes s).mono fun np s₁ h => by
    obtain ⟨rfl, hk, -⟩ := h
    have hk' : Kept b s s₁ := hk.mono hs
    exact (hf _ (above_noname hs) s₁ (hs.trans hk.nonames)).mono fun _ _ h => hk'.trans h)

/-! ### Segments -/

theorem steady_dropPendingAlignment (seg : String) : Steady b (dropPendingAlignment seg) :=
  (steady_getSegment seg).bind fun _ => steady_setSegment _ _

/-- `do_pending_alignment`. -/
theorem steady_flushAlignment (fuel : Nat) (seg : String) : Steady b (flushAlignment fuel seg) := by
  refine (steady_getSegment seg).bind fun x => ?_
  split
  · refine (steady_getSegment seg).bind fun x => (growsBy_ofOption (by simp) _).steady.bind
      fun filler => (emitAlign_grows _ _ _ _).steady.bind fun placed => ?_
    cases placed with
    | true =>
        -- a fresh name is given the point, and the point becomes the name
        exact steady_tableAddNoname fun np ha => (steady_getSegment seg).bind fun x =>
          (steady_nameAssignValue ha fuel _).bind fun _ => (steady_setAlign ha _).bind fun _ =>
          (steady_setDefined np).bind fun _ => (steady_setSegment _ _).bind fun _ =>
          steady_dropPendingAlignment seg
    | false => exact steady_dropPendingAlignment seg
  · exact steady_pure _

theorem steady_addFragment (seg : String) (np : NameId) : Steady b (addFragment seg np) :=
  (steady_getSegment seg).bind fun _ => steady_setSegment _ _

theorem steady_defaultFragment {α : Type} {f : NameId → Emission α}
    (hf : ∀ np, Steady b (f np)) : Steady b (defaultFragment >>= f) :=
  (steady_tableAddNoname fun np ha => (steady_globalizeName ha).bind fun _ =>
    (steady_setFragment np).bind fun _ => (steady_setDefined np).bind fun _ =>
    steady_pure np).bind hf

theorem steady_newSegment (ident : String) : Steady b (newSegment ident) := by
  refine steady_defaultFragment fun np => ?_
  have hadd : Steady b (addSegment ident np) :=
    (steady_setSegment _ _).bind fun _ => steady_addFragment ident np
  refine hadd.bind fun _ => ?_
  split
  · exact steady_defaultFragment fun np => steady_addFragment ident np
  · exact steady_pure _

end Ttools.Asm
