import Ttools.Ast.Cycles

/-!
# Digital labels

What the actions of the parser do with the labels `0:` to `9:` and the references to them.

* `Action.Proper`: the action refers to no label that is not there yet, and is no label at a point
  that leads to the name waiting for it.
* `exec_goes`: what a proper action does.
* `resolved_of_proper`: where every action is, each reference gets the nearest label.
* `run_digrefB`: a reference back to a label that is not there follows a null pointer.
-/

namespace Ttools.Asm

open Support (Logged)
open Support.Logged

variable {s s' : Assembler} {np : NameId} {e : Expr} {b : Nat}

/-! ### Actions that have nothing to do with labels -/

theorem steady_push (e : Expr) : Steady b (push e) :=
  steady_modify fun _ => kept_frame rfl rfl rfl rfl

theorem steady_pop : Steady b pop := by
  refine steady_get.bind fun s => ?_
  split
  · exact Steady.bind (steady_modify fun _ => kept_frame rfl rfl rfl rfl) fun _ => steady_pure _
  · exact (growsBy_stop _).steady

theorem growsBy_curseg : GrowsBy curseg := growsBy_get.bind fun _ => growsBy_pure _

theorem steady_curseg : Steady b curseg := growsBy_curseg.steady

theorem steady_ofOption {α : Type} {r : Stop} (o : Option α) :
    Steady b (ofOption (Halt.stop r) o) := (growsBy_ofOption (by simp) o).steady

theorem growsBy_reportDefined (np : NameId) : GrowsBy (reportDefined np) := by
  refine growsBy_get.bind fun s => ?_
  split
  · exact growsBy_report
  · exact growsBy_pure _

theorem steady_reportDefined (np : NameId) : Steady b (reportDefined np) :=
  (growsBy_reportDefined np).steady

theorem steady_aligned (fuel : Nat) : Steady b (aligned fuel) :=
  steady_curseg.bind fun seg => (steady_flushAlignment fuel seg).bind fun _ => steady_pure _

/-- Only the vector of fragments changes. -/
theorem growsBy_swapLastFragments (seg : String) : GrowsBy (swapLastFragments seg) := fun s => by
  refine goes_getSegment fun x hx => ?_
  dsimp only
  split
  · exact goes_setSegment (.withSegment hx rfl (fun _ => id) rfl)
  · exact goes_stop _

/-- `label`. -/
theorem steady_labelAction (ha : Above b np) (fuel : Nat) : Steady b (labelAction fuel np) := by
  refine (steady_reportDefined np).bind fun _ => (steady_setDefined np).bind fun _ =>
    steady_curseg.bind fun seg => (steady_getSegment seg).bind fun x =>
    (steady_setAlign ha _).bind fun _ => steady_get.bind fun s => ?_
  split
  · exact (steady_setFragment np).bind fun _ => (steady_dropPendingAlignment seg).bind fun _ =>
      steady_addFragment seg np
  · exact (steady_flushAlignment fuel seg).bind fun _ => (steady_getSegment seg).bind fun x =>
      steady_nameAssignValue ha fuel x.point

/-- `TOK_COMM`. -/
theorem steady_commAction (ha : Above b np) (fuel : Nat) : Steady b (commAction fuel np) := by
  have htail : ∀ count, Steady b (do
      reportDefined np
      globalizeName np
      setFragment np
      setDefined np
      Logged.modify fun s => { s with common := Function.update s.common np true }
      let seg ← curseg
      let x ← getSegment seg
      setAlign np x.pendingAlignment
      dropPendingAlignment seg
      addFragment "bss" np
      emitData fuel "bss" 1 (.const 0) count
      swapLastFragments "bss") := fun count =>
    (steady_reportDefined np).bind fun _ => (steady_globalizeName ha).bind fun _ =>
      (steady_setFragment np).bind fun _ => (steady_setDefined np).bind fun _ =>
      Steady.bind (steady_modify fun _ => kept_frame rfl rfl rfl rfl) fun _ =>
      steady_curseg.bind fun seg => (steady_getSegment seg).bind fun x =>
      (steady_setAlign ha _).bind fun _ => (steady_dropPendingAlignment seg).bind fun _ =>
      (steady_addFragment _ np).bind fun _ => ((emitData_grows _ _ _ _ _).bind fun _ =>
      growsBy_swapLastFragments _).steady
  refine steady_pop.bind fun count => steady_get.bind fun s => ?_
  split
  · exact htail count
  · exact (steady_newSegment "bss").bind fun _ => htail count

theorem steady_alignAction (fuel : Nat) : Steady b (alignAction fuel) := by
  refine steady_pop.bind fun filler => steady_pop.bind fun factor => ?_
  split
  · exact steady_report
  · split
    · exact steady_pure _
    · exact (steady_aligned fuel).bind fun seg => (steady_getSegment seg).bind fun _ =>
        steady_setSegment _ _

/-- The action is no label of a digit, and no reference to one that may be missing. -/
def Action.Plain : Action → Prop
  | .digrefB _ | .digrefF _ | .digLabel _ => False
  | _ => True

theorem exec_steady (fuel : Nat) {a : Action} (ha : a.Plain) : Steady b (a.exec fuel) := by
  have hdata : ∀ data count, Steady b (do
      let seg ← aligned fuel
      emitData fuel seg (← Logged.get).dataWidth data count) := fun data count =>
    (steady_aligned fuel).bind fun seg =>
      (growsBy_get.bind fun _ => emitData_grows _ _ _ _ _).steady
  cases a with
  | number c => exact steady_push _
  | name i => exact steady_push _
  | dot =>
      exact (steady_aligned fuel).bind fun seg => (steady_getSegment seg).bind fun x => steady_push _
  | digrefB d => exact ha.elim
  | digrefF d => exact ha.elim
  | digLabel d => exact ha.elim
  | unop op => exact steady_pop.bind fun _ => (steady_ofOption _).bind fun _ => steady_push _
  | binop op =>
      refine steady_pop.bind fun _ => steady_pop.bind fun _ =>
        (growsBy_reduce ask_store).steady.bind fun lone => ?_
      split
      · exact (steady_ofOption _).bind fun _ => steady_push _
      · exact (growsBy_stop _).steady
  | questop =>
      exact steady_pop.bind fun _ => steady_pop.bind fun _ => steady_pop.bind fun _ => steady_push _
  | label i => exact steady_labelAction (above_identName i) fuel
  | labelColon i =>
      exact (steady_reportDefined _).bind fun _ => (steady_aligned fuel).bind fun seg =>
        (steady_setDefined _).bind fun _ => (steady_getSegment seg).bind fun _ =>
        steady_nameAssignValue (above_identName i) _ _
  | cmdDirect opcode =>
      exact steady_pop.bind fun _ => (steady_aligned fuel).bind fun _ =>
        (emitCmd_grows _ _ _ _).steady
  | cmdPcrel opcode =>
      -- the point after the command is the value of a fresh name
      exact steady_pop.bind fun _ => steady_tableAddNoname fun np ha =>
        (steady_aligned fuel).bind fun seg => (growsBy_reduce ask_store).steady.bind fun _ =>
        (steady_ofOption _).bind fun _ => (emitCmd_grows _ _ _ _).steady.bind fun _ =>
        (steady_getSegment seg).bind fun _ => (steady_nameAssignValue ha _ _).bind fun _ =>
        steady_setDefined _
  | cmdIndir c => exact (steady_aligned fuel).bind fun _ => (emitCmd_grows _ _ _ _).steady
  | cmdFpu c =>
      exact (steady_aligned fuel).bind fun _ => ((emitCmd_grows _ _ _ _).bind fun _ =>
        emitCmd_grows _ _ _ _).steady
  | segment ident =>
      refine steady_get.bind fun s => ?_
      have hcur : Steady b (Logged.modify fun s : Assembler => { s with curseg := ident }) :=
        steady_modify fun _ => kept_frame rfl rfl rfl rfl
      split
      · exact hcur
      · exact (steady_newSegment ident).bind fun _ => hcur
  | globl i =>
      refine steady_get.bind fun s => ?_
      dsimp only
      split
      · exact steady_report.bind fun _ => steady_globalizeName (above_identName i)
      · exact steady_globalizeName (above_identName i)
  | comm i => exact steady_commAction (above_identName i) fuel
  | slot =>
      refine steady_pop.bind fun e => ?_
      split
      · exact steady_report
      · exact steady_curseg.bind fun seg => (growsBy_slot seg _).steady
  | width w => exact steady_modify fun _ => kept_frame rfl rfl rfl rfl
  | defaultFiller => exact steady_curseg.bind fun _ => steady_push _
  | align => exact steady_alignAction fuel
  | datum => exact steady_pop.bind fun data => hdata data _
  | space => exact hdata _ _
  | repeated => exact steady_pop.bind fun count => steady_pop.bind fun data => hdata data count
  | repeatedSpace => exact steady_pop.bind fun count => hdata _ count
  | string bytes =>
      refine (steady_aligned fuel).bind fun seg => steady_get.bind fun s => ?_
      split
      · exact steady_report
      · exact (emitBlock_grows _ _).steady
  | assign i =>
      refine steady_pop.bind fun e => steady_get.bind fun s => ?_
      split
      · exact steady_report
      · exact (steady_setDefined _).bind fun _ => steady_nameAssignValue (above_identName i) _ _

/-! ### Where a label may stand -/

/-- The point of the segment does not lead to the name. -/
def Clear (seg : String) (np : NameId) (s : Assembler) : Prop :=
  ∀ x, s.segments seg = some x → ¬s.store.Leads x.point np

/-- The current segment is the same, and where one of the first `b` names without an identifier may
be given the point, it still may. -/
def Onward (seg : String) (b : Nat) (s s' : Assembler) : Prop :=
  s'.curseg = s.curseg ∧ ∀ k < b, Clear seg (noname k) s → Clear seg (noname k) s'

theorem Onward.trans {seg : String} {s'' : Assembler} (h : Onward seg b s s')
    (h' : Onward seg b s' s'') : Onward seg b s s'' :=
  ⟨h'.1.trans h.1, fun k hk => h'.2 k hk ∘ h.2 k hk⟩

theorem Grows.onward (h : Grows s s') (seg : String) : Onward seg b s s' := by
  refine ⟨h.curseg, fun k _ hc x' hx' hleads => ?_⟩
  obtain ⟨x, hx, -, hm, -⟩ := h.segment seg x' hx'
  obtain ⟨n, hn, hpath⟩ := hleads
  have hpaths : s'.store.LeadsTo = s.store.LeadsTo := leadsTo_congr fun m => by rw [h.name]
  rw [hpaths] at hpath
  exact hc x hx ⟨n, hm n hn, hpath⟩

theorem onward_dropPendingAlignment (seg : String) (s : Assembler) :
    Goes (dropPendingAlignment seg) (fun _ s' => Onward seg b s s') s := by
  refine goes_getSegment fun x hx => goes_setSegment ⟨rfl, fun k _ hc x' hx' => ?_⟩
  obtain rfl := Option.some.inj ((segments_withSegment _ _ _).symm.trans hx')
  exact hc x hx

/-- Neither the segments nor the values of the names change. -/
structure Framed (s s' : Assembler) : Prop where
  curseg : s'.curseg = s.curseg
  segments : s'.segments = s.segments
  val : ∀ n, s'.val n = s.val n

theorem setDefined_goes (np : NameId) (s : Assembler) :
    Goes (setDefined np) (fun _ s' => Framed s s') s :=
  goes_modify ⟨rfl, rfl, fun _ => rfl⟩

theorem setAlign_goes (np : NameId) (align : Word) (s : Assembler) :
    Goes (setAlign np align) (fun _ s' => Framed s s') s := by
  refine goes_modify ⟨rfl, rfl, fun n => ?_⟩
  by_cases hn : n = np
  · subst hn
    simp [Assembler.val, Assembler.withName, Assembler.withStore, Assembler.store]
  · exact congrArg Name.val (Function.update_of_ne hn _ _)

/-- A fresh name is given the point, and the point becomes the name: it leads where it led. -/
theorem onward_place (fuel : Nat) (seg : String) (s : Assembler) : Goes (do
    let np ← tableAddNoname
    let x ← getSegment seg
    nameAssignValue fuel np x.point
    setAlign np x.pendingAlignment
    setDefined np
    let _ ← setSegment seg { x with point := .name np }
    dropPendingAlignment seg) (fun _ s' => Onward seg s.nonames s s') s := by
  refine .bind ((tableAddNoname_goes s).mono fun np s₁ h => ?_)
  obtain ⟨rfl, -, -, hname, hsegs, -, hcur⟩ := h
  refine goes_getSegment fun x hx => .bind ((nameAssignValue_goes _ _ _ _).mono fun _ s₂ h => ?_)
  obtain ⟨m, errors, v, hm, rfl, hv, -⟩ := h
  refine .bind ((setAlign_goes _ _ _).mono fun _ s₃ h₃ => .bind ?_)
  refine (setDefined_goes _ _).mono fun _ s₄ h₄ => .bind (goes_setSegment ?_)
  have hval : ∀ n, s₄.val n = ((s₁.store.setVal (noname s.nonames) v).name n).val := by
    intro n
    rw [h₄.val, h₃.val, Assembler.val, store_assigned hm]
  have hcur₄ : s₄.curseg = s.curseg := by rw [h₄.curseg, h₃.curseg, ← hcur]; rfl
  refine (onward_dropPendingAlignment seg _).mono fun _ s' => .trans ⟨hcur₄, ?_⟩
  rintro k hk hc y hy hleads
  obtain rfl := Option.some.inj ((segments_withSegment _ _ _).symm.trans hy)
  have hne : noname k ≠ noname s.nonames := fun h => hk.ne (noname_inj h)
  -- what led to the name before did so without the fresh one
  have hold : ∀ e, s₁.store.Leads e (noname k) → s.store.Leads e (noname k) := fun e =>
    leads_mono fun n w hw => by
      rw [hname, Function.update_apply] at hw
      split at hw
      · cases hw
      · exact hw
  have hlead : (s₁.store.setVal (noname s.nonames) v).Leads (.name (noname s.nonames)) (noname k) := by
    rw [Store.Leads, ← leadsTo_congr hval]
    exact hleads
  rcases leads_setVal hlead with h | h
  · obtain ⟨n, rfl, hpath⟩ := h
    rcases hpath.cases_head with heq | ⟨c, ⟨w, hw, -⟩, -⟩
    · exact hne heq.symm
    · rw [hname, Function.update_self] at hw
      cases hw
  · rcases hv with rfl | rfl
    · exact hc x (hsegs ▸ hx) (hold _ h)
    · obtain ⟨n, hn, -⟩ := h
      exact hn.elim

theorem onward_flushAlignment (fuel : Nat) (seg : String) (s : Assembler) :
    Goes (flushAlignment fuel seg) (fun _ s' => Onward seg s.nonames s s') s := by
  refine .bind ((growsBy_getSegment seg s).mono fun x s₁ h₁ => ?_)
  split
  · refine .bind ((growsBy_getSegment seg s₁).mono fun x s₂ h₂ => ?_)
    refine .bind (goes_ofOption (by simp) fun filler _ => ?_)
    refine .bind ((emitAlign_grows _ _ _ _ s₂).mono fun placed s₃ h₃ => ?_)
    have hg := h₁.trans (h₂.trans h₃)
    cases placed with
    | true =>
        refine (onward_place fuel seg s₃).mono fun _ s₄ h₄ => (hg.onward seg).trans ?_
        rwa [hg.nonames] at h₄
    | false => exact (onward_dropPendingAlignment seg s₃).mono fun _ _ => (hg.onward seg).trans
  · exact goes_pure (h₁.onward seg)

theorem aligned_goes (fuel : Nat) (s : Assembler) : Goes (aligned fuel) (fun seg s' =>
    s'.curseg = seg ∧ Kept s.nonames s s' ∧
      ∀ k < s.nonames, Clear s.curseg (noname k) s → Clear seg (noname k) s') s :=
  .bind (.bind (goes_get (goes_pure (.bind (((onward_flushAlignment fuel s.curseg s).and
    (steady_flushAlignment fuel s.curseg s le_rfl)).mono fun _ _ h =>
      goes_pure ⟨h.1.1, h.2, h.1.2⟩)))))

/-! ### One action -/

/-- What holds of the names that wait for a label: each was made for one digit, and has no value. -/
structure Inv (s : Assembler) : Prop where
  pending : ∀ d np, s.forwlab d = some np → ∃ k < s.nonames, np = noname k ∧
    s.store.name np = nameAlloc
  apart : ∀ d d' np, s.forwlab d = some np → s.forwlab d' = some np → d = d'

theorem Inv.kept (hs : Inv s) (h : Kept s.nonames s s') : Inv s' where
  pending d np hd := by
    obtain ⟨k, hk, rfl, hn⟩ := hs.pending d np (h.forwlab ▸ hd)
    exact ⟨k, hk.trans_le h.nonames, rfl, (h.name k hk).trans hn⟩
  apart d d' np hd hd' := hs.apart d d' np (h.forwlab ▸ hd) (h.forwlab ▸ hd')

/-- The label of a reference backwards is there, and a label stands where its waiting name may be
given the point. -/
def Action.Proper (s : Assembler) : Action → Prop
  | .digrefB d => (s.backlab d).isSome
  | .digLabel d => ∀ np, s.forwlab d = some np → Clear s.curseg np s
  | _ => True

theorem digrefB_goes (fuel : Nat) (d : Fin 10) {e : Expr} (he : s.backlab d = some e) :
    Goes ((Action.digrefB d).exec fuel)
      (fun _ s' => Kept s.nonames s s' ∧ s'.values = e :: s.values) s := by
  refine .bind (goes_get (.bind ?_))
  rw [he]
  exact goes_pure (goes_modify ⟨kept_frame rfl rfl rfl rfl, rfl⟩)

/-- A reference forwards takes the name that waits, or lets a fresh one wait. -/
theorem digrefF_goes (fuel : Nat) (d : Fin 10) (hs : Inv s) :
    Goes ((Action.digrefF d).exec fuel) (fun _ s' => Inv s' ∧ s.nonames ≤ s'.nonames ∧
      (∀ k < s.nonames, s'.store.name (noname k) = s.store.name (noname k)) ∧
      s'.backlab = s.backlab ∧ (∀ d', d' ≠ d → s'.forwlab d' = s.forwlab d') ∧
      ∃ k < s'.nonames, s'.forwlab d = some (noname k) ∧
        s'.values = .name (noname k) :: s.values ∧
        ∀ np, s.forwlab d = some np → np = noname k) s := by
  refine .bind (goes_get ?_)
  split
  · next np hd =>
      obtain ⟨k, hk, rfl, -⟩ := hs.pending d np hd
      exact goes_modify ⟨hs.kept (kept_frame rfl rfl rfl rfl), le_rfl, fun _ _ => rfl, rfl,
        fun _ _ => rfl, k, hk, hd, rfl, fun _ h => Option.some.inj (h.symm.trans hd)⟩
  · next hd =>
      refine .bind ((tableAddNoname_goes s).mono fun np s₁ h => ?_)
      obtain ⟨rfl, hk, hn, hname, -, hvalues, -⟩ := h
      have hs₁ := hs.kept hk
      refine .bind (goes_modify (goes_modify ⟨⟨fun d' np hd' => ?_, fun d₁ d₂ np h₁ h₂ => ?_⟩,
        hk.nonames, hk.name, hk.backlab, fun d' hd' => ?_, s.nonames, hn ▸ Nat.lt_succ_self _,
        Function.update_self _ _ _, congrArg _ hvalues, by simp [hd]⟩))
      · change Function.update s₁.forwlab d _ d' = some np at hd'
        rw [Function.update_apply] at hd'
        split at hd'
        · obtain rfl := Option.some.inj hd'
          exact ⟨s.nonames, hn ▸ Nat.lt_succ_self _, rfl, by
            rw [Assembler.store] at hname
            exact (congrFun hname _).trans (Function.update_self _ _ _)⟩
        · exact hs₁.pending d' np hd'
      · -- nobody waited for the fresh name
        have hnew : ∀ d', s₁.forwlab d' ≠ some (noname s.nonames) := fun d' hd' => by
          obtain ⟨k, hk', hkn, -⟩ := hs.pending d' _ (hk.forwlab ▸ hd')
          exact hk'.ne (noname_inj hkn.symm)
        change Function.update s₁.forwlab d _ d₁ = some np at h₁
        change Function.update s₁.forwlab d _ d₂ = some np at h₂
        rw [Function.update_apply] at h₁ h₂
        split at h₁
        · next hd₁ =>
            split at h₂
            · next hd₂ => exact hd₁.trans hd₂.symm
            · exact absurd (h₂.trans h₁.symm) (hnew d₂)
        · split at h₂
          · exact absurd (h₁.trans h₂.symm) (hnew d₁)
          · exact hs₁.apart d₁ d₂ np h₁ h₂
      · exact (Function.update_of_ne hd' _ _).trans (congrFun hk.forwlab d')

/-- A label gives its address to the name that waits for it, and nobody waits then. -/
theorem digLabel_goes (fuel : Nat) (d : Fin 10) (hs : Inv s)
    (hp : (Action.digLabel d).Proper s) :
    Goes ((Action.digLabel d).exec fuel) (fun _ s' => Inv s' ∧ s.nonames ≤ s'.nonames ∧
      (∀ k < s.nonames, s.forwlab d ≠ some (noname k) →
        s'.store.name (noname k) = s.store.name (noname k)) ∧
      s'.forwlab = Function.update s.forwlab d none ∧
      ∃ x, s'.segments s'.curseg = some x ∧
        s'.backlab = Function.update s.backlab d (some x.point) ∧
        ∀ np, s.forwlab d = some np →
          s'.store.name np = { nameAlloc with val := some x.point }) s := by
  refine .bind ((aligned_goes fuel s).mono fun seg s₁ h₁ => ?_)
  obtain ⟨rfl, hk, hclear⟩ := h₁
  have hs₁ := hs.kept hk
  refine goes_getSegment fun x hx => .bind (goes_modify (.bind (goes_get ?_)))
  split
  · next np hd =>
      have hd' : s.forwlab d = some np := hk.forwlab ▸ hd
      obtain ⟨k, hk', rfl, -⟩ := hs.pending d np hd'
      obtain ⟨-, -, -, hname⟩ := hs₁.pending d _ hd
      have hno : ¬s₁.store.Leads x.point (noname k) := hclear k hk' (hp _ hd') x hx
      refine .bind ((nameAssignValue_goes _ _ _ _).mono fun _ s₄ h₄ => ?_)
      obtain ⟨m, errors, v, hm, rfl, -, hv⟩ := h₄
      obtain rfl : v = x.point := hv (fun h => hno (leads_of_mentioned h))
        ((congrArg (fun n : Name => (1 : Word).slt n.align) hname).trans (by decide))
      refine .bind (goes_modify (goes_modify ?_))
      have hother : ∀ l, noname l ≠ noname k → Function.update m.store.name (noname k)
          { s₁.store.name (noname k) with val := some x.point } (noname l)
            = s₁.store.name (noname l) := fun l hl =>
        (Function.update_of_ne hl _ _).trans (congrArg (fun st => Store.name st _) hm)
      refine ⟨⟨fun d' np hnp => ?_, fun d₁ d₂ np h₁ h₂ => ?_⟩, hk.nonames, fun l hl hne => ?_, ?_,
        x, hx, ?_, fun np hnp => ?_⟩
      · change Function.update s₁.forwlab d none d' = some np at hnp
        rw [Function.update_apply] at hnp
        split at hnp
        · cases hnp
        · next hne =>
            obtain ⟨l, hl, rfl, hn⟩ := hs₁.pending d' np hnp
            exact ⟨l, hl, rfl, (hother l fun h => hne (hs₁.apart d' d _ hnp (h ▸ hd))).trans hn⟩
      · change Function.update s₁.forwlab d none d₁ = some np at h₁
        change Function.update s₁.forwlab d none d₂ = some np at h₂
        rw [Function.update_apply] at h₁ h₂
        split at h₁
        · cases h₁
        · split at h₂
          · cases h₂
          · exact hs₁.apart d₁ d₂ np h₁ h₂
      · have hlk : noname l ≠ noname k := fun h => hne (h ▸ hd')
        exact (hother l hlk).trans (hk.name l hl)
      · exact congrArg (Function.update · d none) hk.forwlab
      · exact congrArg (Function.update · d _) hk.backlab
      · obtain rfl : noname k = np := Option.some.inj (hd'.symm.trans hnp)
        refine (Function.update_self _ _ _).trans ?_
        exact congrArg (fun n : Name => { n with val := some x.point }) hname
  · next hd =>
      change s₁.forwlab d = none at hd
      refine goes_pure ⟨⟨hs₁.pending, hs₁.apart⟩, hk.nonames, fun k hk' _ => hk.name k hk', ?_, x,
        hx, ?_, ?_⟩
      · rw [← hk.forwlab, ← hd, Function.update_eq_self]
      · rw [← hk.backlab]
      · rw [← hk.forwlab]
        simp [hd]

/-- What a proper action does to the labels. -/
structure Step (a : Action) (s s' : Assembler) : Prop where
  inv : Inv s'
  nonames : s.nonames ≤ s'.nonames
  name : ∀ k < s.nonames, (∀ d, a = .digLabel d → s.forwlab d ≠ some (noname k)) →
    s'.store.name (noname k) = s.store.name (noname k)
  backlab : ∀ d, a ≠ .digLabel d → s'.backlab d = s.backlab d
  forwlab : ∀ d, a ≠ .digLabel d → a ≠ .digrefF d → s'.forwlab d = s.forwlab d
  label : ∀ d, a = .digLabel d → s'.forwlab d = none ∧ ∃ x, s'.segments s'.curseg = some x ∧
    s'.backlab d = some x.point ∧
    ∀ np, s.forwlab d = some np → s'.store.name np = { nameAlloc with val := some x.point }
  backward : ∀ d, a = .digrefB d → ∃ e, s.backlab d = some e ∧ s'.values = e :: s.values
  forward : ∀ d, a = .digrefF d → ∃ k < s'.nonames, s'.forwlab d = some (noname k) ∧
    s'.values = .name (noname k) :: s.values ∧ ∀ np, s.forwlab d = some np → np = noname k

theorem exec_goes (fuel : Nat) {a : Action} (hs : Inv s) (hp : a.Proper s) :
    Goes (a.exec fuel) (fun _ s' => Step a s s') s := by
  have hplain : a.Plain → Goes (a.exec fuel) (fun _ s' => Step a s s') s := fun ha =>
    (exec_steady fuel ha s le_rfl).mono fun _ s' h =>
      ⟨hs.kept h, h.nonames, fun k hk _ => h.name k hk, fun d _ => congrFun h.backlab d,
        fun d _ _ => congrFun h.forwlab d, fun d hd => by subst hd; exact ha.elim,
        fun d hd => by subst hd; exact ha.elim, fun d hd => by subst hd; exact ha.elim⟩
  cases a with
  | digrefB d =>
      obtain ⟨e, he⟩ := Option.isSome_iff_exists.mp hp
      refine (digrefB_goes fuel d he).mono fun _ s' h => ?_
      refine ⟨hs.kept h.1, h.1.nonames, fun k hk _ => h.1.name k hk,
        fun d _ => congrFun h.1.backlab d, fun d _ _ => congrFun h.1.forwlab d, ?_, ?_, ?_⟩
      · rintro d' ⟨⟩
      · rintro d' ⟨⟩
        exact ⟨e, he, h.2⟩
      · rintro d' ⟨⟩
  | digrefF d =>
      refine (digrefF_goes fuel d hs).mono fun _ s' h => ?_
      obtain ⟨hs', hn, hname, hb, hf, hk⟩ := h
      refine ⟨hs', hn, fun k hk _ => hname k hk, fun d' _ => congrFun hb d',
        fun d' _ hd => hf d' fun h => hd (by rw [h]), ?_, ?_, ?_⟩
      · rintro d' ⟨⟩
      · rintro d' ⟨⟩
      · rintro d' ⟨⟩
        exact hk
  | digLabel d =>
      refine (digLabel_goes fuel d hs hp).mono fun _ s' h => ?_
      obtain ⟨hs', hn, hname, hf, x, hx, hb, hv⟩ := h
      refine ⟨hs', hn, fun k hk hd => hname k hk (hd d rfl), fun d' hd => ?_, fun d' hd _ => ?_,
        ?_, ?_, ?_⟩
      · rw [hb, Function.update_of_ne fun h => hd (by rw [h])]
      · rw [hf, Function.update_of_ne fun h => hd (by rw [h])]
      · rintro d' ⟨⟩
        exact ⟨by rw [hf, Function.update_self], x, hx, by rw [hb, Function.update_self], hv⟩
      · rintro d' ⟨⟩
      · rintro d' ⟨⟩
  | _ => exact hplain trivial

/-! ### Runs -/

/-- Every action of the run is proper in the state it starts from. -/
def ProperRun (fuel : Nat) (answers : Nat → Bool) (as : List Action) : Prop :=
  ∀ pre a post s, as = pre ++ a :: post → Assembler.run fuel answers pre = .ok s → a.Proper s

section Runs

variable {fuel : Nat} {answers : Nat → Bool} {as : List Action}

theorem ProperRun.of_append {bs : List Action} (h : ProperRun fuel answers (as ++ bs)) :
    ProperRun fuel answers as := fun pre a post s has hrun =>
  h pre a (post ++ bs) s (by rw [has, List.append_assoc, List.cons_append]) hrun

/-- How a computation ends. -/
theorem Goes.ended {α : Type} {x : Emission α} {Q : α → Assembler → Prop} (h : Goes x Q s) :
    (x s).1.map (·.2) ≠ .error .null ∧ ∀ s', (x s).1.map (·.2) = .ok s' → ∃ a, Q a s' := by
  unfold Goes Ensures at h
  rcases hx : x s with ⟨e | ⟨a, s'⟩, log⟩ <;> rw [hx] at h
  · exact ⟨fun he => h (by simp) (Except.error.inj he), by rintro _ ⟨⟩⟩
  · exact ⟨by rintro ⟨⟩, fun s'' hs => ⟨a, Except.ok.inj hs ▸ h (by simp)⟩⟩

/-- Before the first action. -/
theorem inv_empty : Inv (Assembler.empty answers) where
  pending _ _ hd := by cases hd
  apart _ _ _ hd := by cases hd

theorem goes_nil : Goes (Assembler.program fuel []) (fun _ s => Inv s ∧
    Kept 0 (Assembler.empty answers) s) (Assembler.empty answers) :=
  (((steady_newSegment "head").bind fun _ => steady_pure ()) _ le_rfl).mono fun _ _ h =>
    ⟨inv_empty.kept h, h⟩

/-- A proper run does not follow a null pointer, and the invariant holds where it ends. -/
theorem ProperRun.goes (h : ProperRun fuel answers as) :
    Assembler.run fuel answers as ≠ .error .null ∧
      ∀ s, Assembler.run fuel answers as = .ok s → Inv s := by
  induction as using List.reverseRecOn with
  | nil =>
      exact ⟨goes_nil.ended.1, fun s hs => (goes_nil.ended.2 s hs).elim fun _ h => h.1⟩
  | append_singleton as a ih =>
      obtain ⟨hnull, hinv⟩ := ih h.of_append
      rw [run_append]
      rcases hrun : Assembler.run fuel answers as with e | s
      · refine ⟨fun he => hnull ?_, fun s hs => by cases hs⟩
        rw [hrun]
        exact congrArg _ (Except.error.inj he)
      · have hgoes := exec_goes fuel (hinv s hrun) (h as a [] s rfl hrun)
        exact ⟨hgoes.ended.1, fun s' hs' => (hgoes.ended.2 s' hs').elim fun _ h => h.inv⟩

/-- The last action of a run. -/
theorem ProperRun.step {a : Action} (h : ProperRun fuel answers (as ++ [a]))
    (hrun : Assembler.run fuel answers (as ++ [a]) = .ok s') :
    ∃ s, Assembler.run fuel answers as = .ok s ∧ Inv s ∧ Step a s s' := by
  rw [run_append] at hrun
  rcases hs : Assembler.run fuel answers as with e | s <;> rw [hs] at hrun
  · cases hrun
  · have hinv := h.of_append.goes.2 s hs
    have hgoes := exec_goes fuel hinv (h as a [] s rfl hs)
    exact ⟨s, rfl, hinv, (hgoes.ended.2 s' hrun).elim fun _ h => h⟩

/-- The label that a digit refers back to. -/
theorem ProperRun.backlab (h : ProperRun fuel answers as)
    (hrun : Assembler.run fuel answers as = .ok s) {d : Fin 10} (hd : s.backlab d = some e) :
    ∃ pre mid s₁ x, as = pre ++ .digLabel d :: mid ∧ .digLabel d ∉ mid ∧
      Assembler.run fuel answers (pre ++ [.digLabel d]) = .ok s₁ ∧
      s₁.segments s₁.curseg = some x ∧ x.point = e := by
  induction as using List.reverseRecOn generalizing s with
  | nil =>
      obtain ⟨-, -, hk⟩ := goes_nil.ended.2 s hrun
      rw [hk.backlab] at hd
      cases hd
  | append_singleton as a ih =>
      obtain ⟨s₀, hrun₀, -, hstep⟩ := h.step hrun
      by_cases ha : a = .digLabel d
      · subst ha
        obtain ⟨-, x, hx, hb, -⟩ := hstep.label d rfl
        exact ⟨as, [], s, x, rfl, by simp, hrun, hx, Option.some.inj (hb.symm.trans hd)⟩
      · obtain ⟨pre, mid, s₁, x, rfl, hmid, hs₁⟩ :=
          ih h.of_append hrun₀ ((hstep.backlab d ha).symm.trans hd)
        exact ⟨pre, mid ++ [a], s₁, x, by simp, by simp [hmid, Ne.symm ha], hs₁⟩

/-- The name that a reference forwards got waits until the label comes. -/
theorem ProperRun.waits {pre mid : List Action} {d : Fin 10}
    (h : ProperRun fuel answers (pre ++ .digrefF d :: mid)) (hmid : .digLabel d ∉ mid)
    (hrun : Assembler.run fuel answers (pre ++ .digrefF d :: mid) = .ok s) :
    ∃ s₁ k, Assembler.run fuel answers (pre ++ [.digrefF d]) = .ok s₁ ∧
      s₁.values.head? = some (.name (noname k)) ∧ s.forwlab d = some (noname k) := by
  induction mid using List.reverseRecOn generalizing s with
  | nil =>
      obtain ⟨s₀, -, -, hstep⟩ := h.step hrun
      obtain ⟨k, -, hf, hv, -⟩ := hstep.forward d rfl
      exact ⟨s, k, hrun, by rw [hv]; rfl, hf⟩
  | append_singleton mid a ih =>
      have happ : pre ++ .digrefF d :: (mid ++ [a]) = (pre ++ .digrefF d :: mid) ++ [a] := by simp
      rw [happ] at h hrun
      obtain ⟨s₀, hrun₀, hinv, hstep⟩ := h.step hrun
      obtain ⟨s₁, k, hs₁, hv, hf⟩ := ih h.of_append (fun hm => hmid (List.mem_append_left _ hm)) hrun₀
      refine ⟨s₁, k, hs₁, hv, ?_⟩
      by_cases ha : a = .digrefF d
      · subst ha
        obtain ⟨k', -, hf', -, hk⟩ := hstep.forward d rfl
        rw [hf', hk _ hf]
      · rw [hstep.forwlab d (by rintro rfl; simp at hmid) ha, hf]

/-- A name that a label has been given keeps it. -/
theorem ProperRun.value {bs : List Action} (h : ProperRun fuel answers (as ++ bs))
    (hrun : Assembler.run fuel answers as = .ok s)
    (hrun' : Assembler.run fuel answers (as ++ bs) = .ok s') {k : Nat} (hk : k < s.nonames)
    (hv : s.val (noname k) ≠ none) :
    s'.store.name (noname k) = s.store.name (noname k) ∧ k < s'.nonames := by
  induction bs using List.reverseRecOn generalizing s' with
  | nil =>
      rw [List.append_nil, hrun] at hrun'
      cases hrun'
      exact ⟨rfl, hk⟩
  | append_singleton bs a ih =>
      rw [← List.append_assoc] at h hrun'
      obtain ⟨s₀, hrun₀, hinv, hstep⟩ := h.step hrun'
      obtain ⟨hname, hlt⟩ := ih h.of_append hrun₀
      refine ⟨(hstep.name k hlt fun d _ hd => ?_).trans hname, hlt.trans_le hstep.nonames⟩
      -- a name that waits for its label has no value
      obtain ⟨-, -, -, hn⟩ := hinv.pending d _ hd
      exact hv ((congrArg Name.val hname).symm.trans (congrArg Name.val hn))

/-- The digits that wait are those with a reference after their last label. -/
theorem ProperRun.hanging (h : ProperRun fuel answers as)
    (hrun : Assembler.run fuel answers as = .ok s) (d : Fin 10) :
    d ∈ s.hanging ↔ ∃ pre mid, as = pre ++ .digrefF d :: mid ∧ .digLabel d ∉ mid := by
  rw [Assembler.hanging, List.mem_filter, and_iff_right (List.mem_finRange d)]
  constructor
  · intro hd
    induction as using List.reverseRecOn generalizing s with
    | nil =>
        obtain ⟨-, -, hk⟩ := goes_nil.ended.2 s hrun
        rw [hk.forwlab] at hd
        cases hd
    | append_singleton as a ih =>
        obtain ⟨s₀, hrun₀, -, hstep⟩ := h.step hrun
        by_cases hl : a = .digLabel d
        · rw [(hstep.label d hl).1] at hd
          cases hd
        by_cases hf : a = .digrefF d
        · exact ⟨as, [], by rw [hf], by simp⟩
        · rw [hstep.forwlab d hl hf] at hd
          obtain ⟨pre, mid, rfl, hmid⟩ := ih h.of_append hrun₀ hd
          exact ⟨pre, mid ++ [a], by simp, by simp [hmid, Ne.symm hl]⟩
  · rintro ⟨pre, mid, rfl, hmid⟩
    obtain ⟨-, k, -, -, hf⟩ := h.waits hmid hrun
    rw [hf]
    rfl

/-! ### Resolution -/

/-- Every reference denotes the address of the nearest label on its side; the run does not follow a
null pointer, and the digits that miss a label at the end are complained of. -/
structure Resolved (fuel : Nat) (answers : Nat → Bool) (as : List Action) : Prop where
  goesOn : ∀ pre, pre <+: as → Assembler.run fuel answers pre ≠ .error .null
  backward : ∀ pre d s, pre ++ [.digrefB d] <+: as →
    Assembler.run fuel answers (pre ++ [.digrefB d]) = .ok s →
    ∃ before mid s₁ x, pre = before ++ .digLabel d :: mid ∧ .digLabel d ∉ mid ∧
      Assembler.run fuel answers (before ++ [.digLabel d]) = .ok s₁ ∧
      s₁.segments s₁.curseg = some x ∧ s.values.head? = some x.point
  forward : ∀ pre d mid s s₁ s₂, pre ++ .digrefF d :: mid ++ [.digLabel d] <+: as →
    .digLabel d ∉ mid → Assembler.run fuel answers (pre ++ [.digrefF d]) = .ok s →
    Assembler.run fuel answers (pre ++ .digrefF d :: mid ++ [.digLabel d]) = .ok s₁ →
    Assembler.run fuel answers as = .ok s₂ →
    ∃ e x, s.values.head? = some e ∧ s₁.segments s₁.curseg = some x ∧
      ∀ ρ, s₂.store.Models ρ → e.value ρ true = x.point.value ρ true
  missing : ∀ s, Assembler.run fuel answers as = .ok s → ∀ d,
    (d ∈ s.hanging ↔ ∃ pre mid, as = pre ++ .digrefF d :: mid ∧ .digLabel d ∉ mid) ∧
      (d ∈ s.hanging → s.errors < s.endOfFile.errors)

/-- Where every action is proper the labels are resolved. -/
theorem resolved_of_proper (h : ProperRun fuel answers as) : Resolved fuel answers as where
  goesOn := by
    rintro pre ⟨post, rfl⟩
    exact h.of_append.goes.1
  backward := by
    rintro pre d s ⟨post, rfl⟩ hrun
    obtain ⟨s₀, hrun₀, -, hstep⟩ := h.of_append.step hrun
    obtain ⟨e, he, hv⟩ := hstep.backward d rfl
    obtain ⟨before, mid, s₁, x, hpre, hmid, hs₁, hx, hp⟩ := h.of_append.of_append.backlab hrun₀ he
    exact ⟨before, mid, s₁, x, hpre, hmid, hs₁, hx, by rw [hv, hp]; rfl⟩
  forward := by
    rintro pre d mid s s₁ s₂ ⟨post, rfl⟩ hmid hrun hrun₁ hrun₂
    obtain ⟨s₀, hrun₀, hinv, hstep⟩ := h.of_append.step hrun₁
    obtain ⟨s', k, hs', hv, hf⟩ := h.of_append.of_append.waits hmid hrun₀
    obtain rfl := Except.ok.inj (hs'.symm.trans hrun)
    obtain ⟨-, x, hx, -, hname⟩ := hstep.label d rfl
    obtain ⟨l, hl, hkl, -⟩ := hinv.pending d _ hf
    obtain rfl := noname_inj hkl
    have hn := hname _ hf
    obtain ⟨hn₂, -⟩ := h.value hrun₁ hrun₂ (hl.trans_le hstep.nonames) (by
      rw [Assembler.val, hn]
      simp)
    refine ⟨_, x, hv, hx, fun ρ hρ => hρ.name _ _ ?_⟩
    rw [Store.localVal, hn₂, hn]
    rfl
  missing s hrun d := ⟨h.hanging hrun d, fun hd => by
    have := List.length_pos_of_mem hd
    exact Nat.lt_add_of_pos_right this⟩

end Runs

/-- A run goes on properly. -/
theorem ProperRun.snoc {fuel : Nat} {answers : Nat → Bool} {as : List Action} {a : Action}
    (h : ProperRun fuel answers as)
    (ha : ∀ s, Assembler.run fuel answers as = .ok s → a.Proper s) :
    ProperRun fuel answers (as ++ [a]) := by
  rintro pre c post s has hrun
  rcases List.eq_nil_or_concat post with rfl | ⟨post, z, rfl⟩
  · obtain ⟨rfl, hc⟩ := List.append_inj' has rfl
    obtain rfl := List.singleton_inj.mp hc
    exact ha s hrun
  · rw [List.concat_eq_append, ← List.cons_append, ← List.append_assoc] at has
    exact h pre c post s (List.append_inj' has rfl).1 hrun

/-- `1f`, a label that is defined twice, `1:` and `1b`. -/
theorem resolved_of_proper_between :
    ProperRun 3 (fun _ => true) [.digrefF 1, .label 0, .label 0, .digLabel 1, .digrefB 1] ∧
      Resolved 3 (fun _ => true) [.digrefF 1, .label 0, .label 0, .digLabel 1, .digrefB 1] := by
  have h0 : ProperRun 3 (fun _ => true) [] := by
    rintro pre a post s has
    simp at has
  have h : ProperRun 3 (fun _ => true) [.digrefF 1, .label 0, .label 0, .digLabel 1, .digrefB 1] := by
    refine ((((h0.snoc (a := .digrefF 1) ?_).snoc (a := .label 0) ?_).snoc (a := .label 0) ?_).snoc
      (a := .digLabel 1) ?_).snoc (a := .digrefB 1) ?_
    · exact fun _ _ => trivial
    · exact fun _ _ => trivial
    · exact fun _ _ => trivial
    · rintro s hs np hnp x hx
      obtain rfl := Except.ok.inj hs
      obtain rfl := Option.some.inj hnp
      obtain rfl := Option.some.inj hx
      exact @not_leads _ _ _ 3 rfl
    · rintro s hs
      obtain rfl := Except.ok.inj hs
      rfl
  exact ⟨h, resolved_of_proper h⟩

/-- A reference back to a label that is not there. -/
theorem run_digrefB {fuel : Nat} {answers : Nat → Bool} {as : List Action} {d : Fin 10}
    (hrun : Assembler.run fuel answers as = .ok s) (hd : s.backlab d = none) :
    Assembler.run fuel answers (as ++ [.digrefB d]) = .error .null := by
  rw [run_append, hrun]
  show (((Action.digrefB d).exec fuel s).1.map (·.2)) = .error .null
  have : (Action.digrefB d).exec fuel s = (ofOption Halt.null (s.backlab d) >>= push) s := rfl
  rw [this, hd]
  rfl

theorem digrefB_not_resolved : ¬Resolved 1 (fun _ => true) [.digrefB 1] := fun h =>
  h.goesOn [.digrefB 1] (List.prefix_refl _) (run_digrefB (show Assembler.run 1 (fun _ => true) [] = .ok _ from rfl) rfl)

end Ttools.Asm
