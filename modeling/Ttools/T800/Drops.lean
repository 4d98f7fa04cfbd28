import Ttools.T800.Swaps

/-!
# Drops

`t800_emit_drops` looks at both stacks but emits insns of the integer stack only.

* `dropStack_bottom`: what is at the bottom is forgotten.
* `dropStack_abc`: any registers of the integer stack are dropped.
* `drops_right_iff`: the drops are right when those of the floating stack are at its bottom.
-/

namespace Ttools.T800

open List (Perm)
open Emitter (start)

variable {havePop : Bool} {e e₁ e₂ e' : Emitter} {st st' : Stack} {k : StackNo}
  {dropSet : Finset Nat} {l kept gone : List Nat} {v w x y z : Nat}

/-! ### What is dropped -/

/-- One stack has lost the registers that are to be dropped, and nothing else has changed. -/
structure Shed (dropSet : Finset Nat) (k : StackNo) (st st' : Stack) : Prop where
  perm : ∃ l, Perm (st'.regs k ++ l) (st.regs k) ∧ (∀ v ∈ st'.regs k, v ∉ dropSet) ∧
    (∀ v ∈ l, v ∈ dropSet) ∧ ∀ v, v ∈ st'.regSet ↔ v ∈ st.regSet ∧ v ∉ l
  other : ∀ k', k' ≠ k → st'.regs k' = st.regs k'
  mode : st'.mode = st.mode

theorem Shed.mem_iff (h : Shed dropSet k st st') :
    v ∈ st'.regs k ↔ v ∈ st.regs k ∧ v ∉ dropSet := by
  obtain ⟨l, hperm, hkept, hgone, -⟩ := h.perm
  rw [← hperm.mem_iff, List.mem_append]
  constructor
  · exact fun hv => ⟨.inl hv, hkept v hv⟩
  · rintro ⟨hv | hv, hnot⟩
    · exact hv
    · exact absurd (hgone v hv) hnot

theorem Shed.wellFormed (h : Shed dropSet k st st') (hwf : st.WellFormed) : st'.WellFormed := by
  obtain ⟨l, hperm, -, -, hregSet⟩ := h.perm
  have hlen : ∀ k', (st'.regs k').length ≤ 3 := fun k' => by
    by_cases hk : k' = k
    · have hle := hperm.length_eq.trans_le (hwf.length_le k)
      rw [List.length_append] at hle
      rw [hk]
      omega
    · rw [h.other k' hk]
      exact hwf.length_le k'
  have hnd := hwf.nodup
  have hl : ∀ v ∈ l, v ∉ st'.regs k := fun v hv hv' =>
    List.disjoint_of_nodup_append (hperm.nodup_iff.mpr (hwf.nodup_regs k)) hv' hv
  cases k with
  | abc =>
      have hother : st'.fabc = st.fabc := h.other .fabc (by simp)
      have hperm' : Perm (st'.abc ++ l) st.abc := hperm
      have hndall : (st'.abc ++ l ++ st'.fabc).Nodup := by
        rw [hother]
        exact (hperm'.append_right _).nodup_iff.mpr hnd
      refine ⟨hlen .abc, hlen .fabc, ?_, fun v => ?_⟩
      · exact hndall.sublist ((List.sublist_append_left _ _).append_right _)
      · have hdisj := List.disjoint_of_nodup_append hndall
        rw [hregSet, hwf.regSet, ← hperm'.mem_iff, ← hother, List.mem_append]
        have h₁ := hl v
        have h₂ := fun hv => hdisj (List.mem_append_right st'.abc hv) (a := v)
        simp only [Stack.regs] at h₁
        tauto
  | fabc =>
      have hother : st'.abc = st.abc := h.other .abc (by simp)
      have hperm' : Perm (st'.fabc ++ l) st.fabc := hperm
      have hndall : (st'.abc ++ (st'.fabc ++ l)).Nodup := by
        rw [hother]
        exact (hperm'.append_left _).nodup_iff.mpr hnd
      refine ⟨hlen .abc, hlen .fabc, ?_, fun v => ?_⟩
      · exact hndall.sublist ((List.sublist_append_left _ _).append_left _)
      · have hdisj := List.disjoint_of_nodup_append hndall
        rw [hregSet, hwf.regSet, ← hperm'.mem_iff, ← hother, List.mem_append]
        have h₁ := hl v
        have h₂ := fun hv hv' => hdisj (a := v) hv' (List.mem_append_right st'.fabc hv)
        simp only [Stack.regs] at h₁
        tauto

/-- What is to be dropped is at the bottom. -/
def BottomDropped (dropSet : Finset Nat) (l : List Nat) : Prop :=
  ∃ kept gone, l = kept ++ gone ∧ (∀ v ∈ kept, v ∉ dropSet) ∧ ∀ v ∈ gone, v ∈ dropSet

theorem shed_self (h : ∀ v ∈ st.regs k, v ∉ dropSet) : Shed dropSet k st st :=
  ⟨⟨[], by simp, h, by simp, by simp⟩, fun _ _ => rfl, rfl⟩

/-- `bottom_drop` forgets what is to be dropped. -/
theorem shed_bottomDrop {n : Nat} (hkept : ∀ v ∈ (e.st.regs k).take n, v ∉ dropSet)
    (hgone : ∀ v ∈ (e.st.regs k).drop n, v ∈ dropSet) :
    Shed dropSet k e.st (bottomDrop k n e).st := by
  refine ⟨⟨(e.st.regs k).drop n, ?_, ?_, hgone, fun v => ?_⟩, fun k' hk => ?_, ?_⟩
  · rw [bottomDrop, Stack.regs_withRegs, List.take_append_drop]
  · rwa [bottomDrop, Stack.regs_withRegs]
  · cases k <;> simp [bottomDrop, Stack.withRegs, Finset.mem_sdiff]
  · cases k <;> cases k' <;> first | rfl | exact absurd rfl hk
  · cases k <;> rfl

theorem Shed.of_withRegs (h : Shed dropSet k (st.withRegs l k) st') (hperm : Perm l (st.regs k)) :
    Shed dropSet k st st' := by
  obtain ⟨⟨gone, hgone, hrest⟩, hother, hmode⟩ := h
  rw [Stack.regs_withRegs] at hgone
  refine ⟨⟨gone, hgone.trans hperm, ?_⟩, fun k' hk => (hother k' hk).trans ?_, hmode.trans ?_⟩
  · cases k <;> exact hrest
  · cases k <;> cases k' <;> first | rfl | exact absurd rfl hk
  · cases k <;> rfl

theorem Shed.of_popped (h : Shed dropSet k (st.popped k x l) st') (hx : x ∈ dropSet)
    (hregs : st.regs k = x :: l) : Shed dropSet k st st' := by
  obtain ⟨⟨gone, hperm, hkept, hgone, hregSet⟩, hother, hmode⟩ := h
  rw [Stack.regs_popped, if_pos rfl] at hperm
  refine ⟨⟨x :: gone, ?_, hkept, ?_, fun v => ?_⟩, fun k' hk => (hother k' hk).trans ?_,
    hmode.trans (Stack.mode_popped _)⟩
  · rw [hregs]
    exact List.perm_middle.trans (hperm.cons x)
  · exact List.forall_mem_cons.mpr ⟨hx, hgone⟩
  · rw [hregSet, Stack.regSet_popped, Finset.mem_erase, List.mem_cons, not_or]
    tauto
  · rw [Stack.regs_popped, if_neg hk]

/-! ### One stack -/

theorem dropBit_append (hkept : ∀ v ∈ kept, v ∉ dropSet) (hgone : ∀ v ∈ gone, v ∈ dropSet)
    (i : Nat) : dropBit dropSet (kept ++ gone) i = decide (kept.length ≤ i) := by
  unfold dropBit
  by_cases hi : i < kept.length
  · have hnot := hkept kept[i] (List.getElem_mem hi)
    rw [List.getElem?_append_left hi, List.getElem?_eq_getElem hi]
    simp [hnot, hi]
  · rw [List.getElem?_append_right (not_lt.mp hi)]
    have hle : kept.length ≤ i := not_lt.mp hi
    cases h : gone[i - kept.length]? with
    | none => simp [hle]
    | some v => simp [hgone v (List.mem_of_getElem? h), hle]

/-- Registers at the bottom are forgotten without an insn. -/
theorem dropStack_bottom (havePop : Bool) (h : BottomDropped dropSet (e.st.regs k))
    (hl : (e.st.regs k).length ≤ 3) :
    ∃ e', dropStack havePop dropSet k e = some e' ∧ e'.out = e.out ∧
      Shed dropSet k e.st e'.st ∧ e'.st.regs k <+: e.st.regs k := by
  obtain ⟨kept, gone, hregs, hkept, hgone⟩ := h
  have hlen : kept.length ≤ 3 := by
    rw [hregs, List.length_append] at hl
    omega
  have hdrop : (e.st.regs k).drop kept.length = gone := by rw [hregs, List.drop_left]
  have htake : (e.st.regs k).take kept.length = kept := by rw [hregs, List.take_left]
  have hbit := dropBit_append hkept hgone
  rw [← hregs] at hbit
  by_cases hthree : kept.length = 3
  · have hself : ∀ v ∈ e.st.regs k, v ∉ dropSet := by
      have hnil : gone = [] := by
        rw [hregs, List.length_append] at hl
        exact List.eq_nil_of_length_eq_zero (by omega)
      rwa [hregs, hnil, List.append_nil]
    exact ⟨e, by simp [dropStack, hbit, hthree], rfl, shed_self hself, List.prefix_rfl⟩
  · refine ⟨bottomDrop k kept.length e, ?_, rfl, shed_bottomDrop ?_ ?_, ?_⟩
    · have hcases : kept.length = 0 ∨ kept.length = 1 ∨ kept.length = 2 := by omega
      obtain h | h | h := hcases <;> simp [dropStack, hbit, h]
    · rwa [htake]
    · rwa [hdrop]
    · rw [bottomDrop, Stack.regs_withRegs]
      exact List.take_prefix _ _

/-- The other three kinds of stacks: of two registers on top the first is dropped and the second
is kept, or the third is kept. -/
theorem not_bottomDropped (hl : l.length ≤ 3) (h : ¬BottomDropped dropSet l) :
    (∃ x y rest, l = x :: y :: rest ∧ x ∈ dropSet ∧ y ∉ dropSet ∧ ∀ v ∈ rest, v ∈ dropSet) ∨
      ∃ x y z, l = [x, y, z] ∧ z ∉ dropSet ∧ (x ∈ dropSet ∨ y ∈ dropSet) := by
  match l, hl with
  | [], _ => exact absurd ⟨[], [], rfl, by simp, by simp⟩ h
  | [x], _ =>
      by_cases hx : x ∈ dropSet
      · exact absurd ⟨[], [x], rfl, by simp, by simpa⟩ h
      · exact absurd ⟨[x], [], rfl, by simpa, by simp⟩ h
  | [x, y], _ =>
      by_cases hx : x ∈ dropSet
      · by_cases hy : y ∈ dropSet
        · exact absurd ⟨[], [x, y], rfl, by simp, by simp [hx, hy]⟩ h
        · exact .inl ⟨x, y, [], rfl, hx, hy, by simp⟩
      · by_cases hy : y ∈ dropSet
        · exact absurd ⟨[x], [y], rfl, by simpa, by simpa⟩ h
        · exact absurd ⟨[x, y], [], rfl, by simp [hx, hy], by simp⟩ h
  | [x, y, z], _ =>
      by_cases hz : z ∈ dropSet
      · by_cases hx : x ∈ dropSet
        · by_cases hy : y ∈ dropSet
          · exact absurd ⟨[], [x, y, z], rfl, by simp, by simp [hx, hy, hz]⟩ h
          · exact .inl ⟨x, y, [z], rfl, hx, hy, by simpa⟩
        · by_cases hy : y ∈ dropSet
          · exact absurd ⟨[x], [y, z], rfl, by simpa, by simp [hy, hz]⟩ h
          · exact absurd ⟨[x, y], [z], rfl, by simp [hx, hy], by simpa⟩ h
      · by_cases hxy : x ∈ dropSet ∨ y ∈ dropSet
        · exact .inr ⟨x, y, z, rfl, hz, hxy⟩
        · exact absurd ⟨[x, y, z], [], rfl, by simp_all, by simp⟩ h

/-- What has been emitted, and then what is forgotten. -/
def Forgets (e e' : Emitter) : Prop :=
  ∃ e₁, Leads (fun _ => True) e none none e₁ none none ∧ e'.out = e₁.out ∧
    e'.st.abc <+: e₁.st.abc ∧ e'.st.fabc = e₁.st.fabc

theorem Leads.forgets (h : Leads (fun _ => True) e none none e₁ none none) (h' : Forgets e₁ e') :
    Forgets e e' := by
  obtain ⟨e₂, hleads, hrest⟩ := h'
  exact ⟨e₂, h.trans hleads, hrest⟩

theorem forgets_bottomDrop {n : Nat} : Forgets e (bottomDrop .abc n e) :=
  ⟨e, .refl, rfl, List.take_prefix _ _, rfl⟩

/-- `case 0x101`: the second register is turned to the top and the rest is forgotten. -/
theorem drop101_abc {rest : List Nat} (havePop : Bool) (hregs : e.st.abc = x :: y :: rest)
    (hx : x ∈ dropSet) (hy : y ∉ dropSet) (hrest : ∀ v ∈ rest, v ∈ dropSet) :
    ∃ e', drop101 havePop .abc e = some e' ∧ Forgets e e' ∧ Shed dropSet .abc e.st e'.st := by
  have hrev : Emits havePop .abc (fun _ => True) [.rev] e none none _ none none := emits_rev hregs
  obtain ⟨new, hemit, hleads⟩ := hrev.leads rfl
  refine ⟨_, by rw [drop101, hemit]; rfl, hleads.forgets forgets_bottomDrop, ?_⟩
  have hperm : Perm (y :: x :: rest) (e.st.regs .abc) := by
    rw [Stack.regs, hregs]
    exact .swap _ _ _
  have hshed : Shed dropSet .abc (e.st.withRegs (y :: x :: rest) .abc)
      (bottomDrop .abc 1 { e with st := e.st.withRegs (y :: x :: rest) .abc, out := new }).st := by
    refine shed_bottomDrop
      (e := { e with st := e.st.withRegs (y :: x :: rest) .abc, out := new }) ?_ ?_
    · simpa [Stack.regs, Stack.withRegs] using hy
    · simpa [Stack.regs, Stack.withRegs] using ⟨hx, hrest⟩
  exact hshed.of_withRegs hperm

theorem dropBit_rest {rest : List Nat} (hl : l = x :: y :: rest)
    (hrest : ∀ v ∈ rest, v ∈ dropSet) : dropBit dropSet l 2 = true := by
  subst hl
  unfold dropBit
  split
  · rename_i v hv
    simpa using hrest v (List.mem_of_getElem? hv)
  · rfl

/-- Any registers of the integer stack are dropped. -/
theorem dropStack_abc (havePop : Bool) (dropSet : Finset Nat) (hl : e.st.abc.length ≤ 3) :
    ∃ e', dropStack havePop dropSet .abc e = some e' ∧ Forgets e e' ∧
      Shed dropSet .abc e.st e'.st := by
  by_cases hbottom : BottomDropped dropSet (e.st.regs .abc)
  · obtain ⟨e', hdrop, hout, hshed, hprefix⟩ := dropStack_bottom havePop hbottom hl
    exact ⟨e', hdrop, ⟨e, .refl, hout, hprefix, hshed.other .fabc (by simp)⟩, hshed⟩
  obtain ⟨x, y, rest, hregs, hx, hy, hrest⟩ | ⟨x, y, z, hregs, hz, hxy⟩ :=
    not_bottomDropped hl hbottom
  · change e.st.regs .abc = _ at hregs
    have hbit : dropBit dropSet (e.st.regs .abc) 2 = true := dropBit_rest hregs hrest
    obtain ⟨e', hdrop, hforgets, hshed⟩ := drop101_abc havePop hregs hx hy hrest
    refine ⟨e', ?_, hforgets, hshed⟩
    rw [← hdrop, dropStack, hbit]
    simp [dropBit, hregs, hx, hy]
  change e.st.regs .abc = _ at hregs
  have hregs' : e.st.abc = [x, y, z] := hregs
  by_cases hx : x ∈ dropSet
  · have hone : Emits havePop .abc (fun _ => True) [.drop] e none none _ none none :=
      emits_drop hregs'
    obtain ⟨new, hemit, hleads⟩ := hone.leads rfl
    by_cases hy : y ∈ dropSet
    · -- the second drop is a `rev`: what is below it is forgotten
      obtain ⟨e', hdrop, hforgets, hshed⟩ :=
        drop101_abc (e := { e with st := e.st.popped .abc x [y, z], out := new }) havePop rfl hy hz
          (by simp)
      refine ⟨e', ?_, hleads.forgets hforgets, hshed.of_popped hx hregs⟩
      simp [dropStack, dropBit, hregs, hx, hy, hz, hemit, hdrop]
    · refine ⟨_, ?_, hleads.forgets ⟨_, .refl, rfl, List.prefix_rfl, rfl⟩,
        Shed.of_popped (shed_self ?_) hx hregs⟩
      · simp [dropStack, dropBit, hregs, hx, hy, hz, hemit]
      · simpa [Stack.regs, Stack.popped, Stack.withRegs] using ⟨hy, hz⟩
  · have hy : y ∈ dropSet := hxy.resolve_left hx
    have htwo : Emits havePop .abc (fun _ => True) [.rev, .drop] e none none _ none none :=
      (emits_rev hregs').cons (emits_drop rfl)
    obtain ⟨new, hemit, hleads⟩ := htwo.leads rfl
    have hperm : Perm [y, x, z] (e.st.regs .abc) := by
      rw [hregs]
      exact .swap _ _ _
    refine ⟨_, ?_, hleads.forgets ⟨_, .refl, rfl, List.prefix_rfl, rfl⟩,
      Shed.of_withRegs (Shed.of_popped (shed_self ?_) hy rfl) hperm⟩
    · simp [dropStack, dropBit, hregs, hx, hy, hz, hemit]
    · simpa [Stack.regs, Stack.popped, Stack.withRegs] using ⟨hx, hz⟩

/-! ### Insns of the wrong stack -/

/-- The insn that drops the top of the integer stack. -/
def dropInsn (havePop : Bool) : Insn := if havePop then .pop else .stl (-5)

theorem emitControl_drop {is : List Insn} (h : emitControl havePop e .drop = some (is, e')) :
    is = [dropInsn havePop] := by
  cases hregs : e.st.abc with
  | nil => simp [emitControl, hregs] at h
  | cons v rest =>
      simp only [emitControl, hregs, Option.some.injEq, Prod.mk.injEq] at h
      exact h.1.symm

theorem emitControl_rev {is : List Insn} (h : emitControl havePop e .rev = some (is, e')) :
    is = [.rev] := by
  match hregs : e.st.abc with
  | [] | [_] => simp [emitControl, hregs] at h
  | _ :: _ :: _ =>
      simp only [emitControl, hregs, Option.some.injEq, Prod.mk.injEq] at h
      exact h.1.symm

/-- The strings of `t800_emit_drops` move what is on the integer stack. -/
theorem not_spares_fabc (havePop : Bool) {is : List Insn}
    (h : is = [dropInsn havePop] ∨ is = [.rev] ∨ is = [.rev, dropInsn havePop]) :
    ¬Spares .fabc is := by
  intro hspares
  let u : Junk := ⟨fun _ => 0, fun _ => .sf 0⟩
  let m : Machine := ⟨⟨0, 1, 2⟩, ⟨.sf 0, .sf 0, .sf 0⟩, 0, fun _ => 0⟩
  obtain rfl | rfl | rfl := h
  · cases havePop
    · exact absurd (hspares u m _ rfl).1 (by decide)
    · exact absurd (hspares u m _ rfl).1 (by decide)
  · exact absurd (hspares u m _ rfl).1 (by decide)
  · cases havePop
    · exact absurd (hspares u m _ rfl).2 (by decide)
    · exact absurd (hspares u m _ rfl).2 (by decide)

theorem emitT800Insns_out {str : List Control} (h : emitT800Insns havePop k str e = some e') :
    ∃ is e₁, emitControls havePop str e = some (is, e₁) ∧ (k, is) ∈ e'.out ∧ e'.st = e₁.st := by
  simp only [emitT800Insns, Option.bind_eq_bind, Option.bind_eq_some_iff, Option.some.injEq] at h
  obtain ⟨⟨is, e₁⟩, hemit, rfl⟩ := h
  exact ⟨is, e₁, hemit, by simp, rfl⟩

theorem emits_wrong {str : List Control} (hstr : str = [.drop] ∨ str = [.rev] ∨ str = [.rev, .drop])
    (h : emitT800Insns havePop .fabc str e = some e') : ∃ p ∈ e'.out, ¬Spares p.1 p.2 := by
  obtain ⟨is, e₁, hemit, hmem, -⟩ := emitT800Insns_out h
  refine ⟨_, hmem, not_spares_fabc havePop ?_⟩
  obtain rfl | rfl | rfl := hstr
  · simp only [emitControls, Option.bind_eq_bind, Option.bind_eq_some_iff] at hemit
    obtain ⟨⟨js, e₂⟩, hone, ⟨ks, e₃⟩, hnil, hout⟩ := hemit
    cases hnil
    cases hout
    exact .inl (by rw [emitControl_drop hone, List.append_nil])
  · simp only [emitControls, Option.bind_eq_bind, Option.bind_eq_some_iff] at hemit
    obtain ⟨⟨js, e₂⟩, hone, ⟨ks, e₃⟩, hnil, hout⟩ := hemit
    cases hnil
    cases hout
    exact .inr (.inl (by rw [emitControl_rev hone, List.append_nil]))
  · simp only [emitControls, Option.bind_eq_bind, Option.bind_eq_some_iff] at hemit
    obtain ⟨⟨js, e₂⟩, hone, ⟨ks, e₃⟩, ⟨⟨ls, e₄⟩, htwo, ⟨ms, e₅⟩, hnil, hout'⟩, hout⟩ := hemit
    cases hnil
    cases hout'
    cases hout
    exact .inr (.inr (by
      rw [emitControl_rev hone, emitControl_drop htwo, List.append_nil, List.singleton_append]))

theorem drop101_wrong (h : drop101 havePop .fabc e = some e') :
    ∃ p ∈ e'.out, ¬Spares p.1 p.2 := by
  simp only [drop101, Option.bind_eq_bind, Option.bind_eq_some_iff, Option.some.injEq] at h
  obtain ⟨e₁, hemit, rfl⟩ := h
  obtain ⟨p, hp, hnot⟩ := emits_wrong (.inr (.inl rfl)) hemit
  exact ⟨p, hp, hnot⟩

/-- What is not at the bottom of the floating stack is dropped with insns of the integer stack. -/
theorem dropStack_wrong (h : dropStack havePop dropSet .fabc e = some e')
    (hl : e.st.fabc.length ≤ 3) (hbottom : ¬BottomDropped dropSet e.st.fabc) :
    ∃ p ∈ e'.out, ¬Spares p.1 p.2 := by
  obtain ⟨x, y, rest, hregs, hx, hy, hrest⟩ | ⟨x, y, z, hregs, hz, hxy⟩ :=
    not_bottomDropped hl hbottom
  · change e.st.regs .fabc = _ at hregs
    have hbit : dropBit dropSet (e.st.regs .fabc) 2 = true := dropBit_rest hregs hrest
    rw [dropStack, hbit] at h
    simp only [dropBit, hregs, List.getElem?_cons_zero, List.getElem?_cons_succ, hx, hy,
      decide_true, decide_false] at h
    exact drop101_wrong h
  change e.st.regs .fabc = _ at hregs
  by_cases hx : x ∈ dropSet
  · by_cases hy : y ∈ dropSet
    · simp only [dropStack, dropBit, hregs, List.getElem?_cons_zero, List.getElem?_cons_succ, hx,
        hy, hz, decide_true, decide_false, Option.bind_eq_bind, Option.bind_eq_some_iff] at h
      obtain ⟨e₁, -, h⟩ := h
      exact drop101_wrong h
    · simp only [dropStack, dropBit, hregs, List.getElem?_cons_zero, List.getElem?_cons_succ, hx,
        hy, hz, decide_true, decide_false] at h
      exact emits_wrong (.inl rfl) h
  · have hy : y ∈ dropSet := hxy.resolve_left hx
    simp only [dropStack, dropBit, hregs, List.getElem?_cons_zero, List.getElem?_cons_succ, hx,
      hy, hz, decide_true, decide_false] at h
    exact emits_wrong (.inr (.inr rfl)) h

/-! ### Both stacks -/

theorem Emitter.Keeps.forget (h : e.Keeps st) (hout : e'.out = e.out)
    (habc : e'.st.abc <+: e.st.abc) (hfabc : e'.st.fabc <+: e.st.fabc) : e'.Keeps st := by
  have hinsns : e'.insns = e.insns := by rw [Emitter.insns, hout, Emitter.insns]
  refine ⟨fun u val fval m hm hmoded => ?_, by rw [hinsns]; exact h.room, hout ▸ h.spares⟩
  obtain ⟨m', hrun, hm'⟩ := h.values u val fval m hm hmoded
  exact ⟨m', hinsns ▸ hrun, (habc.map val).trans hm'.abc, (hfabc.map fval).trans hm'.fabc⟩

/-- The drops are right: the record loses the registers of the set, and the others are kept. -/
def DropsRight (havePop : Bool) (dropSet : Finset Nat) (st : Stack) : Prop :=
  ∀ v w, ∃ e, emitDrops havePop dropSet (start st v w) = some e ∧ e.Keeps st ∧
    e.st.WellFormed ∧ e.st.mode = st.mode ∧
    ∀ k v, v ∈ e.st.regs k ↔ v ∈ st.regs k ∧ v ∉ dropSet

theorem drops_right_iff (havePop : Bool) (dropSet : Finset Nat) (hwf : st.WellFormed) :
    DropsRight havePop dropSet st ↔ BottomDropped dropSet st.fabc := by
  by_cases hempty : dropSet = ∅
  · refine iff_of_true (fun v w => ⟨start st v w, ?_, ?_, hwf, rfl, by simp [hempty, start]⟩) ?_
    · rw [emitDrops, if_pos hempty]
    · exact Leads.keeps (P := fun _ => True) .refl (fun _ _ => trivial) fun w hw => hw
    · exact ⟨st.fabc, [], by simp, by simp [hempty], by simp⟩
  constructor
  · intro hright
    by_contra hbottom
    obtain ⟨e', hemit, hkeeps, -⟩ := hright 0 0
    obtain ⟨e₁, hdrop, -, hshed⟩ :=
      dropStack_abc (e := start st 0 0) havePop dropSet hwf.abc
    have hfabc : e₁.st.fabc = st.fabc := hshed.other .fabc (by simp)
    rw [emitDrops, if_neg hempty, hdrop] at hemit
    obtain ⟨p, hp, hnot⟩ := dropStack_wrong hemit (hfabc ▸ hwf.fabc) (hfabc ▸ hbottom)
    exact hnot (hkeeps.spares p hp)
  · intro hbottom v w
    obtain ⟨e₁, hdrop₁, ⟨e₀, hleads, hout, habc, hfabc⟩, hshed₁⟩ :=
      dropStack_abc (e := start st v w) havePop dropSet hwf.abc
    have hfabc₁ : e₁.st.fabc = st.fabc := hshed₁.other .fabc (by simp)
    have hwf₁ := hshed₁.wellFormed hwf
    obtain ⟨e₂, hdrop₂, hout₂, hshed₂, hprefix⟩ :=
      dropStack_bottom havePop (e := e₁) (k := .fabc) (hfabc₁ ▸ hbottom) hwf₁.fabc
    have hkeeps : e₀.Keeps st := hleads.keeps (fun _ _ => trivial) (by simp [← hfabc, hfabc₁])
    have habc₂ : e₂.st.abc = e₁.st.abc := hshed₂.other .abc (by simp)
    refine ⟨e₂, ?_, ?_, hshed₂.wellFormed hwf₁, hshed₂.mode.trans hshed₁.mode, ?_⟩
    · rw [emitDrops, if_neg hempty, hdrop₁]
      exact hdrop₂
    · exact hkeeps.forget (hout₂.trans hout) (habc₂ ▸ habc) (hfabc ▸ hprefix)
    · rintro (_ | _) v
      · rw [hshed₂.other .abc (by simp)]
        exact hshed₁.mem_iff
      · rw [hshed₂.mem_iff, hshed₁.other .fabc (by simp)]
        rfl

/-! ### Shuffles -/

theorem shuffles_right_iff (havePop : Bool) (dropSet : Finset Nat) {st target : Stack}
    (hwf : st.WellFormed) (h : Reordered st target) :
    (DropsRight havePop dropSet st ↔ BottomDropped dropSet st.fabc) ∧
      (SwapsRight havePop st target ↔ ReloadedInMode st target) :=
  ⟨drops_right_iff havePop dropSet hwf, swaps_right_iff havePop h⟩

/-- Three floating registers, the first of them single. -/
def mixedModes (l : List Nat) : Stack where
  regSet := {3, 4, 5}
  abc := []
  fabc := l
  mode v := if v = 3 then .sf else .df

theorem mixedModes_wellFormed : (mixedModes [3, 4, 5]).WellFormed :=
  ⟨by decide, by decide, by decide, by simp [mixedModes]⟩

theorem mixedModes_reordered : Reordered (mixedModes [3, 4, 5]) (mixedModes [5, 3, 4]) := by
  refine ⟨?_, rfl, by decide, by decide, by decide, fun v => ?_⟩
  · rintro (_ | _)
    · exact .refl _
    · exact (by decide : Perm [3, 4, 5] [5, 3, 4])
  · simp only [mixedModes, Finset.mem_insert, Finset.mem_singleton, List.not_mem_nil, false_or,
      List.mem_cons, or_false]
    tauto

theorem shuffles_right_iff_mixed :
    (DropsRight false {3} (mixedModes [3, 4, 5]) ↔ BottomDropped {3} [3, 4, 5]) ∧
      (SwapsRight false (mixedModes [3, 4, 5]) (mixedModes [5, 3, 4]) ↔
        ReloadedInMode (mixedModes [3, 4, 5]) (mixedModes [5, 3, 4])) :=
  shuffles_right_iff false {3} mixedModes_wellFormed mixedModes_reordered

/-- The top of the floating stack cannot be dropped, and a single register that has been stored
is loaded as a double. -/
theorem mixedModes_wrong :
    ¬DropsRight false {3} (mixedModes [3, 4, 5]) ∧
      ¬SwapsRight false (mixedModes [3, 4, 5]) (mixedModes [5, 3, 4]) := by
  constructor
  · rw [drops_right_iff false {3} mixedModes_wellFormed]
    rintro ⟨kept, gone, hl, hkept, hgone⟩
    cases kept with
    | nil =>
        obtain rfl : [3, 4, 5] = gone := hl
        exact absurd (hgone 4 (by simp)) (by decide)
    | cons v kept =>
        obtain ⟨rfl, -⟩ := List.cons.inj hl
        exact hkept 3 List.mem_cons_self (by decide)
  · rw [swaps_right_iff false mixedModes_reordered]
    intro hmode
    exact absurd (hmode (by decide)) (by decide)

end Ttools.T800
