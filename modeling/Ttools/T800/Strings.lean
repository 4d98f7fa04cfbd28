import Mathlib.Logic.Function.Basic
import Mathlib.Tactic.Common
import Ttools.T800.Emit

/-!
# What a control string does

* `Does`: insns take every machine that is as one emitter says to one that is as another says.
* `emits_rev`, `emits_store`, `emits_load`, `emits_drop`, `emits_frev`, `emits_fstore`: each
  control keeps the registers; `emits_fload`: what `L` loads.
* `Leads`: the same for strings in a row.
-/

namespace Ttools.T800

variable {havePop : Bool} {e e₁ e₂ e' : Emitter} {s s₁ s₂ fs fs₁ fs₂ : Option Nat}
  {P Q : (Nat → FVal) → Prop} {k : StackNo} {is js : List Insn} {l rest : List Nat} {v w x y : Nat}

/-! ### Places in the workspace -/

namespace Machine

variable (m : Machine)

theorem mem_write (a z : Word) : (m.write a z).mem a = z := if_pos rfl

@[simp] theorem wreg_fwrite (a : Word) (z : FVal) : (m.fwrite a z).wreg = m.wreg := by
  cases z <;> rfl

theorem fval_fwrite (a : Word) (z : FVal) : (m.fwrite a z).fval a z.mode = z := by
  cases z with
  | sf z => simp [fwrite, fval, write, FVal.mode]
  | df lo hi => simp [fwrite, fval, write, FVal.mode]

/-- The place of a stored integer register is none of a stored floating register. -/
theorem fval_write_slot (z : Word) (md : Mode) :
    (m.write (slot m.wreg (-1)) z).fval (slot m.wreg (-3)) md = m.fval (slot m.wreg (-3)) md := by
  have h₁ : ¬ slot m.wreg (-3) = slot m.wreg (-1) := by
    unfold slot
    bv_omega
  have h₂ : ¬ slot m.wreg (-3) + 4#32 = slot m.wreg (-1) := by
    unfold slot
    bv_omega
  cases md with
  | sf => simp [fval, write, h₁]
  | df => simp [fval, write, h₁, h₂]

/-- The drop area is apart from both. -/
theorem mem_write_drop (z : Word) :
    (m.write (slot m.wreg (-5)) z).mem (slot m.wreg (-1)) = m.mem (slot m.wreg (-1)) := by
  have h : ¬ slot m.wreg (-1) = slot m.wreg (-5) := by
    unfold slot
    bv_omega
  exact if_neg h

theorem fval_write_drop (z : Word) (md : Mode) :
    (m.write (slot m.wreg (-5)) z).fval (slot m.wreg (-3)) md = m.fval (slot m.wreg (-3)) md := by
  have h₁ : ¬ slot m.wreg (-3) = slot m.wreg (-5) := by
    unfold slot
    bv_omega
  have h₂ : ¬ slot m.wreg (-3) + 4#32 = slot m.wreg (-5) := by
    unfold slot
    bv_omega
  cases md with
  | sf => simp [fval, write, h₁]
  | df => simp [fval, write, h₁, h₂]

theorem mem_fwrite_slot (z : FVal) :
    (m.fwrite (slot m.wreg (-3)) z).mem (slot m.wreg (-1)) = m.mem (slot m.wreg (-1)) := by
  have h₁ : ¬ slot m.wreg (-1) = slot m.wreg (-3) := by
    unfold slot
    bv_omega
  have h₂ : ¬ slot m.wreg (-1) = slot m.wreg (-3) + 4#32 := by
    unfold slot
    bv_omega
  cases z with
  | sf z => simp [fwrite, write, h₁]
  | df lo hi => simp [fwrite, write, h₁, h₂]

end Machine

/-! ### What the cells hold -/

theorem prefix_two {α : Type} {l : List α} {a b c : α} (hl : l.length ≤ 2)
    (h : l <+: [a, b, c]) : l <+: [a, b] :=
  List.prefix_of_prefix_length_le h ⟨[c], rfl⟩ hl

theorem prefix_tail {α : Type} {l : List α} {x a b c d : α} (h : x :: l <+: [a, b, c]) :
    l <+: [b, c, d] := by
  obtain ⟨-, h⟩ := List.cons_prefix_cons.mp h
  exact h.trans ⟨[d], rfl⟩

theorem prefix_push {α : Type} {l : List α} {x a b c : α} (hl : l.length ≤ 2)
    (h : l <+: [a, b, c]) : x :: l <+: [x, a, b] :=
  List.cons_prefix_cons.mpr ⟨rfl, prefix_two hl h⟩

theorem prefix_rev {α : Type} {l : List α} {x y a b c : α} (h : x :: y :: l <+: [a, b, c]) :
    y :: x :: l <+: [b, a, c] := by
  simpa [List.cons_prefix_cons, and_left_comm] using h

/-! ### Emitting -/

/-- The machine is as the emitter says, with the registers `s` and `fs` stored. -/
structure Image (val : Nat → Word) (fval : Nat → FVal) (s fs : Option Nat) (e : Emitter)
    (m : Machine) : Prop where
  holds : Holds val fval e.st m
  stored : ∀ v ∈ s, m.mem (slot m.wreg (-1)) = val v
  fstored : ∀ v ∈ fs, m.fval (slot m.wreg (-3)) (fval v).mode = fval v

/-- How many registers of the stacks are in use. -/
def Emitter.used (e : Emitter) : Nat × Nat := (e.st.abc.length, e.st.fabc.length)

/-- The insns take every machine that is as the first emitter says to one that is as the second
says. -/
structure Does (P : (Nat → FVal) → Prop) (e : Emitter) (s fs : Option Nat) (is : List Insn)
    (e' : Emitter) (s' fs' : Option Nat) : Prop where
  mode : e'.st.mode = e.st.mode
  last : (∀ v ∈ s, e.lastStoredVirtual = v) → ∀ v ∈ s', e'.lastStoredVirtual = v
  flast : (∀ v ∈ fs, e.lastStoredFpVirtual = v) → ∀ v ∈ fs', e'.lastStoredFpVirtual = v
  room : depths is e.used = some e'.used
  run : ∀ u val fval m, P fval → Image val fval s fs e m →
    ∃ m', run u is m = some m' ∧ Image val fval s' fs' e' m'

theorem Does.refl : Does P e s fs [] e s fs :=
  ⟨rfl, id, id, rfl, fun _ _ _ m _ h => ⟨m, rfl, h⟩⟩

theorem Does.trans (h₁ : Does P e s fs is e₁ s₁ fs₁) (h₂ : Does P e₁ s₁ fs₁ js e₂ s₂ fs₂) :
    Does P e s fs (is ++ js) e₂ s₂ fs₂ := by
  refine ⟨h₂.mode.trans h₁.mode, h₂.last ∘ h₁.last, h₂.flast ∘ h₁.flast, ?_,
    fun u val fval m hP h => ?_⟩
  · rw [depths_append, h₁.room, Option.bind_some, h₂.room]
  · obtain ⟨m₁, hrun₁, hm₁⟩ := h₁.run u val fval m hP h
    obtain ⟨m₂, hrun₂, hm₂⟩ := h₂.run u val fval m₁ hP hm₁
    exact ⟨m₂, by rw [run_append, hrun₁, Option.bind_some, hrun₂], hm₂⟩

theorem Spares.append (h₁ : Spares k is) (h₂ : Spares k js) : Spares k (is ++ js) := by
  intro u m m' hrun
  rw [run_append] at hrun
  obtain ⟨m₁, hrun₁, hrun₂⟩ := Option.bind_eq_some_iff.mp hrun
  have h₁ := h₁ u m m₁ hrun₁
  have h₂ := h₂ u m₁ m' hrun₂
  cases k with
  | abc => exact h₂.trans h₁
  | fabc => exact ⟨h₂.1.trans h₁.1, h₂.2.trans h₁.2⟩

/-! ### One string each -/

/-- What a string of control characters does, whatever comes after it. -/
def Emits (havePop : Bool) (k : StackNo) (P : (Nat → FVal) → Prop) (str : List Control)
    (e : Emitter) (s fs : Option Nat) (e' : Emitter) (s' fs' : Option Nat) : Prop :=
  ∃ is, emitControls havePop str e = some (is, e') ∧ Spares k is ∧ Does P e s fs is e' s' fs'

theorem Emits.cons {c : Control} {str : List Control}
    (h₁ : Emits havePop k P [c] e s fs e₁ s₁ fs₁)
    (h₂ : Emits havePop k P str e₁ s₁ fs₁ e₂ s₂ fs₂) :
    Emits havePop k P (c :: str) e s fs e₂ s₂ fs₂ := by
  obtain ⟨is, hemit, hspares, hdoes⟩ := h₁
  obtain ⟨js, hemit', hspares', hdoes'⟩ := h₂
  refine ⟨is ++ js, ?_, hspares.append hspares', hdoes.trans hdoes'⟩
  cases h : emitControl havePop e c with
  | none => simp [emitControls, h] at hemit
  | some r =>
      obtain ⟨i, e₁'⟩ := r
      simp only [emitControls, h, Option.bind_eq_bind, Option.bind_some, List.append_nil,
        Option.some.injEq, Prod.mk.injEq] at hemit ⊢
      obtain ⟨rfl, rfl⟩ := hemit
      rw [hemit', Option.bind_some]

theorem emits_rev (h : e.st.abc = x :: y :: rest) :
    Emits havePop .abc P [.rev] e s fs
      { e with st := e.st.withRegs (y :: x :: rest) .abc } s fs := by
  refine ⟨[.rev], by simp [emitControls, emitControl, h], ?_, rfl, id, id, ?_, ?_⟩
  · intro u m m' hrun
    obtain rfl := Option.some.inj hrun
    rfl
  · simp [depths, Insn.depth, Emitter.used, Stack.withRegs, h]
  · intro u val fval m _ hm
    refine ⟨{ m with abc := m.abc.rev }, rfl, ⟨?_, hm.holds.fabc⟩, hm.stored, hm.fstored⟩
    have habc := hm.holds.abc
    rw [h] at habc
    exact prefix_rev habc

theorem emits_store (h : e.st.abc = x :: rest) :
    Emits havePop .abc P [.store] e s fs
      { e with st := e.st.popped .abc x rest, lastStoredVirtual := x } (some x) fs := by
  refine ⟨[.stl (-1)], by simp [emitControls, emitControl, h], ?_, rfl, ?_, id, ?_, ?_⟩
  · intro u m m' hrun
    obtain rfl := Option.some.inj hrun
    rfl
  · rintro - v ⟨⟩
    rfl
  · simp [depths, Insn.depth, Emitter.used, Stack.popped, Stack.withRegs, h]
  · intro u val fval m _ hm
    have habc := hm.holds.abc
    rw [h] at habc
    refine ⟨{ m.write (slot m.wreg (-1)) m.abc.a with abc := m.abc.pop (u.abc m) }, rfl,
      ⟨prefix_tail habc, hm.holds.fabc⟩, ?_, ?_⟩
    · rintro v ⟨⟩
      change (m.write (slot m.wreg (-1)) m.abc.a).mem (slot m.wreg (-1)) = val x
      rw [Machine.mem_write, (List.cons_prefix_cons.mp habc).1]
    · intro v hv
      change (m.write (slot m.wreg (-1)) m.abc.a).fval (slot m.wreg (-3)) (fval v).mode = fval v
      rw [Machine.fval_write_slot, hm.fstored v hv]

theorem emits_drop (h : e.st.abc = x :: rest) :
    Emits havePop .abc P [.drop] e s fs { e with st := e.st.popped .abc x rest } s fs := by
  refine ⟨[if havePop then .pop else .stl (-5)], by simp [emitControls, emitControl, h], ?_, rfl,
    id, id, ?_, ?_⟩
  · intro u m m' hrun
    cases havePop <;>
    · obtain rfl := Option.some.inj hrun
      rfl
  · cases havePop <;> simp [depths, Insn.depth, Emitter.used, Stack.popped, Stack.withRegs, h]
  · intro u val fval m _ hm
    have habc := hm.holds.abc
    rw [h] at habc
    cases havePop with
    | true =>
        exact ⟨{ m with abc := m.abc.pop (u.abc m) }, rfl,
          ⟨prefix_tail habc, hm.holds.fabc⟩, hm.stored, hm.fstored⟩
    | false =>
        refine ⟨{ m.write (slot m.wreg (-5)) m.abc.a with abc := m.abc.pop (u.abc m) }, rfl,
          ⟨prefix_tail habc, hm.holds.fabc⟩, fun v hv => ?_, fun v hv => ?_⟩
        · exact (m.mem_write_drop _).trans (hm.stored v hv)
        · exact (m.fval_write_drop _ _).trans (hm.fstored v hv)

theorem emits_load (hx : e.lastStoredVirtual = x) (hl : e.st.abc.length ≤ 2) :
    Emits havePop .abc P [.load] e (some x) fs { e with st := e.st.pushed .abc x } none fs := by
  subst hx
  refine ⟨[.ldl (-1)], rfl, ?_, rfl, by simp, id, ?_, ?_⟩
  · intro u m m' hrun
    obtain rfl := Option.some.inj hrun
    rfl
  · simp [depths, Insn.depth, Emitter.used, Stack.pushed, Stack.withRegs, Stack.regs,
      Nat.lt_succ_iff, hl]
  · intro u val fval m _ hm
    refine ⟨_, rfl, ⟨?_, hm.holds.fabc⟩, by simp, hm.fstored⟩
    have hval := hm.stored _ rfl
    have habc := prefix_push (x := val e.lastStoredVirtual) (by simpa using hl) hm.holds.abc
    simpa [Stack.pushed, Stack.withRegs, Stack.regs, Cells.toList, Cells.push, hval] using habc

theorem emits_frev (h : e.st.fabc = x :: y :: rest) :
    Emits havePop .fabc P [.frev] e s fs
      { e with st := e.st.withRegs (y :: x :: rest) .fabc } s fs := by
  refine ⟨[.fprev], by simp [emitControls, emitControl, h], ?_, rfl, id, id, ?_, ?_⟩
  · intro u m m' hrun
    obtain rfl := Option.some.inj hrun
    exact ⟨rfl, rfl⟩
  · simp [depths, Insn.depth, Emitter.used, Stack.withRegs, h]
  · intro u val fval m _ hm
    refine ⟨{ m with fabc := m.fabc.rev }, rfl, ⟨hm.holds.abc, ?_⟩, hm.stored, hm.fstored⟩
    have hfabc := hm.holds.fabc
    rw [h] at hfabc
    exact prefix_rev hfabc

/-- The address of a floating store is gone afterwards. -/
theorem spares_fpstnl (n : Int) (md : Mode) : Spares .fabc [.ldlp n, .fpstnl md] := by
  intro u m m' hrun
  simp only [run, Insn.exec, Option.bind_some] at hrun
  split at hrun
  · obtain rfl := Option.some.inj hrun
    exact ⟨rfl, rfl⟩
  · cases hrun

theorem spares_fpldnl (n : Int) (md : Mode) : Spares .fabc [.ldlp n, .fpldnl md] := by
  intro u m m' hrun
  obtain rfl := Option.some.inj hrun
  exact ⟨rfl, rfl⟩

/-- A floating store through an address that is on the integer stack only for it. -/
theorem run_fpstnl (u : Junk) (m : Machine) (n : Int) {md : Mode} (h : m.fabc.a.mode = md) :
    ∃ j j', run u [.ldlp n, .fpstnl md] m = some
      { m.fwrite (slot m.wreg n) m.fabc.a with
        abc := ⟨m.abc.a, m.abc.b, j⟩
        fabc := m.fabc.pop j' } := by
  refine ⟨u.abc { m with abc := m.abc.push (slot m.wreg n) },
    u.fabc { m with abc := m.abc.push (slot m.wreg n) }, ?_⟩
  simp only [run, Insn.exec, Option.bind_some, Option.bind_fun_some]
  rw [if_pos h]
  generalize slot m.wreg n = a
  cases hv : m.fabc.a with
  | sf w =>
      simp [Cells.push, Cells.pop, Machine.fwrite, Machine.write]
      rfl
  | df lo hi =>
      simp [Cells.push, Cells.pop, Machine.fwrite, Machine.write]
      rfl

theorem run_fpldnl (u : Junk) (m : Machine) (n : Int) (md : Mode) :
    ∃ j, run u [.ldlp n, .fpldnl md] m = some
      { m with
        abc := ⟨m.abc.a, m.abc.b, j⟩
        fabc := m.fabc.push (m.fval (slot m.wreg n) md) } := by
  refine ⟨u.abc { m with abc := m.abc.push (slot m.wreg n) }, ?_⟩
  simp only [run, Insn.exec, Option.bind_some]
  generalize slot m.wreg n = a
  cases md <;> rfl

theorem emits_fstore (h : e.st.fabc = x :: rest) (hl : e.st.abc.length ≤ 2)
    (hP : ∀ fval, P fval → (fval x).mode = e.st.mode x) :
    Emits havePop .fabc P [.fstore] e s fs
      { e with st := e.st.popped .fabc x rest, lastStoredFpVirtual := x } s (some x) := by
  refine ⟨[.ldlp (-3), .fpstnl (e.st.mode x)], by simp [emitControls, emitControl, h],
    spares_fpstnl _ _, rfl, id, ?_, ?_, ?_⟩
  · rintro - v ⟨⟩
    rfl
  · simp [depths, Insn.depth, Emitter.used, Stack.popped, Stack.withRegs, h,
      Nat.lt_succ_iff, hl]
  · intro u val fval m hfval hm
    have hfabc := hm.holds.fabc
    rw [h] at hfabc
    have hx : fval x = m.fabc.a := (List.cons_prefix_cons.mp hfabc).1
    have hmode : m.fabc.a.mode = e.st.mode x := by rw [← hx, hP fval hfval]
    obtain ⟨j, j', hrun⟩ := run_fpstnl u m (-3) hmode
    refine ⟨_, hrun, ⟨?_, prefix_tail hfabc⟩, fun v hv => ?_, ?_⟩
    · exact (prefix_two (by simpa using hl) hm.holds.abc).trans ⟨[j], rfl⟩
    · simp only [Machine.wreg_fwrite, Machine.mem_fwrite_slot]
      exact hm.stored v hv
    · rintro v ⟨⟩
      simp only [Machine.wreg_fwrite]
      rw [hx]
      exact m.fval_fwrite _ _

/-- What `L` loads has the mode of the register that was on top, and is what was stored if that is
its mode too. -/
theorem emits_fload (havePop : Bool) (s : Option Nat) (hx : e.lastStoredFpVirtual = x)
    (h : e.st.fabc = y :: rest)
    (hl : e.st.abc.length ≤ 2) (hfl : e.st.fabc.length ≤ 2) (hnot : x ∉ e.st.fabc) :
    ∃ is, emitControls havePop [.fload] e = some (is, { e with st := e.st.pushed .fabc x }) ∧
      Spares .fabc is ∧
      depths is e.used = some (e.st.abc.length, e.st.fabc.length + 1) ∧
      ∀ u val fval m, Image val fval s (some x) e m → ∃ m' z, run u is m = some m' ∧
        z.mode = e.st.mode y ∧ ((fval x).mode = e.st.mode y → z = fval x) ∧
        Image val (Function.update fval x z) s none { e with st := e.st.pushed .fabc x } m' := by
  subst hx
  refine ⟨[.ldlp (-3), .fpldnl (e.st.mode y)], by simp [emitControls, emitControl, h],
    spares_fpldnl _ _, ?_, ?_⟩
  · simp [depths, Insn.depth, Emitter.used, Nat.lt_succ_iff, hl, hfl]
  · intro u val fval m hm
    let z := m.fval (slot m.wreg (-3)) (e.st.mode y)
    obtain ⟨j, hrun⟩ := run_fpldnl u m (-3) (e.st.mode y)
    refine ⟨_, z, hrun, ?_, ?_, ⟨?_, ?_⟩, hm.stored, by simp⟩
    · cases h : e.st.mode y <;> simp [z, Machine.fval, FVal.mode, h]
    · intro hmode
      rw [← hm.fstored _ rfl, hmode]
    · exact (prefix_two (by simpa using hl) hm.holds.abc).trans ⟨[j], rfl⟩
    · have hfabc := prefix_push (x := z) (by simpa using hfl) hm.holds.fabc
      have hsame : ∀ v ∈ e.st.fabc, Function.update fval e.lastStoredFpVirtual z v = fval v := by
        intro v hv
        refine Function.update_of_ne ?_ _ _
        rintro rfl
        exact hnot hv
      change List.map _ (e.lastStoredFpVirtual :: e.st.fabc) <+: [z, m.fabc.a, m.fabc.b]
      rw [List.map_cons, Function.update_self, List.map_congr_left hsame]
      exact hfabc

/-! ### Strings in a row -/

/-- What has been emitted between two emitters takes every machine that is as the first says to
one that is as the second says, each string acting on its own stack. -/
def Leads (P : (Nat → FVal) → Prop) (e : Emitter) (s fs : Option Nat) (e' : Emitter)
    (s' fs' : Option Nat) : Prop :=
  ∃ new : List (StackNo × List Insn), e'.out = e.out ++ new ∧ (∀ p ∈ new, Spares p.1 p.2) ∧
    Does P e s fs (new.flatMap Prod.snd) e' s' fs'

theorem Leads.refl : Leads P e s fs e s fs := ⟨[], by simp, by simp, .refl⟩

theorem Leads.trans (h₁ : Leads P e s fs e₁ s₁ fs₁) (h₂ : Leads P e₁ s₁ fs₁ e₂ s₂ fs₂) :
    Leads P e s fs e₂ s₂ fs₂ := by
  obtain ⟨new₁, hout₁, hspares₁, hdoes₁⟩ := h₁
  obtain ⟨new₂, hout₂, hspares₂, hdoes₂⟩ := h₂
  refine ⟨new₁ ++ new₂, by rw [hout₂, hout₁, List.append_assoc], fun p hp => ?_, ?_⟩
  · exact (List.mem_append.mp hp).elim (hspares₁ p) (hspares₂ p)
  · rw [List.flatMap_append]
    exact hdoes₁.trans hdoes₂

theorem Leads.last (h : Leads P e s fs e' s₁ fs₁) (hs : ∀ v ∈ s, e.lastStoredVirtual = v) :
    ∀ v ∈ s₁, e'.lastStoredVirtual = v := by
  obtain ⟨new, -, -, hdoes⟩ := h
  exact hdoes.last hs

theorem Leads.flast (h : Leads P e s fs e' s₁ fs₁) (hs : ∀ v ∈ fs, e.lastStoredFpVirtual = v) :
    ∀ v ∈ fs₁, e'.lastStoredFpVirtual = v := by
  obtain ⟨new, -, -, hdoes⟩ := h
  exact hdoes.flast hs

theorem Leads.mode (h : Leads P e s fs e' s₁ fs₁) : e'.st.mode = e.st.mode := by
  obtain ⟨new, -, -, hdoes⟩ := h
  exact hdoes.mode

/-- Emitting a string, with what the emitter is afterwards. -/
theorem Emits.leads {str : List Control} (h : Emits havePop k P str e s fs e' s₁ fs₁)
    (hout : e'.out = e.out) :
    ∃ new, emitT800Insns havePop k str e = some { e' with out := new } ∧
      Leads P e s fs { e' with out := new } s₁ fs₁ := by
  obtain ⟨is, hemit, hspares, hdoes⟩ := h
  refine ⟨e'.out ++ [(k, is)], by simp [emitT800Insns, hemit], [(k, is)], by rw [hout], ?_, ?_⟩
  · intro p hp
    obtain rfl := List.mem_singleton.mp hp
    exact hspares
  · rw [List.flatMap_singleton]
    refine ⟨hdoes.mode, hdoes.last, hdoes.flast, hdoes.room, fun u val fval m hP hm => ?_⟩
    obtain ⟨m', hrun, hm'⟩ := hdoes.run u val fval m hP hm
    exact ⟨m', hrun, hm'.holds, hm'.stored, hm'.fstored⟩

end Ttools.T800
