import Mathlib.Data.List.Perm.Basic
import Mathlib.Data.List.Nodup
import Ttools.T800.Strings

/-!
# Swaps

`t800_emit_swaps` stores at most one register of each stack.

* `swaps_simple`, `swaps_short`, `swaps_spec`: what a call comes to, by how much it may store.
* `swaps_right_iff`: it is right unless it loads a floating register in another mode.
-/

namespace Ttools.T800

open List (Perm)

variable {havePop : Bool} {e e₁ e₂ e' : Emitter} {s s₁ s₂ fs fs₁ fs₂ : Option Nat}
  {P : (Nat → FVal) → Prop} {k : StackNo} {l rest : List Nat} {v x y : Nat}

/-! ### Registers in another order -/

/-- The two on top may have changed places. -/
def Turned (l l' : List Nat) : Prop :=
  l' = l ∨ ∃ x y rest, x ≠ y ∧ l = x :: y :: rest ∧ l' = y :: x :: rest

theorem turned_pair {l' : List Nat} (hne : x ≠ y) (h : Perm ([x, y] ++ l) (l' ++ l)) :
    Turned ([x, y] ++ l) (l' ++ l) := by
  have hperm := (List.perm_append_right_iff l).mp h
  obtain ⟨a, b, rfl⟩ := List.length_eq_two.mp hperm.length_eq.symm
  have ha : a = x ∨ a = y := by simpa using hperm.mem_iff.mpr List.mem_cons_self
  obtain rfl | rfl := ha
  · obtain rfl : b = y := by simpa [eq_comm] using hperm
    exact .inl rfl
  · obtain rfl : b = x := by
      simpa [eq_comm] using (List.Perm.swap x a []).trans hperm
    exact .inr ⟨b, a, l, hne, rfl, rfl⟩

/-- What is in another order with the same bottom has at most the top two turned. -/
theorem turned_of_perm {l' : List Nat} (h : Perm l l') (hnd : l.Nodup) (hl : l.length ≤ 3)
    (hb : ¬(l.length = 3 ∧ l[2]? ≠ l'[2]?)) : Turned l l' := by
  match l, hl with
  | [], _ => exact .inl (List.nil_perm.mp h)
  | [x], _ => exact .inl (List.singleton_perm.mp h).symm
  | [x, y], _ =>
      have hne : x ≠ y := by simpa using hnd
      simpa using turned_pair (l := []) hne (by simpa using h)
  | [x, y, z], _ =>
      have hne : x ≠ y := by
        rintro rfl
        simp at hnd
      obtain ⟨a, b, c, rfl⟩ := List.length_eq_three.mp h.length_eq.symm
      obtain rfl : c = z := by simpa [eq_comm] using hb
      have hpair : Perm ([x, y] ++ [c]) ([a, b] ++ [c]) := h
      exact turned_pair hne hpair

/-! ### What needs no storing -/

/-- The control that turns the top of a stack. -/
def revOf : StackNo → Control
  | .abc => .rev
  | .fabc => .frev

theorem emits_revOf (h : e.st.regs k = x :: y :: rest) :
    Emits havePop k P [revOf k] e s fs
      { e with st := e.st.withRegs (y :: x :: rest) k } s fs := by
  cases k with
  | abc => exact emits_rev h
  | fabc => exact emits_frev h

@[simp] theorem Stack.withRegs_regs (st : Stack) : st.withRegs (st.regs k) k = st := by
  cases k <;> rfl

theorem turnTop_spec {target : Stack} (hturn : Turned (e.st.regs k) (target.regs k)) :
    ∃ e', turnTop havePop k (revOf k) target e = some e' ∧
      e'.st = e.st.withRegs (target.regs k) k ∧ Leads P e s fs e' s fs := by
  obtain h | ⟨x, y, rest, hne, hregs, htarget⟩ := hturn
  · exact ⟨e, by simp [turnTop, h], by simp [h], .refl⟩
  · have hrev : Emits havePop k P [revOf k] e s fs _ s fs := emits_revOf hregs
    obtain ⟨new, hemit, hleads⟩ := hrev.leads rfl
    refine ⟨_, ?_, by rw [htarget], hleads⟩
    rw [turnTop, if_pos (by simp [hregs, htarget, hne]), hemit]

theorem emitRevs_spec (havePop : Bool) (P : (Nat → FVal) → Prop) (s fs : Option Nat)
    {target : Stack} (hturn : ∀ k, Turned (e.st.regs k) (target.regs k)) :
    ∃ e', emitRevs havePop target e = some e' ∧
      e'.st = { e.st with abc := target.abc, fabc := target.fabc } ∧ Leads P e s fs e' s fs := by
  obtain ⟨e₁, hemit₁, hst₁, hleads₁⟩ :
      ∃ e', turnTop havePop .abc .rev target e = some e' ∧
        e'.st = e.st.withRegs (target.regs .abc) .abc ∧ Leads P e s fs e' s fs :=
    turnTop_spec (hturn .abc)
  have hturn₁ : Turned (e₁.st.regs .fabc) (target.regs .fabc) := by
    rw [hst₁]
    exact hturn .fabc
  obtain ⟨e₂, hemit₂, hst₂, hleads₂⟩ :
      ∃ e', turnTop havePop .fabc .frev target e₁ = some e' ∧
        e'.st = e₁.st.withRegs (target.regs .fabc) .fabc ∧ Leads P e₁ s fs e' s fs :=
    turnTop_spec hturn₁
  refine ⟨e₂, ?_, by rw [hst₂, hst₁]; rfl, hleads₁.trans hleads₂⟩
  rw [emitRevs, hemit₁, Option.bind_some, hemit₂]

/-! ### Records with the same registers -/

/-- The target has the registers of the record, in some order. -/
structure Reordered (st target : Stack) : Prop where
  perm : ∀ k, Perm (st.regs k) (target.regs k)
  regSet : st.regSet = target.regSet
  wellFormed : target.WellFormed

variable {st target : Stack}

theorem Stack.WellFormed.length_le (h : st.WellFormed) (k : StackNo) : (st.regs k).length ≤ 3 := by
  cases k with
  | abc => exact h.abc
  | fabc => exact h.fabc

theorem Stack.WellFormed.nodup_regs (h : st.WellFormed) (k : StackNo) : (st.regs k).Nodup := by
  cases k with
  | abc => exact h.nodup.of_append_left
  | fabc => exact h.nodup.of_append_right

theorem Stack.WellFormed.mem_regSet (h : st.WellFormed) (hv : v ∈ st.regs k) : v ∈ st.regSet := by
  cases k with
  | abc => exact (h.regSet v).mpr (.inl hv)
  | fabc => exact (h.regSet v).mpr (.inr hv)

/-- Without one register the record still describes a state of the stacks. -/
theorem Stack.WellFormed.popped (h : st.WellFormed) (hx : x ∈ st.regs k) :
    (st.popped k x ((st.regs k).erase x)).WellFormed := by
  have habc := h.nodup.of_append_left
  have hfabc := h.nodup.of_append_right
  have hdisj : ∀ v, v ∈ st.abc → v ∉ st.fabc := fun v ha hf =>
    (List.disjoint_of_nodup_append h.nodup) ha hf
  cases k with
  | abc =>
      refine ⟨List.length_erase_le.trans h.abc, h.fabc, ?_, fun v => ?_⟩
      · exact h.nodup.sublist (List.erase_sublist.append_right _)
      · have := hdisj x hx
        simp only [Stack.popped, Stack.withRegs, Stack.regs, Finset.mem_erase, h.regSet,
          habc.mem_erase_iff]
        grind
  | fabc =>
      refine ⟨h.abc, List.length_erase_le.trans h.fabc, ?_, fun v => ?_⟩
      · exact h.nodup.sublist (List.erase_sublist.append_left _)
      · have := fun ha => hdisj x ha hx
        simp only [Stack.popped, Stack.withRegs, Stack.regs, Finset.mem_erase, h.regSet,
          hfabc.mem_erase_iff]
        grind

@[simp] theorem Stack.regs_withRegs (l : List Nat) : (st.withRegs l k).regs k = l := by
  cases k <;> rfl

theorem Stack.regs_popped (k k' : StackNo) (l : List Nat) :
    (st.popped k v l).regs k' = if k' = k then l else st.regs k' := by
  cases k <;> cases k' <;> rfl

@[simp] theorem Stack.regSet_popped (l : List Nat) :
    (st.popped k v l).regSet = st.regSet.erase v := by
  cases k <;> rfl

@[simp] theorem Stack.mode_popped (l : List Nat) : (st.popped k v l).mode = st.mode := by
  cases k <;> rfl

theorem Reordered.popped (h : Reordered st target) (hx : x ∈ target.regs k)
    (hrest : Perm (x :: rest) (st.regs k)) :
    Reordered (st.popped k x rest) (target.popped k x ((target.regs k).erase x)) := by
  refine ⟨fun k' => ?_, by simp [h.regSet], h.wellFormed.popped hx⟩
  rw [Stack.regs_popped, Stack.regs_popped]
  split
  · have hperm := (hrest.trans (h.perm k)).erase x
    rwa [List.erase_cons_head] at hperm
  · exact h.perm k'

/-! ### Storing -/

/-- The register that is stored, and what stays on the stack. -/
def stashed (p q r c : Nat) : Nat × List Nat := if p = c then (q, [p, r]) else (p, [q, r])

theorem stashed_perm (p q r c : Nat) :
    Perm ((stashed p q r c).1 :: (stashed p q r c).2) [p, q, r] := by
  unfold stashed
  split
  · exact .swap _ _ _
  · exact .refl _

/-- What is stored is not to be at the bottom. -/
theorem stashed_mem {p q r a b c : Nat} (hnd : [p, q, r].Nodup)
    (hperm : Perm [p, q, r] [a, b, c]) :
    (stashed p q r c).1 = a ∨ (stashed p q r c).1 = b := by
  have hne : (stashed p q r c).1 ≠ c := by
    unfold stashed
    split
    · rename_i h
      rintro rfl
      simp [h] at hnd
    · assumption
  have hmem : (stashed p q r c).1 ∈ [a, b, c] :=
    hperm.mem_iff.mp ((stashed_perm p q r c).mem_iff.mp List.mem_cons_self)
  simpa [hne] using hmem

/-- The register `x` may be stored: it is one of the two on top of the target, `y` is the other. -/
structure Stashed (k : StackNo) (st target : Stack) (x y : Nat) (rest : List Nat) : Prop where
  perm : Perm (x :: rest) (st.regs k)
  top : ∃ l, target.regs k = x :: y :: l ∨ target.regs k = y :: x :: l

theorem Reordered.stashed {p q r a b c : Nat} (h : Reordered st target)
    (hl : st.regs k = [p, q, r]) (ht : target.regs k = [a, b, c]) :
    ∃ y, Stashed k st target (stashed p q r c).1 y (stashed p q r c).2 := by
  have hperm : Perm [p, q, r] [a, b, c] := hl ▸ ht ▸ h.perm k
  have hnd : [a, b, c].Nodup := ht ▸ h.wellFormed.nodup_regs k
  obtain hx | hx := stashed_mem (hperm.nodup_iff.mpr hnd) hperm
  · exact ⟨b, by rw [hl]; exact stashed_perm p q r c, [c], .inl (by rw [ht, hx])⟩
  · exact ⟨a, by rw [hl]; exact stashed_perm p q r c, [c], .inr (by rw [ht, hx])⟩

namespace Stashed

theorem mem (h : Stashed k st target x y rest) : x ∈ target.regs k := by
  obtain ⟨l, ht | ht⟩ := h.top <;> simp [ht]

theorem ne (h : Stashed k st target x y rest) (hnd : (target.regs k).Nodup) : x ≠ y := by
  rintro rfl
  obtain ⟨l, ht | ht⟩ := h.top <;> simp [ht] at hnd

/-- The target without the register, and with it on top again. -/
theorem erase (h : Stashed k st target x y rest) (hnd : (target.regs k).Nodup) :
    ∃ l, (target.regs k).erase x = y :: l ∧ Turned (x :: y :: l) (target.regs k) := by
  have hne := h.ne hnd
  obtain ⟨l, ht | ht⟩ := h.top
  · exact ⟨l, by rw [ht, List.erase_cons_head], .inl ht⟩
  · refine ⟨l, ?_, .inr ⟨x, y, l, hne, rfl, ht⟩⟩
    rw [ht, List.erase_cons_tail (by simpa using hne.symm), List.erase_cons_head]

theorem tmpstack_eq (h : Stashed k st target x y rest) (hre : Reordered st target) :
    tmpstack (st.popped k x rest) target k = target.popped k x ((target.regs k).erase x) := by
  have hne := h.ne (hre.wellFormed.nodup_regs k)
  obtain ⟨l, ht | ht⟩ := h.top
  · rw [tmpstack, ht]
    simp only [Stack.regSet_popped, Finset.notMem_erase, if_false, List.erase_cons_head]
  · have hy : y ∈ st.regSet := by
      rw [hre.regSet]
      exact hre.wellFormed.mem_regSet (k := k) (by rw [ht]; exact List.mem_cons_self)
    rw [tmpstack, ht, List.erase_cons_tail (by simpa using hne.symm), List.erase_cons_head]
    simp only [Stack.regSet_popped, Finset.mem_erase, hne.symm, hy, ne_eq, not_false_iff, and_self,
      if_true]

end Stashed

theorem store_spec (havePop : Bool) (P : (Nat → FVal) → Prop) (s fs : Option Nat)
    (hre : Reordered e.st target) (hlen : e.st.abc.length = 3) :
    ∃ e₁ x y rest, emitT800Insns havePop .abc
        (if e.st.abc[0]? = target.abc[2]? then [.rev, .store] else [.store]) e = some e₁ ∧
      Stashed .abc e.st target x y rest ∧ e₁.st = e.st.popped .abc x rest ∧
      e₁.lastStoredVirtual = x ∧ Leads P e s fs e₁ (some x) fs := by
  obtain ⟨p, q, r, hl⟩ := List.length_eq_three.mp hlen
  obtain ⟨a, b, c, ht⟩ := List.length_eq_three.mp ((hre.perm .abc).length_eq.symm.trans hlen)
  obtain ⟨y, hst⟩ := hre.stashed (k := .abc) hl ht
  have hcond : e.st.abc[0]? = target.abc[2]? ↔ p = c := by
    rw [hl, show target.abc = _ from ht]
    simp
  by_cases hpc : p = c
  · have hstore : Emits havePop .abc P [.rev, .store] e s fs _ (some q) fs :=
      (emits_rev hl).cons (emits_store rfl)
    obtain ⟨new, hemit, hleads⟩ := hstore.leads rfl
    rw [Ttools.T800.stashed, if_pos hpc] at hst
    rw [if_pos (hcond.mpr hpc)]
    exact ⟨_, q, y, [p, r], hemit, hst, rfl, rfl, hleads⟩
  · have hstore : Emits havePop .abc P [.store] e s fs _ (some p) fs := emits_store hl
    obtain ⟨new, hemit, hleads⟩ := hstore.leads rfl
    rw [Ttools.T800.stashed, if_neg hpc] at hst
    rw [if_neg (mt hcond.mp hpc)]
    exact ⟨_, p, y, [q, r], hemit, hst, rfl, rfl, hleads⟩

theorem fstore_spec (havePop : Bool) (s fs : Option Nat) (hre : Reordered e.st target)
    (hlen : e.st.fabc.length = 3) (habc : e.st.abc.length ≤ 2)
    (hP : ∀ fval, P fval → ∀ v, (fval v).mode = e.st.mode v) :
    ∃ e₁ x y rest, emitT800Insns havePop .fabc
        (if e.st.fabc[0]? = target.fabc[2]? then [.frev, .fstore] else [.fstore]) e = some e₁ ∧
      Stashed .fabc e.st target x y rest ∧ e₁.st = e.st.popped .fabc x rest ∧
      e₁.lastStoredFpVirtual = x ∧ Leads P e s fs e₁ s (some x) := by
  obtain ⟨p, q, r, hl⟩ := List.length_eq_three.mp hlen
  obtain ⟨a, b, c, ht⟩ := List.length_eq_three.mp ((hre.perm .fabc).length_eq.symm.trans hlen)
  obtain ⟨y, hst⟩ := hre.stashed (k := .fabc) hl ht
  have hcond : e.st.fabc[0]? = target.fabc[2]? ↔ p = c := by
    rw [hl, show target.fabc = _ from ht]
    simp
  by_cases hpc : p = c
  · have hstore : Emits havePop .fabc P [.frev, .fstore] e s fs _ s (some q) :=
      (emits_frev hl).cons (emits_fstore rfl habc fun fval h => hP fval h q)
    obtain ⟨new, hemit, hleads⟩ := hstore.leads rfl
    rw [Ttools.T800.stashed, if_pos hpc] at hst
    rw [if_pos (hcond.mpr hpc)]
    exact ⟨_, q, y, [p, r], hemit, hst, rfl, rfl, hleads⟩
  · have hstore : Emits havePop .fabc P [.fstore] e s fs _ s (some p) :=
      emits_fstore hl habc fun fval h => hP fval h p
    obtain ⟨new, hemit, hleads⟩ := hstore.leads rfl
    rw [Ttools.T800.stashed, if_neg hpc] at hst
    rw [if_neg (mt hcond.mp hpc)]
    exact ⟨_, p, y, [q, r], hemit, hst, rfl, rfl, hleads⟩

/-! ### The recursion -/

/-- A call that stores nothing. -/
theorem swaps_simple (havePop : Bool) (P : (Nat → FVal) → Prop) (s fs : Option Nat) (fuel : Nat)
    (h : Reordered e.st target)
    (hb : ∀ k, ¬bottomMoves e.st target k) :
    ∃ e', emitSwaps havePop (fuel + 1) target e = some e' ∧
      e'.st = { target with mode := e.st.mode } ∧ Leads P e s fs e' s fs := by
  have hturn : ∀ k, Turned (e.st.regs k) (target.regs k) := fun k => by
    have hnd := (h.perm k).nodup_iff.mpr (h.wellFormed.nodup_regs k)
    have hlen := (h.perm k).length_eq.trans_le (h.wellFormed.length_le k)
    exact turned_of_perm (h.perm k) hnd hlen (hb k)
  obtain ⟨e', hemit, hst, hleads⟩ := emitRevs_spec havePop P s fs hturn
  refine ⟨e', ?_, by rw [hst, ← h.regSet], hleads⟩
  have habc : ¬(e.st.abc.length = 3 ∧
      (e.st.abc[2]? ≠ target.abc[2]? ∨ bottomMoves e.st target .fabc)) := by
    rintro ⟨hlen, hne | hf⟩
    · exact hb .abc ⟨hlen, hne⟩
    · exact hb .fabc hf
  rw [emitSwaps, if_neg (not_not.mpr h.regSet), if_neg habc, if_neg (hb .fabc), Option.bind_some,
    hemit]

/-- What has been emitted stores the floating register `x` and loads it again, in the mode
of `y`. -/
def Reloads (x y : Nat) (e : Emitter) (s : Option Nat) (e' : Emitter) (s' : Option Nat) : Prop :=
  ∃ new : List (StackNo × List Insn), e'.out = e.out ++ new ∧ (∀ p ∈ new, Spares p.1 p.2) ∧
    e'.st.mode = e.st.mode ∧
    ((∀ v ∈ s, e.lastStoredVirtual = v) → ∀ v ∈ s', e'.lastStoredVirtual = v) ∧
    depths (new.flatMap Prod.snd) e.used = some e'.used ∧
    ∀ u val fval m, (∀ v, (fval v).mode = e.st.mode v) → Image val fval s none e m →
      ∃ m' z, run u (new.flatMap Prod.snd) m = some m' ∧ z.mode = e.st.mode y ∧
        (e.st.mode x = e.st.mode y → z = fval x) ∧
        Image val (Function.update fval x z) s' none e' m'

theorem Leads.reloads (h₁ : Leads (fun _ => True) e s none e₁ s₁ none)
    (h₂ : Reloads x y e₁ s₁ e₂ s₂) :
    Reloads x y e s e₂ s₂ := by
  obtain ⟨new₁, hout₁, hspares₁, hdoes₁⟩ := h₁
  obtain ⟨new₂, hout₂, hspares₂, hmode₂, hlast₂, hroom₂, hrun₂⟩ := h₂
  refine ⟨new₁ ++ new₂, by rw [hout₂, hout₁, List.append_assoc], fun p hp => ?_,
    hmode₂.trans hdoes₁.mode, hlast₂ ∘ hdoes₁.last, ?_, fun u val fval m hP h => ?_⟩
  · exact (List.mem_append.mp hp).elim (hspares₁ p) (hspares₂ p)
  · rw [List.flatMap_append, depths_append, hdoes₁.room, Option.bind_some, hroom₂]
  · obtain ⟨m₁, hrun₁, hm₁⟩ := hdoes₁.run u val fval m trivial h
    rw [← hdoes₁.mode] at hP
    obtain ⟨m₂, z, hrun, hz⟩ := hrun₂ u val fval m₁ hP hm₁
    refine ⟨m₂, z, ?_, ?_⟩
    · rw [List.flatMap_append, run_append, hrun₁, Option.bind_some, hrun]
    · rw [← hdoes₁.mode]
      exact hz

theorem Reloads.leads (h₁ : Reloads x y e s e₁ s₁)
    (h₂ : Leads (fun _ => True) e₁ s₁ none e₂ s₂ none) :
    Reloads x y e s e₂ s₂ := by
  obtain ⟨new₁, hout₁, hspares₁, hmode₁, hlast₁, hroom₁, hrun₁⟩ := h₁
  obtain ⟨new₂, hout₂, hspares₂, hdoes₂⟩ := h₂
  refine ⟨new₁ ++ new₂, by rw [hout₂, hout₁, List.append_assoc], fun p hp => ?_,
    hdoes₂.mode.trans hmode₁, hdoes₂.last ∘ hlast₁, ?_, fun u val fval m hP h => ?_⟩
  · exact (List.mem_append.mp hp).elim (hspares₁ p) (hspares₂ p)
  · rw [List.flatMap_append, depths_append, hroom₁, Option.bind_some, hdoes₂.room]
  · obtain ⟨m₁, z, hrun, hz, hsame, hm₁⟩ := hrun₁ u val fval m hP h
    obtain ⟨m₂, hrun', hm₂⟩ := hdoes₂.run u val _ m₁ trivial hm₁
    refine ⟨m₂, z, ?_, hz, hsame, hm₂⟩
    rw [List.flatMap_append, run_append, hrun, Option.bind_some, hrun']

/-- Storing the register and all that comes before it is loaded, and then the load. -/
theorem fload_spec (havePop : Bool)
    (h : Leads (fun fval => ∀ v, (fval v).mode = e.st.mode v) e s none e₁ s₁ (some x))
    (hx : e₁.lastStoredFpVirtual = x) (hl : e₁.st.fabc = y :: rest)
    (habc : e₁.st.abc.length ≤ 2) (hfabc : e₁.st.fabc.length ≤ 2) (hnot : x ∉ e₁.st.fabc) :
    ∃ e₂, emitT800Insns havePop .fabc [.fload] e₁ = some e₂ ∧
      e₂.st = e₁.st.pushed .fabc x ∧ Reloads x y e s e₂ s₁ := by
  obtain ⟨is, hemit, hspares, hroom, hrun⟩ :=
    emits_fload havePop s₁ hx hl habc hfabc hnot
  obtain ⟨new, hout, hspares', hdoes⟩ := h
  refine ⟨{ e₁ with st := e₁.st.pushed .fabc x, out := e₁.out ++ [(.fabc, is)] },
    by simp [emitT800Insns, hemit], rfl, new ++ [(.fabc, is)], ?_, fun p hp => ?_, hdoes.mode,
    hdoes.last, ?_, fun u val fval m hmode hm => ?_⟩
  · rw [hout, List.append_assoc]
  · obtain hp | hp := List.mem_append.mp hp
    · exact hspares' p hp
    · obtain rfl := List.mem_singleton.mp hp
      exact hspares
  · rw [List.flatMap_append, depths_append, hdoes.room, Option.bind_some,
      List.flatMap_singleton, hroom]
    rfl
  · obtain ⟨m₁, hrun₁, hm₁⟩ := hdoes.run u val fval m hmode hm
    obtain ⟨m₂, z, hrun₂, hz, hsame, hm₂⟩ := hrun u val fval m₁ hm₁
    rw [hdoes.mode] at hz hsame
    refine ⟨m₂, z, ?_, hz, fun h => hsame (by rw [hmode, h]), hm₂.holds, hm₂.stored, hm₂.fstored⟩
    rw [List.flatMap_append, run_append, hrun₁, Option.bind_some, List.flatMap_singleton, hrun₂]

theorem Stack.regs_pushed (k k' : StackNo) :
    (st.pushed k v).regs k' = if k' = k then v :: st.regs k else st.regs k' := by
  cases k <;> cases k' <;> rfl

/-- Once the register is back, the two on top have at most to be turned. -/
theorem revs_pushed (havePop : Bool) (P : (Nat → FVal) → Prop) (s fs : Option Nat)
    {old : Stack} (e' : Emitter) (hst : Stashed k old target x y rest) (hwf : target.WellFormed)
    {md : Nat → Mode} (h : e.st = { target.popped k x ((target.regs k).erase x) with mode := md })
    (h' : e'.st = e.st.pushed k x) :
    ∃ e₂, emitRevs havePop target e' = some e₂ ∧ e₂.st = { target with mode := md } ∧
      Leads P e' s fs e₂ s fs := by
  obtain ⟨l, herase, hturn⟩ := hst.erase (hwf.nodup_regs k)
  have hturns : ∀ k', Turned (e'.st.regs k') (target.regs k') := fun k' => by
    have hregs : e.st.regs k' =
        (target.popped k x ((target.regs k).erase x)).regs k' := by rw [h]; cases k' <;> rfl
    have htop : e.st.regs k = y :: l := by
      rw [h, ← herase]
      cases k <;> rfl
    rw [h', Stack.regs_pushed]
    split
    · rename_i hk
      rw [htop, hk]
      exact hturn
    · rename_i hk
      rw [hregs, Stack.regs_popped, if_neg hk]
      exact .inl rfl
  obtain ⟨e₂, hemit, hst₂, hleads⟩ := emitRevs_spec havePop P s fs hturns
  refine ⟨e₂, hemit, ?_, hleads⟩
  have hregSet : e'.st.regSet = target.regSet := by
    have hpush : (e.st.pushed k x).regSet = insert x e.st.regSet := by cases k <;> rfl
    have hpop : e.st.regSet = target.regSet.erase x := by rw [h]; cases k <;> rfl
    rw [h', hpush, hpop, Finset.insert_erase (hwf.mem_regSet hst.mem)]
  have hmode : e'.st.mode = md := by
    rw [h', h]
    cases k <;> rfl
  rw [hst₂, ← hregSet, ← hmode]

/-- A call that stores a floating register and no integer register. -/
theorem swaps_fstore (havePop : Bool) (s : Option Nat) (fuel : Nat) (h : Reordered e.st target)
    (habc : e.st.abc.length ≤ 2) (hb : bottomMoves e.st target .fabc) :
    ∃ e' x y, emitSwaps havePop (fuel + 2) target e = some e' ∧
      e'.st = { target with mode := e.st.mode } ∧
      (∃ l, target.fabc = x :: y :: l ∨ target.fabc = y :: x :: l) ∧ Reloads x y e s e' s := by
  have hnd := h.wellFormed.nodup_regs .fabc
  obtain ⟨e₁, x, y, rest, hemit₁, hst, hst₁, hlast₁, hleads₁⟩ :=
    fstore_spec (P := fun fval => ∀ v, (fval v).mode = e.st.mode v) havePop s none h hb.1 habc
      fun fval h => h
  have h₁ := h.popped hst.mem hst.perm
  rw [← hst.tmpstack_eq h, ← hst₁] at h₁
  have htmp : tmpstack e₁.st target .fabc = target.popped .fabc x (target.fabc.erase x) := by
    rw [hst₁]
    exact hst.tmpstack_eq h
  have hlen : e₁.st.fabc.length = 2 := by
    have := hst.perm.length_eq.trans hb.1
    rw [hst₁]
    exact Nat.succ_injective this
  have habc₁ : e₁.st.abc = e.st.abc := by rw [hst₁]; rfl
  -- nothing more is stored: neither stack has three registers
  have hb₁ : ∀ k, ¬bottomMoves e₁.st (tmpstack e₁.st target .fabc) k := by
    rintro (_ | _) ⟨hthree, -⟩
    · rw [Stack.regs, habc₁] at hthree
      omega
    · rw [Stack.regs] at hthree
      omega
  obtain ⟨e₂, hemit₂, hst₂, hleads₂⟩ := swaps_simple havePop
    (fun fval => ∀ v, (fval v).mode = e.st.mode v) s (some x) fuel h₁ hb₁
  obtain ⟨l, herase, hturn⟩ := hst.erase hnd
  have hmode₁ : e₁.st.mode = e.st.mode := hleads₁.mode
  rw [htmp, hmode₁] at hst₂
  have hfabc₂ : e₂.st.fabc = y :: l := by
    rw [hst₂]
    exact herase
  have hnot : x ∉ e₂.st.fabc := by
    rw [hst₂]
    exact hnd.not_mem_erase
  have hlast₂ : e₂.lastStoredFpVirtual = x := hleads₂.flast (by simpa using hlast₁) x rfl
  have habc₂ : e₂.st.abc.length ≤ 2 := by
    rw [hst₂]
    exact (h.perm .abc).length_eq.symm.trans_le habc
  have hflen₂ : e₂.st.fabc.length ≤ 2 := by
    have hperm := (h₁.perm .fabc).length_eq
    rw [htmp] at hperm
    rw [hst₂]
    exact (hperm.symm.trans hlen).le
  obtain ⟨e₃, hemit₃, hst₃, hreloads⟩ := fload_spec havePop
    (hleads₁.trans hleads₂) hlast₂ hfabc₂ habc₂ hflen₂ hnot
  obtain ⟨e₄, hemit₄, hst₄, hleads₄⟩ :=
    revs_pushed havePop (fun _ => True) s none e₃ hst h.wellFormed hst₂ hst₃
  refine ⟨e₄, x, y, ?_, hst₄, hst.top, hreloads.leads hleads₄⟩
  have hnot₁ : ¬(e.st.abc.length = 3 ∧
      (e.st.abc[2]? ≠ target.abc[2]? ∨ bottomMoves e.st target .fabc)) := by
    rintro ⟨hthree, -⟩
    omega
  rw [emitSwaps, if_neg (not_not.mpr h.regSet), if_neg hnot₁, if_pos hb, hemit₁]
  simp only [Option.bind_eq_bind, Option.bind_some, hemit₂, hemit₃, hemit₄]

/-- What a call comes to: with the floating bottom in place it keeps everything, and otherwise one
of the two on top of the floating target is stored and loaded in the mode of the other. -/
def Outcome (e : Emitter) (s : Option Nat) (target : Stack) (e' : Emitter) (s' : Option Nat) :
    Prop :=
  (¬bottomMoves e.st target .fabc ∧ Leads (fun _ => True) e s none e' s' none) ∨
    (bottomMoves e.st target .fabc ∧ ∃ x y,
      (∃ l, target.fabc = x :: y :: l ∨ target.fabc = y :: x :: l) ∧ Reloads x y e s e' s')

theorem swaps_short (havePop : Bool) (s : Option Nat) (fuel : Nat) (h : Reordered e.st target)
    (habc : e.st.abc.length ≤ 2) :
    ∃ e', emitSwaps havePop (fuel + 2) target e = some e' ∧
      e'.st = { target with mode := e.st.mode } ∧ Outcome e s target e' s := by
  by_cases hb : bottomMoves e.st target .fabc
  · obtain ⟨e', x, y, hemit, hst, htop, hreloads⟩ := swaps_fstore havePop s fuel h habc hb
    exact ⟨e', hemit, hst, .inr ⟨hb, x, y, htop, hreloads⟩⟩
  · have hbs : ∀ k, ¬bottomMoves e.st target k := by
      rintro (_ | _) hk
      · have := hk.1
        rw [Stack.regs] at this
        omega
      · exact hb hk
    obtain ⟨e', hemit, hst, hleads⟩ :=
      swaps_simple havePop (fun _ => True) s none (fuel + 1) h hbs
    exact ⟨e', hemit, hst, .inl ⟨hb, hleads⟩⟩

theorem Outcome.last (h : Outcome e s target e' s₁) (hs : ∀ v ∈ s, e.lastStoredVirtual = v) :
    ∀ v ∈ s₁, e'.lastStoredVirtual = v := by
  obtain ⟨-, hleads⟩ | ⟨-, x, y, -, new, -, -, -, hlast, -⟩ := h
  · exact hleads.last hs
  · exact hlast hs

/-- Storing an integer register before and loading it after. -/
theorem Outcome.between {tmp : Stack} (h₁ : Leads (fun _ => True) e s none e₁ s₁ none)
    (hfabc : e₁.st.fabc = e.st.fabc) (htmp : tmp.fabc = target.fabc)
    (h : Outcome e₁ s₁ tmp e₂ s₁) (h₂ : Leads (fun _ => True) e₂ s₁ none e' s none) :
    Outcome e s target e' s := by
  have hb : bottomMoves e₁.st tmp .fabc ↔ bottomMoves e.st target .fabc := by
    simp only [bottomMoves, Stack.regs, hfabc, htmp]
  obtain ⟨hno, hleads⟩ | ⟨hyes, x, y, htop, hreloads⟩ := h
  · exact .inl ⟨mt hb.mpr hno, (h₁.trans hleads).trans h₂⟩
  · exact .inr ⟨hb.mp hyes, x, y, htmp ▸ htop, (h₁.reloads hreloads).leads h₂⟩

theorem swaps_spec (havePop : Bool) (fuel : Nat) (h : Reordered e.st target) :
    ∃ e', emitSwaps havePop (fuel + 3) target e = some e' ∧
      e'.st = { target with mode := e.st.mode } ∧ Outcome e none target e' none := by
  have hlen : e.st.abc.length ≤ 3 :=
    (h.perm .abc).length_eq.trans_le (h.wellFormed.length_le .abc)
  by_cases hbranch : e.st.abc.length = 3 ∧
      (e.st.abc[2]? ≠ target.abc[2]? ∨ bottomMoves e.st target .fabc)
  · obtain ⟨e₁, x, y, rest, hemit₁, hst, hst₁, hlast₁, hleads₁⟩ :=
      store_spec havePop (fun _ => True) none none h hbranch.1
    have h₁ := h.popped hst.mem hst.perm
    rw [← hst.tmpstack_eq h, ← hst₁] at h₁
    have htmp : tmpstack e₁.st target .abc = target.popped .abc x (target.abc.erase x) := by
      rw [hst₁]
      exact hst.tmpstack_eq h
    have hlen₁ : e₁.st.abc.length ≤ 2 := by
      have hperm := hst.perm.length_eq.trans hbranch.1
      rw [hst₁]
      exact (Nat.succ_injective hperm).le
    obtain ⟨e₂, hemit₂, hst₂, hout⟩ := swaps_short havePop (some x) fuel h₁ hlen₁
    have hlast₂ : e₂.lastStoredVirtual = x := hout.last (by simpa using hlast₁) x rfl
    have hlen₂ : e₂.st.abc.length ≤ 2 := by
      rw [hst₂]
      exact (h₁.perm .abc).length_eq.symm.trans_le hlen₁
    have hload : Emits havePop .abc (fun _ => True) [.load] e₂ (some x) none _ none none :=
      emits_load hlast₂ hlen₂
    obtain ⟨new, hemit₃, hleads₃⟩ := hload.leads rfl
    rw [htmp, hleads₁.mode] at hst₂
    obtain ⟨e₄, hemit₄, hst₄, hleads₄⟩ :=
      revs_pushed havePop (fun _ => True) none none
        { e₂ with st := e₂.st.pushed .abc x, out := new } hst h.wellFormed hst₂ rfl
    refine ⟨e₄, ?_, hst₄, ?_⟩
    · rw [emitSwaps, if_neg (not_not.mpr h.regSet), if_pos hbranch, hemit₁]
      simp only [Option.bind_eq_bind, Option.bind_some, hemit₂, hemit₃, hemit₄]
    · refine Outcome.between hleads₁ (by rw [hst₁]; rfl) ?_ hout (hleads₃.trans hleads₄)
      rw [htmp]
      rfl
  · by_cases hb : bottomMoves e.st target .fabc
    · refine swaps_short havePop none (fuel + 1) h ?_
      have hne : e.st.abc.length ≠ 3 := fun hthree => hbranch ⟨hthree, .inr hb⟩
      omega
    · have hbs : ∀ k, ¬bottomMoves e.st target k := by
        rintro (_ | _) hk
        · exact hbranch ⟨hk.1, .inl hk.2⟩
        · exact hb hk
      obtain ⟨e', hemit, hst, hleads⟩ :=
        swaps_simple havePop (fun _ => True) none none (fuel + 2) h hbs
      exact ⟨e', hemit, hst, .inl ⟨hb, hleads⟩⟩

/-! ### What is kept -/

theorem Holds.congr {val : Nat → Word} {fval fval' : Nat → FVal} {m : Machine}
    (h : Holds val fval st m) (hsame : ∀ v ∈ st.fabc, fval v = fval' v) :
    Holds val fval' st m :=
  ⟨h.abc, List.map_congr_left hsame ▸ h.fabc⟩

/-- The same cells hold one value of each register. -/
theorem Holds.unique {val : Nat → Word} {fval fval' : Nat → FVal} {m : Machine}
    (h : Holds val fval st m) (h' : Holds val fval' st m) (hv : v ∈ st.fabc) :
    fval v = fval' v := by
  have hprefix := List.prefix_of_prefix_length_le h.fabc h'.fabc (by simp)
  have heq := hprefix.eq_of_length (by simp)
  exact List.map_inj_left.mp heq v hv

theorem exists_cells {α : Type} (z : α) {l : List α} (hl : l.length ≤ 3) :
    ∃ c : Cells α, l <+: c.toList := by
  match l, hl with
  | [], _ => exact ⟨⟨z, z, z⟩, List.nil_prefix⟩
  | [a], _ => exact ⟨⟨a, z, z⟩, ⟨[z, z], rfl⟩⟩
  | [a, b], _ => exact ⟨⟨a, b, z⟩, ⟨[z], rfl⟩⟩
  | [a, b, c], _ => exact ⟨⟨a, b, c⟩, List.prefix_rfl⟩

/-- A value of a mode. -/
def Mode.zero : Mode → FVal
  | .sf => .sf 0
  | .df => .df 0 0

@[simp] theorem Mode.mode_zero (md : Mode) : md.zero.mode = md := by
  cases md <;> rfl

/-- The stacks of a record can have any contents. -/
theorem exists_holds (val : Nat → Word) (fval : Nat → FVal) (h : st.WellFormed) :
    ∃ m, Holds val fval st m := by
  obtain ⟨a, ha⟩ := exists_cells (0 : Word) (l := st.abc.map val) (by simpa using h.abc)
  obtain ⟨f, hf⟩ := exists_cells (FVal.sf 0) (l := st.fabc.map fval) (by simpa using h.fabc)
  exact ⟨⟨a, f, 0, fun _ => 0⟩, ha, hf⟩

theorem Reordered.source (h : Reordered st target) : st.WellFormed := by
  refine ⟨(h.perm .abc).length_eq.trans_le h.wellFormed.abc,
    (h.perm .fabc).length_eq.trans_le h.wellFormed.fabc, ?_, fun v => ?_⟩
  · exact ((h.perm .abc).append (h.perm .fabc)).nodup_iff.mpr h.wellFormed.nodup
  · rw [h.regSet, h.wellFormed.regSet]
    exact or_congr (h.perm .abc).mem_iff.symm (h.perm .fabc).mem_iff.symm

/-- The values of the registers of a record, and something of the right mode for the others. -/
def remoded (st : Stack) (fval : Nat → FVal) (v : Nat) : FVal :=
  if v ∈ st.fabc then fval v else (st.mode v).zero

theorem remoded_mode {fval : Nat → FVal} (h : Moded fval st) (v : Nat) :
    (remoded st fval v).mode = st.mode v := by
  unfold remoded
  split
  · exact h v ‹_›
  · exact Mode.mode_zero _

theorem remoded_eq (fval : Nat → FVal) (hv : v ∈ st.fabc) : remoded st fval v = fval v := if_pos hv

open Emitter (start)

/-- What keeps all the values of the record. -/
theorem Leads.keeps (h : Leads P (start st v x) none none e none none)
    (hP : ∀ fval, (∀ w, (fval w).mode = st.mode w) → P fval)
    (hsub : ∀ w ∈ e.st.fabc, w ∈ st.fabc) : e.Keeps st := by
  obtain ⟨new, hout, hspares, hdoes⟩ := h
  obtain rfl : e.out = new := hout
  refine ⟨fun u val fval m hholds hmoded => ?_, ?_, hspares⟩
  · have hfirst : Holds val (remoded st fval) st m :=
      hholds.congr fun w hw => (remoded_eq fval hw).symm
    obtain ⟨m', hrun, hm'⟩ := hdoes.run u val (remoded st fval) m
      (hP _ (remoded_mode hmoded)) ⟨hfirst, by simp, by simp⟩
    exact ⟨m', hrun, hm'.holds.congr fun w hw => remoded_eq fval (hsub w hw)⟩
  · have hroom : depths e.insns (st.abc.length, st.fabc.length) = some e.used := hdoes.room
    rw [hroom]
    rfl

/-- What is loaded in its mode is kept. -/
theorem Reloads.keeps_iff (h : Reloads x y (start st v w) none e none) (hwf : st.WellFormed)
    (hsub : ∀ w ∈ e.st.fabc, w ∈ st.fabc) (hx : x ∈ e.st.fabc) :
    e.Keeps st ↔ st.mode x = st.mode y := by
  obtain ⟨new, hout, hspares, -, -, hroom, hrun⟩ := h
  obtain rfl : e.out = new := hout
  constructor
  · intro hkeeps
    obtain ⟨m, hm⟩ := exists_holds (fun _ => 0) (fun v => (st.mode v).zero) hwf
    have hmoded : ∀ v, ((st.mode v).zero).mode = st.mode v := fun v => Mode.mode_zero _
    let u : Junk := ⟨fun _ => 0, fun _ => .sf 0⟩
    obtain ⟨m₁, hrun₁, hm₁⟩ := hkeeps.values u _ _ m hm fun v _ => hmoded v
    obtain ⟨m₂, z, hrun₂, hz, -, hm₂⟩ := hrun u _ _ m hmoded ⟨hm, by simp, by simp⟩
    obtain rfl : m₁ = m₂ := Option.some.inj (hrun₁.symm.trans hrun₂)
    have hsame := hm₁.unique hm₂.holds hx
    rw [Function.update_self] at hsame
    rw [← hmoded x, hsame]
    exact hz
  · intro hmode
    refine ⟨fun u val fval m hholds hmoded => ?_, ?_, hspares⟩
    · have hfirst : Holds val (remoded st fval) st m :=
        hholds.congr fun v hv => (remoded_eq fval hv).symm
      obtain ⟨m', z, hrun', -, hz, hm'⟩ := hrun u val (remoded st fval) m (remoded_mode hmoded)
        ⟨hfirst, by simp, by simp⟩
      rw [hz hmode, Function.update_eq_self] at hm'
      exact ⟨m', hrun', hm'.holds.congr fun v hv => remoded_eq fval (hsub v hv)⟩
    · have hroom : depths e.insns (st.abc.length, st.fabc.length) = some e.used := hroom
      rw [hroom]
      rfl

/-- The swaps are right: the record becomes the target, and every register is kept. -/
def SwapsRight (havePop : Bool) (st target : Stack) : Prop :=
  ∀ fuel ≥ 3, ∀ v w, ∃ e, emitSwaps havePop fuel target (start st v w) = some e ∧
    e.Keeps st ∧ e.st = { target with mode := st.mode }

/-- A floating register that has to be stored is loaded in its own mode: the two that the target
has on top have the same. -/
def ReloadedInMode (st target : Stack) : Prop :=
  bottomMoves st target .fabc →
    target.fabc[0]?.map st.mode = target.fabc[1]?.map st.mode

theorem swaps_right_iff (havePop : Bool) (h : Reordered st target) :
    SwapsRight havePop st target ↔ ReloadedInMode st target := by
  have hsub : ∀ v ∈ target.fabc, v ∈ st.fabc := fun v => (h.perm .fabc).mem_iff.mpr
  have hright : ∀ fuel v w, ∃ e, emitSwaps havePop (fuel + 3) target (start st v w) = some e ∧
      e.st = { target with mode := st.mode } ∧ (e.Keeps st ↔ ReloadedInMode st target) := by
    intro fuel v w
    obtain ⟨e, hemit, hst, hout⟩ :=
      swaps_spec (e := start st v w) havePop fuel h
    have hsub' : ∀ v ∈ e.st.fabc, v ∈ st.fabc := by
      rw [hst]
      exact hsub
    refine ⟨e, hemit, hst, ?_⟩
    obtain ⟨hno, hleads⟩ | ⟨hyes, x, y, ⟨l, htop⟩, hreloads⟩ := hout
    · exact iff_of_true (hleads.keeps (fun _ _ => trivial) hsub') fun hb => absurd hb hno
    · have hx : x ∈ e.st.fabc := by
        rw [hst]
        obtain htop | htop := htop <;> simp [htop]
      rw [hreloads.keeps_iff h.source hsub' hx]
      obtain htop | htop := htop
      · simp [ReloadedInMode, show bottomMoves st target .fabc from hyes, htop]
      · simp [ReloadedInMode, show bottomMoves st target .fabc from hyes, htop, eq_comm]
  constructor
  · intro hall
    obtain ⟨e, hemit, hkeeps, -⟩ := hall 3 (Nat.le_refl 3) 0 0
    obtain ⟨e', hemit', -, hiff⟩ := hright 0 0 0
    obtain rfl : e = e' := Option.some.inj (hemit.symm.trans hemit')
    exact hiff.mp hkeeps
  · intro hmode fuel hfuel v w
    obtain ⟨n, rfl⟩ := Nat.exists_eq_add_of_le' hfuel
    obtain ⟨e, hemit, hst, hiff⟩ := hright n v w
    exact ⟨e, hemit, hiff.mpr hmode, hst⟩

end Ttools.T800
