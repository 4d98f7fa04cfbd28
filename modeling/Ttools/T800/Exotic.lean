import Mathlib.Data.List.Basic
import Mathlib.Logic.Function.Basic

/-!
# Operands in distinct registers

The pass `exotic` of `gcc-2.7.2/exotic.c`: where an insn has the same pseudo in two of its
operands, it is copied to a new one before the insn.

* `find_spec`: what is changed in an insn, and that every pair of operands is settled.
* `separable_iff`: when the insn takes no pseudo through two operands afterwards.
-/

namespace Ttools.T800.Exotic

/-! ### The pass -/

/-- An operand; all that is not a register has an address or is a constant. -/
inductive Rtx where
  | reg (r : Nat)
  | subreg (x : Rtx) (word : Nat)
  | mem (addr : Rtx)
  | plus (x y : Rtx)
  | const (n : Int)
  deriving DecidableEq, Repr

namespace Rtx

/-- The register, under a SUBREG too. -/
def reg? : Rtx → Option Nat
  | reg r => some r
  | subreg (reg r) _ => some r
  | _ => none

/-- The register is replaced. -/
def withReg (n : Nat) : Rtx → Rtx
  | subreg _ w => subreg (reg n) w
  | _ => reg n

/-- All registers in it. -/
def regs : Rtx → List Nat
  | reg r => [r]
  | subreg x _ => x.regs
  | mem a => a.regs
  | plus x y => x.regs ++ y.regs
  | const _ => []

end Rtx

/-- `FIRST_PSEUDO_REGISTER`. -/
def firstPseudo : Nat := 9

/-- The first letter of a constraint: `=`, `+` or anything else. -/
inductive Letter where
  | output | inout | input
  deriving DecidableEq, Repr

/-- An operand with its constraint. -/
structure Operand where
  letter : Letter
  rtx : Rtx
  deriving DecidableEq, Repr

/-- An insn that has been recognized: its code, `recog_operand` and the duplicates with the numbers
of their operands. -/
structure Insn where
  code : Nat
  operands : List Operand
  dups : List (Nat × Rtx)
  deriving DecidableEq, Repr

/-- What is in the list: labels, what is passed over, insns, and the moves that are emitted. -/
inductive Item where
  | label (n : Nat)
  | skipped (code : Nat)
  | insn (x : Insn)
  | move (dst src : Nat)
  deriving DecidableEq, Repr

/-- The register of an operand that is not only an output. -/
def Operand.input? (o : Operand) : Option Nat := if o.letter = .output then none else o.rtx.reg?

/-- The insn with another register in an operand and its duplicates. -/
def Insn.replace (x : Insn) (k n : Nat) : Insn :=
  { x with
    operands := x.operands.modify k fun o => { o with rtx := o.rtx.withReg n }
    dups := x.dups.map fun d => if d.1 = k then (d.1, d.2.withReg n) else d }

/-- An insn that is being changed, the moves before it, and the next pseudo. -/
structure Fixing where
  insn : Insn
  moves : List (Nat × Nat)
  next : Nat
  deriving DecidableEq, Repr

/-- The operand that is given a new register; `none` is `abort ()`. -/
def chosen (x : Insn) (i j : Nat) : Option Nat :=
  if (x.operands[i]?).map (·.letter) ≠ some .inout then some i
  else if (x.operands[j]?).map (·.letter) ≠ some .inout then some j
  else none

/-- `fix_multiple_reg_references`. -/
def fixMultipleRegReferences (i j : Nat) (s : Fixing) : Option Fixing :=
  (chosen s.insn i j).bind fun k =>
    ((s.insn.operands[k]?).bind fun o => o.rtx.reg?).bind fun r =>
      if s.insn.dups.all fun d => d.1 != k || d.2.reg?.isSome then
        some ⟨s.insn.replace k s.next, s.moves ++ [(s.next, r)], s.next + 1⟩
      else none

/-- What `recog_operand` points to: a SUBREG is changed in the insn, a REG is another one then. -/
def seen (before now : Rtx) : Rtx :=
  match before with
  | .subreg _ _ => now
  | _ => before

/-- The register that is compared. -/
def register (x : Insn) (s : Fixing) (k : Nat) : Option Nat :=
  (x.operands[k]?).bind fun o => (s.insn.operands[k]?).bind fun now =>
    Operand.input? ⟨o.letter, seen o.rtx now.rtx⟩

/-- The inner loop, at one operand. -/
def comparePair (x : Insn) (i r : Nat) (s : Fixing) (j : Nat) : Option Fixing :=
  if register x s j = some r ∧ firstPseudo ≤ r then fixMultipleRegReferences i j s else some s

/-- The outer loop, at one operand. -/
def compareAll (x : Insn) (s : Fixing) (i : Nat) : Option Fixing :=
  match register x s i with
  | none => some s
  | some r => (List.range i).reverse.foldlM (comparePair x i r) s

/-- `find_multiple_reg_references`. -/
def findMultipleRegReferences (x : Insn) (next : Nat) : Option Fixing :=
  (List.range x.operands.length).reverse.foldlM (compareAll x) ⟨x, [], next⟩

/-- `exotic`; the pseudos from `next` on are new. -/
def exotic : Nat → List Item → Option (List Item)
  | _, [] => some []
  | next, .insn x :: l =>
      (findMultipleRegReferences x next).bind fun s =>
        (exotic s.next l).map fun l' =>
          s.moves.map (fun m => .move m.1 m.2) ++ .insn s.insn :: l'
  | next, y :: l => (exotic next l).map (y :: ·)

/-! ### What is changed -/

/-- The insn with new registers in some operands and their duplicates. -/
def Insn.renamed (x : Insn) (σ : Nat → Option Nat) : Insn :=
  { x with
    operands := x.operands.mapIdx fun k o =>
      { o with rtx := ((σ k).map fun n => o.rtx.withReg n).getD o.rtx }
    dups := x.dups.map fun d => (d.1, ((σ d.1).map fun n => d.2.withReg n).getD d.2) }

/-- The input register of an operand. -/
def Insn.input? (x : Insn) (k : Nat) : Option Nat := (x.operands[k]?).bind Operand.input?

/-- The constraint of an operand. -/
def Insn.letter? (x : Insn) (k : Nat) : Option Letter := (x.operands[k]?).map (·.letter)

/-- Two operands are the same pseudo. -/
def Insn.Clash (x : Insn) (i j : Nat) : Prop :=
  i ≠ j ∧ ∃ p, firstPseudo ≤ p ∧ x.input? i = some p ∧ x.input? j = some p

/-- Both can be stored. -/
def Insn.Both (x : Insn) (i j : Nat) : Prop :=
  x.letter? i = some .inout ∧ x.letter? j = some .inout

/-- The moves one after the other. -/
def runMoves {V : Type} (moves : List (Nat × Nat)) (regs : Nat → V) : Nat → V :=
  moves.foldl (fun regs m => Function.update regs m.1 (regs m.2)) regs

/-- The duplicates are those of their operands, and no register is new. -/
structure Insn.WF (x : Insn) (base : Nat) : Prop where
  dups : ∀ d ∈ x.dups, ∃ o, x.operands[d.1]? = some o ∧ d.2 = o.rtx
  regs : ∀ o ∈ x.operands, ∀ r ∈ o.rtx.regs, r < base

/-- An insn with new registers in some operands. -/
structure Fixed (x : Insn) (base : Nat) (s : Fixing) (σ : Nat → Option Nat) : Prop where
  insn : s.insn = x.renamed σ
  base_le : base ≤ s.next
  fresh : ∀ k n, σ k = some n → base ≤ n ∧ n < s.next
  inj : ∀ k k' n, σ k = some n → σ k' = some n → k = k'
  clash : ∀ k n, σ k = some n → x.letter? k ≠ some .inout ∧
    ∃ j, x.Clash k j ∧ (j < k ∨ x.letter? j = some .inout)
  moves : ∀ {V : Type} (regs : Nat → V), (∀ r < base, runMoves s.moves regs r = regs r) ∧
    ∀ k n p, σ k = some n → x.input? k = some p → runMoves s.moves regs n = regs p

section

variable {x : Insn} {base i j k n r p : Nat} {s s' : Fixing} {σ : Nat → Option Nat} {o : Operand}
  {y : Rtx}

theorem reg?_withReg : (y.withReg n).reg? = some n := by
  cases y <;> rfl

theorem withReg_withReg {m : Nat} : (y.withReg n).withReg m = y.withReg m := by
  cases y <;> rfl

theorem renamed_none : x.renamed (fun _ => none) = x := by
  obtain ⟨code, operands, dups⟩ := x
  have hops : operands.mapIdx (fun _ o => o) = operands := by
    refine List.ext_getElem? fun k => ?_
    rw [List.getElem?_mapIdx, Option.map_id']
  have hdups : dups.map (fun d => d) = dups := List.map_id _
  exact congrArg₂ (Insn.mk code) hops hdups

theorem renamed_operand (h : x.operands[k]? = some o) : (x.renamed σ).operands[k]? =
    some ⟨o.letter, ((σ k).map fun n => o.rtx.withReg n).getD o.rtx⟩ := by
  rw [Insn.renamed, List.getElem?_mapIdx, h]
  rfl

theorem renamed_letter : (x.renamed σ).letter? k = x.letter? k := by
  rw [Insn.letter?, Insn.letter?]
  cases h : x.operands[k]? with
  | none =>
      rw [Insn.renamed, List.getElem?_mapIdx, h]
      rfl
  | some o => rw [renamed_operand h]; rfl

theorem renamed_replace : (x.renamed σ).replace k n = x.renamed (Function.update σ k (some n)) := by
  refine congrArg₂ (Insn.mk x.code) (List.ext_getElem? fun l => ?_) ?_
  · rw [Insn.renamed, List.getElem?_modify, List.getElem?_mapIdx, List.getElem?_mapIdx]
    cases x.operands[l]? with
    | none => rfl
    | some o =>
        simp only [Option.map_eq_map, Option.map_some]
        by_cases h : k = l
        · subst h
          rw [if_pos rfl, Function.update_self]
          cases σ k with
          | none => rfl
          | some m => exact congrArg (fun y => some (Operand.mk o.letter y)) withReg_withReg
        · rw [if_neg h, Function.update_of_ne (Ne.symm h)]
  · rw [Insn.renamed, List.map_map]
    refine List.map_congr_left fun d _ => ?_
    by_cases h : d.1 = k
    · subst h
      rw [Function.comp, if_pos rfl, Function.update_self]
      cases σ d.1 with
      | none => rfl
      | some m => exact congrArg (Prod.mk d.1) withReg_withReg
    · rw [Function.comp, if_neg h, Function.update_of_ne h]

theorem Fixed.refl (x : Insn) (base : Nat) : Fixed x base ⟨x, [], base⟩ fun _ => none := by
  refine ⟨renamed_none.symm, Nat.le_refl base, nofun, nofun, nofun, fun regs => ?_⟩
  exact ⟨fun r _ => rfl, nofun⟩

theorem input?_eq (h : x.input? k = some p) :
    ∃ o, x.operands[k]? = some o ∧ o.letter ≠ .output ∧ o.rtx.reg? = some p := by
  obtain ⟨o, ho, hp⟩ := Option.bind_eq_some_iff.mp h
  rw [Operand.input?] at hp
  split at hp
  · cases hp
  · next hout => exact ⟨o, ho, hout, hp⟩

theorem mem_regs (h : y.reg? = some p) : p ∈ y.regs := by
  unfold Rtx.reg? at h
  split at h
  · obtain rfl := Option.some.inj h
    exact List.mem_singleton_self _
  · obtain rfl := Option.some.inj h
    exact List.mem_singleton_self _
  · cases h

theorem Insn.WF.input_lt (hx : x.WF base) (h : x.input? k = some p) : p < base := by
  obtain ⟨o, ho, -, hp⟩ := input?_eq h
  exact hx.regs o (List.mem_of_getElem? ho) p (mem_regs hp)

theorem Insn.Clash.symm (h : x.Clash i j) : x.Clash j i := by
  obtain ⟨hne, p, hp, hi, hj⟩ := h
  exact ⟨hne.symm, p, hp, hj, hi⟩

/-- What the register of an operand is now. -/
theorem reg?_renamed (h : y.reg? = some p) :
    (((σ k).map fun n => y.withReg n).getD y).reg? = some ((σ k).getD p) := by
  cases σ k with
  | none => exact h
  | some n => exact reg?_withReg

theorem Fixed.not_both (h : Fixed x base s σ) (hset : σ i ≠ none ∨ σ j ≠ none) : ¬x.Both i j := by
  rintro ⟨hi, hj⟩
  obtain hset | hset := hset
  · obtain ⟨n, hn⟩ := Option.ne_none_iff_exists'.mp hset
    exact (h.clash i n hn).1 hi
  · obtain ⟨n, hn⟩ := Option.ne_none_iff_exists'.mp hset
    exact (h.clash j n hn).1 hj

/-- An operand that is neither an output nor stored is given a new register. -/
theorem Fixed.update (h : Fixed x base s σ) (hx : x.WF base)
    (hletter : x.letter? k ≠ some .inout)
    (hclash : ∃ j, x.Clash k j ∧ (j < k ∨ x.letter? j = some .inout)) (hp : x.input? k = some p) :
    Fixed x base ⟨s.insn.replace k s.next, s.moves ++ [(s.next, (σ k).getD p)], s.next + 1⟩
      (Function.update σ k (some s.next)) := by
  have hnext := h.base_le
  have hlt := hx.input_lt hp
  refine ⟨?_, Nat.le_succ_of_le hnext, fun l n hn => ?_, fun l l' n hn hn' => ?_,
    fun l n hn => ?_, fun regs => ?_⟩
  · rw [← renamed_replace, ← h.insn]
  · by_cases hl : l = k
    · subst hl
      rw [Function.update_self] at hn
      obtain rfl := Option.some.inj hn
      exact ⟨hnext, Nat.lt_succ_self _⟩
    · rw [Function.update_of_ne hl] at hn
      obtain ⟨hge, hltn⟩ := h.fresh l n hn
      exact ⟨hge, Nat.lt_succ_of_lt hltn⟩
  · by_cases hl : l = k <;> by_cases hl' : l' = k
    · rw [hl, hl']
    · subst hl
      rw [Function.update_self] at hn
      rw [Function.update_of_ne hl'] at hn'
      obtain rfl := Option.some.inj hn
      exact absurd (h.fresh l' _ hn').2 (Nat.lt_irrefl _)
    · subst hl'
      rw [Function.update_self] at hn'
      rw [Function.update_of_ne hl] at hn
      obtain rfl := Option.some.inj hn'
      exact absurd (h.fresh l _ hn).2 (Nat.lt_irrefl _)
    · rw [Function.update_of_ne hl] at hn
      rw [Function.update_of_ne hl'] at hn'
      exact h.inj l l' n hn hn'
  · by_cases hl : l = k
    · subst hl
      exact ⟨hletter, hclash⟩
    · rw [Function.update_of_ne hl] at hn
      exact h.clash l n hn
  · obtain ⟨hold, hnew⟩ := h.moves regs
    have hrun : runMoves (s.moves ++ [(s.next, (σ k).getD p)]) regs =
        Function.update (runMoves s.moves regs) s.next (runMoves s.moves regs ((σ k).getD p)) :=
      List.foldl_concat _ _ _ _
    rw [hrun]
    refine ⟨fun r hr => ?_, fun l n q hn hq => ?_⟩
    · rw [Function.update_of_ne (Nat.ne_of_lt (Nat.lt_of_lt_of_le hr hnext)), hold r hr]
    · by_cases hl : l = k
      · subst hl
        rw [Function.update_self] at hn
        obtain rfl := Option.some.inj hn
        obtain rfl := Option.some.inj (hp.symm.trans hq)
        rw [Function.update_self]
        cases hσ : σ l with
        | none => exact hold p hlt
        | some m => exact hnew l m p hσ hp
      · rw [Function.update_of_ne hl] at hn
        rw [Function.update_of_ne (Nat.ne_of_lt (h.fresh l n hn).2), hnew l n q hn hq]

/-- One of two operands with the same pseudo is given a new register, if not both are stored. -/
theorem Fixed.fix (h : Fixed x base s σ) (hx : x.WF base) (hclash : x.Clash i j) (hlt : j < i) :
    fixMultipleRegReferences i j s = none ∧ x.Both i j ∨
      ∃ s' k, (k = i ∨ k = j) ∧ fixMultipleRegReferences i j s = some s' ∧
        Fixed x base s' (Function.update σ k (some s.next)) := by
  have hletter (l : Nat) : (s.insn.operands[l]?).map (·.letter) = x.letter? l := by
    rw [h.insn]
    exact renamed_letter
  have hfix (k : Nat) (hk : x.letter? k ≠ some .inout)
      (hc : ∃ j, x.Clash k j ∧ (j < k ∨ x.letter? j = some .inout)) :
      ∃ s', (((s.insn.operands[k]?).bind fun o => o.rtx.reg?).bind fun r =>
          if (s.insn.dups.all fun d => d.1 != k || d.2.reg?.isSome) = true then
            some (Fixing.mk (s.insn.replace k s.next) (s.moves ++ [(s.next, r)]) (s.next + 1))
          else none) = some s' ∧ Fixed x base s' (Function.update σ k (some s.next)) := by
    have hclash' := hc
    obtain ⟨_, ⟨-, p, -, hp, -⟩, -⟩ := hclash'
    obtain ⟨o, ho, -, hreg⟩ := input?_eq hp
    have hnow : (s.insn.operands[k]?).bind (fun o => o.rtx.reg?) = some ((σ k).getD p) := by
      rw [h.insn, renamed_operand ho]
      exact reg?_renamed hreg
    have hdups : (s.insn.dups.all fun d => d.1 != k || d.2.reg?.isSome) = true := by
      rw [h.insn, Insn.renamed, List.all_map, List.all_eq_true]
      intro d hd
      obtain ⟨o', ho', heq⟩ := hx.dups d hd
      by_cases hk : d.1 = k
      · subst hk
        obtain rfl := Option.some.inj (ho.symm.trans ho')
        have hsome := reg?_renamed (k := d.1) (σ := σ) (heq ▸ hreg)
        rw [Function.comp, hsome, Option.isSome_some, Bool.or_true]
      · rw [Function.comp, bne_iff_ne.mpr hk, Bool.true_or]
    rw [hnow, Option.bind_some, if_pos hdups]
    exact ⟨_, rfl, h.update hx hk hc hp⟩
  rw [fixMultipleRegReferences, chosen, hletter, hletter]
  by_cases hi : x.letter? i = some .inout
  · rw [if_neg (not_not.mpr hi)]
    by_cases hj : x.letter? j = some .inout
    · rw [if_neg (not_not.mpr hj)]
      exact .inl ⟨rfl, hi, hj⟩
    · rw [if_pos hj]
      obtain ⟨s', hs', hfixed⟩ := hfix j hj ⟨i, hclash.symm, .inr hi⟩
      exact .inr ⟨s', j, .inr rfl, hs', hfixed⟩
  · rw [if_pos hi]
    obtain ⟨s', hs', hfixed⟩ := hfix i hi ⟨j, hclash, .inl hlt⟩
    exact .inr ⟨s', i, .inl rfl, hs', hfixed⟩

/-- Until an operand is given a new register, it is compared by its own. -/
theorem Fixed.register_none (h : Fixed x base s σ) (hk : σ k = none) :
    register x s k = x.input? k := by
  rw [register, Insn.input?]
  cases ho : x.operands[k]? with
  | none => rfl
  | some o =>
      have hseen : seen o.rtx o.rtx = o.rtx := by
        cases o.rtx <;> rfl
      rw [h.insn, Option.bind_some, renamed_operand ho, Option.bind_some, hk, Option.bind_some]
      exact congrArg (fun y => Operand.input? ⟨o.letter, y⟩) hseen

/-- Then it is compared by the new one, or still by its own. -/
theorem Fixed.register_some (h : Fixed x base s σ) (hr : register x s k = some r) :
    x.input? k = some r ∨ σ k = some r := by
  cases hk : σ k with
  | none => exact .inl (h.register_none hk ▸ hr)
  | some n =>
      obtain ⟨o, ho, hr⟩ := Option.bind_eq_some_iff.mp hr
      rw [h.insn, renamed_operand ho, hk, Option.bind_some] at hr
      have hinput : x.input? k = o.input? := by
        rw [Insn.input?, ho, Option.bind_some]
      rw [hinput]
      by_cases hsub : ∃ y w, o.rtx = .subreg y w
      · obtain ⟨y, w, hsub⟩ := hsub
        rw [Operand.input?] at hr
        split at hr
        · cases hr
        · rw [hsub] at hr
          exact .inr hr
      · have hseen (z : Rtx) : seen o.rtx z = o.rtx := by
          cases hrtx : o.rtx with
          | subreg y w => exact absurd ⟨y, w, hrtx⟩ hsub
          | _ => rfl
        rw [hseen] at hr
        exact .inl hr

/-- What some turns of a loop do: all stays settled, and the pairs are, or two of them that are both
stored are the same pseudo. -/
def Goes (x : Insn) (base : Nat) (σ : Nat → Option Nat) (pairs : Nat → Nat → Prop)
    (result : Option Fixing) : Prop :=
  result = none ∧ (∃ i j, pairs i j ∧ x.Clash i j ∧ x.Both i j) ∨
    ∃ s' σ', result = some s' ∧ Fixed x base s' σ' ∧ (∀ k, σ k ≠ none → σ' k ≠ none) ∧
      ∀ i j, pairs i j → x.Clash i j → σ' i ≠ none ∨ σ' j ≠ none

theorem Fixed.comparePair (h : Fixed x base s σ) (hx : x.WF base) (hlt : j < i)
    (hr : x.input? i = some r ∨ σ i = some r) :
    comparePair x i r s j = none ∧ x.Clash i j ∧ x.Both i j ∨
      ∃ s' σ', comparePair x i r s j = some s' ∧ Fixed x base s' σ' ∧
        (∀ k, σ k ≠ none → σ' k ≠ none) ∧ (x.input? i = some r ∨ σ' i = some r) ∧
          (x.Clash i j → σ' i ≠ none ∨ σ' j ≠ none) := by
  rw [Exotic.comparePair]
  obtain hr | hr := hr
  · by_cases hmatch : register x s j = some r ∧ firstPseudo ≤ r
    · rw [if_pos hmatch]
      have hj : x.input? j = some r := by
        obtain hj | hj := h.register_some hmatch.1
        · exact hj
        · exact absurd (hx.input_lt hr) (Nat.not_lt.mpr (h.fresh j r hj).1)
      have hclash : x.Clash i j := ⟨(Nat.ne_of_lt hlt).symm, r, hmatch.2, hr, hj⟩
      obtain ⟨hnone, hboth⟩ | ⟨s', k, hk, hs', hfixed⟩ := h.fix hx hclash hlt
      · exact .inl ⟨hnone, hclash, hboth⟩
      · refine .inr ⟨s', _, hs', hfixed, fun l hl => ?_, .inl hr, fun _ => ?_⟩
        · by_cases hlk : l = k
          · rw [hlk, Function.update_self]
            exact Option.some_ne_none _
          · rwa [Function.update_of_ne hlk]
        · obtain rfl | rfl := hk
          · rw [Function.update_self]
            exact .inl (Option.some_ne_none _)
          · rw [Function.update_self]
            exact .inr (Option.some_ne_none _)
    · rw [if_neg hmatch]
      refine .inr ⟨s, σ, rfl, h, fun k hk => hk, .inl hr, fun hclash => ?_⟩
      obtain ⟨-, p, hp, hi, hj⟩ := hclash
      obtain rfl := Option.some.inj (hi.symm.trans hr)
      refine .inr fun hnone => hmatch ⟨?_, hp⟩
      rw [h.register_none hnone, hj]
  · -- the operand has a new register already, which no other one has
    have hne : ¬(register x s j = some r ∧ firstPseudo ≤ r) := by
      rintro ⟨hreg, -⟩
      obtain hj | hj := h.register_some hreg
      · exact absurd (hx.input_lt hj) (Nat.not_lt.mpr (h.fresh i r hr).1)
      · exact absurd (h.inj i j r hr hj) (Nat.ne_of_lt hlt).symm
    rw [if_neg hne]
    refine .inr ⟨s, σ, rfl, h, fun k hk => hk, .inr hr, fun _ => .inl ?_⟩
    rw [hr]
    exact Option.some_ne_none r

theorem Fixed.comparePairs (hx : x.WF base) (l : List Nat) (hl : ∀ j ∈ l, j < i)
    (h : Fixed x base s σ) (hr : x.input? i = some r ∨ σ i = some r) :
    Goes x base σ (fun i' j => i' = i ∧ j ∈ l) (l.foldlM (Exotic.comparePair x i r) s) := by
  induction l generalizing s σ with
  | nil => exact .inr ⟨s, σ, rfl, h, fun k hk => hk, fun i j hij => absurd hij.2 List.not_mem_nil⟩
  | cons j l ih =>
      obtain ⟨hj, hl⟩ := List.forall_mem_cons.mp hl
      rw [List.foldlM_cons]
      obtain ⟨hnone, hclash, hboth⟩ | ⟨s', σ', hs', hfixed, hmono, hr', hset⟩ :=
        h.comparePair hx hj hr
      · rw [hnone]
        exact .inl ⟨rfl, i, j, ⟨rfl, List.mem_cons_self⟩, hclash, hboth⟩
      · rw [hs']
        obtain ⟨hnone, i', j', ⟨rfl, hj'⟩, hrest⟩ | ⟨s'', σ'', hs'', hfixed', hmono', hset'⟩ :=
          ih hl hfixed hr'
        · exact .inl ⟨hnone, i', j', ⟨rfl, List.mem_cons_of_mem j hj'⟩, hrest⟩
        · refine .inr ⟨s'', σ'', hs'', hfixed', fun k hk => hmono' k (hmono k hk), ?_⟩
          rintro i' j' ⟨rfl, hj'⟩ hclash
          obtain rfl | hj' := List.mem_cons.mp hj'
          · exact (hset hclash).imp (hmono' _) (hmono' _)
          · exact hset' i' j' ⟨rfl, hj'⟩ hclash

theorem Fixed.compareAll (h : Fixed x base s σ) (hx : x.WF base) (i : Nat) :
    Goes x base σ (fun i' j => i' = i ∧ j < i) (compareAll x s i) := by
  rw [Exotic.compareAll]
  split
  · next hnone =>
      refine .inr ⟨s, σ, rfl, h, fun k hk => hk, ?_⟩
      rintro i' j ⟨rfl, -⟩ ⟨-, p, -, hi, -⟩
      refine .inl fun hσ => ?_
      rw [h.register_none hσ, hi] at hnone
      cases hnone
  · next r hr =>
      have hmem (j : Nat) : j ∈ (List.range i).reverse ↔ j < i := by
        rw [List.mem_reverse, List.mem_range]
      have hgoes := Fixed.comparePairs hx (List.range i).reverse (fun j hj => (hmem j).mp hj) h
        (h.register_some hr)
      simpa only [Goes, hmem] using hgoes

theorem Fixed.compareRows (hx : x.WF base) (l : List Nat) (h : Fixed x base s σ) :
    Goes x base σ (fun i j => i ∈ l ∧ j < i) (l.foldlM (Exotic.compareAll x) s) := by
  induction l generalizing s σ with
  | nil => exact .inr ⟨s, σ, rfl, h, fun k hk => hk, fun i j hij => absurd hij.1 List.not_mem_nil⟩
  | cons i l ih =>
      rw [List.foldlM_cons]
      obtain ⟨hnone, i', j, ⟨rfl, hj⟩, hrest⟩ | ⟨s', σ', hs', hfixed, hmono, hset⟩ :=
        h.compareAll hx i
      · rw [hnone]
        exact .inl ⟨rfl, i', j, ⟨List.mem_cons_self, hj⟩, hrest⟩
      · rw [hs']
        obtain ⟨hnone, i', j, ⟨hi', hj⟩, hrest⟩ | ⟨s'', σ'', hs'', hfixed', hmono', hset'⟩ :=
          ih hfixed
        · exact .inl ⟨hnone, i', j, ⟨List.mem_cons_of_mem i hi', hj⟩, hrest⟩
        · refine .inr ⟨s'', σ'', hs'', hfixed', fun k hk => hmono' k (hmono k hk), ?_⟩
          rintro i' j ⟨hi', hj⟩ hclash
          obtain rfl | hi' := List.mem_cons.mp hi'
          · exact (hset i' j ⟨rfl, hj⟩ hclash).imp (hmono' _) (hmono' _)
          · exact hset' i' j ⟨hi', hj⟩ hclash

/-- The two loops settle every pair of operands with the same pseudo, or come to a pair of which
both are stored. -/
theorem find_spec (hx : x.WF base) :
    findMultipleRegReferences x base = none ∧ (∃ i j, x.Clash i j ∧ x.Both i j) ∨
      ∃ s σ, findMultipleRegReferences x base = some s ∧ Fixed x base s σ ∧
        ∀ i j, x.Clash i j → σ i ≠ none ∨ σ j ≠ none := by
  have hmem (i : Nat) : i ∈ (List.range x.operands.length).reverse ↔ i < x.operands.length := by
    rw [List.mem_reverse, List.mem_range]
  have hlen (i p : Nat) (h : x.input? i = some p) : i < x.operands.length := by
    obtain ⟨o, ho, -⟩ := input?_eq h
    exact (List.getElem?_eq_some_iff.mp ho).1
  obtain ⟨hnone, i, j, -, hrest⟩ | ⟨s, σ, hs, hfixed, -, hset⟩ :=
    Fixed.compareRows hx (List.range x.operands.length).reverse (.refl x base)
  · exact .inl ⟨hnone, i, j, hrest⟩
  · refine .inr ⟨s, σ, hs, hfixed, fun i j hclash => ?_⟩
    have hclash' := hclash
    obtain ⟨hne, p, -, hi, hj⟩ := hclash'
    obtain hlt | hlt := Nat.lt_or_gt_of_ne hne
    · exact (hset j i ⟨(hmem j).mpr (hlen j p hj), hlt⟩ hclash.symm).symm
    · exact hset i j ⟨(hmem i).mpr (hlen i p hi), hlt⟩ hclash

end

/-! ### Pseudos in two operands -/

/-- The registers that an operand takes: it itself, if it is not only an output, or those of its
address. -/
def Operand.uses (o : Operand) : List Nat :=
  if o.rtx.reg?.isSome = true then o.input?.toList else o.rtx.regs

/-- The registers that an operand of the insn takes. -/
def Insn.uses (x : Insn) (k : Nat) : List Nat := ((x.operands[k]?).map (·.uses)).getD []

/-- Two operands take the same pseudo. -/
def Insn.Doubly (x : Insn) : Prop :=
  ∃ i j p, i ≠ j ∧ firstPseudo ≤ p ∧ p ∈ x.uses i ∧ p ∈ x.uses j

/-- Operands that take the same pseudo are that register, and not both are stored. -/
def Insn.Separable (x : Insn) : Prop :=
  ∀ i j p, i ≠ j → firstPseudo ≤ p → p ∈ x.uses i → p ∈ x.uses j → x.Clash i j ∧ ¬x.Both i j

section

variable {x : Insn} {base i j k n p : Nat} {s : Fixing} {σ : Nat → Option Nat} {o : Operand}

theorem uses_of_input (h : x.input? k = some p) : x.uses k = [p] := by
  obtain ⟨o, ho, hout, hp⟩ := input?_eq h
  rw [Insn.uses, ho, Option.map_some, Option.getD_some, Operand.uses, hp, Option.isSome_some,
    if_pos rfl, Operand.input?, if_neg hout, hp]
  rfl

/-- What takes a register that is no operand has it in an address. -/
theorem of_uses (h : p ∈ x.uses k) : x.input? k = some p ∨
    ∃ o, x.operands[k]? = some o ∧ o.rtx.reg? = none ∧ p ∈ o.rtx.regs := by
  cases ho : x.operands[k]? with
  | none =>
      rw [Insn.uses, ho] at h
      cases h
  | some o =>
      rw [Insn.uses, ho, Option.map_some, Option.getD_some, Operand.uses] at h
      split at h
      · refine .inl ?_
        rw [Insn.input?, ho, Option.bind_some]
        exact Option.mem_toList.mp h
      · next hnone =>
          exact .inr ⟨o, rfl, Option.not_isSome_iff_eq_none.mp hnone, h⟩

theorem Insn.WF.uses_lt (hx : x.WF base) (h : p ∈ x.uses k) : p < base := by
  obtain h | ⟨o, ho, -, hp⟩ := of_uses h
  · exact hx.input_lt h
  · exact hx.regs o (List.mem_of_getElem? ho) p hp

theorem Fixed.uses_none (h : Fixed x base s σ) (hk : σ k = none) : s.insn.uses k = x.uses k := by
  rw [h.insn, Insn.uses, Insn.uses, Insn.renamed, List.getElem?_mapIdx]
  cases x.operands[k]? with
  | none => rfl
  | some o =>
      rw [hk]
      rfl

theorem Fixed.uses_some (h : Fixed x base s σ) (hk : σ k = some n) : s.insn.uses k = [n] := by
  obtain ⟨-, j, ⟨-, p, -, hp, -⟩, -⟩ := h.clash k n hk
  obtain ⟨o, ho, hout, hreg⟩ := input?_eq hp
  refine uses_of_input ?_
  rw [Insn.input?, h.insn, renamed_operand ho, Option.bind_some, Operand.input?, if_neg hout, hk]
  exact reg?_withReg

/-- One of the operands that are a pseudo keeps it. -/
theorem Fixed.keeps (h : Fixed x base s σ) (hp : x.input? k = some p) :
    ∃ m, x.input? m = some p ∧ σ m = none := by
  induction k using Nat.strongRecOn with
  | _ k ih =>
      cases hk : σ k with
      | none => exact ⟨k, hp, hk⟩
      | some n =>
          obtain ⟨-, j, ⟨-, q, -, hq, hj⟩, hor⟩ := h.clash k n hk
          obtain rfl := Option.some.inj (hp.symm.trans hq)
          obtain hlt | hinout := hor
          · exact ih j hlt hj
          · refine ⟨j, hj, Option.eq_none_iff_forall_ne_some.mpr fun m hm => ?_⟩
            exact (h.clash j m hm).1 hinout

/-- No pseudo is in two operands afterwards exactly when all of these are registers. -/
theorem separable_iff (hx : x.WF base) :
    (∃ s, findMultipleRegReferences x base = some s ∧ ¬s.insn.Doubly) ↔ x.Separable := by
  obtain ⟨hnone, i, j, hclash, hboth⟩ | ⟨s, σ, hs, hfixed, hset⟩ := find_spec hx
  · refine iff_of_false ?_ fun hsep => ?_
    · rintro ⟨s, hs, -⟩
      rw [hnone] at hs
      cases hs
    · obtain ⟨hne, p, hp, hi, hj⟩ := hclash
      refine (hsep i j p hne hp ?_ ?_).2 hboth
      · rw [uses_of_input hi]
        exact List.mem_singleton_self p
      · rw [uses_of_input hj]
        exact List.mem_singleton_self p
  · constructor
    · rintro ⟨s', hs', hdouble⟩ i j p hne hp hi hj
      obtain rfl := Option.some.inj (hs.symm.trans hs')
      have hkeep {k : Nat} (hk : p ∈ x.uses k) (hnot : x.input? k ≠ some p) :
          p ∈ s.insn.uses k := by
        have hnone : σ k = none := by
          refine Option.eq_none_iff_forall_ne_some.mpr fun n hn => ?_
          obtain ⟨-, j, ⟨-, q, -, hq, -⟩, -⟩ := hfixed.clash k n hn
          obtain ⟨o, ho, -, hreg⟩ := input?_eq hq
          obtain hin | ⟨o', ho', hnone, -⟩ := of_uses hk
          · exact hnot hin
          · obtain rfl := Option.some.inj (ho.symm.trans ho')
            rw [hnone] at hreg
            cases hreg
        rwa [hfixed.uses_none hnone]
      -- an operand that is the register, and one that has it in an address
      have hmixed {k m : Nat} (hk : p ∈ x.uses k) (hnot : x.input? k ≠ some p)
          (hm : x.input? m = some p) : False := by
        obtain ⟨l, hl, hnone⟩ := hfixed.keeps hm
        refine hdouble ⟨k, l, p, ?_, hp, hkeep hk hnot, ?_⟩
        · rintro rfl
          exact hnot hl
        · rw [hfixed.uses_none hnone, uses_of_input hl]
          exact List.mem_singleton_self p
      have hclash : x.Clash i j := by
        by_cases hi' : x.input? i = some p
        · by_cases hj' : x.input? j = some p
          · exact ⟨hne, p, hp, hi', hj'⟩
          · exact (hmixed hj hj' hi').elim
        · by_cases hj' : x.input? j = some p
          · exact (hmixed hi hi' hj').elim
          · exact absurd ⟨i, j, p, hne, hp, hkeep hi hi', hkeep hj hj'⟩ hdouble
      exact ⟨hclash, hfixed.not_both (hset i j hclash)⟩
    · intro hsep
      refine ⟨s, hs, ?_⟩
      rintro ⟨i, j, p, hne, hp, hi, hj⟩
      -- a new register is in one operand only
      have hnew {k m n : Nat} (hkm : k ≠ m) (hn : σ k = some n) (hk : p ∈ s.insn.uses k)
          (hm : p ∈ s.insn.uses m) : False := by
        rw [hfixed.uses_some hn, List.mem_singleton] at hk
        subst hk
        cases hσ : σ m with
        | none =>
            rw [hfixed.uses_none hσ] at hm
            exact absurd (hx.uses_lt hm) (Nat.not_lt.mpr (hfixed.fresh k p hn).1)
        | some n' =>
            rw [hfixed.uses_some hσ, List.mem_singleton] at hm
            subst hm
            exact hkm (hfixed.inj k m p hn hσ)
      cases hσ : σ i with
      | some n => exact hnew hne hσ hi hj
      | none =>
          cases hσ' : σ j with
          | some n => exact hnew hne.symm hσ' hj hi
          | none =>
              rw [hfixed.uses_none hσ] at hi
              rw [hfixed.uses_none hσ'] at hj
              obtain hset | hset := hset i j (hsep i j p hne hp hi hj).1
              · exact hset hσ
              · exact hset hσ'

end

end Ttools.T800.Exotic
