import Mathlib.Data.Finset.Sort
import Mathlib.Data.Fintype.Basic
import Mathlib.Logic.Function.Basic
import Mathlib.Logic.Relation
import Ttools.Support.Dataflow
import Ttools.Support.Machine

/-!
# The life of the stack registers

`stack_reg_life_analysis`, `record_reg_life` and `emit_zero_init_before`
(`gcc-2.7.2/reg-stack2.c`) over a control-flow graph as `find_blocks` leaves it.  A turn of the
`while` loop is a step.  Modes and death notes are left out: no register set depends on them.

The variable `block` of the source is `left - 1`.
-/

namespace Ttools.T800

open Support

variable {R : Type*} [LinearOrder R]

/-! ### Insns and blocks -/

/-- What the analysis sees of an insn: its mode is `QImode` if it mentions stack registers, it is a
`CALL_INSN`, it is no insn at all or a `USE` or a `CLOBBER`; the registers that `record_reg_life`
collects in `data`; and whether its uid is above `max_uid`, as of insns made by the analysis. -/
structure LifeInsn (R : Type*) where
  qimode : Bool
  isCall : Bool
  skipped : Bool
  src : Finset R
  dest : Finset R
  clobbered : Finset R
  isNew : Bool

/-- The insns that `emit_zero_init_before` emits.  `gen_sequence` gives the bare pattern of a single
insn, from which `emit_insn_before` makes another, with `VOIDmode`. -/
def zeroInit (initSet : Finset R) : List (LifeInsn R) :=
  (initSet.sort (· ≤ ·)).map fun i => ⟨decide (1 < initSet.card), false, false, ∅, {i}, ∅, true⟩

/-- `record_reg_life`: the insns emitted behind the insn, and the registers live before it. -/
def recordRegLife (insn : LifeInsn R) (regSet : Finset R) :
    Option (List (LifeInsn R) × Finset R) :=
  if insn.skipped then some ([], regSet)
  else
    let regSet := regSet \ insn.dest
    if regSet = ∅ then some ([], regSet ∪ insn.src)
    else
      let initSet := regSet ∩ insn.clobbered
      -- `BLOCK_NUM (insn)`, which aborts for an insn that is not in `block_number`
      if insn.isNew then none
      else some (zeroInit initSet, (regSet \ initSet) ∪ insn.src)

/-- The loop over the insns of a block, from its end. -/
def scanBlock : List (LifeInsn R) → Finset R → Option (List (LifeInsn R) × Finset R)
  | [], regSet => some ([], regSet)
  | insn :: insns, regSet => do
      let (insns, regSet) ← scanBlock insns regSet
      if insn.qimode || insn.isCall then
        let (emitted, regSet) ← recordRegLife insn regSet
        some (insn :: emitted ++ insns, regSet)
      else some (insn :: insns, regSet)

/-- A function's basic blocks.  `labelRefs` are the blocks of the jumps in the chain of the label
at the start of a block; `returns` the registers `block_out_reg_set` starts with. -/
structure Cfg (R : Type*) where
  blocks : Nat
  code : Nat → List (LifeInsn R)
  labelRefs : Nat → Option (List Nat)
  dropsIn : Nat → Bool
  returns : Nat → Finset R
  pos : 0 < blocks
  refs_lt : ∀ b refs, labelRefs b = some refs → ∀ j ∈ refs, j < blocks
  first : dropsIn 0 = false
  original : ∀ b, ∀ i ∈ code b, i.isNew = false

/-! ### The analysis -/

/-- The tables of the analysis. -/
structure Life (R : Type*) where
  left : Nat
  code : Nat → List (LifeInsn R)
  stackIn : Nat → Finset R
  out : Nat → Finset R

/-- `ior_regset_and_mode`. -/
def iorRegset (out : Nat → Finset R) (b : Nat) (X : Finset R) : Nat → Finset R :=
  Function.update out b (out b ∪ X)

/-- The loop over the references of a label, with `block` and `must_restart`. -/
def refsLoop (stackIn : Nat → Finset R) :
    List Nat → Nat → Bool → (Nat → Finset R) → Nat × Bool × (Nat → Finset R)
  | [], block, mustRestart, out => (block, mustRestart, out)
  | jumpBlock :: refs, block, mustRestart, out =>
      if jumpBlock < block then
        refsLoop stackIn refs block mustRestart (iorRegset out jumpBlock (stackIn block))
      else if stackIn block ⊆ out jumpBlock then refsLoop stackIn refs block mustRestart out
      else refsLoop stackIn refs jumpBlock true (iorRegset out jumpBlock (stackIn block))

/-- A turn of the `while` loop; the result `none` is an abort. -/
def lifeStep (g : Cfg R) (s : Life R) : Life R ⊕ Option (Life R) :=
  match s.left with
  | 0 => .inr (some s)
  | block + 1 =>
      match scanBlock (s.code block) (s.out block) with
      | none => .inr none
      | some (insns, regSet) =>
          let code := Function.update s.code block insns
          let stackIn := Function.update s.stackIn block regSet
          match refsLoop stackIn ((g.labelRefs block).getD []) block false s.out with
          | (block', true, out) => .inl ⟨block' + 1, code, stackIn, out⟩
          | (_, false, out) =>
              let out := if g.dropsIn block then iorRegset out (block - 1) regSet else out
              .inl ⟨block, code, stackIn, out⟩

/-- The tables before the loop. -/
def Cfg.start (g : Cfg R) : Life R := ⟨g.blocks, g.code, fun _ => ∅, g.returns⟩

/-- The end of the analysis: the insns in front of `block_begin[0]`, and the first block.  For more
than one insn `emit_insn_before` gives the last. -/
def Life.zeroInitFirst (s : Life R) : List (LifeInsn R) × List (LifeInsn R) :=
  match (zeroInit (s.stackIn 0)).getLast? with
  | none => ([], s.code 0)
  | some insn => ((zeroInit (s.stackIn 0)).dropLast, insn :: s.code 0)

/-! ### What it should find -/

/-- The registers live before an insn. -/
def LifeInsn.transfer (insn : LifeInsn R) (X : Finset R) : Finset R :=
  if (insn.qimode || insn.isCall) && !insn.skipped then
    ((X \ insn.dest) \ insn.clobbered) ∪ insn.src
  else X

/-- The registers live before the insns. -/
def transfer (insns : List (LifeInsn R)) (X : Finset R) : Finset R :=
  insns.foldr LifeInsn.transfer X

theorem transfer_mono (insns : List (LifeInsn R)) : Monotone (transfer insns) := by
  intro X Y h
  induction insns with
  | nil => exact h
  | cons i is ih =>
      change i.transfer (transfer is X) ≤ i.transfer (transfer is Y)
      unfold LifeInsn.transfer
      split
      · exact Finset.union_subset_union_left
          (Finset.sdiff_subset_sdiff (Finset.sdiff_subset_sdiff ih le_rfl) le_rfl)
      · exact ih

/-- The flow problem of a function: an edge for every reference of a label, and one for every block
that is dropped into. -/
def Cfg.flow (g : Cfg R) : Flow Nat R where
  nodes := Finset.range g.blocks
  transfer b := transfer (g.code b)
  seed := g.returns
  succ b c := b ∈ (g.labelRefs c).getD [] ∨ (g.dropsIn c = true ∧ b + 1 = c)
  mono b := transfer_mono (g.code b)

/-- The analysis ends without an abort, with the least solution; the entry set that `convert_regs`
takes for the first block is empty, and the zero-initialising insns are in that block. -/
def Cfg.Analysed (g : Cfg R) : Prop :=
  ∃ s, Ends (lifeStep g) g.start (some s) ∧ g.flow.Least s.stackIn s.out ∧
    s.stackIn 0 = ∅ ∧ s.zeroInitFirst.1 = []

/-- What the loop over the references ORs into exit sets once it has changed `block`: the blocks of
the jumps, and the entry set of another block than the label's. -/
def strays (stackIn : Nat → Finset R) (own : Nat) :
    List Nat → Nat → (Nat → Finset R) → List (Nat × Finset R)
  | [], _, _ => []
  | jumpBlock :: refs, block, out =>
      let stray := if block = own then [] else [(jumpBlock, stackIn block)]
      if jumpBlock < block then
        stray ++ strays stackIn own refs block (iorRegset out jumpBlock (stackIn block))
      else if stackIn block ⊆ out jumpBlock then strays stackIn own refs block out
      else stray ++ strays stackIn own refs jumpBlock (iorRegset out jumpBlock (stackIn block))

/-- The condition on a turn of the loop: the block that is scanned has no sequence of
zero-initialising insns from an earlier turn, and what is ORed from another block than the label's
is live there all the same. -/
def Clean (g : Cfg R) (s : Life R) : Prop :=
  ∀ block, s.left = block + 1 →
    (∀ i ∈ s.code block, i.isNew = true → i.qimode = false) ∧
    ∀ p ∈ strays (Function.update s.stackIn block (transfer (s.code block) (s.out block))) block
      ((g.labelRefs block).getD []) block s.out, g.flow.LiveOut p.1 p.2

/-- A turn of the loop leads from one state to the other. -/
def Turn (g : Cfg R) (s s' : Life R) : Prop := lifeStep g s = .inl s'

end Ttools.T800
