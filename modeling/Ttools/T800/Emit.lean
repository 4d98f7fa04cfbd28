import Mathlib.Data.Finset.Basic

/-!
# Shuffling the register stacks

`t800_emit_drops` and `t800_emit_swaps` (`gcc-2.7.2/config/t800/t800.c`) and the insns they emit.
Each of the two stacks of a `struct stack_def` is the list of its virtual registers, the top
first.  The stacks lie one behind the other in the array `reg`: where the code looks below the bottom
of a stack it gets the neighbouring entry, of the next stack or behind the array, and here there is
`none`.

* `emitT800Insns`: the insns of a control string and what they do to the record.
* `emitDrops`, `emitSwaps`: the two procedures.
* `Insn.exec`: what the hardware does.
-/

namespace Ttools.T800

/-! ### The record -/

/-- `ABC_STACKNO` and `FABC_STACKNO`. -/
inductive StackNo where
  | abc | fabc
  deriving DecidableEq, Repr

/-- `SFmode` and `DFmode`. -/
inductive Mode where
  | sf | df
  deriving DecidableEq, Repr

/-- `struct stack_def`. -/
structure Stack where
  regSet : Finset Nat
  abc : List Nat
  fabc : List Nat
  mode : Nat → Mode

namespace Stack

/-- The registers of a stack, the top first. -/
def regs (st : Stack) : StackNo → List Nat
  | .abc => st.abc
  | .fabc => st.fabc

/-- The record with other registers on a stack. -/
def withRegs (st : Stack) (l : List Nat) : StackNo → Stack
  | .abc => { st with abc := l }
  | .fabc => { st with fabc := l }

/-- `CLEAR_HARD_REG_BIT` of the top, and `top++`. -/
def popped (st : Stack) (k : StackNo) (v : Nat) (rest : List Nat) : Stack :=
  { st with regSet := st.regSet.erase v }.withRegs rest k

/-- `SET_HARD_REG_BIT`, and `reg[--top] = v`. -/
def pushed (st : Stack) (k : StackNo) (v : Nat) : Stack :=
  { st with regSet := insert v st.regSet }.withRegs (v :: st.regs k) k

end Stack

/-! ### The insns -/

/-- The insns that are emitted; the offsets are in words. -/
inductive Insn where
  | pop
  | stl (offset : Int)
  | ldl (offset : Int)
  | rev
  | ldlp (offset : Int)
  | fpstnl (mode : Mode)
  | fpldnl (mode : Mode)
  | fprev
  deriving DecidableEq, Repr

/-- The characters of a control string: `d`, `s`, `l`, `r`, `D`, `S`, `L` and `R`. -/
inductive Control where
  | drop | store | load | rev | fdrop | fstore | fload | frev
  deriving DecidableEq, Repr

/-- The record, the two statics, and what has been emitted: the insns of each control string,
beside the stack the string is for. -/
structure Emitter where
  st : Stack
  lastStoredVirtual : Nat
  lastStoredFpVirtual : Nat
  out : List (StackNo × List Insn)

/-- One turn of the loop of `emit_t800_insns`. -/
def emitControl (havePop : Bool) (e : Emitter) : Control → Option (List Insn × Emitter)
  | .drop =>
      match e.st.abc with
      | v :: rest =>
          some ([if havePop then .pop else .stl (-5)], { e with st := e.st.popped .abc v rest })
      | [] => none
  | .store =>
      match e.st.abc with
      | v :: rest =>
          some ([.stl (-1)],
            { e with st := e.st.popped .abc v rest, lastStoredVirtual := v })
      | [] => none
  | .load =>
      some ([.ldl (-1)], { e with st := e.st.pushed .abc e.lastStoredVirtual })
  | .rev =>
      match e.st.abc with
      | r0 :: r1 :: rest => some ([.rev], { e with st := e.st.withRegs (r1 :: r0 :: rest) .abc })
      | _ => none
  | .fdrop =>
      match e.st.fabc with
      | v :: rest =>
          some ([.ldlp (-5), .fpstnl (e.st.mode v)], { e with st := e.st.popped .fabc v rest })
      | [] => none
  | .fstore =>
      match e.st.fabc with
      | v :: rest =>
          some ([.ldlp (-3), .fpstnl (e.st.mode v)],
            { e with st := e.st.popped .fabc v rest, lastStoredFpVirtual := v })
      | [] => none
  | .fload =>
      -- the mode is that of the register on top, not of the one that is loaded
      match e.st.fabc with
      | v :: _ =>
          some ([.ldlp (-3), .fpldnl (e.st.mode v)],
            { e with st := e.st.pushed .fabc e.lastStoredFpVirtual })
      | [] => none
  | .frev =>
      match e.st.fabc with
      | r0 :: r1 :: rest =>
          some ([.fprev], { e with st := e.st.withRegs (r1 :: r0 :: rest) .fabc })
      | _ => none

/-- The loop of `emit_t800_insns`. -/
def emitControls (havePop : Bool) : List Control → Emitter → Option (List Insn × Emitter)
  | [], e => some ([], e)
  | c :: str, e => do
      let (is, e) ← emitControl havePop e c
      let (js, e) ← emitControls havePop str e
      some (is ++ js, e)

/-- `emit_t800_insns`. -/
def emitT800Insns (havePop : Bool) (k : StackNo) (str : List Control) (e : Emitter) :
    Option Emitter := do
  let (is, e) ← emitControls havePop str e
  some { e with out := e.out ++ [(k, is)] }

/-! ### Drops -/

/-- Whether the register at a depth is to be dropped, or is not there. -/
def dropBit (dropSet : Finset Nat) (l : List Nat) (i : Nat) : Bool :=
  match l[i]? with
  | some v => v ∈ dropSet
  | none => true

/-- `bottom_drop`: the registers below the first `n` are forgotten. -/
def bottomDrop (k : StackNo) (n : Nat) (e : Emitter) : Emitter :=
  { e with
    st := { e.st with
      regSet := e.st.regSet \ ((e.st.regs k).drop n).toFinset }.withRegs ((e.st.regs k).take n) k }

/-- `case 0x101`. -/
def drop101 (havePop : Bool) (k : StackNo) (e : Emitter) : Option Emitter := do
  let e ← emitT800Insns havePop k [.rev] e
  some (bottomDrop k 1 e)

/-- The body of the loop of `t800_emit_drops`.  The strings it emits are for its stack. -/
def dropStack (havePop : Bool) (dropSet : Finset Nat) (k : StackNo) (e : Emitter) :
    Option Emitter :=
  let l := e.st.regs k
  match dropBit dropSet l 2, dropBit dropSet l 1, dropBit dropSet l 0 with
  | false, false, false => some e
  | false, true, true => do
      let e ← emitT800Insns havePop k [.drop] e
      drop101 havePop k e
  | false, false, true => emitT800Insns havePop k [.drop] e
  | false, true, false => emitT800Insns havePop k [.rev, .drop] e
  | true, false, true => drop101 havePop k e
  | true, true, false => some (bottomDrop k 1 e)
  | true, false, false => some (bottomDrop k 2 e)
  | true, true, true => some (bottomDrop k 0 e)

/-- `t800_emit_drops`. -/
def emitDrops (havePop : Bool) (dropSet : Finset Nat) (e : Emitter) : Option Emitter :=
  if dropSet = ∅ then some e
  else do
    let e ← dropStack havePop dropSet .abc e
    dropStack havePop dropSet .fabc e

/-! ### Swaps -/

/-- `tmpstack`: the target without the register that has been stored. -/
def tmpstack (old target : Stack) (k : StackNo) : Stack :=
  match target.regs k with
  | a :: b :: rest =>
      if a ∈ old.regSet then target.popped k b (a :: rest) else target.popped k a (b :: rest)
  | _ => target

/-- The bottom of a stack differs from that of the target, and there are three registers. -/
def bottomMoves (old target : Stack) (k : StackNo) : Prop :=
  (old.regs k).length = 3 ∧ (old.regs k)[2]? ≠ (target.regs k)[2]?

instance (old target : Stack) (k : StackNo) : Decidable (bottomMoves old target k) :=
  inferInstanceAs (Decidable (_ ∧ _))

/-- The control is emitted if there are two registers and the top is not that of the target. -/
def turnTop (havePop : Bool) (k : StackNo) (c : Control) (target : Stack) (e : Emitter) :
    Option Emitter :=
  if 2 ≤ (e.st.regs k).length ∧ (e.st.regs k)[0]? ≠ (target.regs k)[0]? then
    emitT800Insns havePop k [c] e
  else some e

/-- The end of `t800_emit_swaps`: what needs no storing. -/
def emitRevs (havePop : Bool) (target : Stack) (e : Emitter) : Option Emitter :=
  (turnTop havePop .abc .rev target e).bind (turnTop havePop .fabc .frev target)

/-- `t800_emit_swaps`, with a bound on the depth of the recursion; `none` is also `abort`. -/
def emitSwaps (havePop : Bool) : Nat → Stack → Emitter → Option Emitter
  | 0, _, _ => none
  | fuel + 1, target, e =>
      if e.st.regSet ≠ target.regSet then none
      else
        (if e.st.abc.length = 3 ∧
            (e.st.abc[2]? ≠ target.abc[2]? ∨ bottomMoves e.st target .fabc) then do
          let e ← emitT800Insns havePop .abc
            (if e.st.abc[0]? = target.abc[2]? then [.rev, .store] else [.store]) e
          let e ← emitSwaps havePop fuel (tmpstack e.st target .abc) e
          emitT800Insns havePop .abc [.load] e
        else if bottomMoves e.st target .fabc then do
          let e ← emitT800Insns havePop .fabc
            (if e.st.fabc[0]? = target.fabc[2]? then [.frev, .fstore] else [.fstore]) e
          let e ← emitSwaps havePop fuel (tmpstack e.st target .fabc) e
          emitT800Insns havePop .fabc [.fload] e
        else some e).bind (emitRevs havePop target)

/-! ### The hardware -/

/-- A word, which may be an address. -/
abbrev Word := BitVec 32

/-- The three registers of a hardware stack. -/
structure Cells (α : Type) where
  a : α
  b : α
  c : α
  deriving DecidableEq

namespace Cells

variable {α : Type}

/-- The contents, the top first. -/
def toList (s : Cells α) : List α := [s.a, s.b, s.c]

/-- A push loses the bottom. -/
def push (x : α) (s : Cells α) : Cells α := ⟨x, s.a, s.b⟩

/-- After a pop anything may be at the bottom. -/
def pop (junk : α) (s : Cells α) : Cells α := ⟨s.b, s.c, junk⟩

/-- The two on top change places. -/
def rev (s : Cells α) : Cells α := ⟨s.b, s.a, s.c⟩

end Cells

/-- The contents of a floating register, which know their length. -/
inductive FVal where
  | sf (w : Word)
  | df (lo hi : Word)
  deriving DecidableEq, Repr

/-- The mode of a value. -/
def FVal.mode : FVal → Mode
  | .sf _ => .sf
  | .df _ _ => .df

/-- The hardware stacks, `Wreg` and the memory, by the address of a word. -/
structure Machine where
  abc : Cells Word
  fabc : Cells FVal
  wreg : Word
  mem : Word → Word

/-- The address of a word of the workspace. -/
@[irreducible] def slot (wreg : Word) (offset : Int) : Word := wreg + 4 * BitVec.ofInt 32 offset

namespace Machine

/-- A word is written. -/
def write (m : Machine) (addr w : Word) : Machine :=
  { m with mem := fun x => if x = addr then w else m.mem x }

/-- The floating value at an address. -/
def fval (m : Machine) (addr : Word) : Mode → FVal
  | .sf => .sf (m.mem addr)
  | .df => .df (m.mem addr) (m.mem (addr + 4))

/-- A floating value is written. -/
def fwrite (m : Machine) (addr : Word) : FVal → Machine
  | .sf w => m.write addr w
  | .df lo hi => (m.write addr lo).write (addr + 4) hi

end Machine

/-- What a pop leaves at the bottom. -/
structure Junk where
  abc : Machine → Word
  fabc : Machine → FVal

/-- One insn.  A floating store whose length is not that of the value is undefined, `none`. -/
def Insn.exec (u : Junk) (m : Machine) : Insn → Option Machine
  | .pop => some { m with abc := m.abc.pop (u.abc m) }
  | .stl n => some { m.write (slot m.wreg n) m.abc.a with abc := m.abc.pop (u.abc m) }
  | .ldl n => some { m with abc := m.abc.push (m.mem (slot m.wreg n)) }
  | .rev => some { m with abc := m.abc.rev }
  | .ldlp n => some { m with abc := m.abc.push (slot m.wreg n) }
  | .fpstnl mode =>
      if m.fabc.a.mode = mode then
        some
          { m.fwrite m.abc.a m.fabc.a with
            abc := m.abc.pop (u.abc m)
            fabc := m.fabc.pop (u.fabc m) }
      else none
  | .fpldnl mode =>
      some
        { m with
          abc := m.abc.pop (u.abc m)
          fabc := m.fabc.push (m.fval m.abc.a mode) }
  | .fprev => some { m with fabc := m.fabc.rev }

/-- A run of insns. -/
def run (u : Junk) : List Insn → Machine → Option Machine
  | [], m => some m
  | i :: is, m => (i.exec u m).bind (run u is)

theorem run_append (u : Junk) (is js : List Insn) (m : Machine) :
    run u (is ++ js) m = (run u is m).bind (run u js) := by
  induction is generalizing m with
  | nil => rfl
  | cons i is ih =>
      rw [List.cons_append, run, run]
      cases i.exec u m with
      | none => rfl
      | some m' => exact ih m'

/-- How many registers of the stacks are in use after an insn; `none` is a push onto three, or a
pop from none. -/
def Insn.depth : Insn → Nat × Nat → Option (Nat × Nat)
  | .pop, (a, f) | .stl _, (a, f) => if 0 < a then some (a - 1, f) else none
  | .ldl _, (a, f) | .ldlp _, (a, f) => if a < 3 then some (a + 1, f) else none
  | .fpstnl _, (a, f) => if 0 < a ∧ 0 < f then some (a - 1, f - 1) else none
  | .fpldnl _, (a, f) => if 0 < a ∧ f < 3 then some (a - 1, f + 1) else none
  | .rev, d | .fprev, d => some d

/-- How many are in use after a run. -/
def depths : List Insn → Nat × Nat → Option (Nat × Nat)
  | [], d => some d
  | i :: is, d => (i.depth d).bind (depths is)

theorem depths_append (is js : List Insn) (d : Nat × Nat) :
    depths (is ++ js) d = (depths is d).bind (depths js) := by
  induction is generalizing d with
  | nil => rfl
  | cons i is ih =>
      rw [List.cons_append, depths, depths]
      cases i.depth d with
      | none => rfl
      | some d' => exact ih d'

/-! ### What a shuffle keeps -/

/-- The virtual registers of the record have the given values in the machine. -/
structure Holds (val : Nat → Word) (fval : Nat → FVal) (st : Stack) (m : Machine) : Prop where
  abc : st.abc.map val <+: m.abc.toList
  fabc : st.fabc.map fval <+: m.fabc.toList

/-- The floating values have the modes that the record says. -/
def Moded (fval : Nat → FVal) (st : Stack) : Prop := ∀ v ∈ st.fabc, (fval v).mode = st.mode v

/-- Insns for a stack leave the other one alone, but for the place that an address needs. -/
def Spares (k : StackNo) (is : List Insn) : Prop :=
  ∀ u m m', run u is m = some m' →
    match k with
    | .abc => m'.fabc = m.fabc
    | .fabc => m'.abc.a = m.abc.a ∧ m'.abc.b = m.abc.b

namespace Emitter

/-- All the insns. -/
def insns (e : Emitter) : List Insn := e.out.flatMap Prod.snd

/-- Nothing has been emitted. -/
def start (st : Stack) (v w : Nat) : Emitter := ⟨st, v, w, []⟩

/-- What has been emitted since the record was `st` keeps the registers that the record still has,
never pushes onto a full stack, and acts on the stacks it is for. -/
structure Keeps (st : Stack) (e : Emitter) : Prop where
  values : ∀ u val fval m, Holds val fval st m → Moded fval st →
    ∃ m', run u e.insns m = some m' ∧ Holds val fval e.st m'
  room : (depths e.insns (st.abc.length, st.fabc.length)).isSome = true
  spares : ∀ p ∈ e.out, Spares p.1 p.2

end Emitter

/-- A record that describes a state of the stacks. -/
structure Stack.WellFormed (st : Stack) : Prop where
  abc : st.abc.length ≤ 3
  fabc : st.fabc.length ≤ 3
  nodup : (st.abc ++ st.fabc).Nodup
  regSet : ∀ v, v ∈ st.regSet ↔ v ∈ st.abc ∨ v ∈ st.fabc

end Ttools.T800
