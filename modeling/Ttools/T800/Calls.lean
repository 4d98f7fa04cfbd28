import Ttools.Cmd.Generate

/-!
# Calls

How `gcc-2.7.2/config/t800` passes arguments and transfers control: the `FUNCTION_ARG` macros of
`t800.h` over `CUMULATIVE_ARGS`, the walk over the arguments in `expand_call` (`calls.c`), the
choice between the patterns `_call` and `_gcall` in `t800_expand_call`, their code in `t800.md`,
and the prologue, the epilogue and the elimination offset of the called function.  The calling
function does not use `alloca`.

`Call.Agrees` is what both sides rely on.

* `passArgs_registers`, `passArgs_stack`: where the words of the arguments are put.
* `call_agrees_iff`: caller and callee agree, unless the arguments are on the stack and the
  function is reached by a `j` of more than one byte.
-/

namespace Ttools.T800

/-! ### Arguments -/

/-- `R_AREG`, `R_CREG` and `UNITS_PER_WORD`. -/
def rAreg : Nat := 0
def rCreg : Nat := 2
def unitsPerWord : Nat := 4

/-- `IN_WORDS`. -/
def inWords (size : Nat) : Nat := (size + unitsPerWord - 1) / unitsPerWord

/-- `WORD_ROUND`; the mask `-UNITS_PER_WORD` takes the low bits away. -/
def wordRound (value : Nat) : Nat :=
  (value + unitsPerWord - 1) - (value + unitsPerWord - 1) % unitsPerWord

/-- What the macros look at in the mode and the type of an argument: `T800_ARG_SIZE` and
`MUST_PASS_IN_STACK`. -/
structure Arg where
  size : Nat
  mustPassInStack : Bool
  deriving DecidableEq, Repr

/-- `CUMULATIVE_ARGS`. -/
structure CumulativeArgs where
  lstFreeReg : Nat
  mustPassInStack : Bool
  deriving DecidableEq, Repr

/-- `INIT_CUMULATIVE_ARGS`. -/
def initCumulativeArgs : CumulativeArgs := ⟨rAreg, false⟩

/-- `RESET_CUMULATIVE_ARGS`. -/
def resetCumulativeArgs (cum : CumulativeArgs) : CumulativeArgs := { cum with lstFreeReg := rAreg }

/-- What `FUNCTION_ARG` gives: `0`, `const0_rtx`, or a register. -/
inductive ArgRtx where
  | zero
  | const0Rtx
  | reg (regno : Nat)
  deriving DecidableEq, Repr

/-- `FUNCTION_ARG`; `isVoid` is `TYPE == void_type_node`, the call after the last argument. -/
def functionArg (cum : CumulativeArgs) (isVoid : Bool) : ArgRtx :=
  if cum.mustPassInStack then
    if !isVoid then .zero else .const0Rtx
  else if cum.lstFreeReg ≤ rCreg then .reg cum.lstFreeReg
  else .zero

/-- `FUNCTION_ARG_PARTIAL_NREGS`. -/
def functionArgPartialNregs (cum : CumulativeArgs) (arg : Arg) : Nat :=
  if !cum.mustPassInStack ∧ cum.lstFreeReg ≤ rCreg ∧ cum.lstFreeReg + arg.size > rCreg + 1 then
    rCreg + 1 - cum.lstFreeReg
  else 0

/-- `FUNCTION_ARG_ADVANCE`. -/
def functionArgAdvance (cum : CumulativeArgs) (arg : Arg) : CumulativeArgs :=
  if functionArg cum false ≠ .zero then { cum with lstFreeReg := cum.lstFreeReg + arg.size }
  else cum

/-- `FUNCTION_ARG_PRESCAN`; `indirect` is `current_call_is_indirect`. -/
def functionArgPrescan (indirect callsAlloca : Bool) (cum : CumulativeArgs) (arg : Arg) :
    CumulativeArgs :=
  let cum := { cum with
    mustPassInStack := cum.mustPassInStack || indirect || callsAlloca }
  if !cum.mustPassInStack ∧ cum.lstFreeReg ≤ rCreg then
    let cum := { cum with mustPassInStack := cum.mustPassInStack || arg.mustPassInStack }
    -- a large object may be passed more efficiently merely on stack
    let cum := if cum.lstFreeReg = rAreg ∧ arg.size > 3 then { cum with mustPassInStack := true }
      else cum
    functionArgAdvance cum arg
  else cum

/-- Where a word of an argument is put: a register, or an outgoing word above `Wreg`. -/
inductive Loc where
  | reg (regno : Nat)
  | outgoing (i : Nat)
  deriving DecidableEq, Repr

/-- The words of one argument, `out` being the first free outgoing word, and the next one. -/
def passArg (cum : CumulativeArgs) (arg : Arg) (out : Nat) : List Loc × Nat :=
  match functionArg cum false with
  | .reg r =>
      let p := functionArgPartialNregs cum arg
      if p = 0 then ((List.range arg.size).map fun i => .reg (r + i), out)
      else
        ((List.range p).map (fun i => .reg (r + i)) ++
          (List.range (arg.size - p)).map fun i => .outgoing (out + i), out + (arg.size - p))
  | _ => ((List.range arg.size).map fun i => .outgoing (out + i), out + arg.size)

/-- The loop over the arguments in `expand_call`. -/
def passArgs : CumulativeArgs → List Arg → Nat → List Loc × CumulativeArgs
  | cum, [], _ => ([], cum)
  | cum, arg :: args, out =>
      let (ls, out) := passArg cum arg out
      let (ls', cum) := passArgs (functionArgAdvance cum arg) args out
      (ls ++ ls', cum)

/-! ### Code -/

/-- The instructions of a call.  The operand of `j` and `call` is the distance from the next
instruction. -/
inductive CallInsn where
  | ajw (n : Int)
  | ldc (n : Nat)
  | ldpi
  | stl (n : Nat)
  | gcall
  | j (d : Word)
  | call (d : Word)
  | ret
  deriving DecidableEq, Repr

/-- The bytes of an instruction; `ldpi`, `gcall` and `ret` are `opr` 1B, 6 and 20. -/
def CallInsn.size : CallInsn → Nat
  | .ajw n => cmdSize (BitVec.ofInt 32 n)
  | .ldc n | .stl n => cmdSize (BitVec.ofNat 32 n)
  | .ldpi => cmdSize (0x1b : Word)
  | .gcall => cmdSize (0x6 : Word)
  | .j d | .call d => cmdSize d
  | .ret => cmdSize (0x20 : Word)

/-- The registers and the workspace, an array of words; `wreg` counts words. -/
structure Cpu where
  iptr : Word
  areg : Word
  breg : Word
  creg : Word
  wreg : Int
  mem : Int → Word

/-- One instruction. -/
def CallInsn.exec (i : CallInsn) (s : Cpu) : Cpu :=
  let next := s.iptr + BitVec.ofNat 32 i.size
  match i with
  | .ajw n => { s with iptr := next, wreg := s.wreg + n }
  | .ldc n => { s with iptr := next, areg := BitVec.ofNat 32 n, breg := s.areg, creg := s.breg }
  | .ldpi => { s with iptr := next, areg := next + s.areg }
  | .stl n => { s with
      iptr := next, areg := s.breg, breg := s.creg
      mem := Function.update s.mem (s.wreg + n) s.areg }
  | .gcall => { s with iptr := s.areg, areg := next }
  | .j d => { s with iptr := next + d }
  -- Creg, Breg, Areg and the return address are pushed
  | .call d => { s with
      iptr := next + d, areg := next, wreg := s.wreg - 4
      mem := Function.update (Function.update (Function.update (Function.update s.mem
        (s.wreg - 1) s.creg) (s.wreg - 2) s.breg) (s.wreg - 3) s.areg) (s.wreg - 4) next }
  | .ret => { s with iptr := s.mem s.wreg, wreg := s.wreg + 4 }

/-- The instructions one after the other. -/
def Cpu.run (s : Cpu) (is : List CallInsn) : Cpu := is.foldl (fun s i => i.exec s) s

/-- The address behind the instructions. -/
def Cpu.behind (s : Cpu) (is : List CallInsn) : Word :=
  is.foldl (fun a i => a + BitVec.ofNat 32 i.size) s.iptr

/-- What is in the place of an argument word before the transfer. -/
def Cpu.read (s : Cpu) : Loc → Word
  | .reg 0 => s.areg
  | .reg 1 => s.breg
  | .reg _ => s.creg
  | .outgoing i => s.mem (s.wreg + i)

/-! ### The calling function -/

/-- `addr` in `t800_expand_call`: in a register, or a constant at a distance. -/
inductive Address where
  | register
  | constant (d : Word)
  deriving DecidableEq, Repr

/-- A call.  `fndecl` is `fndecl != 0`; the address of a declared function stays a constant, since
`NO_FUNCTION_CSE` is defined. -/
structure Call where
  args : List Arg
  fndecl : Bool
  addr : Address
  direct : fndecl = true → addr ≠ .register

namespace Call

variable (c : Call)

/-- `CUMULATIVE_ARGS` after the loop of `FUNCTION_ARG_PRESCAN`. -/
def prescan : CumulativeArgs :=
  resetCumulativeArgs (c.args.foldl (functionArgPrescan (!c.fndecl) false) initCumulativeArgs)

/-- The words of the arguments. -/
def words : Nat := (c.args.map Arg.size).sum

/-- Where they are put. -/
def locs : List Loc := (passArgs c.prescan c.args 0).1

/-- `next_arg_reg`. -/
def nextArgReg : ArgRtx := functionArg (passArgs c.prescan c.args 0).2 true

/-- The code of `_gcall` up to the transfer. -/
def gcallCode (transfer : CallInsn) : List CallInsn :=
  [.ajw (-1), .ldc 2, .ldpi, .stl 0, transfer]

/-- `t800_expand_call`: the instructions up to the transfer, and those after it. -/
def expandCall : List CallInsn × List CallInsn :=
  match c.addr with
  | .register => (gcallCode .gcall, [.ajw (-3)])
  | .constant d =>
      if c.nextArgReg = .const0Rtx then (gcallCode (.j d), [.ajw (-3)])
      else ([.call d], [])

/-- Everything is in place: the argument words, and the address of `fn` in `Areg` or at its
distance from the transfer. -/
structure Ready (s : Cpu) (ws : Nat → Word) (fn : Word) : Prop where
  placed : ∀ k loc, c.locs[k]? = some loc → s.read loc = ws k
  register : c.addr = .register → s.areg = fn
  constant : ∀ d, c.addr = .constant d → s.behind c.expandCall.1 + d = fn

end Call

/-! ### The called function -/

/-- `get_frame_size ()` and `current_function_outgoing_args_size`. -/
structure Frame where
  frameSize : Nat
  outgoingArgsSize : Nat

namespace Frame

variable (f : Frame)

/-- `totsize` of `FUNCTION_PROLOGUE` and `T800_OUTPUT_RETURN`. -/
def totsize : Nat := inWords f.frameSize + inWords f.outgoingArgsSize

/-- `FUNCTION_PROLOGUE`. -/
def prologue : List CallInsn := if f.totsize ≠ 0 then [.ajw (-f.totsize)] else []

/-- `T800_OUTPUT_RETURN`. -/
def outputReturn : List CallInsn := (if f.totsize ≠ 0 then [.ajw f.totsize] else []) ++ [.ret]

/-- `INITIAL_ELIMINATION_OFFSET` of `ARG_POINTER_REGNUM`, in bytes above `Wreg`. -/
def argPointerOffset : Nat :=
  wordRound f.outgoingArgsSize + wordRound f.frameSize + unitsPerWord

end Frame

/-- Caller and callee agree.  For every frame of the callee, and whatever it does that leaves `Wreg`
and the return address in place: control gets to the function; the return address is the address
behind the transfer; the argument words are at the argument pointer, in order; and after `ret`
control is behind the transfer, where the adjustment gives `Wreg` its old value. -/
def Call.Agrees (c : Call) : Prop :=
  ∀ (s : Cpu) (ws : Nat → Word) (fn : Word) (f : Frame), c.Ready s ws fn →
    let entry := s.run c.expandCall.1
    let body := entry.run f.prologue
    entry.iptr = fn ∧
    entry.mem entry.wreg = s.behind c.expandCall.1 ∧
    (∀ k < c.words, body.mem (body.wreg + (f.argPointerOffset / unitsPerWord : Nat) + k) = ws k) ∧
    ∀ done : Cpu, done.wreg = body.wreg → done.mem entry.wreg = body.mem entry.wreg →
      let back := done.run f.outputReturn
      back.iptr = s.behind c.expandCall.1 ∧ (back.run c.expandCall.2).wreg = s.wreg

/-! ### Where the words go -/

/-- The place of the word `w` when registers are used. -/
def spot (w : Nat) : Loc := if w < 3 then .reg w else .outgoing (w - 3)

/-- `w` words have been placed with the registers first. -/
structure Filled (cum : CumulativeArgs) (out w : Nat) : Prop where
  inRegs : cum.mustPassInStack = false
  free : w < 3 → cum.lstFreeReg = w
  full : 3 ≤ w → 3 ≤ cum.lstFreeReg
  out : out = w - 3

variable {cum : CumulativeArgs} {out w : Nat}

theorem functionArg_filled (h : Filled cum out w) :
    functionArg cum false = if w < 3 then .reg w else .zero := by
  unfold functionArg
  rw [h.inRegs]
  by_cases hw : w < 3
  · simp [hw, h.free hw, rCreg, show w ≤ 2 by omega]
  · have := h.full (by omega)
    simp [hw, rCreg, show ¬ cum.lstFreeReg ≤ 2 by omega]

theorem Filled.advance (h : Filled cum out w) (arg : Arg) :
    Filled (functionArgAdvance cum arg) (w + arg.size - 3) (w + arg.size) := by
  have hf := functionArg_filled h
  unfold functionArgAdvance
  by_cases hw : w < 3
  · have hfree := h.free hw
    rw [if_pos (by simp [hf, hw])]
    exact ⟨h.inRegs, fun _ => by simp [hfree], fun h3 => by simpa [hfree] using h3, rfl⟩
  · have hfull := h.full (by omega)
    rw [if_neg (by simp [hf, hw])]
    exact ⟨h.inRegs, fun h3 => by omega, fun _ => hfull, rfl⟩

theorem passArg_filled (h : Filled cum out w) (arg : Arg) :
    passArg cum arg out = ((List.range arg.size).map fun i => spot (w + i), w + arg.size - 3) := by
  have hout := h.out
  unfold passArg
  rw [functionArg_filled h]
  by_cases hw : w < 3
  · have hfree := h.free hw
    have hp : functionArgPartialNregs cum arg = if 3 < w + arg.size then 3 - w else 0 := by
      unfold functionArgPartialNregs
      rw [h.inRegs, hfree]
      simp [rCreg, show w ≤ 2 by omega]
    simp only [if_pos hw, hp]
    by_cases hmore : 3 < w + arg.size
    · -- the argument does not fit: its first words fill the registers
      have hsplit : List.range arg.size
          = List.range (3 - w) ++ (List.range (arg.size - (3 - w))).map (3 - w + ·) := by
        rw [← List.range_add]
        congr 1
        omega
      rw [if_pos hmore, if_neg (by omega), hsplit, List.map_append, List.map_map]
      refine Prod.ext (congrArg₂ (· ++ ·) ?_ ?_) (by simp only; omega)
      · refine List.map_congr_left fun i hi => ?_
        have := List.mem_range.mp hi
        simp [spot, show w + i < 3 by omega]
      · refine List.map_congr_left fun i _ => ?_
        simp only [spot, Function.comp_apply, if_neg (show ¬ w + (3 - w + i) < 3 by omega)]
        congr 1
        omega
    · rw [if_neg hmore, if_pos rfl]
      refine Prod.ext (List.map_congr_left fun i hi => ?_) (by simp only; omega)
      have := List.mem_range.mp hi
      simp [spot, show w + i < 3 by omega]
  · simp only [if_neg hw]
    refine Prod.ext (List.map_congr_left fun i _ => ?_) (by simp only; omega)
    simp only [spot, if_neg (show ¬ w + i < 3 by omega)]
    congr 1
    omega

/-- With the registers in use the words go to them first, and then to the outgoing words. -/
theorem passArgs_registers (args : List Arg) (h : Filled cum out w) :
    (passArgs cum args out).1
        = (List.range (args.map Arg.size).sum).map (fun i => spot (w + i)) ∧
      (passArgs cum args out).2.mustPassInStack = false := by
  induction args generalizing cum out w with
  | nil => exact ⟨rfl, h.inRegs⟩
  | cons arg args ih =>
      obtain ⟨hlocs, hcum⟩ := ih (h.advance arg)
      simp only [passArgs, passArg_filled h, hlocs, hcum, List.map_cons, List.sum_cons,
        List.range_add, List.map_append, List.map_map, and_true]
      congr 1
      refine List.map_congr_left fun i _ => ?_
      simp [Nat.add_assoc]

/-- With everything on the stack the words go to the outgoing words. -/
theorem passArgs_stack (args : List Arg) (h : cum.mustPassInStack = true) (out : Nat) :
    (passArgs cum args out).1
        = (List.range (args.map Arg.size).sum).map (fun i => .outgoing (out + i)) ∧
      (passArgs cum args out).2.mustPassInStack = true := by
  have hf : functionArg cum false = .zero := by simp [functionArg, h]
  induction args generalizing out with
  | nil => exact ⟨rfl, h⟩
  | cons arg args ih =>
      obtain ⟨hlocs, hcum⟩ := ih (out + arg.size)
      have hadv : functionArgAdvance cum arg = cum := by simp [functionArgAdvance, hf]
      simp only [passArgs, passArg, hf, hadv, hlocs, hcum, List.map_cons, List.sum_cons,
        List.range_add, List.map_append, List.map_map, and_true]
      congr 1
      refine List.map_congr_left fun i _ => ?_
      simp [Nat.add_assoc]

namespace Call

variable {c : Call} {s : Cpu} {ws : Nat → Word} {fn : Word}

theorem locs_registers (h : c.prescan.mustPassInStack = false) :
    c.locs = (List.range c.words).map spot ∧ c.nextArgReg ≠ .const0Rtx := by
  have hfilled : Filled c.prescan 0 0 := ⟨h, fun _ => rfl, fun h3 => by omega, rfl⟩
  obtain ⟨hlocs, hcum⟩ := passArgs_registers c.args hfilled
  simp only [Nat.zero_add] at hlocs
  refine ⟨hlocs, ?_⟩
  unfold nextArgReg functionArg
  rw [hcum]
  simp only [Bool.false_eq_true, if_false]
  split <;> simp

theorem locs_stack (h : c.prescan.mustPassInStack = true) :
    c.locs = (List.range c.words).map .outgoing ∧ c.nextArgReg = .const0Rtx := by
  obtain ⟨hlocs, hcum⟩ := passArgs_stack c.args h 0
  simp only [Nat.zero_add] at hlocs
  refine ⟨hlocs, ?_⟩
  simp [nextArgReg, functionArg, hcum]

/-- The prescan does not take it back. -/
theorem prescan_keeps {indirect : Bool} (args : List Arg) {cum : CumulativeArgs}
    (h : cum.mustPassInStack = true) :
    (args.foldl (functionArgPrescan indirect false) cum).mustPassInStack = true := by
  induction args generalizing cum with
  | nil => exact h
  | cons arg args ih => exact ih (by simp [functionArgPrescan, h])

/-- A call through a pointer passes everything on the stack. -/
theorem mustPassInStack_of_indirect (hind : c.fndecl = false) (hargs : c.args ≠ []) :
    c.prescan.mustPassInStack = true := by
  have hstep : ∀ cum arg, (functionArgPrescan true false cum arg).mustPassInStack = true := by
    intro cum arg
    simp [functionArgPrescan]
  unfold prescan resetCumulativeArgs
  rw [hind]
  obtain ⟨init, last, hlast⟩ := (List.eq_nil_or_concat c.args).resolve_left hargs
  rw [hlast, List.concat_eq_append, List.foldl_append]
  exact hstep _ _

/-- The arguments go on the stack: the call is through a pointer, or one of the arguments that begin
in a register may not be there, or has more than three words and is the first. -/
def OnStack (c : Call) : Prop :=
  c.fndecl = false ∧ c.args ≠ [] ∨ ∃ pre arg post, c.args = pre ++ arg :: post ∧
    (pre.map Arg.size).sum < 3 ∧
    (arg.mustPassInStack = true ∨ (pre.map Arg.size).sum = 0 ∧ 3 < arg.size)

/-- What the prescan of a direct call finds, with `w` words before. -/
theorem prescan_iff (args : List Arg) (w : Nat) :
    (args.foldl (functionArgPrescan false false) ⟨w, false⟩).mustPassInStack = true ↔
      ∃ pre arg post, args = pre ++ arg :: post ∧ w + (pre.map Arg.size).sum < 3 ∧
        (arg.mustPassInStack = true ∨ w + (pre.map Arg.size).sum = 0 ∧ 3 < arg.size) := by
  induction args generalizing w with
  | nil => simp
  | cons arg args ih =>
      -- the prescan goes on behind the first argument
      have hrest : (∃ pre a post, arg :: args = pre ++ a :: post ∧ w + (pre.map Arg.size).sum < 3 ∧
          (a.mustPassInStack = true ∨ w + (pre.map Arg.size).sum = 0 ∧ 3 < a.size)) ↔
          (w < 3 ∧ (arg.mustPassInStack = true ∨ w = 0 ∧ 3 < arg.size)) ∨
          ∃ pre a post, args = pre ++ a :: post ∧ w + arg.size + (pre.map Arg.size).sum < 3 ∧
            (a.mustPassInStack = true ∨
              w + arg.size + (pre.map Arg.size).sum = 0 ∧ 3 < a.size) := by
        constructor
        · rintro ⟨_ | ⟨b, pre⟩, a, post, heq, hw, ha⟩
          · obtain ⟨rfl, rfl⟩ := List.cons.inj heq
            exact .inl ⟨hw, ha⟩
          · obtain ⟨rfl, rfl⟩ := List.cons.inj heq
            rw [List.map_cons, List.sum_cons, ← Nat.add_assoc] at hw ha
            exact .inr ⟨pre, a, post, rfl, hw, ha⟩
        · rintro (⟨hw, ha⟩ | ⟨pre, a, post, rfl, hw, ha⟩)
          · exact ⟨[], arg, args, rfl, hw, ha⟩
          · rw [Nat.add_assoc] at hw ha
            exact ⟨arg :: pre, a, post, rfl, hw, ha⟩
      rw [hrest, List.foldl_cons]
      by_cases hw : w < 3
      · by_cases hmust : arg.mustPassInStack = true ∨ w = 0 ∧ 3 < arg.size
        · refine iff_of_true (prescan_keeps args ?_) (.inl ⟨hw, hmust⟩)
          have hadv : ∀ cum : CumulativeArgs,
              (functionArgAdvance cum arg).mustPassInStack = cum.mustPassInStack := fun cum => by
            unfold functionArgAdvance
            split <;> rfl
          rcases hmust with hm | ⟨rfl, hsize⟩
          · simp only [functionArgPrescan, hm]
            simp [rCreg, show w ≤ 2 by omega, hadv]
          · simp [functionArgPrescan, rCreg, rAreg, hsize, hadv]
        · have hstep : functionArgPrescan false false ⟨w, false⟩ arg = ⟨w + arg.size, false⟩ := by
            obtain ⟨hm, hsize⟩ := not_or.mp hmust
            have hnot : ¬(w = 0 ∧ 3 < arg.size) := hsize
            simp [functionArgPrescan, functionArgAdvance, functionArg, rCreg, rAreg,
              show w ≤ 2 by omega, Bool.eq_false_iff.mpr hm, hnot]
          rw [hstep, ih, or_iff_right fun h => hmust h.2]
      · have hstep : functionArgPrescan false false ⟨w, false⟩ arg = ⟨w, false⟩ := by
          simp [functionArgPrescan, rCreg, show ¬w ≤ 2 by omega]
        rw [hstep, ih]
        refine iff_of_false ?_ ?_
        · rintro ⟨pre, a, post, -, h, -⟩
          omega
        · rintro (⟨h, -⟩ | ⟨pre, a, post, -, h, -⟩)
          all_goals omega

/-- **Where the arguments go** is seen from their list. -/
theorem mustPassInStack_iff (c : Call) : c.prescan.mustPassInStack = true ↔ c.OnStack := by
  cases hf : c.fndecl with
  | false =>
      by_cases hargs : c.args = []
      · refine iff_of_false (by simp [prescan, hargs, resetCumulativeArgs, initCumulativeArgs]) ?_
        rintro (⟨-, h⟩ | ⟨pre, arg, post, h, -⟩)
        · exact h hargs
        · simp [hargs] at h
      · exact iff_of_true (mustPassInStack_of_indirect hf hargs) (.inl ⟨hf, hargs⟩)
  | true =>
      have hscan := prescan_iff c.args 0
      simp only [Nat.zero_add] at hscan
      rw [OnStack, or_iff_right (by simp [hf]), ← hscan, prescan, hf]
      rfl

theorem Ready.word (hr : c.Ready s ws fn) {f : Nat → Loc} (hlocs : c.locs = (List.range c.words).map f)
    {k : Nat} (hk : k < c.words) : s.read (f k) = ws k :=
  hr.placed k _ (by simp [hlocs, hk])

end Call

/-! ### The called function -/

theorem Frame.argPointerOffset_eq (f : Frame) :
    f.argPointerOffset / unitsPerWord = f.totsize + 1 := by
  simp only [argPointerOffset, totsize, wordRound, inWords, unitsPerWord]
  omega

theorem Frame.run_prologue (f : Frame) (entry : Cpu) :
    (entry.run f.prologue).wreg = entry.wreg - f.totsize ∧
      (entry.run f.prologue).mem = entry.mem := by
  unfold prologue
  split
  · exact ⟨rfl, rfl⟩
  · next h => simp [Cpu.run, not_not.mp h]

theorem Frame.run_outputReturn (f : Frame) (done : Cpu) :
    (done.run f.outputReturn).wreg = done.wreg + f.totsize + 4 ∧
      (done.run f.outputReturn).iptr = done.mem (done.wreg + f.totsize) := by
  unfold outputReturn
  split
  · exact ⟨rfl, rfl⟩
  · next h => simp [Cpu.run, CallInsn.exec, not_not.mp h]

namespace Call

variable {c : Call}

/-- What is left to see once the callee's part is taken care of. -/
theorem agrees_of_entry
    (h : ∀ (s : Cpu) (ws : Nat → Word) (fn : Word), c.Ready s ws fn →
      (s.run c.expandCall.1).iptr = fn ∧
      (s.run c.expandCall.1).mem (s.run c.expandCall.1).wreg = s.behind c.expandCall.1 ∧
      (∀ k < c.words,
        (s.run c.expandCall.1).mem ((s.run c.expandCall.1).wreg + 1 + k) = ws k) ∧
      ∀ back : Cpu, back.wreg = (s.run c.expandCall.1).wreg + 4 →
        (back.run c.expandCall.2).wreg = s.wreg) : c.Agrees := by
  intro s ws fn f hr
  obtain ⟨hfn, hret, hargs, hwreg⟩ := h s ws fn hr
  obtain ⟨hbw, hbm⟩ := f.run_prologue (s.run c.expandCall.1)
  refine ⟨hfn, hret, ?_, ?_⟩
  · intro k hk
    rw [hbm, hbw, f.argPointerOffset_eq, ← hargs k hk]
    congr 1
    push_cast
    ring
  · intro done hdw hdm
    obtain ⟨how, hoi⟩ := f.run_outputReturn done
    have hentry : done.wreg + f.totsize = (s.run c.expandCall.1).wreg := by
      rw [hdw, hbw]
      ring
    exact ⟨by rw [hoi, hentry, hdm, hbm, hret], hwreg _ (by rw [how, hentry])⟩

/-- Arguments in registers, and `call`. -/
theorem agrees_registers {d : Word} (haddr : c.addr = .constant d)
    (hmust : c.prescan.mustPassInStack = false) : c.Agrees := by
  obtain ⟨hlocs, hnext⟩ := locs_registers hmust
  have hcode : c.expandCall = ([.call d], []) := by simp [expandCall, haddr, hnext]
  refine agrees_of_entry fun s ws fn hr => ?_
  rw [hcode]
  refine ⟨?_, ?_, ?_, ?_⟩
  · have := hr.constant d haddr
    rwa [hcode] at this
  · simp [Cpu.run, Cpu.behind, CallInsn.exec]
  · intro k hk
    rw [← hr.word hlocs hk]
    -- three words were pushed, and the others lie above them
    simp only [Cpu.run, List.foldl_cons, List.foldl_nil, CallInsn.exec]
    match k with
    | 0 =>
        rw [show s.wreg - 4 + 1 + ((0 : Nat) : Int) = s.wreg - 3 by push_cast; ring]
        simp [spot, Cpu.read]
    | 1 =>
        rw [show s.wreg - 4 + 1 + ((1 : Nat) : Int) = s.wreg - 2 by push_cast; ring]
        simp [spot, Cpu.read]
    | 2 =>
        rw [show s.wreg - 4 + 1 + ((2 : Nat) : Int) = s.wreg - 1 by push_cast; ring]
        simp [spot, Cpu.read]
    | k + 3 =>
        simp only [spot, Cpu.read, if_neg (show ¬ k + 3 < 3 by omega), Nat.add_sub_cancel]
        rw [Function.update_of_ne (by push_cast; omega), Function.update_of_ne (by push_cast; omega),
          Function.update_of_ne (by push_cast; omega), Function.update_of_ne (by push_cast; omega)]
        congr 1
        push_cast
        ring
  · intro back hb
    rw [Cpu.run, List.foldl_nil, hb]
    simp [Cpu.run, CallInsn.exec]

end Call

/-! ### The return address of `_gcall` -/

/-- A command of one byte. -/
theorem cmdSize_eq_one_iff {v : Word} : cmdSize v = 1 ↔ v.toNat < 16 := by
  have hle := cmdSize_le_iff (w := 32) (by decide) (v := v) (L := 1)
  have hpos := one_le_cmdSize v
  have hcond := BitVec.toInt_eq_toNat_cond v
  have hlt := v.isLt
  split at hcond <;> omega

/-- The state in front of the transfer: the return address is computed from the address behind
`ldpi`, with two bytes to go. -/
theorem Cpu.run_gcallCode (s : Cpu) (t : CallInsn) :
    s.run (Call.gcallCode t) = t.exec
      { iptr := s.behind [.ajw (-1), .ldc 2, .ldpi] + 1
        areg := s.areg
        breg := s.breg
        creg := s.breg
        wreg := s.wreg - 1
        mem := Function.update s.mem (s.wreg - 1) (s.behind [.ajw (-1), .ldc 2, .ldpi] + 2) } := by
  have hstl : (CallInsn.stl 0).size = 1 := cmdSize_eq_one_iff.mpr (by decide)
  simp only [Cpu.run, Call.gcallCode, List.foldl_cons, List.foldl_nil]
  congr 1
  simp only [CallInsn.exec, Cpu.behind, List.foldl_cons, List.foldl_nil, hstl]
  simp [sub_eq_add_neg]

theorem Cpu.behind_gcallCode (s : Cpu) (t : CallInsn) :
    s.behind (Call.gcallCode t)
      = s.behind [.ajw (-1), .ldc 2, .ldpi] + 1 + BitVec.ofNat 32 t.size := by
  have hstl : (CallInsn.stl 0).size = 1 := cmdSize_eq_one_iff.mpr (by decide)
  simp only [Cpu.behind, Call.gcallCode, List.foldl_cons, List.foldl_nil, hstl]
  rfl

namespace Call

variable {c : Call}

/-- Everything on the stack, and a transfer of one byte that leaves the workspace alone. -/
theorem agrees_stack {t : CallInsn} (hcode : c.expandCall = (gcallCode t, [.ajw (-3)]))
    (hsize : t.size = 1) (hkeep : ∀ s, (t.exec s).wreg = s.wreg ∧ (t.exec s).mem = s.mem)
    (hargs : c.args ≠ [] → c.prescan.mustPassInStack = true)
    (hfn : ∀ s ws fn, c.Ready s ws fn → (s.run (gcallCode t)).iptr = fn) : c.Agrees := by
  refine agrees_of_entry fun s ws fn hr => ?_
  have hgo := hfn s ws fn hr
  rw [hcode]
  obtain ⟨hwreg, hmem⟩ := hkeep
    { iptr := s.behind [.ajw (-1), .ldc 2, .ldpi] + 1
      areg := s.areg
      breg := s.breg
      creg := s.breg
      wreg := s.wreg - 1
      mem := Function.update s.mem (s.wreg - 1) (s.behind [.ajw (-1), .ldc 2, .ldpi] + 2) }
  simp only [Cpu.run_gcallCode, Cpu.behind_gcallCode, hwreg, hmem, hsize] at hgo ⊢
  refine ⟨hgo, ?_, ?_, ?_⟩
  · rw [Function.update_self, add_assoc]
    rfl
  · intro k hk
    have hne : c.args ≠ [] := by
      intro hnil
      simp [words, hnil] at hk
    rw [← hr.word (locs_stack (hargs hne)).1 hk, Function.update_of_ne (by omega), Cpu.read]
    congr 1
    ring
  · intro back hb
    have hadj : (back.run [.ajw (-3)]).wreg = back.wreg - 3 := rfl
    rw [hadj, hb]
    ring

/-- The function's address in `Areg`. -/
theorem agrees_register (haddr : c.addr = .register) : c.Agrees := by
  have hcode : c.expandCall = (gcallCode .gcall, [.ajw (-3)]) := by simp [expandCall, haddr]
  refine agrees_stack hcode (cmdSize_eq_one_iff.mpr (by decide)) (fun s => ⟨rfl, rfl⟩) ?_ ?_
  · refine mustPassInStack_of_indirect ?_
    by_contra hd
    exact c.direct (by simpa using hd) haddr
  · intro s ws fn hr
    rw [Cpu.run_gcallCode, ← hr.register haddr]
    rfl

theorem expandCall_j {d : Word} (haddr : c.addr = .constant d)
    (hmust : c.prescan.mustPassInStack = true) :
    c.expandCall = (gcallCode (.j d), [.ajw (-3)]) := by
  simp [expandCall, haddr, (locs_stack hmust).2]

/-- A `j` of one byte. -/
theorem agrees_j {d : Word} (haddr : c.addr = .constant d)
    (hmust : c.prescan.mustPassInStack = true) (hd : d.toNat < 16) : c.Agrees := by
  have hcode := expandCall_j haddr hmust
  refine agrees_stack hcode (cmdSize_eq_one_iff.mpr hd) (fun s => ⟨rfl, rfl⟩) (fun _ => hmust) ?_
  intro s ws fn hr
  have hfn := hr.constant d haddr
  rw [hcode, Cpu.behind_gcallCode] at hfn
  rw [Cpu.run_gcallCode, ← hfn]
  rfl

/-- Behind a longer `j` the return address lies within the `j`. -/
theorem not_agrees_j {d : Word} (haddr : c.addr = .constant d)
    (hmust : c.prescan.mustPassInStack = true) (hd : 16 ≤ d.toNat) : ¬ c.Agrees := by
  intro hag
  have hcode := expandCall_j haddr hmust
  -- a processor with zeros everywhere
  have hready : c.Ready ⟨0, 0, 0, 0, 0, fun _ => 0⟩ (fun _ => 0)
      ((⟨0, 0, 0, 0, 0, fun _ => 0⟩ : Cpu).behind c.expandCall.1 + d) := by
    refine ⟨fun k loc _ => ?_, fun h => ?_, fun d' h => ?_⟩
    · unfold Cpu.read
      split <;> rfl
    · rw [haddr] at h
      cases h
    · rw [haddr] at h
      cases h
      rfl
  obtain ⟨-, hret, -⟩ := hag _ _ _ ⟨0, 0⟩ hready
  rw [hcode, Cpu.behind_gcallCode, Cpu.run_gcallCode] at hret
  simp only [CallInsn.exec, Function.update_self, add_assoc, add_right_inj] at hret
  have hsize : (CallInsn.j d).size = 1 := by
    have hmax : cmdSize d ≤ 8 := cmdSize_le_maxlen d
    have h2 : (2 : Word).toNat = (1 + BitVec.ofNat 32 (cmdSize d)).toNat := congrArg _ hret
    have hone : (1 : Word).toNat = 1 := rfl
    have htwo : (2 : Word).toNat = 2 := rfl
    rw [BitVec.toNat_add, BitVec.toNat_ofNat, hone, htwo] at h2
    change cmdSize d = 1
    omega
  have := cmdSize_eq_one_iff.mp hsize
  omega

/-- Caller and callee agree on every call, but those whose arguments go on the stack and whose
function, at a constant distance, takes a `j` of more than one byte. -/
theorem call_agrees_iff (c : Call) :
    c.Agrees ↔ ∀ d, c.addr = .constant d → c.OnStack → d.toNat < 16 := by
  rw [← mustPassInStack_iff]
  constructor
  · intro hag d haddr hmust
    by_contra hd
    exact not_agrees_j haddr hmust (by omega) hag
  · intro h
    cases haddr : c.addr with
    | register => exact agrees_register haddr
    | constant d =>
        cases hmust : c.prescan.mustPassInStack with
        | false => exact agrees_registers haddr hmust
        | true => exact agrees_j haddr hmust (h d haddr hmust)

/-- `f (s)` for a structure of four words, `f` declared and 100 bytes away: the structure goes on
the stack. -/
def structCall : Call where
  args := [⟨4, false⟩]
  fndecl := true
  addr := .constant 100
  direct := by decide

theorem structCall_disagrees : ¬ structCall.Agrees :=
  not_agrees_j rfl (by decide) (by decide)

end Call

end Ttools.T800
