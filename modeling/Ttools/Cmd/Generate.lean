import Ttools.Cmd.Size
import Ttools.Format.Number

/-!
# Generating a command

`cmd_generate` (`shared/cmd.c`) and `lit_load_cmd_generate` (`startups/shared/litload.c`) write a
direct command backwards: the opcode with the low four bits of the argument, before it the
prefixes, and before these the `pfix 0` that pad the command to its slot.  A transputer collects
the argument in its operand register.

* `generate_reaches`: on the bytes generated a transputer reaches the opcode with the argument.
* `generate_ok`, `generate_error`: they fit exactly in the slots with room for `cmd_size` bytes.
* `cmdSize_le_length`: no shorter bytes reach it.
* `cmdGenerate_spec`: all of it, for both copies and the cost function of the compiler,
  `t800_const_cost` (`config/t800/t800.c`).
-/

namespace Ttools

/-- `OPCODE_PFIX`, `OPCODE_NFIX`, `CMD_MAXLEN`. -/
def opcodePfix : Byte := 0x20
def opcodeNfix : Byte := 0x60
def cmdMaxlen : Nat := 8

/-- `arg & 0xf`, as it is stored in a byte. -/
def nibble (arg : Word) : Byte := lowByte (arg &&& 0xf)

/-- The prefixes of an argument that is not negative, before the bytes `out`, with `room` bytes
left in the slot: how many are left then, and the bytes.  Where the room does not suffice, the
bytes that have been written. -/
def pfixLoop : Nat → Word → List Byte → Except (List Byte) (Nat × List Byte)
  | 0, arg, out => if arg >>> 4 = 0 then .ok (0, out) else .error out
  | room + 1, arg, out =>
      if arg >>> 4 = 0 then .ok (room + 1, out)
      else pfixLoop room (arg >>> 4) ((opcodePfix ||| nibble (arg >>> 4)) :: out)

/-- The prefixes of a negative argument, with its complement given. -/
def nfixLoop : Nat → Word → List Byte → Except (List Byte) (Nat × List Byte)
  | 0, _, out => .error out
  | room + 1, arg, out =>
      if (16 : Word).sle (arg >>> 4) then
        nfixLoop room (arg >>> 4) ((opcodePfix ||| nibble (~~~(arg >>> 4))) :: out)
      else .ok (room, (opcodeNfix ||| nibble (arg >>> 4)) :: out)

/-- The part that `cmd_generate` and `lit_load_cmd_generate` have in common. -/
def generate (opcode : Byte) (arg : Word) : Nat → Except (List Byte) (Nat × List Byte)
  | 0 => .error []
  | room + 1 =>
      let out := [opcode ||| nibble arg]
      if (0 : Word).sle arg then pfixLoop room arg out else nfixLoop room (~~~arg) out

/-- `cmd_generate`: the size it returns and the bytes, or, where it returns -1, the bytes it has
written at the end of the slot. -/
def cmdGenerate (opcode : Byte) (arg : Word) (slot : Int) :
    Except (List Byte) (Int × List Byte) := do
  let (room, out) ← generate opcode arg (if slot ≠ 0 then slot.toNat else cmdMaxlen)
  if slot ≠ 0 then return (slot, List.replicate room opcodePfix ++ out)
  else return (out.length, out)

/-- `lit_load_cmd_generate`; for want of room it is fatal. -/
def litLoadCmdGenerate (opcode : Byte) (arg : Word) (slot : Int) :
    Except (List Byte) (Int × List Byte) := do
  let (room, out) ← generate opcode arg slot.toNat
  return (slot, List.replicate room opcodePfix ++ out)

/-- `t800_const_cost`. -/
def t800ConstCost (i : Word) : Nat :=
  if i.slt 0 then countNibbles (~~~i) (if (0xfffffff0 : Word).sle i then 1 else 0)
  else countNibbles i 0

/-! ### Executing -/

/-- The operand register once the low half of `b` has been loaded into it. -/
def oreg (o : Word) (b : Byte) : Word := o ||| (b &&& 0xf).zeroExtend 32

/-- A prefix; `none` if `b` is none. -/
def prefixStep (o : Word) (b : Byte) : Option Word :=
  if b &&& 0xf0 = opcodePfix then some (oreg o b <<< 4)
  else if b &&& 0xf0 = opcodeNfix then some (~~~oreg o b <<< 4)
  else none

/-- Bytes that are prefixes up to the last one: the opcode that is reached, and its operand. -/
def reaches (o : Word) : List Byte → Option (Byte × Word)
  | [] => none
  | [b] => some (b &&& 0xf0, oreg o b)
  | b :: b' :: bs => (prefixStep o b).bind fun o => reaches o (b' :: bs)

theorem reaches_cons {o o' : Word} {b : Byte} {bs : List Byte} (h : prefixStep o b = some o')
    (hbs : bs ≠ []) : reaches o (b :: bs) = reaches o' bs := by
  obtain ⟨b', bs, rfl⟩ := List.exists_cons_of_ne_nil hbs
  rw [reaches, h, Option.bind_some]

/-! ### One byte -/

@[simp] theorem getElem_fifteen {w i : Nat} (hi : i < w) : (15#w)[i] = decide (i < 4) := by
  rw [← BitVec.getLsbD_eq_getElem, BitVec.getLsbD_ofNat, decide_eq_true hi, Bool.true_and]
  exact Nat.testBit_two_pow_sub_one 4 i

theorem getElem_nibble (arg : Word) {i : Nat} (hi : i < 8) :
    (nibble arg)[i] = (arg[i] && decide (i < 4)) := by
  have hi' : i < 32 := by omega
  simp [nibble, lowByte, BitVec.getLsbD_eq_getElem hi']

/-- A word without a low half byte. -/
theorem getElem_of_and_fifteen {w : Nat} {b : BitVec w} (h : b &&& 0xf = 0) {i : Nat} (hw : i < w)
    (hi : i < 4) : b[i] = false := by
  have := congrArg (fun x : BitVec w => x[i]) h
  simpa [hi] using this

theorem opcode_nibble {opcode : Byte} (h : opcode &&& 0xf = 0) (arg : Word) :
    (opcode ||| nibble arg) &&& 0xf0 = opcode := by
  have hmask : (0xf0 : Byte) = ~~~0xf := by decide
  ext i hi
  rw [hmask, BitVec.getElem_and, BitVec.getElem_or, BitVec.getElem_not, getElem_nibble arg hi]
  by_cases hi4 : i < 4
  · simp [hi4, getElem_of_and_fifteen h (by omega) hi4]
  · simp [hi4]

theorem oreg_nibble {opcode : Byte} (h : opcode &&& 0xf = 0) (o arg : Word) :
    oreg o (opcode ||| nibble arg) = o ||| (arg &&& 0xf) := by
  ext i hi
  by_cases hi4 : i < 4
  · have hi8 : i < 8 := by omega
    simp [oreg, hi4, BitVec.getLsbD_eq_getElem hi8, getElem_of_and_fifteen h (by omega) hi4,
      getElem_nibble arg hi8]
  · by_cases hi8 : i < 8
    · simp [oreg, hi4, BitVec.getLsbD_eq_getElem hi8]
    · simp [oreg, hi4]

theorem ushiftRight_shiftLeft_or (arg : Word) : (arg >>> 4) <<< 4 ||| (arg &&& 0xf) = arg := by
  ext i hi
  by_cases hi4 : i < 4
  · simp [hi4]
  · simp [hi4, BitVec.getLsbD_eq_getElem hi, show 4 + (i - 4) = i by omega]

/-- The complement keeps the argument's bits too. -/
theorem not_ushiftRight_shiftLeft_or (arg : Word) :
    (~~~(arg >>> 4)) <<< 4 ||| (~~~arg &&& 0xf) = ~~~arg := by
  ext i hi
  by_cases hi4 : i < 4
  · simp [hi4]
  · simp [hi4, BitVec.getLsbD_eq_getElem hi, show 4 + (i - 4) = i by omega]
/-! ### The loops -/

theorem pfixLoop_ok {room r : Nat} {arg : Word} {out out' : List Byte}
    (h : pfixLoop room arg out = .ok (r, out')) :
    out'.length = countNibbles arg out.length ∧ r + out'.length = room + out.length := by
  induction room generalizing arg out with
  | zero =>
      rw [pfixLoop] at h
      split at h
      · next h0 =>
          cases h
          rw [countNibbles, dif_pos h0]
          exact ⟨rfl, rfl⟩
      · cases h
  | succ room ih =>
      rw [pfixLoop] at h
      rw [countNibbles]
      split at h
      · next h0 =>
          cases h
          rw [dif_pos h0]
          exact ⟨rfl, rfl⟩
      · next h0 =>
          obtain ⟨hlen, hroom⟩ := ih h
          rw [List.length_cons] at hlen hroom
          rw [dif_neg h0]
          exact ⟨hlen, by omega⟩

theorem pfixLoop_error {room : Nat} {arg : Word} {out written : List Byte}
    (h : pfixLoop room arg out = .error written) :
    room + out.length < countNibbles arg out.length ∧ written.length = room + out.length := by
  induction room generalizing arg out with
  | zero =>
      rw [pfixLoop] at h
      split at h
      · cases h
      · next h0 =>
          cases h
          have := le_countNibbles (arg >>> 4) (written.length + 1)
          rw [countNibbles, dif_neg h0]
          omega
  | succ room ih =>
      rw [pfixLoop] at h
      rw [countNibbles]
      split at h
      · cases h
      · next h0 =>
          obtain ⟨hlen, hroom⟩ := ih h
          rw [List.length_cons] at hlen hroom
          rw [dif_neg h0]
          omega

theorem sixteen_sle {arg : Word} : (16 : Word).sle (arg >>> 4) = true ↔ 16 ≤ arg.toNat / 16 := by
  have hlt := arg.isLt
  have hnat := toNat_ushiftRight_four arg
  have hint : (arg >>> 4).toInt = ((arg >>> 4).toNat : Int) := by
    rw [BitVec.toInt_eq_toNat_cond, hnat, if_pos (by omega)]
  rw [BitVec.sle_iff_toInt_le, hint, hnat]
  show (16 : Int) ≤ _ ↔ _
  omega

/-- How far `nfix` loops count, one round on. -/
theorem countNibbles_succ {arg : Word} (h : 16 ≤ arg.toNat) (sz : Nat) :
    countNibbles arg sz = countNibbles (arg >>> 4) (sz + 1) := by
  rw [countNibbles, dif_neg fun h0 => by have := ushiftRight_four_eq_zero.mp h0; omega]

theorem nfixLoop_ok {room r : Nat} {arg : Word} {out out' : List Byte}
    (h : nfixLoop room arg out = .ok (r, out')) :
    out'.length = max (out.length + 1) (countNibbles arg out.length) ∧
      r + out'.length = room + out.length := by
  induction room generalizing arg out with
  | zero => cases h
  | succ room ih =>
      rw [nfixLoop] at h
      split at h
      · next h16 =>
          rw [sixteen_sle] at h16
          obtain ⟨hlen, hroom⟩ := ih h
          rw [List.length_cons] at hlen hroom
          have h1 := @countNibbles_succ arg (by omega) out.length
          have h2 := @countNibbles_succ (arg >>> 4) (by rw [toNat_ushiftRight_four]; omega)
            (out.length + 1)
          have h3 := le_countNibbles (arg >>> 4 >>> 4) (out.length + 1 + 1)
          omega
      · next h16 =>
          rw [sixteen_sle] at h16
          cases h
          have := (@countNibbles_le_iff 32 arg out.length 1).mpr (by omega)
          rw [List.length_cons]
          omega

theorem nfixLoop_error {room : Nat} {arg : Word} {out written : List Byte}
    (h : nfixLoop room arg out = .error written) :
    room + out.length < max (out.length + 1) (countNibbles arg out.length) ∧
      written.length = room + out.length := by
  induction room generalizing arg out with
  | zero =>
      cases h
      omega
  | succ room ih =>
      rw [nfixLoop] at h
      split at h
      · next h16 =>
          rw [sixteen_sle] at h16
          obtain ⟨hlen, hroom⟩ := ih h
          rw [List.length_cons] at hlen hroom
          have h1 := @countNibbles_succ arg (by omega) out.length
          have h2 := @countNibbles_succ (arg >>> 4) (by rw [toNat_ushiftRight_four]; omega)
            (out.length + 1)
          have h3 := le_countNibbles (arg >>> 4 >>> 4) (out.length + 1 + 1)
          omega
      · cases h

/-! ### What the bytes mean -/

theorem prefixStep_pfix (o arg : Word) :
    prefixStep o (opcodePfix ||| nibble arg) = some ((o ||| (arg &&& 0xf)) <<< 4) := by
  have hop : opcodePfix &&& 0xf = 0 := by decide
  rw [prefixStep, opcode_nibble hop, if_pos rfl, oreg_nibble hop]

theorem prefixStep_nfix (o arg : Word) :
    prefixStep o (opcodeNfix ||| nibble arg) = some (~~~(o ||| (arg &&& 0xf)) <<< 4) := by
  have hop : opcodeNfix &&& 0xf = 0 := by decide
  have hne : opcodeNfix ≠ opcodePfix := by decide
  rw [prefixStep, opcode_nibble hop, if_neg hne, if_pos rfl, oreg_nibble hop]

/-- The bits of `arg` above its low half are what `out` still has to be given. -/
theorem pfixLoop_reaches {room r : Nat} {arg : Word} {out out' : List Byte} {p : Byte × Word}
    (h : pfixLoop room arg out = .ok (r, out')) (hout : out ≠ [])
    (hp : reaches ((arg >>> 4) <<< 4) out = some p) : reaches 0 out' = some p := by
  induction room generalizing arg out with
  | zero =>
      rw [pfixLoop] at h
      split at h
      · next h0 =>
          cases h
          rwa [h0] at hp
      · cases h
  | succ room ih =>
      rw [pfixLoop] at h
      split at h
      · next h0 =>
          cases h
          rwa [h0] at hp
      · refine ih h (List.cons_ne_nil _ _) ?_
        rwa [reaches_cons (prefixStep_pfix _ _) hout, ushiftRight_shiftLeft_or]

/-- The same for the complement `arg` of a negative argument; the `nfix` turns its sign. -/
theorem nfixLoop_reaches {room r : Nat} {arg : Word} {out out' : List Byte} {p : Byte × Word}
    (h : nfixLoop room arg out = .ok (r, out')) (hout : out ≠ [])
    (hp : reaches (~~~(arg >>> 4) <<< 4) out = some p) : reaches 0 out' = some p := by
  induction room generalizing arg out with
  | zero => cases h
  | succ room ih =>
      rw [nfixLoop] at h
      split at h
      · refine ih h (List.cons_ne_nil _ _) ?_
        rwa [reaches_cons (prefixStep_pfix _ _) hout, not_ushiftRight_shiftLeft_or]
      · next h16 =>
          cases h
          have hlow : (0 : Word) ||| ((arg >>> 4) &&& (0xf : Word)) = arg >>> 4 := by
            have := ushiftRight_shiftLeft_or (arg >>> 4)
            rwa [ushiftRight_four_eq_zero.mpr (by
              rw [sixteen_sle] at h16
              rw [toNat_ushiftRight_four]
              omega)] at this
          rwa [reaches_cons (prefixStep_nfix _ _) hout, hlow]

theorem reaches_replicate (k : Nat) {bs : List Byte} (h : bs ≠ []) :
    reaches 0 (List.replicate k opcodePfix ++ bs) = reaches 0 bs := by
  induction k with
  | zero => rfl
  | succ k ih =>
      have hstep : prefixStep 0 opcodePfix = some 0 := by decide
      rw [List.replicate_succ, List.cons_append, reaches_cons hstep (by simp [h]), ih]

theorem sle_zero_iff {v : Word} : (0 : Word).sle v = true ↔ v.slt 0 = false := by
  rw [BitVec.sle_iff_toInt_le, ← Bool.not_eq_true, slt_zero_iff, not_lt]
  rfl

/-- The two ways of counting: `cmd_size` counts an argument that is not negative as the loop of
prefixes does, and a negative one as the other loop does. -/
theorem cmdSize_of_neg {v : Word} (h : v.slt 0 = true) :
    cmdSize v = max 2 (countNibbles (~~~v) 1) := by
  have hnot := toNat_not_of_neg h
  have h16 : (-16 : Word).sle v = true ↔ -16 ≤ v.toInt := by
    rw [BitVec.sle_iff_toInt_le, toInt_neg_sixteen (by decide)]
  rw [cmdSize, if_pos h]
  by_cases hsmall : -16 ≤ v.toInt
  · have h2 : countNibbles (~~~v) 2 = _ := countNibbles_add (~~~v) 1 1
    have h1 := (@countNibbles_le_iff 32 (~~~v) 1 0).mpr (by omega)
    have := le_countNibbles (~~~v) 1
    rw [if_pos (h16.mpr hsmall)]
    omega
  · have h1 := (@countNibbles_le_iff 32 (~~~v) 1 0).not.mpr (by omega)
    rw [if_neg fun h => hsmall (h16.mp h)]
    omega

theorem generate_ok {opcode : Byte} {arg : Word} {room r : Nat} {out : List Byte}
    (h : generate opcode arg room = .ok (r, out)) :
    out.length = cmdSize arg ∧ r + out.length = room := by
  cases room with
  | zero => cases h
  | succ room =>
      simp only [generate] at h
      split at h
      · next h0 =>
          obtain ⟨hlen, hroom⟩ := pfixLoop_ok h
          rw [cmdSize, if_neg (by rw [sle_zero_iff.mp h0]; exact Bool.false_ne_true)]
          exact ⟨hlen, hroom⟩
      · next h0 =>
          obtain ⟨hlen, hroom⟩ := nfixLoop_ok h
          rw [cmdSize_of_neg (by rwa [sle_zero_iff, Bool.not_eq_false] at h0)]
          exact ⟨hlen, hroom⟩

theorem generate_error {opcode : Byte} {arg : Word} {room : Nat} {written : List Byte}
    (h : generate opcode arg room = .error written) :
    room < cmdSize arg ∧ written.length = room := by
  cases room with
  | zero =>
      cases h
      exact ⟨one_le_cmdSize arg, rfl⟩
  | succ room =>
      simp only [generate] at h
      split at h
      · next h0 =>
          rw [cmdSize, if_neg (by rw [sle_zero_iff.mp h0]; exact Bool.false_ne_true)]
          exact pfixLoop_error h
      · next h0 =>
          rw [cmdSize_of_neg (by rwa [sle_zero_iff, Bool.not_eq_false] at h0)]
          exact nfixLoop_error h

/-- On the bytes generated a transputer reaches the opcode with the argument. -/
theorem generate_reaches {opcode : Byte} (hop : opcode &&& 0xf = 0) {arg : Word} {room r : Nat}
    {out : List Byte} (h : generate opcode arg room = .ok (r, out)) :
    reaches 0 out = some (opcode, arg) := by
  have hlast : ∀ o, o ||| (arg &&& 0xf) = arg →
      reaches o [opcode ||| nibble arg] = some (opcode, arg) := by
    intro o ho
    rw [reaches, opcode_nibble hop, oreg_nibble hop, ho]
  cases room with
  | zero => cases h
  | succ room =>
      simp only [generate] at h
      split at h
      · exact pfixLoop_reaches h (List.cons_ne_nil _ _) (hlast _ (ushiftRight_shiftLeft_or arg))
      · refine nfixLoop_reaches h (List.cons_ne_nil _ _) (hlast _ ?_)
        have := not_ushiftRight_shiftLeft_or (~~~arg)
        rwa [BitVec.not_not] at this

/-! ### No shorter command -/

/-- The operand register between two bytes of a command: the low half is clear, and the value is
that of `j` half bytes and a sign. -/
structure Holds (j : Nat) (o : Word) : Prop where
  low : o &&& 0xf = 0
  lo : -16 ^ j ≤ o.toInt
  hi : o.toInt < 16 ^ j

theorem oreg_toNat {o : Word} (h : o &&& 0xf = 0) (b : Byte) :
    (oreg o b).toNat = o.toNat + (b &&& 0xf).toNat ∧ (b &&& 0xf).toNat < 16 ∧
      o.toNat % 16 = 0 := by
  have hn : (b &&& 0xf).toNat < 16 := by
    rw [Support.toNat_and_mask (k := 4) (by decide)]
    exact Nat.mod_lt _ (by decide)
  have hmod : o.toNat % 16 = 0 := by
    have := @Support.toNat_and_mask 32 0xf 4 (by decide) o
    rw [h] at this
    exact this.symm
  have hand : o &&& (b &&& 0xf).zeroExtend 32 = 0 := by
    ext i hi
    by_cases hi4 : i < 4
    · simp [getElem_of_and_fifteen h hi hi4]
    · simp [hi4]
  have hlt := o.isLt
  refine ⟨?_, hn, hmod⟩
  rw [oreg, ← BitVec.add_eq_or_of_and_eq_zero _ _ hand, BitVec.toNat_add,
    BitVec.zeroExtend_eq_setWidth, BitVec.toNat_setWidth, Nat.mod_eq_of_lt (a := (b &&& 0xf).toNat)]
  · omega
  · omega

theorem Holds.oreg {j : Nat} {o : Word} (h : Holds (j + 1) o) (b : Byte) :
    -16 ^ (j + 1) ≤ (oreg o b).toInt ∧ (Ttools.oreg o b).toInt < 16 ^ (j + 1) := by
  obtain ⟨hnat, hn, hmod⟩ := oreg_toNat h.low b
  have h1 := BitVec.toInt_eq_toNat_cond o
  have h2 := BitVec.toInt_eq_toNat_cond (Ttools.oreg o b)
  have hlo := h.lo
  have hhi := h.hi
  rw [hnat] at h2
  rw [pow_succ] at hlo hhi ⊢
  generalize (16 : Int) ^ j = size at *
  omega

theorem Holds.shift {j : Nat} {o : Word} (hlo : -16 ^ j ≤ o.toInt) (hhi : o.toInt < 16 ^ j) :
    Holds (j + 1) (o <<< 4) := by
  have hlow : (o <<< 4) &&& 0xf = 0 := by
    ext i hi
    by_cases hi4 : i < 4
    · simp [hi4]
    · simp [hi4]
  have hlo' := BitVec.le_toInt (o <<< 4)
  have hhi' := BitVec.toInt_lt (x := o <<< 4)
  have hnat : (o <<< 4).toNat = o.toNat * 16 % 2 ^ 32 := by
    rw [BitVec.toNat_shiftLeft, Nat.shiftLeft_eq]
  have h1 := BitVec.toInt_eq_toNat_cond o
  have h2 := BitVec.toInt_eq_toNat_cond (o <<< 4)
  have hlt := o.isLt
  rw [hnat] at h2
  refine ⟨hlow, ?_, ?_⟩
  · rw [pow_succ]
    generalize (16 : Int) ^ j = size at *
    omega
  · rw [pow_succ]
    generalize (16 : Int) ^ j = size at *
    omega

theorem reaches_length {o : Word} {j : Nat} {bs : List Byte} {p : Byte × Word}
    (ho : Holds (j + 1) o) (h : reaches o bs = some p) :
    -16 ^ (j + bs.length) ≤ p.2.toInt ∧ p.2.toInt < 16 ^ (j + bs.length) := by
  induction bs generalizing o j with
  | nil => cases h
  | cons b bs ih =>
      rcases bs with _ | ⟨b', bs⟩
      · cases h
        exact ho.oreg b
      · obtain ⟨o', hstep, h⟩ := Option.bind_eq_some_iff.mp h
        obtain ⟨hlo, hhi⟩ := ho.oreg b
        have ho' : Holds (j + 1 + 1) o' := by
          rw [prefixStep] at hstep
          split at hstep
          · cases hstep
            exact .shift hlo hhi
          · split at hstep
            · cases hstep
              have h1 := BitVec.toInt_eq_toNat_cond (oreg o b)
              have h2 := BitVec.toInt_eq_toNat_cond (~~~oreg o b)
              have hlt := (oreg o b).isLt
              rw [BitVec.toNat_not] at h2
              exact .shift (by omega) (by omega)
            · cases hstep
        have := ih ho' h
        rwa [List.length_cons (a := b), Nat.add_comm _ 1, ← Nat.add_assoc]

/-- No shorter bytes than those of `cmd_size` reach the opcode with the argument. -/
theorem cmdSize_le_length {bs : List Byte} {p : Byte × Word} (h : reaches 0 bs = some p) :
    cmdSize p.2 ≤ bs.length := by
  have h0 : Holds (0 + 1) 0 := ⟨by decide, by decide, by decide⟩
  obtain ⟨hlo, hhi⟩ := reaches_length h0 h
  rw [Nat.zero_add] at hlo hhi
  rcases bs with _ | ⟨b, _ | ⟨b', bs⟩⟩
  · cases h
  · -- one byte has no sign
    cases h
    obtain ⟨hnat, hn, -⟩ := oreg_toNat (o := 0) (by decide) b
    have hint := BitVec.toInt_eq_toNat_cond (oreg 0 b)
    have h00 : (0 : Word).toNat = 0 := rfl
    rw [hnat, h00, if_pos (by omega)] at hint
    refine (cmdSize_le_iff (by decide)).mpr ⟨le_rfl, hlo, hhi, fun hneg => ?_⟩
    have hpos : 0 ≤ (oreg 0 b).toInt := by omega
    exact absurd hneg (not_lt.mpr hpos)
  · refine (cmdSize_le_iff (by decide)).mpr ⟨?_, hlo, hhi, fun _ => ?_⟩
    · rw [List.length_cons]
      omega
    · rw [List.length_cons, List.length_cons]
      omega

/-! ### The two copies -/

theorem reaches_slot {opcode : Byte} (hop : opcode &&& 0xf = 0) {arg : Word} {room r : Nat}
    {out : List Byte} (h : generate opcode arg room = .ok (r, out)) :
    (List.replicate r opcodePfix ++ out).length = room ∧
      reaches 0 (List.replicate r opcodePfix ++ out) = some (opcode, arg) := by
  obtain ⟨hlen, hroom⟩ := generate_ok h
  have hout : out ≠ [] := by
    rintro rfl
    have := one_le_cmdSize arg
    rw [List.length_nil] at hlen
    omega
  rw [List.length_append, List.length_replicate, reaches_replicate r hout]
  exact ⟨hroom, generate_reaches hop h⟩

theorem cmdSize_le_maxlen (v : Word) : cmdSize v ≤ cmdMaxlen := by
  have hlo := BitVec.le_toInt v
  have hhi := BitVec.toInt_lt (x := v)
  have h8 : (2 : Int) ^ (32 - 1) ≤ 16 ^ cmdMaxlen := by norm_num [cmdMaxlen]
  rw [cmdSize_le_iff (by decide)]
  refine ⟨by decide, ?_, ?_, fun _ => by decide⟩
  · exact le_trans (neg_le_neg h8) hlo
  · exact lt_of_lt_of_le hhi h8

/-- **Commands**: `cmd_generate` is right and as short as can be, `cmd_size` and the compiler's
cost function count its bytes, and it fits a slot exactly when it has no more bytes than that, in
the loader as well. -/
theorem cmdGenerate_spec (opcode : Byte) (hop : opcode &&& 0xf = 0) (v : Word) :
    (∃ bs, cmdGenerate opcode v 0 = .ok (cmdSize v, bs) ∧ bs.length = cmdSize v ∧
        reaches 0 bs = some (opcode, v)) ∧
      (∀ bs, reaches 0 bs = some (opcode, v) → cmdSize v ≤ bs.length) ∧
      1 ≤ cmdSize v ∧ cmdSize v ≤ cmdMaxlen ∧ cmdSize v = t800ConstCost v + 1 ∧
      ∀ s : Nat, 1 ≤ s →
        if cmdSize v ≤ s then
          ∃ bs, cmdGenerate opcode v s = .ok (s, bs) ∧ bs.length = s ∧
            reaches 0 bs = some (opcode, v) ∧ litLoadCmdGenerate opcode v s = .ok (s, bs)
        else
          ∃ written, cmdGenerate opcode v s = .error written ∧
            litLoadCmdGenerate opcode v s = .error written := by
  refine ⟨?_, fun bs h => cmdSize_le_length (p := (opcode, v)) h, one_le_cmdSize v, cmdSize_le_maxlen v, ?_,
    fun s hs => ?_⟩
  · have hmax := cmdSize_le_maxlen v
    rcases h : generate opcode v cmdMaxlen with written | ⟨r, out⟩
    · have := (generate_error h).1
      omega
    · refine ⟨out, ?_, (generate_ok h).1, generate_reaches hop h⟩
      rw [← (generate_ok h).1, cmdGenerate, if_neg (by simp), h]
      rfl
  · have hcost : (0xfffffff0 : Word) = -16 := by decide
    rw [cmdSize, t800ConstCost, hcost]
    split
    · rw [← countNibbles_add]
      congr 1
      split <;> rfl
    · exact countNibbles_add v 0 1
  · have hslot : (if (s : Int) ≠ 0 then (s : Int).toNat else cmdMaxlen) = s := by
      rw [if_pos (by omega), Int.toNat_natCast]
    rcases h : generate opcode v s with written | ⟨r, out⟩
    · obtain ⟨hlt, -⟩ := generate_error h
      rw [if_neg (by omega)]
      refine ⟨written, ?_, ?_⟩
      · rw [cmdGenerate, hslot, h]
        rfl
      · rw [litLoadCmdGenerate, Int.toNat_natCast, h]
        rfl
    · obtain ⟨hlen, hroom⟩ := generate_ok h
      obtain ⟨hall, hreach⟩ := reaches_slot hop h
      rw [if_pos (by omega)]
      refine ⟨List.replicate r opcodePfix ++ out, ?_, hall, hreach, ?_⟩
      · rw [cmdGenerate, hslot, h]
        exact if_pos (by omega)
      · rw [litLoadCmdGenerate, Int.toNat_natCast, h]
        rfl

/-- `ldc -17` is `nfix 1; ldc 15`, and no shorter bytes are. -/
theorem cmdGenerate_spec_nfix :
    cmdGenerate 0x40 (-17) 0 = .ok (2, [0x61, 0x4f]) ∧
      ∀ bs, reaches 0 bs = some (0x40, -17) → cmdSize (-17 : Word) ≤ bs.length :=
  ⟨rfl, (cmdGenerate_spec 0x40 (by decide) (-17)).2.1⟩

end Ttools
