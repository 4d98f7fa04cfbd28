import Ttools.Cmd.Generate
import Ttools.Cmd.Tables

/-!
# Disassembling

`disassemble` (`dast/disassemble.c`) shows the command at the beginning of a buffer.  The
assembler (`command` in `ast/parse.y`) writes a direct command and an indirect one with
`cmd_generate`, and a command of the floating point unit as `ldc code; fpentry`.

* `skipPrefixes_reaches`: the loop over the prefixes collects the operand that a transputer does.
* `disassemble_encode`: at the bytes of a direct or an indirect command the disassembler shows
  this command, whatever follows.
* `disassembleAll_iff`: it shows the commands of a sequence one by one exactly when none of them
  is one of the floating point unit, or an `opr` whose code is in the range of a table without
  being in the table.  The look-ahead for `fpentry` compares with `pfix 0` instead of `pfix 10`,
  and an entry of a table is not looked at before it is taken for a mnemonic.
-/

namespace Ttools

/-- `OPCODE_LDC`, `OPCODE_OPR`, `OPCODE_FPENTRY`. -/
def opcodeLdc : Byte := 0x40
def opcodeOpr : Byte := 0xf0
def opcodeFpentry : Nat := 0xab

/-- `struct disassemble`; the mnemonic of `none` is `NULL`. -/
structure Disassembly where
  mnem : Option String
  hasarg : Bool
  pcrel : Bool
  arg : Word
  size : Nat
  dump : String
  deriving DecidableEq, Repr

/-- A digit of `%x`. -/
def hexDigit (n : Nat) : Char := "0123456789abcdef".toList.getD n '0'

/-- The bytes of a command, each as `%02x`, with a space between two of them. -/
def hexDump (bytes : List Byte) : String :=
  String.intercalate " " (bytes.map fun b =>
    String.ofList [hexDigit (b.toNat / 16), hexDigit (b.toNat % 16)])

/-- The loop over a prefix sequence: the operand register, and what `p` points to after it. -/
def skipPrefixes (oreg : Word) : List Byte → Word × List Byte
  | [] => (oreg, [])
  | b :: bs =>
      match prefixStep oreg b with
      | some oreg => skipPrefixes oreg bs
      | none => (oreg, b :: bs)

/-- The command that is shown: its operand register before its own byte, and what `p` points to.
A leading `pfix 0` and a sequence without a command after it are shown a byte at a time. -/
def findCommand (buf : List Byte) : Word × List Byte :=
  if buf.head? = some opcodePfix then (0, buf)
  else
    match skipPrefixes 0 buf with
    | (_, []) => (0, buf)
    | found => found

/-- The entry for an `opr` code in `tab_indir` and `tab_indir_negative`, if it is in the range of
one of them. -/
def oprEntry (oreg : Word) : Option (Option String) :=
  if 0 ≤ oreg.toInt ∧ oreg.toInt < tabIndirSize then some (tabIndir.lookup oreg.toNat)
  else if oreg.toInt < 0 ∧ -(tabIndirNegativeSize : Int) < oreg.toInt then
    some (tabIndirNegative.lookup (-oreg.toInt).toNat)
  else none

/-- The bytes that `disassemble` looks for after `ldc`. -/
def fpentryAhead : List Byte → Bool
  | b :: b' :: _ =>
      b == (opcodePfix ||| BitVec.ofNat 8 ((opcodeFpentry >>> 8) &&& 0x0f)) &&
        b' == (opcodeOpr ||| BitVec.ofNat 8 (opcodeFpentry &&& 0x0f))
  | _ => false

/-- What is put into `das` for the command byte `c`, with `oreg` complete and `after` behind it. -/
def showCommand (das : Disassembly) (c : Byte) (oreg : Word) (after : List Byte) : Disassembly :=
  let direct : Disassembly :=
    { das with
      hasarg := true
      pcrel := tabPcrel.contains (c &&& 0xf0).toNat
      arg := oreg
      mnem := tabDirect.lookup (c &&& 0xf0).toNat }
  if c &&& 0xf0 = opcodeOpr then
    match oprEntry oreg with
    | some mnem => { das with hasarg := false, mnem := mnem }
    | none => direct
  else if c &&& 0xf0 = opcodeLdc ∧ fpentryAhead after = true ∧
      0 ≤ oreg.toInt ∧ oreg.toInt < tabFpuSize then
    { das with hasarg := false, mnem := tabFpu.lookup oreg.toNat }
  else direct

/-- `disassemble`, with what the call before it has left in `das`; `none` is the failed
assertion. -/
def disassemble (das : Disassembly) (buf : List Byte) : Option Disassembly :=
  let buf := buf.take cmdMaxlen
  match findCommand buf with
  | (_, []) => none                                         -- assert (buflen)
  | (o, c :: after) =>
      let size := buf.length - after.length
      some { showCommand das c (oreg o c) after with
        size := size
        dump := hexDump (buf.take size) }

/-- `disassemble` called again and again, with the buffer advanced by `das.size`. -/
def disassembleAll : Nat → Disassembly → List Byte → Option (List Disassembly)
  | _, _, [] => some []
  | 0, _, _ :: _ => none
  | calls + 1, das, b :: bs => do
      let das ← disassemble das (b :: bs)
      let rest ← disassembleAll calls das ((b :: bs).drop das.size)
      return das :: rest

/-! ### What the assembler writes -/

/-- A direct command, an indirect one or one of the floating point unit. -/
inductive Command where
  | direct (mnem : String) (opcode : Byte) (arg : Word)
  | indir (mnem : String) (code : Int)
  | fpu (mnem : String) (code : Int)

/-- The bytes of a command with a constant argument. -/
def encode (opcode : Byte) (arg : Word) : List Byte :=
  match cmdGenerate opcode arg 0 with
  | .ok (_, bytes) => bytes
  | .error written => written

namespace Command

/-- The rules for `command` in `ast/parse.y`. -/
def bytes : Command → List Byte
  | direct _ opcode arg => encode opcode arg
  | indir _ code => encode opcodeOpr (BitVec.ofInt 32 code)
  | fpu _ code =>
      encode opcodeLdc (BitVec.ofInt 32 code) ++
        encode opcodeOpr (BitVec.ofNat 32 opcodeFpentry)

/-- A command of the instruction table, prefixes apart. -/
def InTable : Command → Prop
  | direct mnem opcode _ =>
      (mnem, opcode.toNat) ∈ scanDirect ∧ opcode ≠ opcodePfix ∧ opcode ≠ opcodeNfix
  | indir mnem code => (mnem, code) ∈ scanIndir
  | fpu mnem code => (mnem, code) ∈ scanFpu

instance : (c : Command) → Decidable c.InTable
  | direct _ _ _ => inferInstanceAs (Decidable (_ ∧ _))
  | indir _ _ => inferInstanceAs (Decidable (_ ∈ _))
  | fpu _ _ => inferInstanceAs (Decidable (_ ∈ _))

/-- The mnemonic, the argument and the size that a command should be shown with.  An `opr` whose
code has a name is the indirect command of this name. -/
def listing : Command → Option String × Option Word × Nat
  | direct mnem opcode arg =>
      match if opcode = opcodeOpr then oprEntry arg else none with
      | some (some named) => (some named, none, (encode opcode arg).length)
      | _ => (some mnem, some arg, (encode opcode arg).length)
  | indir mnem code => (some mnem, none, (bytes (.indir mnem code)).length)
  | fpu mnem code => (some mnem, none, (bytes (.fpu mnem code)).length)

/-- Neither a command of the floating point unit nor an `opr` that falls into a hole of a table. -/
def shown : Command → Bool
  | direct _ opcode arg => !(opcode == opcodeOpr && oprEntry arg == some none)
  | indir _ _ => true
  | fpu _ _ => false

end Command

/-- What is shown of a command. -/
def Disassembly.listing (das : Disassembly) : Option String × Option Word × Nat :=
  (das.mnem, if das.hasarg then some das.arg else none, das.size)

/-! ### The tables -/

theorem tabDirect_scanDirect : ∀ p ∈ scanDirect, tabDirect.lookup p.2 = some p.1 := by decide

theorem scanDirect_low : ∀ p ∈ scanDirect, BitVec.ofNat 8 p.2 &&& 0xf = 0 := by decide

theorem oprEntry_scanIndir :
    ∀ p ∈ scanIndir, oprEntry (BitVec.ofInt 32 p.2) = some (some p.1) := by
  decide +kernel

/-! ### One command -/

theorem encode_spec {opcode : Byte} (hop : opcode &&& 0xf = 0) (arg : Word) :
    (encode opcode arg).length = cmdSize arg ∧
      reaches 0 (encode opcode arg) = some (opcode, arg) := by
  have hmax := cmdSize_le_maxlen arg
  rcases h : generate opcode arg cmdMaxlen with written | ⟨r, out⟩
  · have := (generate_error h).1
    omega
  · have hgen : cmdGenerate opcode arg 0 = .ok (out.length, out) := by
      rw [cmdGenerate, if_neg (by simp), h]
      rfl
    rw [encode, hgen]
    exact ⟨(generate_ok h).1, generate_reaches hop h⟩

/-- Bytes that reach an opcode are the prefixes that the disassembler skips and one byte more. -/
theorem skipPrefixes_reaches {o : Word} {bs : List Byte} {opcode : Byte} {arg : Word}
    (h : reaches o bs = some (opcode, arg)) (hp : opcode ≠ opcodePfix) (hn : opcode ≠ opcodeNfix) :
    ∃ init c o', bs = init ++ [c] ∧ c &&& 0xf0 = opcode ∧ oreg o' c = arg ∧
      ∀ rest, skipPrefixes o (bs ++ rest) = (o', c :: rest) := by
  induction bs generalizing o with
  | nil => cases h
  | cons b bs ih =>
      rcases bs with _ | ⟨b', bs⟩
      · cases h
        have hnone : prefixStep o b = none := by
          rw [prefixStep, if_neg hp, if_neg hn]
        refine ⟨[], b, o, rfl, rfl, rfl, fun rest => ?_⟩
        rw [List.singleton_append, skipPrefixes, hnone]
      · obtain ⟨o', hstep, h⟩ := Option.bind_eq_some_iff.mp h
        obtain ⟨init, c, o'', hbs, hc, harg, hskip⟩ := ih h
        refine ⟨b :: init, c, o'', by rw [hbs, List.cons_append], hc, harg, fun rest => ?_⟩
        rw [List.cons_append, skipPrefixes, hstep]
        exact hskip rest

/-- A command does not begin with `pfix 0`: without it, it would be shorter. -/
theorem encode_head {opcode : Byte} (hop : opcode &&& 0xf = 0) (hp : opcode ≠ opcodePfix)
    (arg : Word) (rest : List Byte) : (encode opcode arg ++ rest).head? ≠ some opcodePfix := by
  obtain ⟨hlen, hreach⟩ := encode_spec hop arg
  rcases hbs : encode opcode arg with _ | ⟨b, bs⟩
  · rw [hbs] at hreach
    cases hreach
  · rw [hbs] at hreach hlen
    rw [List.cons_append, List.head?_cons]
    intro hb
    obtain rfl : b = opcodePfix := Option.some.inj hb
    rcases bs with _ | ⟨b', bs⟩
    · rw [reaches, Option.some.injEq, Prod.mk.injEq] at hreach
      exact hp hreach.1.symm
    · have hstep : prefixStep 0 opcodePfix = some 0 := by decide
      rw [reaches_cons hstep (List.cons_ne_nil _ _)] at hreach
      have hle : cmdSize arg ≤ _ := cmdSize_le_length (p := (opcode, arg)) hreach
      rw [List.length_cons] at hlen
      omega

/-- At the bytes of a command the disassembler shows it, whatever follows. -/
theorem disassemble_encode {opcode : Byte} (hop : opcode &&& 0xf = 0) (hp : opcode ≠ opcodePfix)
    (hn : opcode ≠ opcodeNfix) (arg : Word) (das : Disassembly) (rest : List Byte) :
    ∃ c after, c &&& 0xf0 = opcode ∧ after <+: rest ∧
      disassemble das (encode opcode arg ++ rest) =
        some { showCommand das c arg after with
          size := (encode opcode arg).length
          dump := hexDump (encode opcode arg) } := by
  obtain ⟨hlen, hreach⟩ := encode_spec hop arg
  have hmax := cmdSize_le_maxlen arg
  obtain ⟨init, c, o, hbs, hc, harg, hskip⟩ := skipPrefixes_reaches hreach hp hn
  have htake : (encode opcode arg ++ rest).take cmdMaxlen =
      encode opcode arg ++ rest.take (cmdMaxlen - (encode opcode arg).length) := by
    rw [List.take_append, List.take_of_length_le (by omega)]
  have hfind : findCommand (encode opcode arg ++ rest.take (cmdMaxlen - (encode opcode arg).length)) =
      (o, c :: rest.take (cmdMaxlen - (encode opcode arg).length)) := by
    rw [findCommand, if_neg (encode_head hop hp arg _), hskip]
  refine ⟨c, rest.take (cmdMaxlen - (encode opcode arg).length), hc, List.take_prefix _ _, ?_⟩
  rw [disassemble, htake]
  simp only [hfind, List.length_append, Nat.add_sub_cancel, List.take_left, harg]

/-! ### A sequence of commands -/

/-- What is shown for `opcode` with `arg` when no `fpentry` is seen after it. -/
def seen (p : Byte × Word) : Option String × Option Word × Nat :=
  match if p.1 = opcodeOpr then oprEntry p.2 else none with
  | some mnem => (mnem, none, (encode p.1 p.2).length)
  | none => (tabDirect.lookup p.1.toNat, some p.2, (encode p.1 p.2).length)

theorem listing_showCommand {das : Disassembly} {c opcode : Byte} {arg : Word} {after : List Byte}
    (hc : c &&& 0xf0 = opcode) (hafter : fpentryAhead after = false) (dump : String) :
    ({ showCommand das c arg after with
        size := (encode opcode arg).length, dump := dump } : Disassembly).listing =
      seen (opcode, arg) := by
  subst hc
  rw [showCommand, seen]
  by_cases hopr : c &&& 0xf0 = opcodeOpr
  · simp only [if_pos hopr]
    cases oprEntry arg <;> rfl
  · simp only [if_neg hopr, hafter, Bool.false_eq_true, false_and, and_false, if_false]
    rfl

/-- The look-ahead wants a `pfix 0`. -/
theorem fpentryAhead_eq_false {after rest : List Byte} (h : after <+: rest)
    (hrest : rest.head? ≠ some opcodePfix) : fpentryAhead after = false := by
  obtain ⟨t, rfl⟩ := h
  match after with
  | [] | [_] => rfl
  | b :: b' :: bs =>
      have hb : b ≠ opcodePfix := fun hb => hrest (congrArg some hb)
      have hpfix : opcodePfix ||| BitVec.ofNat 8 ((opcodeFpentry >>> 8) &&& 0x0f) = opcodePfix := by
        decide
      rw [fpentryAhead, hpfix, beq_false_of_ne hb, Bool.false_and]

/-- An opcode of a command, not that of a prefix. -/
def IsOpcode (opcode : Byte) : Prop :=
  opcode &&& 0xf = 0 ∧ opcode ≠ opcodePfix ∧ opcode ≠ opcodeNfix

theorem isOpcode_ldc : IsOpcode opcodeLdc :=
  ⟨by decide, by decide, by decide⟩

theorem isOpcode_opr : IsOpcode opcodeOpr :=
  ⟨by decide, by decide, by decide⟩

theorem disassemble_seen {opcode : Byte} (h : IsOpcode opcode) (arg : Word) (das : Disassembly)
    {rest : List Byte} (hrest : rest.head? ≠ some opcodePfix) :
    ∃ das', disassemble das (encode opcode arg ++ rest) = some das' ∧
      das'.size = (encode opcode arg).length ∧ das'.listing = seen (opcode, arg) := by
  obtain ⟨hop, hp, hn⟩ := h
  obtain ⟨c, after, hc, hafter, hdas⟩ := disassemble_encode hop hp hn arg das rest
  exact ⟨_, hdas, rfl, listing_showCommand hc (fpentryAhead_eq_false hafter hrest) _⟩

theorem head_encodes {ps : List (Byte × Word)} (h : ∀ p ∈ ps, IsOpcode p.1) :
    (ps.flatMap fun p => encode p.1 p.2).head? ≠ some opcodePfix := by
  cases ps with
  | nil => exact fun hnone => (by cases hnone)
  | cons p ps =>
      obtain ⟨hop, hp, -⟩ := h p List.mem_cons_self
      exact encode_head hop hp p.2 _

/-- The bytes of a sequence of opcodes with their arguments are shown one opcode after another. -/
theorem disassembleAll_encodes {ps : List (Byte × Word)} (h : ∀ p ∈ ps, IsOpcode p.1)
    (das : Disassembly) {calls : Nat}
    (hcalls : (ps.flatMap fun p => encode p.1 p.2).length ≤ calls) :
    (disassembleAll calls das (ps.flatMap fun p => encode p.1 p.2)).map
        (·.map Disassembly.listing) = some (ps.map seen) := by
  induction ps generalizing das calls with
  | nil => cases calls <;> rfl
  | cons p ps ih =>
      have hp : IsOpcode p.1 := h p List.mem_cons_self
      have hps : ∀ q ∈ ps, IsOpcode q.1 := fun q hq => h q (List.mem_cons_of_mem p hq)
      obtain ⟨das', hdas, hsize, hlisting⟩ := disassemble_seen hp p.2 das (head_encodes hps)
      have hpos : 1 ≤ (encode p.1 p.2).length := by
        rw [(encode_spec hp.1 p.2).1]
        exact one_le_cmdSize p.2
      rw [List.flatMap_cons] at hcalls ⊢
      rw [List.length_append] at hcalls
      obtain ⟨calls, rfl⟩ : ∃ n, calls = n + 1 := ⟨calls - 1, by omega⟩
      obtain ⟨rest, hall, hmap⟩ := Option.map_eq_some_iff.mp
        (ih hps das' (show _ ≤ calls by omega))
      generalize encode p.1 p.2 = bytes at hdas hsize hpos ⊢
      obtain _ | ⟨b, bs⟩ := bytes
      · cases hpos
      rw [List.cons_append] at hdas ⊢
      rw [disassembleAll, hdas, Option.bind_eq_bind, Option.bind_some, hsize, ← List.cons_append,
        List.drop_left, hall, Option.bind_eq_bind, Option.bind_some, Option.pure_def,
        Option.map_some,
        List.map_cons, List.map_cons, hmap, hlisting]

namespace Command

/-- The opcodes of a command with their arguments. -/
def parts : Command → List (Byte × Word)
  | direct _ opcode arg => [(opcode, arg)]
  | indir _ code => [(opcodeOpr, BitVec.ofInt 32 code)]
  | fpu _ code =>
      [(opcodeLdc, BitVec.ofInt 32 code), (opcodeOpr, BitVec.ofNat 32 opcodeFpentry)]

theorem bytes_eq (c : Command) : c.bytes = c.parts.flatMap fun p => encode p.1 p.2 := by
  cases c with
  | direct mnem opcode arg => rw [parts, List.flatMap_singleton, bytes]
  | indir mnem code => rw [parts, List.flatMap_singleton, bytes]
  | fpu mnem code => rw [parts, List.flatMap_cons, List.flatMap_singleton, bytes]

theorem InTable.isOpcode {c : Command} (h : c.InTable) : ∀ p ∈ c.parts, IsOpcode p.1 := by
  cases c with
  | direct mnem opcode arg =>
      obtain ⟨hmem, hp, hn⟩ := h
      have hop := scanDirect_low _ hmem
      rw [BitVec.ofNat_toNat, BitVec.setWidth_eq] at hop
      intro p hpart
      obtain rfl := List.mem_singleton.mp hpart
      exact ⟨hop, hp, hn⟩
  | indir mnem code =>
      intro p hpart
      obtain rfl := List.mem_singleton.mp hpart
      exact isOpcode_opr
  | fpu mnem code =>
      intro p hpart
      rcases List.mem_pair.mp hpart with rfl | rfl
      · exact isOpcode_ldc
      · exact isOpcode_opr

/-- A command that is `shown` is shown as it should be. -/
theorem InTable.seen_eq {c : Command} (h : c.InTable) (hshown : c.shown = true) :
    c.parts.map seen = [c.listing] := by
  cases c with
  | direct mnem opcode arg =>
      rw [parts, List.map_singleton, seen, listing]
      by_cases hopr : opcode = opcodeOpr
      · simp only [if_pos hopr]
        rcases hentry : oprEntry arg with _ | (_ | named)
        · rw [tabDirect_scanDirect _ h.1]
        · rw [shown, hentry, hopr] at hshown
          simp at hshown
        · rfl
      · simp only [if_neg hopr]
        rw [tabDirect_scanDirect _ h.1]
  | indir mnem code =>
      rw [parts, List.map_singleton, seen, if_pos rfl, oprEntry_scanIndir _ h]
      rfl
  | fpu mnem code => cases hshown

theorem InTable.seen_ne {c : Command} (hshown : ¬c.shown = true) :
    ∃ l ls, c.parts.map seen = l :: ls ∧ l ≠ c.listing := by
  cases c with
  | direct mnem opcode arg =>
      rw [shown, Bool.not_eq_true', Bool.not_eq_false, Bool.and_eq_true, beq_iff_eq,
        beq_iff_eq] at hshown
      obtain ⟨rfl, hentry⟩ := hshown
      refine ⟨_, [], rfl, fun heq => ?_⟩
      rw [seen, listing, if_pos rfl, hentry] at heq
      cases heq
  | indir mnem code => exact absurd rfl hshown
  | fpu mnem code =>
      refine ⟨_, _, rfl, fun heq => ?_⟩
      cases congrArg (·.2.1) heq

/-- What is shown is what was assembled exactly when every command is `shown`. -/
theorem seen_iff {cmds : List Command} (h : ∀ c ∈ cmds, c.InTable) :
    (cmds.flatMap parts).map seen = cmds.map listing ↔ ∀ c ∈ cmds, c.shown = true := by
  induction cmds with
  | nil => exact ⟨fun _ => List.forall_mem_nil _, fun _ => rfl⟩
  | cons c cmds ih =>
      have hcmds : ∀ c' ∈ cmds, c'.InTable := fun c' hc' => h c' (List.mem_cons_of_mem c hc')
      rw [List.flatMap_cons, List.map_append, List.map_cons, List.forall_mem_cons, ← ih hcmds]
      by_cases hshown : c.shown = true
      · rw [(h c List.mem_cons_self).seen_eq hshown, List.singleton_append, List.cons.injEq]
        simp only [hshown, true_and]
      · obtain ⟨l, ls, hmap, hl⟩ := InTable.seen_ne hshown
        rw [hmap, List.cons_append, List.cons.injEq]
        exact ⟨fun hboth => absurd hboth.1 hl, fun hboth => absurd hboth.1 hshown⟩

end Command

/-- The disassembler recovers a sequence of commands exactly when each of them is `shown`. -/
theorem disassembleAll_iff {cmds : List Command} (h : ∀ c ∈ cmds, c.InTable) (das : Disassembly)
    {calls : Nat} (hcalls : (cmds.flatMap Command.bytes).length ≤ calls) :
    (disassembleAll calls das (cmds.flatMap Command.bytes)).map (·.map Disassembly.listing) =
        some (cmds.map Command.listing) ↔
      ∀ c ∈ cmds, c.shown = true := by
  have hbytes : cmds.flatMap Command.bytes =
      (cmds.flatMap Command.parts).flatMap fun p => encode p.1 p.2 := by
    rw [List.flatMap_assoc]
    exact List.flatMap_congr fun c _ => c.bytes_eq
  have hparts : ∀ p ∈ cmds.flatMap Command.parts, IsOpcode p.1 := by
    intro p hp
    obtain ⟨c, hc, hpart⟩ := List.mem_flatMap.mp hp
    exact (h c hc).isOpcode p hpart
  rw [hbytes] at hcalls ⊢
  rw [disassembleAll_encodes hparts das hcalls, Option.some.injEq, Command.seen_iff h]

theorem disassembleAll_iff_ldcAdd :
    (disassembleAll 4 ⟨none, false, false, 0, 0, ""⟩
        ([Command.direct "ldc" 0x40 0x21, .indir "add" 5].flatMap Command.bytes)).map
          (·.map Disassembly.listing) =
      some [(some "ldc", some 0x21, 2), (some "add", none, 1)] :=
  by
  refine (disassembleAll_iff ?_ ⟨none, false, false, 0, 0, ""⟩ ?_).mpr ?_ <;> decide

/-- `fpuclrerr` is shown as two commands, and `opr 0x11` has the mnemonic `NULL`. -/
theorem disassembleAll_fpu :
    let cmds : List Command := [.fpu "fpuclrerr" 0x9c, .direct "opr" 0xf0 0x11]
    let das : Disassembly :=
      { mnem := none, hasarg := false, pcrel := false, arg := 0, size := 0, dump := "" }
    (∀ c ∈ cmds, c.InTable) ∧
      (disassembleAll 6 das (cmds.flatMap Command.bytes)).map (·.map Disassembly.listing) =
        some [(some "ldc", some 0x9c, 2), (some "fpentry", none, 2), (none, none, 2)] ∧
      cmds.map Command.listing = [(some "fpuclrerr", none, 4), (some "opr", some 0x11, 2)] := by
  decide +kernel

end Ttools
