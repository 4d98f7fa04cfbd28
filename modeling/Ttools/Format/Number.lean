import Ttools.Expr.Syntax
import Ttools.Support.Bits

/-!
# Numbers in a LIT file

`lit_out_number` (`shared/litout.c`) and `lit_in_number` (`shared/litin.c`): a byte up to 250
stands for itself, 251, 252 and 253 announce one, two or four bytes, low byte first, and 255
asks for the complement of what follows.

* `litInNumber_litOutNumber`, `litLoadInNumber_litOutNumber`: reading back what was written gives
  the number and leaves what follows it, in the linker and in the loader.

Diagnostic output on `stdout` is left out.
-/

namespace Ttools

/-- `putc (number, ..)`: the low byte. -/
def lowByte (n : Word) : Byte := n.truncate 8

/-- What `getc` returns, as a `long`. -/
def byteWord (b : Byte) : Word := b.zeroExtend 32

/-- `lit_out_number` once a small negative number has been complemented. -/
def litOutMagnitude (number : Word) : List Byte :=
  if (0 : Word).sle number ∧ number.sle 250 then [lowByte number]
  else if number &&& ~~~0xff = 0 then [251, lowByte number]
  else if number &&& ~~~0xffff = 0 then [252, lowByte number, lowByte (number.sshiftRight 8)]
  else [253, lowByte number, lowByte (number.sshiftRight 8), lowByte (number.sshiftRight 16),
    lowByte (number.sshiftRight 24)]

/-- `lit_out_number`. -/
def litOutNumber (number : Word) : List Byte :=
  if number.slt 0 ∧ (~~~(0xffff : Word)).sle number then 255 :: litOutMagnitude (~~~number)
  else litOutMagnitude number

/-- The input file: the bytes not read yet, and how many errors have been reported. -/
structure LitIn where
  bytes : List Byte
  nErrors : Nat
  deriving DecidableEq, Repr

/-- A routine of `shared/litin.c`; `none` is `fatal ()`, `abort ()` or a failed assertion. -/
abbrev Reader := StateT LitIn Option

/-- `getc (lit_in_file)`.  Every caller treats `EOF` as fatal. -/
def getc : Reader Byte := fun f =>
  match f.bytes with
  | [] => none
  | b :: bs => some (b, { f with bytes := bs })

/-- `error2`: one more error, and the routine goes on. -/
def report : Reader Unit := fun f => some ((), { f with nErrors := f.nErrors + 1 })

/-- `fatal ()`. -/
def fatal {α : Type} : Reader α := fun _ => none

/-- The bytes after the first one of an encoded number, with the first one given; `garbled` is
what becomes of 254 and 255. -/
def inRest (garbled : Reader Word) (c : Byte) (invert : Bool) : Reader Word := do
  if c = 255 ∨ c = 254 then garbled
  else
    let number ← do
      if c = 253 then
        let b0 ← getc
        let b1 ← getc
        let b2 ← getc
        let b3 ← getc
        pure (byteWord b0 ||| byteWord b1 <<< 8 ||| byteWord b2 <<< 16 ||| byteWord b3 <<< 24)
      else if c = 252 then
        let b0 ← getc
        let b1 ← getc
        pure (byteWord b0 ||| byteWord b1 <<< 8)
      else if c = 251 then
        let b0 ← getc
        pure (byteWord b0)
      else pure (byteWord c)
    return if invert then ~~~number else number

/-- The decoder that `lit_in_number` and `lit_load_in_number` have in common. -/
def inNumber (garbled : Reader Word) : Reader Word := do
  let c ← getc
  if c = 255 then
    let c' ← getc
    inRest garbled c' true
  else inRest garbled c false

/-- `lit_in_number`: "unexpected byte" and "eight-byte encoded numbers not supported" are errors,
and 0 is returned as it is. -/
def litInNumber : Reader Word := inNumber (do report; return 0)

/-- `lit_load_in_number` (`startups/shared/litload.c`): the same two are fatal. -/
def litLoadInNumber : Reader Word := inNumber fatal

/-! ### Bytes and words -/

theorem byteWord_lowByte {n : Word} (h : n.toNat < 256) : byteWord (lowByte n) = n := by
  apply BitVec.eq_of_toNat_eq
  simp only [byteWord, lowByte, BitVec.truncate_eq_setWidth, BitVec.toNat_setWidth]
  omega

theorem one_byte {n : Word} (h : n &&& ~~~0xff = 0) : byteWord (lowByte n) = n := by
  have hb := Support.getElem_of_and_high (k := 8) h
  ext i hi
  simp only [lowByte, byteWord, BitVec.truncate_eq_setWidth, BitVec.getElem_setWidth,
    BitVec.getLsbD_setWidth]
  grind

theorem two_bytes {n : Word} (h : n &&& ~~~0xffff = 0) :
    byteWord (lowByte n) ||| byteWord (lowByte (n.sshiftRight 8)) <<< 8 = n := by
  have hb := Support.getElem_of_and_high (k := 16) h
  ext i hi
  simp [lowByte, byteWord]
  grind

theorem four_bytes (n : Word) :
    byteWord (lowByte n) ||| byteWord (lowByte (n.sshiftRight 8)) <<< 8 |||
      byteWord (lowByte (n.sshiftRight 16)) <<< 16 |||
      byteWord (lowByte (n.sshiftRight 24)) <<< 24 = n := by
  ext i hi
  simp [lowByte, byteWord]
  grind

/-! ### Reading after writing -/

@[simp] theorem getc_cons (b : Byte) (bs : List Byte) (k : Nat) :
    getc ⟨b :: bs, k⟩ = some (b, ⟨bs, k⟩) := rfl

theorem Reader.bind_apply {α β : Type} (x : Reader α) (g : α → Reader β) (f : LitIn) :
    (x >>= g) f = (x f).bind fun p => g p.1 p.2 := rfl

@[simp] theorem Reader.map_apply {α β : Type} (g : α → β) (x : Reader α) (f : LitIn) :
    (g <$> x) f = (x f).map fun p => (g p.1, p.2) := by
  show (x f >>= _) = _
  cases x f <;> rfl

@[simp] theorem Reader.pure_apply {α : Type} (a : α) (f : LitIn) :
    (pure a : Reader α) f = some (a, f) := rfl

/-- `x` reads `a` off the front of `out`, whatever follows, and reports nothing. -/
def Reads {α : Type} (x : Reader α) (out : List Byte) (a : α) : Prop :=
  ∀ rest k, x ⟨out ++ rest, k⟩ = some (a, ⟨rest, k⟩)

/-- Reading two things in a row. -/
theorem Reads.bind {α β : Type} {x : Reader α} {g : α → Reader β} {o o' : List Byte} {a : α}
    {b : β} (hx : Reads x o a) (hg : Reads (g a) o' b) : Reads (x >>= g) (o ++ o') b :=
  fun rest k => by
    rw [Reader.bind_apply, List.append_assoc, hx]
    exact hg rest k

/-- The first byte of a magnitude, and what is read after it. -/
theorem litOutMagnitude_cons (garbled : Reader Word) (n : Word) (invert : Bool) :
    ∃ c cs, litOutMagnitude n = c :: cs ∧ c ≠ 255 ∧
      Reads (inRest garbled c invert) cs (if invert then ~~~n else n) := by
  unfold litOutMagnitude
  split
  · next h =>
      have hn : n.toNat ≤ 250 := Support.toNat_le_of_sle h.1 h.2
      have hw := byteWord_lowByte (n := n) (by omega)
      have hne : ∀ b : Byte, 250 < b.toNat → lowByte n ≠ b := by
        rintro b hb rfl
        rw [← hw] at hn
        simp [byteWord] at hn
        omega
      refine ⟨_, _, rfl, hne 255 (by decide), fun rest k => ?_⟩
      simp only [inRest, hne 255 (by decide), hne 254 (by decide), hne 253 (by decide),
        hne 252 (by decide), hne 251 (by decide), or_self, if_false, pure_bind, hw]
      rfl
  · split
    · next h =>
        refine ⟨_, _, rfl, by decide, fun rest k => ?_⟩
        simp [inRest, one_byte h]
    · split
      · next h =>
          refine ⟨_, _, rfl, by decide, fun rest k => ?_⟩
          simp [inRest, Reader.bind_apply, two_bytes h]
      · refine ⟨_, _, rfl, by decide, fun rest k => ?_⟩
        simp [inRest, Reader.bind_apply, four_bytes n]

theorem inNumber_litOutNumber (garbled : Reader Word) (n : Word) :
    Reads (inNumber garbled) (litOutNumber n) n := by
  intro rest k
  unfold litOutNumber
  split
  · obtain ⟨c, cs, hc, -, hr⟩ := litOutMagnitude_cons garbled (~~~n) true
    simp only [hc, List.cons_append, inNumber, Reader.bind_apply, getc_cons, Option.bind_some,
      if_true]
    simpa using hr rest k
  · obtain ⟨c, cs, hc, hne, hr⟩ := litOutMagnitude_cons garbled n false
    simp only [hc, List.cons_append, inNumber, Reader.bind_apply, getc_cons, Option.bind_some,
      if_neg hne]
    exact hr rest k

/-- **Numbers survive the file**: `lit_in_number` reads back what `lit_out_number` wrote. -/
theorem litInNumber_litOutNumber (n : Word) : Reads litInNumber (litOutNumber n) n :=
  inNumber_litOutNumber _ n

/-- The loader reads back what `lit_out_number` wrote. -/
theorem litLoadInNumber_litOutNumber (n : Word) : Reads litLoadInNumber (litOutNumber n) n :=
  inNumber_litOutNumber _ n

end Ttools
