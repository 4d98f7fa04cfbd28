import Ttools.Format.Number

/-!
# Numbers on a host of any word size

The codecs of `Format.Number` once more, over a `long` of `w` bits and with what else they
return: `lit_out_number` says how many bytes it wrote, and the loader leaves the number of bytes
it read in `last_number_len`.  A byte that has been read is an `int`, which is as wide as a target
word, until it is combined with the `long`.

* `hostOutNumber_eq`, `hostInNumber_eq`, `hostLoadInNumber_eq`: at every word size they do what
  the codecs for target words do, up to sign extension.
* `hostNumber_codecs`: a number that fits a target word is read back and takes as many bytes as
  `lit_out_number` reports; where the two readers accept a number it is the same number.
-/

namespace Ttools

variable {w w' : Nat}

/-- `lit_out_number` once a small negative number has been complemented, with what it adds to
`ret`. -/
def hostOutMagnitude (number : BitVec w) : List Byte × Nat :=
  if (0 : BitVec w).sle number ∧ number.sle 250 then ([number.truncate 8], 1)
  else if number &&& ~~~0xff = 0 then ([251, number.truncate 8], 2)
  else if number &&& ~~~0xffff = 0 then
    ([252, number.truncate 8, (number.sshiftRight 8).truncate 8], 3)
  else
    ([253, number.truncate 8, (number.sshiftRight 8).truncate 8,
      (number.sshiftRight 16).truncate 8, (number.sshiftRight 24).truncate 8], 5)

/-- `lit_out_number`: the bytes it writes, and the number of them that it returns. -/
def hostOutNumber (number : BitVec w) : List Byte × Nat :=
  if number.slt 0 ∧ (~~~(0xffff : BitVec w)).sle number then
    let out := hostOutMagnitude (~~~number)
    (255 :: out.1, out.2 + 1)
  else hostOutMagnitude number

/-- `c << k` for a byte `c`, as it is when it meets the `long`. -/
def hostByte (w k : Nat) (c : Byte) : BitVec w := (byteWord c <<< k).signExtend w

/-- The bytes after the first one of an encoded number, with how many there are. -/
def hostInRest (garbled : Reader (BitVec w × Nat)) (c : Byte) (invert : Bool) :
    Reader (BitVec w × Nat) := do
  if c = 255 ∨ c = 254 then garbled
  else
    let (number, len) ← do
      if c = 253 then
        let b0 ← getc
        let b1 ← getc
        let b2 ← getc
        let b3 ← getc
        pure (hostByte w 0 b0 ||| hostByte w 8 b1 ||| hostByte w 16 b2 ||| hostByte w 24 b3, 4)
      else if c = 252 then
        let b0 ← getc
        let b1 ← getc
        pure (hostByte w 0 b0 ||| hostByte w 8 b1, 2)
      else if c = 251 then
        let b0 ← getc
        pure (hostByte w 0 b0, 1)
      else pure (hostByte w 0 c, 0)
    return (if invert then ~~~number else number, len)

/-- The decoder that `lit_in_number` and `lit_load_in_number` have in common, with the number of
bytes it reads. -/
def hostIn (garbled : Reader (BitVec w × Nat)) : Reader (BitVec w × Nat) := do
  let c ← getc
  if c = 255 then
    let c' ← getc
    let (number, len) ← hostInRest garbled c' true
    return (number, len + 2)
  else
    let (number, len) ← hostInRest garbled c false
    return (number, len + 1)

/-- `lit_in_number`. -/
def hostInNumber (w : Nat) : Reader (BitVec w) :=
  (·.1) <$> hostIn (do report; return (0, 0))

/-- `lit_load_in_number`: the number, and `last_number_len`. -/
def hostLoadInNumber (w : Nat) : Reader (BitVec w × Nat) := hostIn fatal

/-! ### What a reader leaves -/

/-- `x` takes bytes off the front, and that is all it does to the file. -/
def Reader.Eats {α : Type} (x : Reader α) : Prop :=
  ∀ f a f', x f = some (a, f') → f'.bytes <:+ f.bytes

namespace Reader.Eats

variable {α β : Type} {x : Reader α} {g : α → Reader β}

theorem pure (a : α) : Eats (Pure.pure a : Reader α) := by
  rintro f _ _ ⟨⟩
  exact List.suffix_refl _

theorem getc : Eats getc := by
  rintro ⟨_ | ⟨b, bs⟩, k⟩ _ _ h
  · cases h
  · cases h
    exact List.suffix_cons b bs

theorem report : Eats report := by
  rintro f _ _ ⟨⟩
  exact List.suffix_refl _

theorem fatal : Eats (fatal : Reader α) := by
  rintro f _ _ ⟨⟩

theorem bind (hx : Eats x) (hg : ∀ a, Eats (g a)) : Eats (x >>= g) := by
  intro f b f'' h
  rw [Reader.bind_apply] at h
  obtain ⟨⟨a, f'⟩, hf, h⟩ := Option.bind_eq_some_iff.mp h
  exact (hg a _ _ _ h).trans (hx _ _ _ hf)

end Reader.Eats

theorem inRest_eats {garbled : Reader Word} (h : garbled.Eats) (c : Byte) (invert : Bool) :
    (inRest garbled c invert).Eats := by
  unfold inRest
  split
  · exact h
  · have invertLast : ∀ number : Word, ((do
        let number ← Pure.pure number
        return if invert then ~~~number else number) : Reader Word).Eats :=
      fun number => .bind (.pure _) fun _ => .pure _
    by_cases h3 : c = 253
    · rw [if_pos h3]
      exact .bind .getc fun _ => .bind .getc fun _ => .bind .getc fun _ => .bind .getc fun _ =>
        invertLast _
    · rw [if_neg h3]
      by_cases h2 : c = 252
      · rw [if_pos h2]
        exact .bind .getc fun _ => .bind .getc fun _ => invertLast _
      · rw [if_neg h2]
        by_cases h1 : c = 251
        · rw [if_pos h1]
          exact .bind .getc fun _ => invertLast _
        · rw [if_neg h1]
          exact invertLast _

theorem inNumber_eats {garbled : Reader Word} (h : garbled.Eats) : (inNumber garbled).Eats := by
  refine .bind .getc fun c => ?_
  split
  · exact .bind .getc fun c' => inRest_eats h c' true
  · exact inRest_eats h c false

theorem litInNumber_eats : litInNumber.Eats := inNumber_eats (.bind .report fun _ => .pure _)

/-! ### Reading -/

/-- What the loader returns where the target's reader has returned `p`, from `f` on. -/
def counted (w : Nat) (f : LitIn) (p : Word × LitIn) : (BitVec w × Nat) × LitIn :=
  ((p.1.signExtend w, f.bytes.length - p.2.bytes.length), p.2)

theorem signExtend_invert (number : Word) (invert : Bool) :
    (if invert then ~~~number else number).signExtend w =
      if invert then ~~~number.signExtend w else number.signExtend w := by
  cases invert with
  | false => rfl
  | true => exact BitVec.signExtend_not (by decide)

theorem hostInRest_eq (garbled : Reader (BitVec w × Nat)) (garbled' : Reader Word) {c : Byte}
    (hc : ¬(c = 255 ∨ c = 254)) (invert : Bool) (f : LitIn) :
    hostInRest garbled c invert f = (inRest garbled' c invert f).map (counted w f) := by
  obtain ⟨bs, k⟩ := f
  rw [hostInRest, inRest, if_neg hc, if_neg hc]
  by_cases h3 : c = 253
  · rw [if_pos h3, if_pos h3]
    rcases bs with _ | ⟨b0, _ | ⟨b1, _ | ⟨b2, _ | ⟨b3, bs⟩⟩⟩⟩
    all_goals simp [Reader.bind_apply, getc, counted, hostByte, signExtend_invert]
    omega
  · rw [if_neg h3, if_neg h3]
    by_cases h2 : c = 252
    · rw [if_pos h2, if_pos h2]
      rcases bs with _ | ⟨b0, _ | ⟨b1, bs⟩⟩
      all_goals simp [Reader.bind_apply, getc, counted, hostByte, signExtend_invert]
      omega
    · rw [if_neg h2, if_neg h2]
      by_cases h1 : c = 251
      · rw [if_pos h1, if_pos h1]
        rcases bs with _ | ⟨b0, bs⟩
        all_goals simp [Reader.bind_apply, getc, counted, hostByte, signExtend_invert]
      · rw [if_neg h1, if_neg h1]
        simp [counted, hostByte, signExtend_invert]

/-- The two decoders side by side, where they do with 254 and 255 what `hg` says. -/
theorem hostIn_eq {garbled : Reader (BitVec w × Nat)} {garbled' : Reader Word} (heats : garbled'.Eats)
    (hg : ∀ f, garbled f = (garbled' f).map (counted w f)) (f : LitIn) :
    hostIn garbled f = (inNumber garbled' f).map (counted w f) := by
  have hrest : ∀ c invert f, hostInRest garbled c invert f =
      (inRest garbled' c invert f).map (counted w f) := by
    intro c invert f
    by_cases hc : c = 255 ∨ c = 254
    · rw [hostInRest, inRest, if_pos hc, if_pos hc, hg]
    · exact hostInRest_eq garbled garbled' hc invert f
  -- the bytes read before the rest count too
  have hcount : ∀ c invert (f f' : LitIn) n, f.bytes.length = f'.bytes.length + n →
      (hostInRest garbled c invert f').bind (fun p => some ((p.1.1, p.1.2 + n), p.2)) =
        (inRest garbled' c invert f').map (counted w f) := by
    intro c invert f f' n hn
    rw [hrest]
    rcases h : inRest garbled' c invert f' with _ | ⟨a, f''⟩
    · rfl
    · have hle := (inRest_eats heats c invert _ _ _ h).length_le
      simp [counted, hn]
      omega
  obtain ⟨_ | ⟨c, bs⟩, k⟩ := f
  · rfl
  · unfold hostIn inNumber
    rw [Reader.bind_apply, Reader.bind_apply, getc_cons, Option.bind_some, Option.bind_some]
    by_cases hc : c = 255
    · simp only [if_pos hc]
      rcases bs with _ | ⟨c', bs⟩
      · rfl
      · rw [Reader.bind_apply, Reader.bind_apply, getc_cons, Option.bind_some, Option.bind_some]
        exact hcount c' true ⟨c :: c' :: bs, k⟩ ⟨bs, k⟩ 2 rfl
    · simp only [if_neg hc]
      exact hcount c false ⟨c :: bs, k⟩ ⟨bs, k⟩ 1 rfl

/-- `lit_in_number` at any word size. -/
theorem hostInNumber_eq (f : LitIn) :
    hostInNumber w f = (litInNumber f).map fun p => (p.1.signExtend w, p.2) := by
  have hg : ∀ f, (do report; return (0, 0) : Reader (BitVec w × Nat)) f =
      ((do report; return 0 : Reader Word) f).map (counted w f) := by
    intro f
    have h0 : 0#w = (0#32).signExtend w := by simp [BitVec.signExtend]
    simp [Reader.bind_apply, report, counted, h0]
  rw [hostInNumber, Reader.map_apply,
    hostIn_eq (.bind .report fun _ => .pure _) hg, Option.map_map]
  rfl

/-- `lit_load_in_number` at any word size. -/
theorem hostLoadInNumber_eq (f : LitIn) :
    hostLoadInNumber w f = (litLoadInNumber f).map (counted w f) :=
  hostIn_eq .fatal (fun _ => rfl) f

/-- Where the loader accepts a number, the linker accepts the same one. -/
theorem litInNumber_of_litLoadInNumber {f : LitIn} {p : Word × LitIn}
    (h : litLoadInNumber f = some p) : litInNumber f = some p := by
  have hrest : ∀ c invert f, inRest fatal c invert f = some p →
      ∀ garbled, inRest garbled c invert f = some p := by
    intro c invert f h garbled
    by_cases hc : c = 255 ∨ c = 254
    · rw [inRest, if_pos hc] at h
      cases h
    · rw [inRest, if_neg hc] at h ⊢
      exact h
  obtain ⟨_ | ⟨c, bs⟩, k⟩ := f
  · cases h
  · unfold litLoadInNumber litInNumber inNumber at *
    rw [Reader.bind_apply, getc_cons, Option.bind_some] at h ⊢
    by_cases hc : c = 255
    · simp only [if_pos hc] at h ⊢
      rcases bs with _ | ⟨c', bs⟩
      · cases h
      · rw [Reader.bind_apply, getc_cons, Option.bind_some] at h ⊢
        exact hrest _ _ _ h _
    · simp only [if_neg hc] at h ⊢
      exact hrest _ _ _ h _

/-! ### Writing -/

theorem signExtend_ofNat (hw : 32 ≤ w) {k : Nat} (hk : k < 2 ^ 31) :
    (BitVec.ofNat 32 k).signExtend w = BitVec.ofNat w k := by
  rw [BitVec.signExtend_eq_setWidth_of_msb_false, BitVec.setWidth_ofNat_of_le_of_lt hw (by omega)]
  rw [BitVec.msb_eq_decide, decide_eq_false_iff_not, BitVec.toNat_ofNat]
  omega

/-- No bit of a number above a mask, at both word sizes. -/
theorem signExtend_and_high (hw : 32 ≤ w) {k : Nat} (hk : k < 2 ^ 31) (n : Word) :
    n.signExtend w &&& ~~~BitVec.ofNat w k = 0 ↔ n &&& ~~~BitVec.ofNat 32 k = 0 := by
  have h0 : (0 : BitVec w) = (0 : Word).signExtend w := (signExtend_ofNat hw (by decide)).symm
  rw [← signExtend_ofNat hw hk, ← BitVec.signExtend_not (by decide), ← BitVec.signExtend_and, h0]
  constructor
  · intro h
    have := congrArg BitVec.toInt h
    rw [BitVec.toInt_signExtend_of_le hw, BitVec.toInt_signExtend_of_le hw] at this
    exact BitVec.eq_of_toInt_eq this
  · intro h
    rw [h]

theorem signExtend_lowByte (hw : 32 ≤ w) {k : Nat} (hk : k ≤ 24) (n : Word) :
    ((n.signExtend w).sshiftRight k).truncate 8 = lowByte (n.sshiftRight k) := by
  ext i hi
  simp [lowByte, BitVec.getLsbD_sshiftRight, BitVec.getLsbD_signExtend]
  grind

theorem signExtend_sle (hw : 32 ≤ w) (n m : Word) :
    (n.signExtend w).sle (m.signExtend w) = n.sle m := by
  rw [BitVec.sle_eq_decide, BitVec.sle_eq_decide, BitVec.toInt_signExtend_of_le hw,
    BitVec.toInt_signExtend_of_le hw]

theorem signExtend_slt (hw : 32 ≤ w) (n m : Word) :
    (n.signExtend w).slt (m.signExtend w) = n.slt m := by
  rw [BitVec.slt_eq_decide, BitVec.slt_eq_decide, BitVec.toInt_signExtend_of_le hw,
    BitVec.toInt_signExtend_of_le hw]

theorem hostOutMagnitude_eq (hw : 32 ≤ w) (n : Word) :
    hostOutMagnitude (n.signExtend w) = (litOutMagnitude n, (litOutMagnitude n).length) := by
  have h0 : (0 : BitVec w) = (0 : Word).signExtend w := (signExtend_ofNat hw (by decide)).symm
  have h250 : (250 : BitVec w) = (250 : Word).signExtend w :=
    (signExtend_ofNat hw (by decide)).symm
  have low : (n.signExtend w).truncate 8 = lowByte n := by
    have := signExtend_lowByte hw (k := 0) (by decide) n
    simpa using this
  have h1 : n.signExtend w &&& ~~~0xff = 0 ↔ n &&& ~~~0xff = 0 :=
    signExtend_and_high hw (by decide) n
  have h2 : n.signExtend w &&& ~~~0xffff = 0 ↔ n &&& ~~~0xffff = 0 :=
    signExtend_and_high hw (by decide) n
  have hb : ((0 : BitVec w).sle (n.signExtend w) = true ∧ (n.signExtend w).sle 250 = true) ↔
      ((0 : Word).sle n = true ∧ n.sle 250 = true) := by
    rw [h250, signExtend_sle hw, ← signExtend_sle hw 0 n, ← h0]
  rw [hostOutMagnitude, litOutMagnitude]
  simp only [hb, h1, h2, low, signExtend_lowByte hw (show 8 ≤ 24 by decide),
    signExtend_lowByte hw (show 16 ≤ 24 by decide), signExtend_lowByte hw (show 24 ≤ 24 by decide)]
  split
  · rfl
  · split
    · rfl
    · split <;> rfl

/-- `lit_out_number` at any word size of at least 32, on a number that fits a target word. -/
theorem hostOutNumber_eq (hw : 32 ≤ w) (n : Word) :
    hostOutNumber (n.signExtend w) = (litOutNumber n, (litOutNumber n).length) := by
  have h0 : (0 : BitVec w) = (0 : Word).signExtend w := (signExtend_ofNat hw (by decide)).symm
  have hmin : ~~~(0xffff : BitVec w) = (~~~(0xffff : Word)).signExtend w := by
    rw [BitVec.signExtend_not (by decide)]
    exact congrArg _ (signExtend_ofNat hw (by decide)).symm
  rw [hostOutNumber, litOutNumber, hmin, h0, signExtend_slt hw, signExtend_sle hw,
    ← BitVec.signExtend_not (by decide), hostOutMagnitude_eq hw, hostOutMagnitude_eq hw]
  split <;> rfl

/-- Every number of 32 bits is a target word, sign extended. -/
theorem signExtend_truncate (hw : 32 ≤ w) {n : BitVec w} (hlo : -2 ^ 31 ≤ n.toInt)
    (hhi : n.toInt < 2 ^ 31) : (n.truncate 32).signExtend w = n := by
  apply BitVec.eq_of_toInt_eq
  rw [BitVec.toInt_signExtend_of_le hw, BitVec.truncate_eq_setWidth, BitVec.toInt_setWidth,
    ← Int.bmod_bmod_of_dvd (Nat.pow_dvd_pow 2 hw), ← BitVec.toInt_eq_toNat_bmod]
  exact Int.bmod_eq_of_le hlo hhi

/-! ### The codecs together -/

/-- **The number codecs agree.**  A number of 32 bits is read back on every host, and takes the
bytes that `lit_out_number` reports.  On the bytes that both readers accept, on hosts of whatever
word sizes, the loader returns the number that the linker returns, stops at the same byte and has
the bytes in between in `last_number_len`. -/
theorem hostNumber_codecs (hw : 32 ≤ w) (hw' : 32 ≤ w') :
    (∀ n : BitVec w, -2 ^ 31 ≤ n.toInt → n.toInt < 2 ^ 31 → ∀ rest k,
      hostInNumber w ⟨(hostOutNumber n).1 ++ rest, k⟩ = some (n, ⟨rest, k⟩) ∧
        (hostOutNumber n).2 = (hostOutNumber n).1.length) ∧
    ∀ f n f' m len f'', hostInNumber w f = some (n, f') →
      hostLoadInNumber w' f = some ((m, len), f'') →
      m.toInt = n.toInt ∧ f'' = f' ∧ len ≤ f.bytes.length ∧ f'.bytes = f.bytes.drop len := by
  constructor
  · intro n hlo hhi rest k
    rw [← signExtend_truncate hw hlo hhi, hostOutNumber_eq hw, hostInNumber_eq,
      litInNumber_litOutNumber]
    exact ⟨rfl, rfl⟩
  · intro f n f' m len f'' hin hload
    rw [hostInNumber_eq] at hin
    rw [hostLoadInNumber_eq] at hload
    obtain ⟨p, hp, hload⟩ := Option.map_eq_some_iff.mp hload
    rw [litInNumber_of_litLoadInNumber hp] at hin
    cases hin
    cases hload
    obtain ⟨cs, hcs⟩ := litInNumber_eats _ _ _ (litInNumber_of_litLoadInNumber hp)
    refine ⟨?_, rfl, Nat.sub_le _ _, ?_⟩
    · rw [BitVec.toInt_signExtend_of_le hw, BitVec.toInt_signExtend_of_le hw']
    · rw [← hcs, List.length_append, Nat.add_sub_cancel, List.drop_left]

/-- -70000 on a host of 64 bits; -4466 read from four bytes there and on one of 32 bits. -/
theorem hostNumber_codecs_negative :
    hostInNumber 64 ⟨(hostOutNumber (-70000 : BitVec 64)).1 ++ [7], 0⟩ =
        some (-70000, ⟨[7], 0⟩) ∧
      (hostOutNumber (-70000 : BitVec 64)).2 = (hostOutNumber (-70000 : BitVec 64)).1.length ∧
      (-4466 : BitVec 32).toInt = (-4466 : BitVec 64).toInt ∧
      (⟨[7], 0⟩ : LitIn).bytes = [255, 252, 0x71, 0x11, 7].drop 4 := by
  obtain ⟨hin, hout⟩ := (@hostNumber_codecs 64 32 (by decide) (by decide)).1
    (-70000) (by decide) (by decide) [7] 0
  obtain ⟨hval, -, -, hdrop⟩ := (@hostNumber_codecs 64 32 (by decide) (by decide)).2
    ⟨[255, 252, 0x71, 0x11, 7], 0⟩ (-4466) ⟨[7], 0⟩ (-4466) 4 ⟨[7], 0⟩ (by decide) (by decide)
  exact ⟨hin, hout, hval, hdrop⟩

end Ttools
