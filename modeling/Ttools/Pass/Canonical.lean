import Ttools.Pass.Images

/-!
# What `pass_canonicalize` rewrites

`byteable` (`shared/ments.c`) compares the low byte of a constant with the `width` bytes above it,
which is one byte more than the unit has.

* `passCanonicalize_ends`: the pass comes to an end.
* `passCanonicalize_settled`: it takes every element of every chain, each where it is.
* `canonicalizeElement_data`: what it makes of a `DATA` element.
* `canonicalize_right_iff`: of units of equal bytes it makes bytes if the byte above the unit is
  the same too; of others it never does.  The image is kept as long as it is below 2 GB.
-/

namespace Ttools

open Support (Logged)
open Support.Logged (stop ofOption)

/-! ### The pass takes every element -/

/-- With fuel enough for the acyclic values of names the pass does not run out of it. -/
theorem passCanonicalize_ends (h : Holders) {rank : Expr → Nat} {m : Memory}
    (hrank : m.store.Ranked rank) (hst : m.store.Formed) (hc : h.Complete m.store)
    {chains : List (Word × Chain)} (hg : ∀ c ∈ chains, ∀ q ∈ c.2, q.2.Good m.store)
    (around : List Expr) :
    ∃ n r, (∀ fuel, n ≤ fuel → passCanonicalize.run h fuel around chains m = r) ∧
      r.1 ≠ .error .fuel := by
  obtain ⟨n, r, hrun, hne, -⟩ :=
    Pass.run_settles (passCanonicalize_keeps .ones) h hrank hst hc hg around
  exact ⟨n, r, hrun, hne⟩

/-- The element `x'` is what the pass makes of `x`, from some memory on. -/
def SettlesTo (fuel : Nat) (x x' : ElemId × Element) : Prop :=
  x'.1 = x.1 ∧ ∃ errors m m' log,
    canonicalizeElement fuel x.2 m = (.ok ((x'.2, errors), m'), log)

theorem walk_settled {h : Holders} {fuel : Nat} {threshold : Word} {els els' : Chain} {errors : Nat}
    {around : List Expr} {x : ElemId × Element} {m m' : Memory} {log : List Risk}
    (hrun : passCanonicalize.walk h fuel threshold around x els m =
      (.ok ((els', errors), m'), log)) :
    List.Forall₂ (SettlesTo fuel) (x :: els) els' := by
  induction els generalizing around x els' errors m m' log with
  | nil =>
      obtain ⟨id, el⟩ := x
      rw [Pass.walk] at hrun
      obtain ⟨⟨el', e⟩, s, l₁, l₂, hel, hrun⟩ := Logged.of_bind_ok hrun
      cases hrun
      exact .cons ⟨rfl, errors, m, _, l₁, hel⟩ .nil
  | cons nl els ih =>
      obtain ⟨id, el⟩ := x
      rw [Pass.walk] at hrun
      obtain ⟨joined, s, l₁, l₂, hjoin, hrun⟩ := Logged.of_bind_ok hrun
      cases hjoin
      obtain ⟨⟨el', e⟩, s, l₁, l₃, hel, hrun⟩ := Logged.of_bind_ok hrun
      obtain ⟨⟨els'', e'⟩, s', l₄, l₅, hels, hrun⟩ := Logged.of_bind_ok hrun
      cases hrun
      exact .cons ⟨rfl, e, _, s, l₁, hel⟩ (ih hels)

/-- `pass_canonicalize` rewrites each element in its place. -/
theorem passCanonicalize_settled {h : Holders} {fuel : Nat} {chains : List (Word × Chain)}
    {chains' : List Chain} {errors : Nat} {around : List Expr} {m m' : Memory} {log : List Risk}
    (hrun : passCanonicalize.run h fuel around chains m = (.ok ((chains', errors), m'), log)) :
    List.Forall₂ (fun c els' => List.Forall₂ (SettlesTo fuel) c.2 els') chains chains' := by
  induction chains generalizing around chains' errors m m' log with
  | nil =>
      cases hrun
      exact .nil
  | cons c chains ih =>
      obtain ⟨threshold, els⟩ := c
      cases els with
      | nil =>
          rw [Pass.run] at hrun
          obtain ⟨⟨rest, e⟩, s, l₁, l₂, hrest, hrun⟩ := Logged.of_bind_ok hrun
          cases hrun
          exact .cons .nil (ih hrest)
      | cons x els =>
          rw [Pass.run] at hrun
          obtain ⟨⟨els', e⟩, s, l₁, l₂, hels, hrun⟩ := Logged.of_bind_ok hrun
          obtain ⟨⟨rest, e'⟩, s', l₃, l₄, hrest, hrun⟩ := Logged.of_bind_ok hrun
          cases hrun
          exact .cons (walk_settled hels) (ih hrest)

/-! ### One element -/

/-- A `DATA` element with its value reduced: bytes in place of a constant that is `byteable`, or
as it was. -/
theorem canonicalizeElement_data {fuel : Nat} {size value count : Expr} {width : Word} {el' : Element}
    {errors : Nat} {m m' : Memory} {log : List Risk}
    (hrun : canonicalizeElement fuel ⟨size, .data width value count⟩ m =
      (.ok ((el', errors), m'), log)) :
    (∃ v temp, (1 : Word).slt width = true ∧ byteable v width = true ∧
      exprBinop false .mul count (.const width) = some temp ∧
      el' = ⟨size, .data 1 (.const v) temp⟩) ∨
    ∃ value', (∀ v, value' = .const v → ¬((1 : Word).slt width = true ∧ byteable v width = true)) ∧
      el' = ⟨size, .data width value' count⟩ := by
  obtain ⟨value', s, l₁, l₂, -, hrun⟩ := Logged.of_bind_ok hrun
  rcases hv : value'.const? with _ | v
  · simp only [hv] at hrun
    cases hrun
    refine .inr ⟨value', ?_, rfl⟩
    rintro v rfl
    cases hv
  · obtain rfl := Expr.const?_eq_some.mp hv
    simp only [Expr.const?_const] at hrun
    split at hrun
    · next hbyte =>
        obtain ⟨temp, s', l₃, l₄, htemp, hrun⟩ := Logged.of_bind_ok hrun
        rcases ht : exprBinop false .mul count (.const width) with _ | temp'
        · rw [ht] at htemp
          cases htemp
        · rw [ht] at htemp
          cases htemp
          cases hrun
          rw [Bool.and_eq_true] at hbyte
          exact .inl ⟨v, _, hbyte.1, hbyte.2, rfl, rfl⟩
    · next hbyte =>
        cases hrun
        refine .inr ⟨.const v, ?_, rfl⟩
        rintro w ⟨⟩
        simpa only [Bool.and_eq_true] using hbyte

/-! ### The bytes that are compared -/

/-- The low bytes of `v`, as many as a unit has, are equal. -/
def EqualBytes (width v : Word) : Prop :=
  ∀ j < width.toInt.toNat, lowByte (v.sshiftRight (8 * j)) = lowByte v

/-- The byte above the unit is the lowest one again; above a word it is the sign. -/
def NextEqual (width v : Word) : Prop :=
  lowByte (v.sshiftRight (8 * width.toInt.toNat)) = lowByte v

section

variable {w : Nat}

/-- The loop of `byteable` where `long` has `w` bits. -/
def hostBytesEqual (b : Byte) : Nat → BitVec w → Bool
  | 0, _ => true
  | n + 1, word =>
      (word.sshiftRight 8).truncate 8 == b && hostBytesEqual b n (word.sshiftRight 8)

/-- `byteable` where `long` has `w` bits. -/
def hostByteable (word : BitVec w) (width : Word) : Bool :=
  hostBytesEqual (word.truncate 8) width.toInt.toNat word

theorem hostBytesEqual_word (b : Byte) (n : Nat) (word : Word) :
    hostBytesEqual b n word = bytesEqual b n word := by
  induction n generalizing word with
  | zero => rfl
  | succ n ih => rw [hostBytesEqual, bytesEqual, ih, lowByte]

theorem hostByteable_word (word width : Word) : hostByteable word width = byteable word width :=
  hostBytesEqual_word _ _ _

theorem hostBytesEqual_iff {b : Byte} {n : Nat} {word : BitVec w} :
    hostBytesEqual b n word = true ↔
      ∀ j < n, (word.sshiftRight (8 * (j + 1))).truncate 8 = b := by
  induction n generalizing word with
  | zero => simp [hostBytesEqual]
  | succ n ih =>
      rw [hostBytesEqual, Bool.and_eq_true, beq_iff_eq, ih]
      constructor
      · rintro ⟨h0, h⟩ (_ | j) hj
        · exact h0
        · rw [Nat.mul_succ, Nat.add_comm, BitVec.sshiftRight_add]
          exact h j (by omega)
      · intro h
        refine ⟨h 0 (Nat.succ_pos n), fun j hj => ?_⟩
        rw [← BitVec.sshiftRight_add, Nat.add_comm, ← Nat.mul_succ]
        exact h (j + 1) (by omega)

/-- The bytes of a word are those of the host's `long`. -/
theorem truncate_sshiftRight {word : BitVec w} (hw : 32 ≤ w) {j : Nat} (hj : j < 4) :
    (word.sshiftRight (8 * j)).truncate 8 = lowByte ((word.setWidth 32).sshiftRight (8 * j)) := by
  refine BitVec.eq_of_getLsbD_eq fun i hi => ?_
  simp only [lowByte, BitVec.getLsbD_setWidth, BitVec.getLsbD_sshiftRight, hi, decide_true,
    Bool.true_and, show ¬w ≤ i by omega, show ¬32 ≤ i by omega,
    show 8 * j + i < w by omega, show 8 * j + i < 32 by omega, decide_false, Bool.not_false,
    if_true]

/-- On a wider host the same bytes are compared, but for the one above a word, which is that of
the `long`. -/
theorem hostByteable_iff {word : BitVec w} {width : Word} (hw : 32 ≤ w)
    (hwidth : 0 < width.toInt ∧ width.toInt ≤ 4) :
    hostByteable word width = true ↔ EqualBytes width (word.setWidth 32) ∧
      (word.sshiftRight (8 * width.toInt.toNat)).truncate 8 = lowByte (word.setWidth 32) := by
  have hlow : word.truncate 8 = lowByte (word.setWidth 32) := by
    have hbyte : (word.sshiftRight (8 * 0)).truncate 8 =
        lowByte ((word.setWidth 32).sshiftRight (8 * 0)) := truncate_sshiftRight hw (by omega)
    simpa using hbyte
  rw [hostByteable, hostBytesEqual_iff, hlow]
  constructor
  · intro h
    refine ⟨fun j hj => ?_, ?_⟩
    · rcases j with _ | j
      · simp
      · rw [← truncate_sshiftRight hw (by omega)]
        exact h j (by omega)
    · have hlast := h (width.toInt.toNat - 1) (by omega)
      rwa [Nat.sub_add_cancel (by omega)] at hlast
  · rintro ⟨h, hnext⟩ j hj
    by_cases hlast : j + 1 = width.toInt.toNat
    · rw [hlast]
      exact hnext
    · rw [truncate_sshiftRight hw (by omega)]
      exact h (j + 1) (by omega)

end

theorem byteable_iff {width v : Word} (hwidth : 0 < width.toInt ∧ width.toInt ≤ 4) :
    byteable v width = true ↔ EqualBytes width v ∧ NextEqual width v := by
  rw [← hostByteable_word, hostByteable_iff le_rfl hwidth, BitVec.setWidth_eq]
  exact Iff.rfl

/-! ### What it does to the image -/

/-- What is expected of a `DATA` element with the constant `v`: units of equal bytes become bytes,
others stay, and the image is the same. -/
structure Canonicalized (ρ : Valuation) (id : ElemId) (size : Expr) (width v : Word) (count : Expr)
    (el' : Element) : Prop where
  rewritten : (∃ temp, exprBinop false .mul count (.const width) = some temp ∧
    el' = ⟨size, .data 1 (.const v) temp⟩) ↔ EqualBytes width v
  kept : ¬EqualBytes width v → el' = ⟨size, .data width (.const v) count⟩
  image : el'.bytes ρ id = Element.bytes ρ id ⟨size, .data width (.const v) count⟩

/-- `temp` bytes have the image of `count` units as long as the product does not wrap. -/
theorem bytes_byteable_iff {ρ : Valuation} {id : ElemId} {size count temp : Expr} {width v : Word}
    {b : List Byte} (hbyte : byteable v width = true)
    (htemp : exprBinop false .mul count (.const width) = some temp)
    (hb : Element.bytes ρ id ⟨size, .data width (.const v) count⟩ = some b) :
    Element.bytes ρ id ⟨size, .data 1 (.const v) temp⟩ = some b ↔ b.length < 2 ^ 31 := by
  have hvalue : temp.value ρ true = count.value ρ true * width := by
    rw [Expr.value_exprBinop htemp, Expr.value_binop (x := count.value ρ true * width)]
    rw [Expr.value_const]
    rfl
  constructor
  · intro hb'
    obtain ⟨-, rfl⟩ := Element.bytes_data.mp hb'
    rw [length_dataBytes, show (1 : Word).toInt.toNat = 1 from rfl, Nat.mul_one]
    have := BitVec.toInt_lt (x := temp.value ρ true)
    omega
  · exact Element.bytes_byteable (Expr.value_const ..) hbyte hvalue hb

/-- What becomes of one element. -/
theorem canonicalized_iff {fuel errors : Nat} {m m' : Memory} {log : List Risk} {id : ElemId}
    {size value count count' : Expr} {width width' v : Word} {el' : Element}
    (hrun : canonicalizeElement fuel ⟨size, .data width value count⟩ m =
      (.ok ((el', errors), m'), log))
    (hwidth : width = 2 ∨ width = 4) (hconst : el'.u = .data width' (.const v) count')
    {ρ : Valuation} {b : List Byte}
    (hb : Element.bytes ρ id ⟨size, .data width (.const v) count⟩ = some b) :
    Canonicalized ρ id size width v count el' ↔
      (EqualBytes width v → NextEqual width v ∧ b.length < 2 ^ 31) := by
  have hw : (0 < width.toInt ∧ width.toInt ≤ 4) ∧ (1 : Word).slt width = true ∧ width ≠ 1 := by
    rcases hwidth with rfl | rfl <;> decide
  obtain ⟨hw, hmore, hne⟩ := hw
  obtain ⟨_, _, _, hbyte, htemp, rfl⟩ | ⟨_, hnot, rfl⟩ := canonicalizeElement_data hrun
  · cases hconst
    obtain ⟨hequal, hnext⟩ := (byteable_iff hw).mp hbyte
    have himage := bytes_byteable_iff hbyte htemp hb
    constructor
    · intro h _
      exact ⟨hnext, himage.mp (h.image.trans hb)⟩
    · intro h
      exact ⟨iff_of_true ⟨_, htemp, rfl⟩ hequal, fun hn => absurd hequal hn,
        (himage.mpr (h hequal).2).trans hb.symm⟩
  · cases hconst
    have hnot := hnot v rfl
    rw [byteable_iff hw] at hnot
    constructor
    · intro h hequal
      obtain ⟨temp, -, hel⟩ := h.rewritten.mpr hequal
      simp only [Element.mk.injEq, Body.data.injEq] at hel
      exact absurd hel.2.1 hne
    · intro h
      have hunequal : ¬EqualBytes width v := fun hequal => hnot ⟨hmore, hequal, (h hequal).1⟩
      refine ⟨iff_of_false ?_ hunequal, fun _ => rfl, rfl⟩
      rintro ⟨temp, -, hel⟩
      simp only [Element.mk.injEq, Body.data.injEq] at hel
      exact hne hel.2.1

theorem forall₂_getElem? {α β : Type} {R : α → β → Prop} {l : List α} {l' : List β}
    (h : List.Forall₂ R l l') {i : Nat} {a : α} {b : β} (ha : l[i]? = some a)
    (hb : l'[i]? = some b) : R a b := by
  obtain ⟨hi, rfl⟩ := List.getElem?_eq_some_iff.mp ha
  obtain ⟨hi', rfl⟩ := List.getElem?_eq_some_iff.mp hb
  exact h.get hi hi'

/-- **`byteable` looks at one byte too many**: the test at any width of `long`, and the pass, do
what is expected of a constant exactly where its bytes differ or the byte above is equal too, the
image being below 2 GB. -/
theorem canonicalize_right_iff {h : Holders} {fuel : Nat} {chains : List (Word × Chain)}
    {chains' : List Chain} {errors : Nat} {m m' : Memory} {log : List Risk}
    (hrun : passCanonicalize.run h fuel [] chains m = (.ok ((chains', errors), m'), log))
    {i j : Nat} {threshold : Word} {els els' : Chain} {id id' : ElemId} {size value count count' : Expr}
    {width width' v : Word} {el' : Element}
    (hels : chains[i]? = some (threshold, els)) (hels' : chains'[i]? = some els')
    (hel : els[j]? = some (id, ⟨size, .data width value count⟩)) (hel' : els'[j]? = some (id', el'))
    (hwidth : width = 2 ∨ width = 4) (hconst : el'.u = .data width' (.const v) count')
    {ρ : Valuation} {b : List Byte}
    (hb : Element.bytes ρ id ⟨size, .data width (.const v) count⟩ = some b) :
    (∀ {w : Nat} (word : BitVec w), 32 ≤ w → word.setWidth 32 = v →
      ((hostByteable word width = true ↔ EqualBytes width v) ↔
        (EqualBytes width v →
          (word.sshiftRight (8 * width.toInt.toNat)).truncate 8 = lowByte v))) ∧
    (Canonicalized ρ id size width v count el' ↔
      (EqualBytes width v → NextEqual width v ∧ b.length < 2 ^ 31)) := by
  have hw : 0 < width.toInt ∧ width.toInt ≤ 4 := by
    rcases hwidth with rfl | rfl <;> decide
  obtain ⟨-, errors', s, s', log', hel''⟩ :=
    forall₂_getElem? (forall₂_getElem? (passCanonicalize_settled hrun) hels hels') hel hel'
  refine ⟨fun word hword hv => ?_, canonicalized_iff hel'' hwidth hconst hb⟩
  rw [hostByteable_iff hword hw, hv]
  tauto

/-- `word:0x05050505*1`. -/
def fives : Chain := [(0, ⟨.const 4, .data 4 (.const 0x05050505) (.const 1)⟩)]

/-- `word:0*3`. -/
def zeros : Chain := [(0, ⟨.const 12, .data 4 (.const 0) (.const 3)⟩)]

theorem canonicalize_right_iff_zeros :
    (∀ {w : Nat} (word : BitVec w), 32 ≤ w → word.setWidth 32 = 0 →
      ((hostByteable word 4 = true ↔ EqualBytes 4 0) ↔
        (EqualBytes 4 0 → (word.sshiftRight (8 * (4 : Word).toInt.toNat)).truncate 8 =
          lowByte 0))) ∧
    (Canonicalized .ones 0 (.const 12) 4 0 (.const 3)
        ⟨.const 12, .data 1 (.const 0) (.const 12)⟩ ↔
      (EqualBytes 4 0 → NextEqual 4 0 ∧ (List.replicate 12 (0 : Byte)).length < 2 ^ 31)) := by
  have hrun : passCanonicalize.run .none 1 [] [(256, zeros)] .unknown =
      (.ok (([[(0, ⟨.const 12, .data 1 (.const 0) (.const 12)⟩)]], 0), .unknown), []) := rfl
  exact canonicalize_right_iff hrun (i := 0) (j := 0) rfl rfl rfl rfl (.inr rfl) rfl (by decide)

/-- The comment's own example stays as it is. -/
theorem canonicalize_misses_fives :
    (passCanonicalize.run .none 1 [] [(256, fives)] .unknown).1 = .ok (([fives], 0), .unknown) ∧
      EqualBytes 4 0x05050505 ∧
      ¬Canonicalized .ones 0 (.const 4) 4 0x05050505 (.const 1)
        ⟨.const 4, .data 4 (.const 0x05050505) (.const 1)⟩ := by
  have hequal : EqualBytes 4 0x05050505 := by
    rintro (_ | _ | _ | _ | j) hj
    · rfl
    · rfl
    · rfl
    · rfl
    · change j + 4 < 4 at hj
      omega
  refine ⟨rfl, hequal, fun h => ?_⟩
  obtain ⟨temp, -, hel⟩ := h.rewritten.mpr hequal
  simp only [Element.mk.injEq, Body.data.injEq] at hel
  exact absurd hel.2.1 (by decide)

end Ttools
