import Ttools.Cmd.Generate
import Ttools.Expr.Estimate

/-!
# Sizes of commands on hosts with other words

`emit_cmd` (`shared/ments.c`) sizes a command by the bounds that `expr_estimate` gives its argument,
and these are `long` of the host.  `hostEstimate1` is `expr_estimate1` with the word size as a
parameter, for expressions whose constants fit in 32 bits.  `pass_optimize_offsets` reduces the
argument before it does the same; what `expr_reduce` makes of it on another host is not modelled.

* `hostEstimate1_word`: on a host with 32 bits it is `exprEstimate1`.
* `hostSizes_alike`: `emit_cmd` gives a command the same size range with 32 and with 64 bits where
  the bounds of the argument come out as integers of 32 bits; and this is so exactly when the
  bounds of everything in it are the same on both hosts.  Elsewhere the widest range and the tests
  for overflow are those of the host.
-/

namespace Ttools

open Support (Range Wraps)

section

variable {w : Nat}

/-- `sum_overflows`. -/
def hostSumOverflows (a b : BitVec w) : Bool :=
  ((0 : BitVec w).slt a && (0 : BitVec w).slt b && (a + b).slt 0) ||
    (a.slt 0 && b.slt 0 && (0 : BitVec w).sle (a + b))

/-- One round of the loop of `expr_estimate_elsum`, as `estimateMember`. -/
def hostEstimateMember (st : Store) (r : Range w) : Expr → Option (Option (Range w))
  | .element el =>
      match st.size el with
      | .range lo hi =>
          if hostSumOverflows r.lo (lo.signExtend w) || hostSumOverflows r.hi (hi.signExtend w) then
            some none
          else some (some (r.add ⟨lo.signExtend w, hi.signExtend w⟩))
      | .const c => some (some (r.shift (c.signExtend w)))
      | _ => none
  | .const c => some (some (r.shift (c.signExtend w)))
  | _ => none

/-- The loop of `expr_estimate_elsum`. -/
def hostEstimateMembers (st : Store) : Range w → List Expr → Option (Option (Range w))
  | r, [] => some (some r)
  | r, m :: v =>
      match hostEstimateMember st r m with
      | some (some r) => hostEstimateMembers st r v
      | stop => stop

/-- The constant `c` is a mask of low bits: `(c & (c + 1)) == 0`. -/
def isLowMask (c : BitVec w) : Bool := c &&& (c + 1) == 0

end

/-- The operand that `EXPR_AND` takes for a mask of low bits. -/
def hostAndMask (w : Nat) (l r : Expr) : Option Word :=
  match r.const?.filter fun c => isLowMask (c.signExtend w) with
  | some c => some c
  | none => l.const?.filter fun c => isLowMask (c.signExtend w)

/-- `expr_estimate1` on a host whose `long` has `w` bits. -/
def hostEstimate1 (w : Nat) (st : Store) : Nat → Expr → Option (Range w)
  | 0, _ => none
  | fuel + 1, e =>
      match e with
      | .const c => some ⟨c.signExtend w, c.signExtend w⟩
      | .range lo hi => some ⟨lo.signExtend w, hi.signExtend w⟩
      | .element el => hostEstimate1 w st fuel (st.size el)
      | .elsum v => (hostEstimateMembers st ⟨0, 0⟩ v).map (·.getD (.widest w))
      | .name np =>
          match st.localVal np with
          | none => some (.widest w)
          | some v => hostEstimate1 w st fuel v
      | .unop .neg _ => none
      | .unop .not _ => some ⟨0, 1⟩
      | .unop .compl _ => some (.widest w)
      | .binop .minus l r => do
          let temp ← hostEstimate1 w st fuel r
          if temp.lo = BitVec.intMin w then some (.widest w)
          else
            let uemp ← hostEstimate1 w st fuel l
            if hostSumOverflows uemp.lo temp.lo || hostSumOverflows uemp.hi temp.hi then
              some (.widest w)
            else some (uemp.sub temp)
      | .binop .plus l r => do
          let temp ← hostEstimate1 w st fuel r
          let uemp ← hostEstimate1 w st fuel l
          if hostSumOverflows uemp.lo temp.lo || hostSumOverflows uemp.hi temp.hi then
            some (.widest w)
          else some (uemp.add temp)
      | .binop .and l r =>
          match hostAndMask w l r with
          | some c => some ⟨0, c.signExtend w⟩
          | none => some (.widest w)
      | .binop _ _ _ => some (.widest w)

/-- `minsz` and `maxsz` for the bounds of an argument. -/
def cmdSizes {w : Nat} (r : Range w) : Int × Int :=
  if r.lo = r.hi then (cmdSize r.lo, cmdSize r.lo)
  else
    let a := cmdSize r.lo
    let b := cmdSize r.hi
    (if r.lo.sle 0 && (0 : BitVec w).sle r.hi then 1 else if a < b then a else b,
      if b < a then a else b)

/-- The size range that `emit_cmd` gives a command; a constant argument is encoded at once, in the
slot if there is one. -/
def emitCmdSizes (w : Nat) (st : Store) (fuel : Nat) (slot : Int) (arg : Expr) :
    Option (Int × Int) :=
  match arg.const? with
  | some c =>
      let sz : Int := cmdSize (c.signExtend w)
      some (if slot = 0 then (sz, sz) else if sz ≤ slot then (slot, slot) else (0, 0))
  | none =>
      (hostEstimate1 w st fuel arg).map fun r => if slot ≠ 0 then (slot, slot) else cmdSizes r

/-! ### Bounds that do not depend on the host -/

/-- The integer fits in 32 bits. -/
def Fits (x : Int) : Prop := -2 ^ 31 ≤ x ∧ x < 2 ^ 31

instance (x : Int) : Decidable (Fits x) := inferInstanceAs (Decidable (_ ∧ _))

/-- What an `ELSUM` may hold. -/
def MemberOk (st : Store) (m : Expr) : Prop :=
  (∃ c, m = .const c) ∨
    ∃ el, m = .element el ∧ ((∃ c, st.size el = .const c) ∨ ∃ lo hi, st.size el = .range lo hi)

/-- The bounds of an expression are `lo` and `hi`, as integers: no unknown value decides them, and
they stay within 32 bits.  A difference whose tests fail may have the widest range of 32 bits for
its bounds all the same. -/
inductive HostFree (st : Store) : Expr → Int → Int → Prop where
  | const (c : Word) : HostFree st (.const c) c.toInt c.toInt
  | range (lo hi : Word) : HostFree st (.range lo hi) lo.toInt hi.toInt
  | element {el : ElemId} {lo hi : Int} (h : HostFree st (st.size el) lo hi) :
      HostFree st (.element el) lo hi
  | name {np : NameId} {v : Expr} {lo hi : Int} (hv : st.localVal np = some v)
      (h : HostFree st v lo hi) : HostFree st (.name np) lo hi
  | elsumNil : HostFree st (.elsum []) 0 0
  | elsumSnoc {v : List Expr} {m : Expr} {a b c d : Int} (hv : HostFree st (.elsum v) a b)
      (hm : HostFree st m c d) (hok : MemberOk st m) (hlo : Fits (a + c)) (hhi : Fits (b + d)) :
      HostFree st (.elsum (v ++ [m])) (a + c) (b + d)
  | not (r : Expr) : HostFree st (.unop .not r) 0 1
  | and {l r : Expr} {c : Word} (h : andMask l r = some c) :
      HostFree st (.binop .and l r) 0 c.toInt
  | plus {l r : Expr} {a b c d : Int} (hl : HostFree st l a b) (hr : HostFree st r c d)
      (hlo : Fits (a + c)) (hhi : Fits (b + d)) : HostFree st (.binop .plus l r) (a + c) (b + d)
  | minus {l r : Expr} {a b c d : Int} (hl : HostFree st l a b) (hr : HostFree st r c d)
      (hlo : Fits (a - d)) (hhi : Fits (b - c))
      (h : c = -2 ^ 31 ∨ ¬Fits (a + c) ∨ ¬Fits (b + d) → a - d = -2 ^ 31 ∧ b - c = 2 ^ 31 - 1) :
      HostFree st (.binop .minus l r) (a - d) (b - c)

/-- The result of `expr_estimate1` with enough fuel. -/
def HostEstimates (w : Nat) (st : Store) (e : Expr) (r : Range w) : Prop :=
  ∃ n, ∀ fuel, n ≤ fuel → hostEstimate1 w st fuel e = some r

/-- The bounds are the same on hosts of 32 and of 64 bits. -/
def SameBounds (st : Store) (e : Expr) : Prop :=
  ∃ r : Range 32, ∃ s : Range 64, HostEstimates 32 st e r ∧ HostEstimates 64 st e s ∧
    r.lo.toInt = s.lo.toInt ∧ r.hi.toInt = s.hi.toInt

/-- On hosts of 32 and of 64 bits a command gets the same size range, of commands that the target
can execute. -/
def SameSizes (sizes : (w : Nat) → (fuel : Nat) → Option (Int × Int)) : Prop :=
  ∃ n, ∃ minsz maxsz : Int, maxsz ≤ cmdMaxlen ∧ ∀ fuel, n ≤ fuel →
    sizes 32 fuel = some (minsz, maxsz) ∧ sizes 64 fuel = some (minsz, maxsz)

/-! ### Words -/

section

variable {w : Nat}

theorem hostSumOverflows_iff (a b : BitVec w) :
    hostSumOverflows a b = true ↔ Wraps w (a.toInt + b.toInt) := by
  have ha := Support.toInt_window a
  have hb := Support.toInt_window b
  have hab := Support.toInt_of_modEq (Support.toInt_add_modEq a b) ⟨by omega, by omega⟩
  have hzero : (0 : BitVec w).toInt = 0 := by simp
  simp only [hostSumOverflows, Bool.or_eq_true, Bool.and_eq_true, BitVec.slt_iff_toInt_lt,
    BitVec.sle_iff_toInt_le, hzero]
  unfold Wraps at *
  omega

theorem toInt_add_of_not_wraps {a b : BitVec w} (h : ¬Wraps w (a.toInt + b.toInt)) :
    (a + b).toInt = a.toInt + b.toInt := by
  have ha := Support.toInt_window a
  have hb := Support.toInt_window b
  exact (Support.toInt_of_modEq (Support.toInt_add_modEq a b) ⟨by omega, by omega⟩).1 h

theorem toInt_sub_of_not_wraps {a b : BitVec w} (h : ¬Wraps w (a.toInt - b.toInt)) :
    (a - b).toInt = a.toInt - b.toInt := by
  have ha := Support.toInt_window a
  have hb := Support.toInt_window b
  exact (Support.toInt_of_modEq (Support.toInt_sub_modEq a b) ⟨by omega, by omega⟩).1 h

theorem toInt_zero_word : (0 : BitVec w).toInt = 0 := by simp

end

/-- Hosts of either size take the same constants for masks. -/
theorem isLowMask_signExtend (c : Word) : isLowMask (c.signExtend 64) = isLowMask c := by
  by_cases hmax : c = BitVec.intMax 32
  · subst hmax
    decide
  · have hlt : c.toInt + 1 < 2 ^ 31 := by
      have hne : c.toInt ≠ (BitVec.intMax 32).toInt := fun h => hmax (BitVec.eq_of_toInt_eq h)
      have hwin := Support.toInt_window c
      have hval : (BitVec.intMax 32).toInt = 2 ^ 31 - 1 := by decide
      omega
    have hsucc : c.signExtend 64 + 1 = (c + 1).signExtend 64 := by
      have hwin := Support.toInt_window c
      have hext : ∀ d : Word, (d.signExtend 64).toInt = d.toInt := fun d =>
        BitVec.toInt_signExtend_of_le (by decide)
      have hone : (1 : BitVec 64).toInt = 1 := by decide
      have hone' : (1 : Word).toInt = 1 := by decide
      apply BitVec.eq_of_toInt_eq
      rw [hext, toInt_add_of_not_wraps, toInt_add_of_not_wraps, hext, hone, hone']
      · rw [hone', Wraps]
        omega
      · rw [hone, hext, Wraps]
        omega
    have hzero : ∀ d : Word, d.signExtend 64 = 0 ↔ d = 0 := by
      intro d
      constructor
      · intro h
        apply BitVec.eq_of_toInt_eq
        rw [← BitVec.toInt_signExtend_of_le (v := 64) (by decide), h]
        rfl
      · rintro rfl
        rfl
    rw [isLowMask, isLowMask, hsucc, ← BitVec.signExtend_and, Bool.eq_iff_iff, beq_iff_eq,
      beq_iff_eq, hzero]

section

variable {w : Nat} {st : Store} {e : Expr}

/-- A sum or difference of two numbers of 32 bits wraps on the smaller host alone. -/
theorem wraps_iff (hw : w = 32 ∨ w = 64) {x : Int} (hx : -2 ^ 33 ≤ x ∧ x < 2 ^ 33) :
    Wraps w x ↔ w = 32 ∧ ¬Fits x := by
  rw [Wraps, Fits]
  rcases hw with rfl | rfl
  · omega
  · refine iff_of_false (not_not.mpr ?_) fun h => absurd h.1 (by decide)
    omega

theorem toInt_signExtend_host (hw : w = 32 ∨ w = 64) (c : Word) :
    (c.signExtend w).toInt = c.toInt :=
  BitVec.toInt_signExtend_of_le (by rcases hw with rfl | rfl <;> decide)

theorem hostAndMask_host (hw : w = 32 ∨ w = 64) (l r : Expr) :
    hostAndMask w l r = andMask l r := by
  have hmask : ∀ c : Word, isLowMask (c.signExtend w) = (c &&& (c + 1) == 0) := by
    intro c
    rcases hw with rfl | rfl
    · rw [BitVec.signExtend_eq, isLowMask]
    · rw [isLowMask_signExtend, isLowMask]
  exact congrArg (fun p : Word → Bool =>
    match r.const?.filter p with
    | some c => some c
    | none => l.const?.filter p) (funext hmask)

theorem fits_toInt (c : Word) : Fits c.toInt := by
  have hwin := Support.toInt_window c
  rw [Fits]
  omega

theorem HostFree.fits {lo hi : Int} (h : HostFree st e lo hi) : Fits lo ∧ Fits hi := by
  induction h with
  | const c => exact ⟨fits_toInt c, fits_toInt c⟩
  | range lo hi => exact ⟨fits_toInt lo, fits_toInt hi⟩
  | element _ ih => exact ih
  | name _ _ ih => exact ih
  | elsumNil => exact ⟨by decide, by decide⟩
  | elsumSnoc _ _ _ hlo hhi => exact ⟨hlo, hhi⟩
  | not r => exact ⟨by decide, by decide⟩
  | and h => exact ⟨by decide, fits_toInt _⟩
  | plus _ _ hlo hhi => exact ⟨hlo, hhi⟩
  | minus _ _ hlo hhi => exact ⟨hlo, hhi⟩

/-! ### The cases of `hostEstimate1` -/

theorem HostEstimates.unique {r s : Range w} (h : HostEstimates w st e r)
    (h' : HostEstimates w st e s) : r = s := by
  obtain ⟨n, h⟩ := h
  obtain ⟨m, h'⟩ := h'
  have hr := h (max n m) (le_max_left n m)
  rw [h' (max n m) (le_max_right n m)] at hr
  exact (Option.some.inj hr).symm

/-- What one more unit of fuel gives, for all fuel that is enough. -/
theorem HostEstimates.step {r : Range w} (n : Nat)
    (h : ∀ fuel, n ≤ fuel → hostEstimate1 w st (fuel + 1) e = some r) : HostEstimates w st e r := by
  refine ⟨n + 1, fun fuel hfuel => ?_⟩
  obtain ⟨k, rfl⟩ : ∃ k, fuel = k + 1 := ⟨fuel - 1, by omega⟩
  exact h k (Nat.le_of_succ_le_succ hfuel)

theorem hostEstimates_element {el : ElemId} {r : Range w} (h : HostEstimates w st (st.size el) r) :
    HostEstimates w st (.element el) r := by
  obtain ⟨n, h⟩ := h
  exact .step n fun fuel hfuel => h fuel hfuel

theorem hostEstimates_name {np : NameId} {v : Expr} {r : Range w} (hv : st.localVal np = some v)
    (h : HostEstimates w st v r) : HostEstimates w st (.name np) r := by
  obtain ⟨n, h⟩ := h
  refine .step n fun fuel hfuel => ?_
  rw [hostEstimate1, hv]
  exact h fuel hfuel

theorem hostEstimates_elsum (v : List Expr) {r : Option (Range w)}
    (h : hostEstimateMembers st ⟨0, 0⟩ v = some r) :
    HostEstimates w st (.elsum v) (r.getD (.widest w)) := by
  refine .step 0 fun fuel _ => ?_
  rw [hostEstimate1, h]
  rfl

theorem hostEstimates_plus {l r : Expr} {uemp temp : Range w} (hl : HostEstimates w st l uemp)
    (hr : HostEstimates w st r temp) :
    HostEstimates w st (.binop .plus l r)
      (if hostSumOverflows uemp.lo temp.lo || hostSumOverflows uemp.hi temp.hi then .widest w
        else uemp.add temp) := by
  obtain ⟨n, hl⟩ := hl
  obtain ⟨m, hr⟩ := hr
  refine .step (max n m) fun fuel hfuel => ?_
  rw [hostEstimate1, hl fuel (le_of_max_le_left hfuel), hr fuel (le_of_max_le_right hfuel)]
  show (if _ then _ else _) = _
  split <;> rfl

theorem hostEstimates_minus {l r : Expr} {uemp temp : Range w} (hl : HostEstimates w st l uemp)
    (hr : HostEstimates w st r temp) :
    HostEstimates w st (.binop .minus l r)
      (if temp.lo = BitVec.intMin w then .widest w
        else if hostSumOverflows uemp.lo temp.lo || hostSumOverflows uemp.hi temp.hi then .widest w
        else uemp.sub temp) := by
  obtain ⟨n, hl⟩ := hl
  obtain ⟨m, hr⟩ := hr
  refine .step (max n m) fun fuel hfuel => ?_
  rw [hostEstimate1, hr fuel (le_of_max_le_right hfuel)]
  show (if _ then _ else _) = _
  rw [hl fuel (le_of_max_le_left hfuel)]
  show (if _ then _ else if _ then _ else _) = _
  split
  · rfl
  · split <;> rfl

theorem hostEstimateMembers_snoc (r : Range w) (v : List Expr) (m : Expr) :
    hostEstimateMembers st r (v ++ [m]) =
      match hostEstimateMembers st r v with
      | some (some r) => hostEstimateMember st r m
      | stop => stop := by
  induction v generalizing r with
  | nil =>
      simp only [List.nil_append, hostEstimateMembers]
      rcases hostEstimateMember st r m with _ | _ | r <;> rfl
  | cons a v ih =>
      simp only [List.cons_append, hostEstimateMembers]
      rcases hostEstimateMember st r a with _ | _ | r
      · rfl
      · rfl
      · exact ih r

/-- On a host with 32 bits this is `expr_estimate1` as it has been modelled before. -/
theorem hostEstimate1_word (st : Store) (fuel : Nat) (e : Expr) :
    hostEstimate1 32 st fuel e = exprEstimate1 st fuel e := by
  have hmember : ∀ (r : Bounds) (m : Expr), hostEstimateMember st r m = estimateMember st r m := by
    intro r m
    cases m with
    | element el =>
        rw [hostEstimateMember, estimateMember]
        cases st.size el with
        | range lo hi =>
            simp only [BitVec.signExtend_eq]
            rfl
        | const c => simp only [BitVec.signExtend_eq]
        | _ => rfl
    | const c => rw [hostEstimateMember, estimateMember, BitVec.signExtend_eq]
    | _ => rfl
  have hmembers : ∀ (v : List Expr) (r : Bounds),
      hostEstimateMembers st r v = estimateMembers st r v := by
    intro v
    induction v with
    | nil => exact fun _ => rfl
    | cons m v ih =>
        intro r
        rw [hostEstimateMembers, estimateMembers, hmember]
        rcases estimateMember st r m with _ | _ | r'
        · rfl
        · rfl
        · exact ih r'
  have hwidest : Range.widest 32 = widest := rfl
  induction fuel generalizing e with
  | zero => rfl
  | succ fuel ih =>
      cases e with
      | const c => rw [hostEstimate1, exprEstimate1, BitVec.signExtend_eq]
      | range lo hi => rw [hostEstimate1, exprEstimate1, BitVec.signExtend_eq, BitVec.signExtend_eq]
      | element el => exact ih _
      | elsum v => rw [hostEstimate1, exprEstimate1, exprEstimateElsum, hmembers, hwidest]
      | name np =>
          rw [hostEstimate1, exprEstimate1]
          rcases st.localVal np with _ | v
          · rfl
          · exact ih v
      | unop t r => cases t <;> rfl
      | binop t l r =>
          cases t with
          | minus =>
              rw [hostEstimate1, exprEstimate1, ih, ih]
              rfl
          | plus =>
              rw [hostEstimate1, exprEstimate1, ih, ih]
              rfl
          | and =>
              rw [hostEstimate1, exprEstimate1, hostAndMask_host (Or.inl rfl)]
              rcases andMask l r with _ | c
              · rfl
              · simp only [BitVec.signExtend_eq]
          | _ => rfl

/-! ### Bounds that do not depend on the host -/

theorem fits_add_window {x y : Int} (hx : Fits x) (hy : Fits y) : -2 ^ 33 ≤ x + y ∧ x + y < 2 ^ 33 := by
  rw [Fits] at hx hy
  omega

theorem fits_sub_window {x y : Int} (hx : Fits x) (hy : Fits y) : -2 ^ 33 ≤ x - y ∧ x - y < 2 ^ 33 := by
  rw [Fits] at hx hy
  omega

/-- The test for overflow fails on the smaller host alone. -/
theorem hostSumOverflows_eq_true (hw : w = 32 ∨ w = 64) {a b : BitVec w} (ha : Fits a.toInt)
    (hb : Fits b.toInt) :
    hostSumOverflows a b = true ↔ w = 32 ∧ ¬Fits (a.toInt + b.toInt) := by
  rw [hostSumOverflows_iff, wraps_iff hw (fits_add_window ha hb)]

theorem toInt_add_host (hw : w = 32 ∨ w = 64) {a b : BitVec w} (ha : Fits a.toInt)
    (hb : Fits b.toInt) (h : w = 32 → Fits (a.toInt + b.toInt)) :
    (a + b).toInt = a.toInt + b.toInt :=
  toInt_add_of_not_wraps fun hwraps => by
    obtain ⟨heq, hn⟩ := (wraps_iff hw (fits_add_window ha hb)).mp hwraps
    exact hn (h heq)

theorem toInt_sub_host (hw : w = 32 ∨ w = 64) {a b : BitVec w} (ha : Fits a.toInt)
    (hb : Fits b.toInt) (h : w = 32 → Fits (a.toInt - b.toInt)) :
    (a - b).toInt = a.toInt - b.toInt :=
  toInt_sub_of_not_wraps fun hwraps => by
    obtain ⟨heq, hn⟩ := (wraps_iff hw (fits_sub_window ha hb)).mp hwraps
    exact hn (h heq)

theorem eq_intMin_iff (hw : w = 32 ∨ w = 64) {a : BitVec w} (ha : Fits a.toInt) :
    a = BitVec.intMin w ↔ w = 32 ∧ a.toInt = -2 ^ 31 := by
  rcases hw with rfl | rfl
  · have hmin : (BitVec.intMin 32).toInt = -2 ^ 31 := by decide
    rw [← BitVec.toInt_inj, hmin]
    exact (and_iff_right rfl).symm
  · have hmin : (BitVec.intMin 64).toInt = -2 ^ 63 := by decide
    rw [← BitVec.toInt_inj, hmin]
    rw [Fits] at ha
    exact iff_of_false (by omega) fun h => absurd h.1 (by decide)

/-- The bounds of `e` are the integers `lo` and `hi`. -/
def BoundsAre (w : Nat) (st : Store) (e : Expr) (lo hi : Int) : Prop :=
  ∃ r : Range w, HostEstimates w st e r ∧ r.lo.toInt = lo ∧ r.hi.toInt = hi

theorem boundsAre_plus (hw : w = 32 ∨ w = 64) {l r : Expr} {a b c d : Int}
    (hl : BoundsAre w st l a b) (hr : BoundsAre w st r c d) (ha : Fits a) (hb : Fits b)
    (hc : Fits c) (hd : Fits d) (h : w = 32 → Fits (a + c) ∧ Fits (b + d)) :
    BoundsAre w st (.binop .plus l r) (a + c) (b + d) := by
  obtain ⟨uemp, hl, rfl, rfl⟩ := hl
  obtain ⟨temp, hr, rfl, rfl⟩ := hr
  have hest := hostEstimates_plus hl hr
  have hno : ¬(hostSumOverflows uemp.lo temp.lo || hostSumOverflows uemp.hi temp.hi) = true := by
    rw [Bool.or_eq_true, hostSumOverflows_eq_true hw ha hc, hostSumOverflows_eq_true hw hb hd]
    rintro (⟨heq, hn⟩ | ⟨heq, hn⟩)
    · exact hn (h heq).1
    · exact hn (h heq).2
  rw [if_neg hno] at hest
  exact ⟨_, hest, toInt_add_host hw ha hc fun heq => (h heq).1,
    toInt_add_host hw hb hd fun heq => (h heq).2⟩

/-- The tests before a difference, on the smaller host. -/
def MinusTests (a b c d : Int) : Prop := c ≠ -2 ^ 31 ∧ Fits (a + c) ∧ Fits (b + d)

theorem boundsAre_minus (hw : w = 32 ∨ w = 64) {l r : Expr} {a b c d : Int}
    (hl : BoundsAre w st l a b) (hr : BoundsAre w st r c d) (ha : Fits a) (hb : Fits b)
    (hc : Fits c) (hd : Fits d)
    (h : w = 32 → MinusTests a b c d ∧ Fits (a - d) ∧ Fits (b - c)) :
    BoundsAre w st (.binop .minus l r) (a - d) (b - c) := by
  obtain ⟨uemp, hl, rfl, rfl⟩ := hl
  obtain ⟨temp, hr, rfl, rfl⟩ := hr
  have hest := hostEstimates_minus hl hr
  have hmin : ¬temp.lo = BitVec.intMin w := by
    rw [eq_intMin_iff hw hc]
    exact fun heq => (h heq.1).1.1 heq.2
  have hno : ¬(hostSumOverflows uemp.lo temp.lo || hostSumOverflows uemp.hi temp.hi) = true := by
    rw [Bool.or_eq_true, hostSumOverflows_eq_true hw ha hc, hostSumOverflows_eq_true hw hb hd]
    rintro (⟨heq, hn⟩ | ⟨heq, hn⟩)
    · exact hn (h heq).1.2.1
    · exact hn (h heq).1.2.2
  rw [if_neg hmin, if_neg hno] at hest
  exact ⟨_, hest, toInt_sub_host hw ha hd fun heq => (h heq).2.1,
    toInt_sub_host hw hb hc fun heq => (h heq).2.2⟩

theorem boundsAre_minus_widest {l r : Expr} {a b c d : Int} (hl : BoundsAre 32 st l a b)
    (hr : BoundsAre 32 st r c d) (ha : Fits a) (hb : Fits b) (hc : Fits c) (hd : Fits d)
    (h : ¬MinusTests a b c d) : BoundsAre 32 st (.binop .minus l r) (-2 ^ 31) (2 ^ 31 - 1) := by
  obtain ⟨uemp, hl, rfl, rfl⟩ := hl
  obtain ⟨temp, hr, rfl, rfl⟩ := hr
  have hest := hostEstimates_minus hl hr
  by_cases hmin : temp.lo = BitVec.intMin 32
  · rw [if_pos hmin] at hest
    exact ⟨_, hest, by decide, by decide⟩
  · rw [if_neg hmin] at hest
    have hyes : (hostSumOverflows uemp.lo temp.lo || hostSumOverflows uemp.hi temp.hi) = true := by
      rw [eq_intMin_iff (Or.inl rfl) hc] at hmin
      rw [Bool.or_eq_true, hostSumOverflows_eq_true (Or.inl rfl) ha hc,
        hostSumOverflows_eq_true (Or.inl rfl) hb hd]
      by_contra hn
      rw [not_or] at hn
      exact h ⟨fun heq => hmin ⟨rfl, heq⟩, not_not.mp fun hf => hn.1 ⟨rfl, hf⟩,
        not_not.mp fun hf => hn.2 ⟨rfl, hf⟩⟩
    rw [if_pos hyes] at hest
    exact ⟨_, hest, by decide, by decide⟩

/-- A member that may be in a sum is added to the bounds before it. -/
theorem hostEstimateMember_ok (hw : w = 32 ∨ w = 64) {m : Expr} (hok : MemberOk st m) {r : Range w}
    {c d : Int} (hm : BoundsAre w st m c d) (hlo : Fits r.lo.toInt) (hhi : Fits r.hi.toInt)
    (h : w = 32 → Fits (r.lo.toInt + c) ∧ Fits (r.hi.toInt + d)) :
    Fits c ∧ Fits d ∧ ∃ r', hostEstimateMember st r m = some (some r') ∧
      r'.lo.toInt = r.lo.toInt + c ∧ r'.hi.toInt = r.hi.toInt + d := by
  have hext : ∀ k : Word, (k.signExtend w).toInt = k.toInt := toInt_signExtend_host hw
  have hfits : ∀ k : Word, Fits (k.signExtend w).toInt := fun k => hext k ▸ fits_toInt k
  obtain ⟨s, hest, rfl, rfl⟩ := hm
  have hconst : ∀ k : Word, HostEstimates w st (.const k) ⟨k.signExtend w, k.signExtend w⟩ :=
    fun k => .step 0 fun _ _ => rfl
  have hrange : ∀ lo hi : Word,
      HostEstimates w st (.range lo hi) ⟨lo.signExtend w, hi.signExtend w⟩ :=
    fun lo hi => .step 0 fun _ _ => rfl
  have hshift : ∀ k : Word, s = ⟨k.signExtend w, k.signExtend w⟩ →
      hostEstimateMember st r m = some (some (r.shift (k.signExtend w))) →
      Fits s.lo.toInt ∧ Fits s.hi.toInt ∧ ∃ r', hostEstimateMember st r m = some (some r') ∧
        r'.lo.toInt = r.lo.toInt + s.lo.toInt ∧ r'.hi.toInt = r.hi.toInt + s.hi.toInt := by
    rintro k rfl hmember
    exact ⟨hfits k, hfits k, _, hmember, toInt_add_host hw hlo (hfits k) fun heq => (h heq).1,
      toInt_add_host hw hhi (hfits k) fun heq => (h heq).2⟩
  rcases hok with ⟨k, rfl⟩ | ⟨el, rfl, ⟨k, hsize⟩ | ⟨lo, hi, hsize⟩⟩
  · exact hshift k (hest.unique (hconst k)) rfl
  · refine hshift k (hest.unique (hostEstimates_element ?_)) ?_
    · rw [hsize]
      exact hconst k
    · rw [hostEstimateMember, hsize]
  · obtain rfl : s = ⟨lo.signExtend w, hi.signExtend w⟩ := by
      refine hest.unique (hostEstimates_element ?_)
      rw [hsize]
      exact hrange lo hi
    refine ⟨hfits lo, hfits hi, r.add ⟨lo.signExtend w, hi.signExtend w⟩, ?_,
      toInt_add_host hw hlo (hfits lo) fun heq => (h heq).1,
      toInt_add_host hw hhi (hfits hi) fun heq => (h heq).2⟩
    rw [hostEstimateMember, hsize]
    refine if_neg ?_
    rw [Bool.or_eq_true, hostSumOverflows_eq_true hw hlo (hfits lo),
      hostSumOverflows_eq_true hw hhi (hfits hi)]
    rintro (⟨heq, hn⟩ | ⟨heq, hn⟩)
    · exact hn (h heq).1
    · exact hn (h heq).2

/-- Bounds that do not depend on the host, on either host. -/
theorem HostFree.boundsAre (hw : w = 32 ∨ w = 64) {lo hi : Int} (h : HostFree st e lo hi) :
    BoundsAre w st e lo hi ∧ ∀ v, e = .elsum v →
      ∃ r : Range w, hostEstimateMembers st ⟨0, 0⟩ v = some (some r) ∧ r.lo.toInt = lo ∧
        r.hi.toInt = hi := by
  have hext : ∀ k : Word, (k.signExtend w).toInt = k.toInt := toInt_signExtend_host hw
  have hzero : (0 : BitVec w).toInt = 0 := toInt_zero_word
  induction h with
  | const c => exact ⟨⟨_, .step 0 fun _ _ => rfl, hext c, hext c⟩, fun v hv => (by cases hv)⟩
  | range lo hi => exact ⟨⟨_, .step 0 fun _ _ => rfl, hext lo, hext hi⟩, fun v hv => (by cases hv)⟩
  | element _ ih =>
      obtain ⟨⟨r, hest, hlo, hhi⟩, -⟩ := ih
      exact ⟨⟨r, hostEstimates_element hest, hlo, hhi⟩, fun v hv => (by cases hv)⟩
  | name hv _ ih =>
      obtain ⟨⟨r, hest, hlo, hhi⟩, -⟩ := ih
      exact ⟨⟨r, hostEstimates_name hv hest, hlo, hhi⟩, fun v hv => (by cases hv)⟩
  | elsumNil =>
      refine ⟨⟨_, hostEstimates_elsum [] rfl, hzero, hzero⟩, fun v hv => ?_⟩
      cases hv
      exact ⟨_, rfl, hzero, hzero⟩
  | @elsumSnoc v m a b c d hv hm hok hlo hhi ihv ihm =>
      obtain ⟨r, hmembers, hra, hrb⟩ := ihv.2 v rfl
      obtain ⟨hfa, hfb⟩ := hv.fits
      obtain ⟨-, -, r', hmember, hlo', hhi'⟩ := hostEstimateMember_ok hw hok ihm.1 (hra ▸ hfa)
        (hrb ▸ hfb) fun _ => ⟨hra.symm ▸ hlo, hrb.symm ▸ hhi⟩
      have hsnoc : hostEstimateMembers st ⟨0, 0⟩ (v ++ [m]) = some (some r') := by
        rw [hostEstimateMembers_snoc, hmembers]
        exact hmember
      rw [hra] at hlo'
      rw [hrb] at hhi'
      refine ⟨⟨r', hostEstimates_elsum _ hsnoc, hlo', hhi'⟩, fun v' hv' => ?_⟩
      cases hv'
      exact ⟨r', hsnoc, hlo', hhi'⟩
  | not r =>
      refine ⟨⟨⟨0, 1⟩, .step 0 fun _ _ => rfl, hzero, ?_⟩, fun v hv => (by cases hv)⟩
      rcases hw with rfl | rfl <;> decide
  | @and l r c hmask =>
      refine ⟨⟨⟨0, c.signExtend w⟩, .step 0 fun _ _ => ?_, hzero, hext c⟩, fun v hv => (by cases hv)⟩
      rw [hostEstimate1, hostAndMask_host hw, hmask]
  | plus hl hr hlo hhi ihl ihr =>
      exact ⟨boundsAre_plus hw ihl.1 ihr.1 hl.fits.1 hl.fits.2 hr.fits.1 hr.fits.2
        fun _ => ⟨hlo, hhi⟩, fun v hv => (by cases hv)⟩
  | @minus l r a b c d hl hr hlo hhi htests ihl ihr =>
      refine ⟨?_, fun v hv => (by cases hv)⟩
      by_cases hpass : w = 32 → MinusTests a b c d
      · exact boundsAre_minus hw ihl.1 ihr.1 hl.fits.1 hl.fits.2 hr.fits.1 hr.fits.2
          fun heq => ⟨hpass heq, hlo, hhi⟩
      · -- the widest range of 32 bits, and the difference is the same
        obtain ⟨rfl, hfail⟩ := Classical.not_imp.mp hpass
        have hsame := htests (by
          rw [MinusTests, not_and_or, not_and_or, not_not] at hfail
          exact hfail)
        rw [hsame.1, hsame.2]
        exact boundsAre_minus_widest ihl.1 ihr.1 hl.fits.1 hl.fits.2 hr.fits.1 hr.fits.2 hfail

/-! ### Where the hosts agree -/

theorem BoundsAre.unique {a b c d : Int} (h : BoundsAre w st e a b) (h' : BoundsAre w st e c d) :
    a = c ∧ b = d := by
  obtain ⟨r, hest, rfl, rfl⟩ := h
  obtain ⟨s, hest', rfl, rfl⟩ := h'
  rw [hest.unique hest']
  exact ⟨rfl, rfl⟩

/-- Bounds that the hosts have in common are those of the larger one, and fit the smaller. -/
theorem SameBounds.of_boundsAre {a b : Int} (h : SameBounds st e) (h64 : BoundsAre 64 st e a b) :
    BoundsAre 32 st e a b ∧ Fits a ∧ Fits b := by
  obtain ⟨r, s, hr, hs, hlo, hhi⟩ := h
  obtain ⟨rfl, rfl⟩ := h64.unique ⟨s, hs, rfl, rfl⟩
  rw [← hlo, ← hhi]
  exact ⟨⟨r, hr, rfl, rfl⟩, fits_toInt _, fits_toInt _⟩

theorem not_sameBounds_widest (h : HostEstimates 64 st e (.widest 64)) : ¬SameBounds st e := by
  intro hsame
  have hfits := (hsame.of_boundsAre ⟨_, h, rfl, rfl⟩).2.1
  exact absurd hfits (by decide)

/-- A member that may not be in a sum stops the estimate. -/
theorem memberOk_or (st : Store) (r : Range w) (m : Expr) :
    MemberOk st m ∨ hostEstimateMember st r m = none := by
  cases m with
  | const c => exact Or.inl (Or.inl ⟨c, rfl⟩)
  | element el =>
      rcases hsize : st.size el with c | _ | _ | _ | ⟨lo, hi⟩ | _ | _
      · exact Or.inl (Or.inr ⟨el, rfl, Or.inl ⟨c, hsize⟩⟩)
      · exact Or.inr (by rw [hostEstimateMember, hsize])
      · exact Or.inr (by rw [hostEstimateMember, hsize])
      · exact Or.inr (by rw [hostEstimateMember, hsize])
      · exact Or.inl (Or.inr ⟨el, rfl, Or.inr ⟨lo, hi, hsize⟩⟩)
      · exact Or.inr (by rw [hostEstimateMember, hsize])
      · exact Or.inr (by rw [hostEstimateMember, hsize])
  | _ => exact Or.inr rfl

/-- What is directly under an expression, in its syntax or through the store. -/
inductive Under (st : Store) : Expr → Expr → Prop where
  | name {np : NameId} {v : Expr} (h : st.localVal np = some v) : Under st (.name np) v
  | size (el : ElemId) : Under st (.element el) (st.size el)
  | init (v : List Expr) (m : Expr) : Under st (.elsum (v ++ [m])) (.elsum v)
  | member (v : List Expr) (m : Expr) : Under st (.elsum (v ++ [m])) m
  | sumLeft (l r : Expr) : Under st (.binop .plus l r) l
  | sumRight (l r : Expr) : Under st (.binop .plus l r) r
  | differenceLeft (l r : Expr) : Under st (.binop .minus l r) l
  | differenceRight (l r : Expr) : Under st (.binop .minus l r) r

/-- The expression and all that is in it, as far as an estimate may depend on it. -/
def Beneath (st : Store) : Expr → Expr → Prop := Relation.ReflTransGen (Under st)

/-- A sum whose parts are the same on both hosts. -/
theorem hostFree_elsum {v : List Expr}
    (hm : ∀ m ∈ v, SameBounds st m → (∀ x, Beneath st m x → SameBounds st x) →
      ∃ lo hi, HostFree st m lo hi)
    (h : ∀ x, Beneath st (.elsum v) x → SameBounds st x) : ∃ lo hi, HostFree st (.elsum v) lo hi := by
  induction v using List.reverseRecOn with
  | nil => exact ⟨0, 0, .elsumNil⟩
  | append_singleton v m ih =>
      obtain ⟨a, b, hv⟩ := ih (fun m' hm' => hm m' (List.mem_append_left _ hm'))
        fun x hx => h x (.head (.init v m) hx)
      obtain ⟨c, d, hmem⟩ := hm m (List.mem_append_right _ (List.mem_singleton_self m))
        (h m (.head (.member v m) .refl)) fun x hx => h x (.head (.member v m) hx)
      have hw : (64 : Nat) = 32 ∨ (64 : Nat) = 64 := Or.inr rfl
      obtain ⟨r, hmembers, hlo, hhi⟩ := (hv.boundsAre hw).2 v rfl
      have hsame := h _ .refl
      rcases memberOk_or st r m with hok | hnone
      · obtain ⟨-, -, r', hmember, hlo', hhi'⟩ := hostEstimateMember_ok hw hok (hmem.boundsAre hw).1
          (hlo ▸ hv.fits.1) (hhi ▸ hv.fits.2) fun heq => absurd heq (by decide)
        have hsnoc : hostEstimateMembers st ⟨0, 0⟩ (v ++ [m]) = some (some r') := by
          rw [hostEstimateMembers_snoc, hmembers]
          exact hmember
        have hfits := (hsame.of_boundsAre ⟨r', hostEstimates_elsum _ hsnoc, hlo', hhi'⟩).2
        rw [hlo, hhi] at hfits
        exact ⟨_, _, .elsumSnoc hv hmem hok hfits.1 hfits.2⟩
      · obtain ⟨-, s, -, ⟨n, hs⟩, -⟩ := hsame
        have hstop := hs (n + 1) (Nat.le_succ n)
        rw [hostEstimate1, hostEstimateMembers_snoc, hmembers] at hstop
        simp only [hnone] at hstop
        cases hstop

theorem hostFree_of_sameBounds (hg : Grounded st e) (h : ∀ x, Beneath st e x → SameBounds st x) :
    ∃ lo hi, HostFree st e lo hi := by
  have hw : (64 : Nat) = 32 ∨ (64 : Nat) = 64 := Or.inr rfl
  have hwide : ∀ {e}, SameBounds st e → (∀ fuel, hostEstimate1 64 st (fuel + 1) e =
      some (.widest 64)) → ∃ lo hi, HostFree st e lo hi :=
    fun hsame hest => absurd hsame (not_sameBounds_widest (.step 0 fun fuel _ => hest fuel))
  induction hg with
  | const c => exact ⟨_, _, .const c⟩
  | range lo hi => exact ⟨_, _, .range lo hi⟩
  | @name np _ ih =>
      rcases hv : st.localVal np with _ | v
      · exact hwide (h _ .refl) fun fuel => by rw [hostEstimate1, hv]
      · obtain ⟨lo, hi, hfree⟩ := ih v hv fun x hx => h x (.head (.name hv) hx)
        exact ⟨lo, hi, .name hv hfree⟩
  | @element el _ ih =>
      obtain ⟨lo, hi, hfree⟩ := ih fun x hx => h x (.head (.size el) hx)
      exact ⟨lo, hi, .element hfree⟩
  | elsum _ ih => exact hostFree_elsum (fun m hm _ hparts => ih m hm hparts) h
  | @unop t r _ _ =>
      cases t with
      | neg =>
          obtain ⟨-, s, -, ⟨n, hs⟩, -⟩ := h _ .refl
          cases hs (n + 1) (Nat.le_succ n)
      | not => exact ⟨0, 1, .not r⟩
      | compl => exact hwide (h _ .refl) fun fuel => rfl
  | @binop t l r _ _ ihl ihr =>
      cases t with
      | minus =>
          obtain ⟨a, b, hl⟩ := ihl fun x hx => h x (.head (.differenceLeft l r) hx)
          obtain ⟨c, d, hr⟩ := ihr fun x hx => h x (.head (.differenceRight l r) hx)
          obtain ⟨h32, hlo, hhi⟩ := (h _ .refl).of_boundsAre (boundsAre_minus hw
            (hl.boundsAre hw).1 (hr.boundsAre hw).1 hl.fits.1 hl.fits.2 hr.fits.1 hr.fits.2
            fun heq => absurd heq (by decide))
          refine ⟨_, _, .minus hl hr hlo hhi fun hfail => ?_⟩
          refine h32.unique (boundsAre_minus_widest (hl.boundsAre (Or.inl rfl)).1
            (hr.boundsAre (Or.inl rfl)).1 hl.fits.1 hl.fits.2 hr.fits.1 hr.fits.2 ?_)
          rw [MinusTests, not_and_or, not_and_or, not_not]
          exact hfail
      | plus =>
          obtain ⟨a, b, hl⟩ := ihl fun x hx => h x (.head (.sumLeft l r) hx)
          obtain ⟨c, d, hr⟩ := ihr fun x hx => h x (.head (.sumRight l r) hx)
          obtain ⟨-, hlo, hhi⟩ := (h _ .refl).of_boundsAre (boundsAre_plus hw
            (hl.boundsAre hw).1 (hr.boundsAre hw).1 hl.fits.1 hl.fits.2 hr.fits.1 hr.fits.2
            fun heq => absurd heq (by decide))
          exact ⟨_, _, .plus hl hr hlo hhi⟩
      | and =>
          rcases hmask : andMask l r with _ | c
          · exact hwide (h _ .refl) fun fuel => by rw [hostEstimate1, hostAndMask_host hw, hmask]
          · exact ⟨_, _, .and hmask⟩
      | _ => exact hwide (h _ .refl) fun fuel => rfl

theorem HostFree.sameBounds {lo hi : Int} (h : HostFree st e lo hi) : SameBounds st e := by
  obtain ⟨r, hr, hlo, hhi⟩ := (h.boundsAre (w := 32) (Or.inl rfl)).1
  obtain ⟨s, hs, hlo', hhi'⟩ := (h.boundsAre (w := 64) (Or.inr rfl)).1
  exact ⟨r, s, hr, hs, hlo.trans hlo'.symm, hhi.trans hhi'.symm⟩

/-- What is estimated on the way does not depend on the host either. -/
theorem HostFree.call {lo hi : Int} {x : Expr} (h : HostFree st e lo hi) (hx : Under st e x) :
    ∃ lo hi, HostFree st x lo hi := by
  have hsnoc : ∀ v m, e = .elsum (v ++ [m]) →
      (∃ lo hi, HostFree st (.elsum v) lo hi) ∧ ∃ lo hi, HostFree st m lo hi := by
    intro v m heq
    cases h with
    | elsumNil => cases v <;> cases heq
    | elsumSnoc hv hm =>
        obtain ⟨rfl, hlast⟩ := List.append_inj' (Expr.elsum.inj heq) rfl
        cases hlast
        exact ⟨⟨_, _, hv⟩, _, _, hm⟩
    | _ => cases heq
  cases hx with
  | name hv =>
      cases h with
      | name hv' h =>
          obtain rfl := Option.some.inj (hv.symm.trans hv')
          exact ⟨_, _, h⟩
  | size el =>
      cases h with
      | element h => exact ⟨_, _, h⟩
  | init v m => exact (hsnoc v m rfl).1
  | member v _ => exact (hsnoc v x rfl).2
  | sumLeft l r =>
      cases h with
      | plus hl hr => exact ⟨_, _, hl⟩
  | sumRight l r =>
      cases h with
      | plus hl hr => exact ⟨_, _, hr⟩
  | differenceLeft l r =>
      cases h with
      | minus hl hr => exact ⟨_, _, hl⟩
  | differenceRight l r =>
      cases h with
      | minus hl hr => exact ⟨_, _, hr⟩

theorem HostFree.part {lo hi : Int} {x : Expr} (h : HostFree st e lo hi) (hx : Beneath st e x) :
    ∃ lo hi, HostFree st x lo hi := by
  induction hx with
  | refl => exact ⟨lo, hi, h⟩
  | tail _ hcall ih =>
      obtain ⟨lo, hi, h⟩ := ih
      exact h.call hcall

/-! ### Sizes -/

theorem cmdSize_congr {w' : Nat} (hw : 8 ≤ w) (hw' : 8 ≤ w') {v : BitVec w} {v' : BitVec w'}
    (h : v.toInt = v'.toInt) : cmdSize v = cmdSize v' := by
  apply le_antisymm
  · rw [cmdSize_le_iff hw, h, ← cmdSize_le_iff hw']
  · rw [cmdSize_le_iff hw', ← h, ← cmdSize_le_iff hw]

/-- The sizes depend on the bounds as integers. -/
theorem cmdSizes_congr {w' : Nat} (hw : 8 ≤ w) (hw' : 8 ≤ w') {r : Range w} {s : Range w'}
    (hlo : r.lo.toInt = s.lo.toInt) (hhi : r.hi.toInt = s.hi.toInt) : cmdSizes r = cmdSizes s := by
  have heq : r.lo = r.hi ↔ s.lo = s.hi := by
    rw [← BitVec.toInt_inj, hlo, hhi, BitVec.toInt_inj]
  have hle : r.lo.sle 0 = s.lo.sle 0 := by
    rw [Bool.eq_iff_iff, BitVec.sle_iff_toInt_le, BitVec.sle_iff_toInt_le, hlo, toInt_zero_word,
      toInt_zero_word]
  have hge : (0 : BitVec w).sle r.hi = (0 : BitVec w').sle s.hi := by
    rw [Bool.eq_iff_iff, BitVec.sle_iff_toInt_le, BitVec.sle_iff_toInt_le, hhi, toInt_zero_word,
      toInt_zero_word]
  simp only [cmdSizes, heq, hle, hge, cmdSize_congr hw hw' hlo, cmdSize_congr hw hw' hhi]

theorem cmdSizes_le (r : Range 32) : (cmdSizes r).2 ≤ cmdMaxlen := by
  have hlo := cmdSize_le_maxlen r.lo
  have hhi := cmdSize_le_maxlen r.hi
  have hlo' : (cmdSize r.lo : Int) ≤ cmdMaxlen := by exact_mod_cast hlo
  have hhi' : (cmdSize r.hi : Int) ≤ cmdMaxlen := by exact_mod_cast hhi
  by_cases heq : r.lo = r.hi
  · rw [cmdSizes, if_pos heq]
    exact hlo'
  · rw [cmdSizes, if_neg heq]
    show (if cmdSize r.hi < cmdSize r.lo then (cmdSize r.lo : Int) else cmdSize r.hi) ≤ cmdMaxlen
    split_ifs
    · exact hlo'
    · exact hhi'

/-- Where the bounds do not depend on the host, neither does what is computed from them. -/
theorem sameSizes_of_hostFree {lo hi : Int} (h : HostFree st e lo hi)
    (sizes : (w : Nat) → Range w → Int × Int)
    (hsizes : ∀ (r : Range 32) (s : Range 64), r.lo.toInt = s.lo.toInt → r.hi.toInt = s.hi.toInt →
      sizes 64 s = sizes 32 r ∧ (sizes 32 r).2 ≤ cmdMaxlen) :
    SameSizes fun w fuel => (hostEstimate1 w st fuel e).map (sizes w) := by
  obtain ⟨r, s, ⟨n, hr⟩, ⟨m, hs⟩, hlo, hhi⟩ := h.sameBounds
  obtain ⟨hsame, hmax⟩ := hsizes r s hlo hhi
  refine ⟨max n m, (sizes 32 r).1, (sizes 32 r).2, hmax, fun fuel hfuel => ⟨?_, ?_⟩⟩
  · show (hostEstimate1 32 st fuel e).map (sizes 32) = _
    rw [hr fuel (le_of_max_le_left hfuel)]
    rfl
  · show (hostEstimate1 64 st fuel e).map (sizes 64) = _
    rw [hs fuel (le_of_max_le_right hfuel), Option.map_some, hsame]

end

/-- **Sizes of commands on different hosts**: the bounds of an argument and of everything in it
are the same on hosts of 32 and 64 bits exactly when they come out as integers of 32 bits, and
then `emit_cmd` sizes the command alike, and within what the target can execute. -/
theorem hostSizes_alike {st : Store} {e : Expr} (hg : Grounded st e) {slot : Int}
    (hslot : slot ≤ cmdMaxlen) :
    ((∃ lo hi, HostFree st e lo hi) ↔ ∀ x, Beneath st e x → SameBounds st x) ∧
      ((∃ lo hi, HostFree st e lo hi) →
        SameSizes fun w fuel => emitCmdSizes w st fuel slot e) := by
  refine ⟨⟨?_, hostFree_of_sameBounds hg⟩, ?_⟩
  · rintro ⟨lo, hi, h⟩ x hx
    obtain ⟨lo, hi, h⟩ := h.part hx
    exact h.sameBounds
  · rintro ⟨lo, hi, h⟩
    have hsizes : ∀ (r : Range 32) (s : Range 64), r.lo.toInt = s.lo.toInt →
        r.hi.toInt = s.hi.toInt → cmdSizes s = cmdSizes r ∧ (cmdSizes r).2 ≤ cmdMaxlen :=
      fun r s hlo hhi =>
        ⟨(cmdSizes_congr (by decide) (by decide) hlo hhi).symm, cmdSizes_le r⟩
    rcases hconst : e.const? with _ | c
    · -- not a constant: the slot, or the sizes for the bounds
      have hemit : (fun w fuel => emitCmdSizes w st fuel slot e) = fun w fuel =>
          (hostEstimate1 w st fuel e).map fun r => if slot ≠ 0 then (slot, slot) else cmdSizes r := by
        funext w fuel
        rw [emitCmdSizes, hconst]
      rw [hemit]
      refine sameSizes_of_hostFree h (fun _ r => if slot ≠ 0 then (slot, slot) else cmdSizes r)
        fun r s hlo hhi => ?_
      by_cases hs : slot ≠ 0
      · rw [if_pos hs, if_pos hs]
        exact ⟨rfl, hslot⟩
      · rw [if_neg hs, if_neg hs]
        exact hsizes r s hlo hhi
    · have hsz : cmdSize (c.signExtend 64) = cmdSize (c.signExtend 32) := by
        refine cmdSize_congr (by decide) (by decide) ?_
        rw [toInt_signExtend_host (Or.inr rfl), toInt_signExtend_host (Or.inl rfl)]
      have hmax : (cmdSize (c.signExtend 32) : Int) ≤ cmdMaxlen := by
        exact_mod_cast cmdSize_le_maxlen (c.signExtend 32)
      have hemit : ∀ w fuel, emitCmdSizes w st fuel slot e =
          some (if slot = 0 then ((cmdSize (c.signExtend w) : Int), (cmdSize (c.signExtend w) : Int))
            else if cmdSize (c.signExtend w) ≤ slot then (slot, slot) else (0, 0)) :=
        fun w fuel => by rw [emitCmdSizes, hconst]
      by_cases hs : slot = 0
      · refine ⟨0, cmdSize (c.signExtend 32), cmdSize (c.signExtend 32), hmax, fun fuel _ => ?_⟩
        show emitCmdSizes 32 st fuel slot e = _ ∧ emitCmdSizes 64 st fuel slot e = _
        rw [hemit 32, hemit 64, if_pos hs, if_pos hs, hsz]
        exact ⟨rfl, rfl⟩
      · by_cases hfit : (cmdSize (c.signExtend 32) : Int) ≤ slot
        · refine ⟨0, slot, slot, hslot, fun fuel _ => ?_⟩
          show emitCmdSizes 32 st fuel slot e = _ ∧ emitCmdSizes 64 st fuel slot e = _
          rw [hemit 32, hemit 64, if_neg hs, if_neg hs, hsz, if_pos hfit]
          exact ⟨rfl, rfl⟩
        · -- a slot too narrow for the constant is an error on either host
          refine ⟨0, 0, 0, Int.natCast_nonneg cmdMaxlen, fun fuel _ => ?_⟩
          show emitCmdSizes 32 st fuel slot e = _ ∧ emitCmdSizes 64 st fuel slot e = _
          rw [hemit 32, hemit 64, if_neg hs, if_neg hs, hsz, if_neg hfit]
          exact ⟨rfl, rfl⟩

/-- `(x & 0xff) + 1` takes one to three bytes on either host. -/
theorem hostSizes_alike_mask :
    SameSizes fun w fuel => emitCmdSizes w .unknown fuel 0
      (.binop .plus (.binop .and (.name 0) (.const 0xff)) (.const 1)) := by
  have hand : HostFree .unknown (.binop .and (.name 0) (.const 0xff)) 0 (0xff : Word).toInt :=
    .and (by decide)
  refine (hostSizes_alike ?_ (by decide)).2
    ⟨_, _, .plus hand (.const 1) (by decide) (by decide)⟩
  exact .binop (.binop (.name fun v hv => (by cases hv)) (.const _)) (.const _)

/-- `-2147446819 - (x + 1)`, with `x` not known before the link: up to 8 bytes, or up to 16. -/
theorem hostSizes_unknown :
    let e : Expr := .binop .minus (.const (BitVec.ofInt 32 (-2147446819)))
      (.binop .plus (.name 0) (.const 1))
    emitCmdSizes 32 .unknown 3 0 e = some (1, 8) ∧
      emitCmdSizes 64 .unknown 3 0 e = some (1, 16) := by
  decide +kernel

end Ttools
