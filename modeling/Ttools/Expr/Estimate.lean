import Ttools.Expr.Store

/-!
# Estimates

`expr_estimate` (`shared/expr.c`): bounds on the value an expression will have once the names and
the sizes in it are known.

* `Slip`: the branches of `expr_estimate1` that give wrong bounds.  `MINUS` tests the sums of the
  ends for overflow, but forms their differences; the mask -1 counts as a mask of low bits;
  `ELSUM` adds a constant size without a test; `NEG` and a size that is neither a constant nor a
  range reach `abort ()`.
* `exprEstimate_sound_iff`: the estimates of an expression and of everything that is estimated for
  it are sound exactly when none of them takes such a branch.

The recursion through the values of names and the sizes of elements is not structural; the fuel
bounds it, and is enough where there is no cycle.
-/

namespace Ttools

/-- `EXPR_CONST_MIN`. -/
def exprConstMin : Word := BitVec.intMin 32

/-- `EXPR_CONST_MAX`. -/
def exprConstMax : Word := BitVec.intMax 32

/-- `expr_range (EXPR_CONST_MIN, EXPR_CONST_MAX)`. -/
def widest : Bounds := ⟨exprConstMin, exprConstMax⟩

/-- `sum_overflows`. -/
def sumOverflows (a b : Word) : Bool :=
  ((0 : Word).slt a && (0 : Word).slt b && (a + b).slt 0) ||
    (a.slt 0 && b.slt 0 && (0 : Word).sle (a + b))

/-- One round of the loop of `expr_estimate_elsum`: the new `lo` and `hi`, `some none` for "can't
tell", `none` for `abort ()`. -/
def estimateMember (st : Store) (r : Bounds) : Expr → Option (Option Bounds)
  | .element el =>
      match st.size el with
      | .range lo hi =>
          if sumOverflows r.lo lo || sumOverflows r.hi hi then some none
          else some (some (r.add ⟨lo, hi⟩))
      | .const c => some (some (r.shift c))
      | _ => none
  | .const c => some (some (r.shift c))
  | _ => none

/-- The loop of `expr_estimate_elsum`. -/
def estimateMembers (st : Store) : Bounds → List Expr → Option (Option Bounds)
  | r, [] => some (some r)
  | r, m :: v =>
      match estimateMember st r m with
      | some (some r) => estimateMembers st r v
      | stop => stop

/-- `expr_estimate_elsum`. -/
def exprEstimateElsum (st : Store) (v : List Expr) : Option Bounds :=
  (estimateMembers st ⟨0, 0⟩ v).map (·.getD widest)

/-- The operand that `EXPR_AND` takes for a mask of low bits. -/
def andMask (l r : Expr) : Option Word :=
  match r.const?.filter fun c => c &&& (c + 1) == 0 with
  | some c => some c
  | none => l.const?.filter fun c => c &&& (c + 1) == 0

/-- `expr_estimate1`; `none` is `abort ()`, or a lack of fuel. -/
def exprEstimate1 (st : Store) : Nat → Expr → Option Bounds
  | 0, _ => none
  | fuel + 1, e =>
      match e with
      | .const c => some ⟨c, c⟩
      | .range lo hi => some ⟨lo, hi⟩
      | .element el => exprEstimate1 st fuel (st.size el)
      | .elsum v => exprEstimateElsum st v
      | .name np =>
          match st.localVal np with
          | none => some widest
          | some v => exprEstimate1 st fuel v
      | .unop .neg _ => none
      | .unop .not _ => some ⟨0, 1⟩
      | .unop .compl _ => some widest
      | .binop .minus l r => do
          let temp ← exprEstimate1 st fuel r
          if temp.lo = exprConstMin then some widest
          else
            let uemp ← exprEstimate1 st fuel l
            if sumOverflows uemp.lo temp.lo || sumOverflows uemp.hi temp.hi then some widest
            else some (uemp.sub temp)
      | .binop .plus l r => do
          let temp ← exprEstimate1 st fuel r
          let uemp ← exprEstimate1 st fuel l
          if sumOverflows uemp.lo temp.lo || sumOverflows uemp.hi temp.hi then some widest
          else some (uemp.add temp)
      | .binop .and l r =>
          match andMask l r with
          | some c => some ⟨0, c⟩
          | none => some widest
      | .binop _ _ _ => some widest

/-- `expr_estimate`. -/
def exprEstimate (st : Store) (fuel : Nat) (e : Expr) : Option Expr :=
  (exprEstimate1 st fuel e).map fun temp =>
    if temp.lo = temp.hi then .const temp.lo else .range temp.lo temp.hi

/-! ### The claims the code makes -/

/-- What `expr_estimate` promises: bounds, in order, on the value of the expression under every
valuation that agrees with the store. -/
def EstimateSound (st : Store) (e : Expr) : Prop :=
  ∃ fuel lo hi, exprEstimate st fuel e = some (if lo = hi then .const lo else .range lo hi) ∧
    (⟨lo, hi⟩ : Bounds).Ordered ∧
    ∀ ρ, st.Models ρ → e.value ρ true ∈ (⟨lo, hi⟩ : Bounds)

/-- The result of `expr_estimate1`, whatever the fuel. -/
def Estimates (st : Store) (e : Expr) (r : Bounds) : Prop :=
  ∃ fuel, exprEstimate1 st fuel e = some r

/-- What is estimated in order to estimate an expression; the initial parts of a sum and the
members that the loop gets to are counted in. -/
inductive Calls (st : Store) : Expr → Expr → Prop where
  | name {np : NameId} {v : Expr} (h : st.localVal np = some v) : Calls st (.name np) v
  | size (el : ElemId) : Calls st (.element el) (st.size el)
  | init (v : List Expr) (m : Expr) : Calls st (.elsum (v ++ [m])) (.elsum v)
  | member {v : List Expr} (m : Expr) {r : Bounds}
      (hv : estimateMembers st ⟨0, 0⟩ v = some (some r)) : Calls st (.elsum (v ++ [m])) m
  | plusLeft (l r : Expr) : Calls st (.binop .plus l r) l
  | plusRight (l r : Expr) : Calls st (.binop .plus l r) r
  /-- The left operand is not looked at where the right one can be the least number. -/
  | minusLeft (l : Expr) {r : Expr} {temp : Bounds} (hr : Estimates st r temp)
      (hmin : temp.lo ≠ exprConstMin) : Calls st (.binop .minus l r) l
  | minusRight (l r : Expr) : Calls st (.binop .minus l r) r

/-- The expression and all that is estimated for it. -/
def Part (st : Store) : Expr → Expr → Prop := Relation.ReflTransGen (Calls st)

/-- The branches that give wrong bounds, or none. -/
inductive Slip (st : Store) : Expr → Prop where
  | range {lo hi : Word} (h : ¬(⟨lo, hi⟩ : Bounds).Ordered) : Slip st (.range lo hi)
  | neg (r : Expr) : Slip st (.unop .neg r)
  /-- The tests are passed, and one of the differences overflows. -/
  | minus {l r : Expr} {uemp temp : Bounds} (hl : Estimates st l uemp) (hr : Estimates st r temp)
      (hmin : temp.lo ≠ exprConstMin) (hlo : sumOverflows uemp.lo temp.lo = false)
      (hhi : sumOverflows uemp.hi temp.hi = false)
      (h : uemp.lo.ssubOverflow temp.hi ≠ uemp.hi.ssubOverflow temp.lo) :
      Slip st (.binop .minus l r)
  /-- The mask is -1, and the bounds are 0 and -1. -/
  | and {l r : Expr} (h : andMask l r = some (-1)) : Slip st (.binop .and l r)
  /-- One end overflows as a constant is added. -/
  | member {v : List Expr} {m : Expr} {r : Bounds} {c : Word}
      (hv : estimateMembers st ⟨0, 0⟩ v = some (some r))
      (hm : estimateMember st r m = some (some (r.shift c)))
      (h : r.lo.saddOverflow c ≠ r.hi.saddOverflow c) (hc : m = .const c ∨
        ∃ el, m = .element el ∧ st.size el = .const c) : Slip st (.elsum (v ++ [m]))
  | abort {v : List Expr} {m : Expr} {r : Bounds}
      (hv : estimateMembers st ⟨0, 0⟩ v = some (some r)) (hm : estimateMember st r m = none) :
      Slip st (.elsum (v ++ [m]))

/-! ### Fuel -/

variable {st : Store}

theorem exprEstimate1_mono {fuel : Nat} : ∀ {e : Expr} {r : Bounds},
    exprEstimate1 st fuel e = some r → exprEstimate1 st (fuel + 1) e = some r := by
  induction fuel with
  | zero => intro e r h; cases h
  | succ fuel ih =>
      intro e r h
      cases e with
      | element el => exact ih h
      | name np =>
          rw [exprEstimate1] at h ⊢
          rcases hv : st.localVal np with _ | v
          · rw [hv] at h
            exact h
          · rw [hv] at h
            exact ih h
      | binop t a b =>
          cases t with
          | minus =>
              obtain ⟨temp, hb, h⟩ := Option.bind_eq_some_iff.mp h
              rw [exprEstimate1, ih hb]
              show (if _ then _ else _) = _
              split
              · next hmin =>
                  rw [if_pos hmin] at h
                  exact h
              · next hmin =>
                  rw [if_neg hmin] at h
                  obtain ⟨uemp, ha, h⟩ := Option.bind_eq_some_iff.mp h
                  rw [ih ha]
                  exact h
          | plus =>
              obtain ⟨temp, hb, h⟩ := Option.bind_eq_some_iff.mp h
              obtain ⟨uemp, ha, h⟩ := Option.bind_eq_some_iff.mp h
              rw [exprEstimate1, ih hb, ih ha]
              exact h
          | _ => exact h
      | unop t a => cases t <;> exact h
      | _ => exact h

theorem exprEstimate1_le {fuel fuel' : Nat} (hf : fuel ≤ fuel') {e : Expr} {r : Bounds}
    (h : exprEstimate1 st fuel e = some r) : exprEstimate1 st fuel' e = some r := by
  induction hf with
  | refl => exact h
  | step _ ih => exact exprEstimate1_mono ih

/-- The fuel does not matter to the result. -/
theorem Estimates.unique {e : Expr} {r r' : Bounds} (h : Estimates st e r)
    (h' : Estimates st e r') : r = r' := by
  obtain ⟨fuel, h⟩ := h
  obtain ⟨fuel', h'⟩ := h'
  have h := exprEstimate1_le (le_max_left fuel fuel') h
  rw [exprEstimate1_le (le_max_right fuel fuel') h'] at h
  exact (Option.some.inj h).symm

/-! ### The cases of `expr_estimate1` -/

theorem estimates_element {el : ElemId} {r : Bounds} :
    Estimates st (.element el) r ↔ Estimates st (st.size el) r := by
  constructor
  · rintro ⟨_ | fuel, h⟩
    · cases h
    · exact ⟨fuel, h⟩
  · rintro ⟨fuel, h⟩
    exact ⟨fuel + 1, h⟩

theorem estimates_name {np : NameId} {v : Expr} (hv : st.localVal np = some v) {r : Bounds} :
    Estimates st (.name np) r ↔ Estimates st v r := by
  constructor
  · rintro ⟨_ | fuel, h⟩
    · cases h
    · rw [exprEstimate1, hv] at h
      exact ⟨fuel, h⟩
  · rintro ⟨fuel, h⟩
    exact ⟨fuel + 1, by rw [exprEstimate1, hv]; exact h⟩

theorem estimates_elsum {v : List Expr} {r : Bounds} :
    Estimates st (.elsum v) r ↔ exprEstimateElsum st v = some r := by
  constructor
  · rintro ⟨_ | fuel, h⟩
    · cases h
    · exact h
  · exact fun h => ⟨1, h⟩

theorem estimates_minus_min {l r : Expr} {temp : Bounds} (hr : Estimates st r temp)
    (hmin : temp.lo = exprConstMin) : Estimates st (.binop .minus l r) widest := by
  obtain ⟨f, hr⟩ := hr
  refine ⟨f + 1, ?_⟩
  rw [exprEstimate1, hr]
  exact if_pos hmin

theorem estimates_minus {l r : Expr} {uemp temp : Bounds} (hl : Estimates st l uemp)
    (hr : Estimates st r temp) :
    Estimates st (.binop .minus l r)
      (if temp.lo = exprConstMin then widest
        else if sumOverflows uemp.lo temp.lo || sumOverflows uemp.hi temp.hi then widest
        else uemp.sub temp) := by
  obtain ⟨f, hl⟩ := hl
  obtain ⟨g, hr⟩ := hr
  refine ⟨max f g + 1, ?_⟩
  rw [exprEstimate1, exprEstimate1_le (le_max_right f g) hr]
  show (if _ then _ else _) = _
  rw [exprEstimate1_le (le_max_left f g) hl]
  show (if _ then _ else if _ then _ else _) = _
  split
  · rfl
  · split <;> rfl

theorem estimates_plus {l r : Expr} {uemp temp : Bounds} (hl : Estimates st l uemp)
    (hr : Estimates st r temp) :
    Estimates st (.binop .plus l r)
      (if sumOverflows uemp.lo temp.lo || sumOverflows uemp.hi temp.hi then widest
        else uemp.add temp) := by
  obtain ⟨f, hl⟩ := hl
  obtain ⟨g, hr⟩ := hr
  refine ⟨max f g + 1, ?_⟩
  rw [exprEstimate1, exprEstimate1_le (le_max_right f g) hr, exprEstimate1_le (le_max_left f g) hl]
  show (if _ then _ else _) = _
  split <;> rfl

/-! ### Bounds -/

open Support (Wraps saddOverflow_iff toInt_add_modEq toInt_of_modEq toInt_window)

/-- The test for overflow is right about sums. -/
theorem sumOverflows_eq (a b : Word) : sumOverflows a b = a.saddOverflow b := by
  have ha := toInt_window a
  have hb := toInt_window b
  have hab := toInt_of_modEq (toInt_add_modEq a b) ⟨by omega, by omega⟩
  rw [Bool.eq_iff_iff, saddOverflow_iff]
  simp only [sumOverflows, Bool.or_eq_true, Bool.and_eq_true, BitVec.slt_iff_toInt_lt,
    BitVec.sle_iff_toInt_le, BitVec.ofNat_eq_ofNat, BitVec.toInt_zero]
  unfold Wraps at *
  omega

theorem mem_widest (v : Word) : v ∈ widest := by
  have hv := toInt_window v
  have hlo : widest.lo.toInt = -2 ^ 31 := by decide
  have hhi : widest.hi.toInt = 2 ^ 31 - 1 := by decide
  rw [Support.Range.mem_def, hlo, hhi]
  omega

theorem widest_ordered : widest.Ordered := .of_mem (mem_widest 0)

/-- Ranges whose ends pass the test for overflow are, together, less than a period wide. -/
theorem width_of_not_overflow {r s : Bounds} (hlo : sumOverflows r.lo s.lo = false)
    (hhi : sumOverflows r.hi s.hi = false) :
    r.hi.toInt + s.hi.toInt - (r.lo.toInt + s.lo.toInt) < 2 ^ 32 := by
  rw [sumOverflows_eq, ← Bool.not_eq_true, saddOverflow_iff] at hlo hhi
  unfold Wraps at hlo hhi
  omega

/-- A word without a bit outside a mask of low bits other than -1 lies between 0 and the mask. -/
theorem and_mask_mem {x c : Word} (hc : (c &&& (c + 1) == 0) = true) (h1 : c ≠ -1) :
    x &&& c ∈ (⟨0, c⟩ : Bounds) := by
  have hc : c &&& (c + 1) = 0 := by simpa using hc
  have hpos : c.msb = false := by
    by_contra hmsb
    rw [Bool.not_eq_false] at hmsb
    have hneg : c.toInt < 0 := by simpa [BitVec.msb_eq_toInt] using hmsb
    have hne : c.toInt ≠ -1 := fun h => h1 (BitVec.eq_of_toInt_eq (by rw [h]; decide))
    have hwin := toInt_window c
    have hsucc : (c + 1).toInt = c.toInt + 1 := by
      have := toInt_of_modEq (toInt_add_modEq c 1) ⟨by simp; omega, by simp; omega⟩
      exact this.1 (not_not.mpr ⟨by simp; omega, by simp; omega⟩)
    have hmsb' : (c + 1).msb = true := by
      rw [BitVec.msb_eq_toInt, hsucc, decide_eq_true_iff]
      omega
    have := congrArg BitVec.msb hc
    rw [BitVec.msb_and, hmsb, hmsb'] at this
    exact absurd this (by decide)
  have hx : (x &&& c).msb = false := by rw [BitVec.msb_and, hpos, Bool.and_false]
  have hle : (x &&& c).toNat ≤ c.toNat := by
    rw [BitVec.toNat_and]
    exact Nat.and_le_right
  rw [Support.Range.mem_def]
  rw [BitVec.toInt_eq_toNat_of_msb hx, BitVec.toInt_eq_toNat_of_msb hpos]
  exact ⟨by simp, by exact_mod_cast hle⟩

theorem estimateSound_iff {e : Expr} : EstimateSound st e ↔
    ∃ r, Estimates st e r ∧ r.Ordered ∧ ∀ ρ, st.Models ρ → e.value ρ true ∈ r := by
  constructor
  · rintro ⟨fuel, lo, hi, h, hord, hmem⟩
    obtain ⟨⟨lo', hi'⟩, hest, heq⟩ := Option.map_eq_some_iff.mp h
    obtain ⟨rfl, rfl⟩ : lo' = lo ∧ hi' = hi := by
      simp only at heq
      split at heq <;> split at heq <;> simp_all
    exact ⟨_, ⟨fuel, hest⟩, hord, hmem⟩
  · rintro ⟨⟨lo, hi⟩, ⟨fuel, hest⟩, hord, hmem⟩
    exact ⟨fuel, lo, hi, by rw [exprEstimate, hest]; rfl, hord, hmem⟩

/-- Two sound estimates are one. -/
theorem EstimateSound.of_estimates {e : Expr} {r : Bounds} (h : EstimateSound st e)
    (hr : Estimates st e r) : r.Ordered ∧ ∀ ρ, st.Models ρ → e.value ρ true ∈ r := by
  obtain ⟨r', hr', hord, hmem⟩ := estimateSound_iff.mp h
  rw [hr.unique hr']
  exact ⟨hord, hmem⟩

/-! ### Sums of elements -/

theorem estimateMembers_snoc (r : Bounds) (v : List Expr) (m : Expr) :
    estimateMembers st r (v ++ [m]) =
      match estimateMembers st r v with
      | some (some r) => estimateMember st r m
      | stop => stop := by
  induction v generalizing r with
  | nil =>
      simp only [List.nil_append, estimateMembers]
      rcases estimateMember st r m with _ | _ | r <;> rfl
  | cons a v ih =>
      simp only [List.cons_append, estimateMembers]
      rcases estimateMember st r a with _ | _ | r
      · rfl
      · rfl
      · exact ih r

/-- What adding a member to a sum can do. -/
theorem estimateMember_cases (st : Store) (r : Bounds) (m : Expr) :
    (estimateMember st r m = none) ∨
    (∃ c, (m = .const c ∨ ∃ el, m = .element el ∧ st.size el = .const c) ∧
      estimateMember st r m = some (some (r.shift c))) ∨
    ∃ el lo hi, m = .element el ∧ st.size el = .range lo hi ∧
      estimateMember st r m =
        if sumOverflows r.lo lo || sumOverflows r.hi hi then some none
        else some (some (r.add ⟨lo, hi⟩)) := by
  cases m with
  | const c => exact .inr (.inl ⟨c, .inl rfl, rfl⟩)
  | element el =>
      rcases h : st.size el with c | np | _ | _ | ⟨lo, hi⟩ | el' | v
      case const => exact .inr (.inl ⟨c, .inr ⟨el, rfl, h⟩, by rw [estimateMember, h]⟩)
      case range => exact .inr (.inr ⟨el, lo, hi, rfl, h, by rw [estimateMember, h]⟩)
      all_goals exact .inl (by rw [estimateMember, h])
  | _ => exact .inl rfl

/-- The running bounds of a sum are sound, or the loop has given up. -/
def MembersSound (st : Store) (v : List Expr) : Prop :=
  estimateMembers st ⟨0, 0⟩ v = some none ∨
    ∃ r, estimateMembers st ⟨0, 0⟩ v = some (some r) ∧ r.Ordered ∧
      ∀ ρ, st.Models ρ → Expr.values ρ v ∈ r

theorem values_snoc (ρ : Valuation) (v : List Expr) (m : Expr) :
    Expr.values ρ (v ++ [m]) = Expr.values ρ v + m.value ρ true := by
  simp

/-- A constant member, or one of constant size. -/
theorem value_const_member {ρ : Valuation} (hρ : st.Models ρ) {m : Expr} {c : Word}
    (h : m = .const c ∨ ∃ el, m = .element el ∧ st.size el = .const c) : m.value ρ true = c := by
  rcases h with rfl | ⟨el, rfl, hs⟩
  · exact Expr.value_const ρ true c
  · have := hρ.size el
    rw [hs] at this
    rw [Expr.value_element]
    exact this.trans (Expr.value_const ρ true c)

/-- Adding a member keeps the running bounds sound unless it slips. -/
theorem membersSound_snoc {v : List Expr} {m : Expr} (hv : MembersSound st v)
    (hm : ∀ r lo hi el, estimateMembers st ⟨0, 0⟩ v = some (some r) → m = .element el →
      st.size el = .range lo hi → (⟨lo, hi⟩ : Bounds).Ordered)
    (hslip : ¬Slip st (.elsum (v ++ [m]))) : MembersSound st (v ++ [m]) := by
  rcases hv with hv | ⟨r, hv, hord, hmem⟩
  · exact .inl (by rw [estimateMembers_snoc, hv])
  · rw [MembersSound, estimateMembers_snoc, hv]
    rcases estimateMember_cases st r m with h | ⟨c, hc, h⟩ | ⟨el, lo, hi, rfl, hs, h⟩
    · exact absurd (.abort hv h) hslip
    · have hwrap : r.lo.saddOverflow c = r.hi.saddOverflow c := by
        by_contra hne
        exact hslip (.member hv h hne hc)
      have hord' := (Support.Range.shift_ordered_iff hord c).mpr hwrap
      refine .inr ⟨r.shift c, h, hord', fun ρ hρ => ?_⟩
      rw [values_snoc, value_const_member hρ hc]
      exact Support.Range.shift_mem hord' (hmem ρ hρ)
    · by_cases hov : (sumOverflows r.lo lo || sumOverflows r.hi hi) = true
      · rw [if_pos hov] at h
        exact .inl h
      · rw [if_neg hov] at h
        rw [Bool.not_eq_true, Bool.or_eq_false_iff, sumOverflows_eq, sumOverflows_eq] at hov
        refine .inr ⟨r.add ⟨lo, hi⟩, h,
          Support.Range.add_ordered hov.1 hov.2 hord (hm r lo hi el hv rfl hs), fun ρ hρ => ?_⟩
        have hel := hρ.size el
        rw [hs] at hel
        rw [values_snoc, Expr.value_element]
        exact Support.Range.add_mem hov.1 hov.2 (hmem ρ hρ) hel

theorem estimateSound_elsum {v : List Expr} (h : MembersSound st v) :
    EstimateSound st (.elsum v) := by
  rw [estimateSound_iff]
  rcases h with h | ⟨r, h, hord, hmem⟩
  · refine ⟨widest, estimates_elsum.mpr ?_, widest_ordered, fun ρ _ => mem_widest _⟩
    rw [exprEstimateElsum, h]
    rfl
  · refine ⟨r, estimates_elsum.mpr ?_, hord, fun ρ hρ => ?_⟩
    · rw [exprEstimateElsum, h]
      rfl
    · rw [Expr.value_elsum]
      exact hmem ρ hρ

/-- The sums whose initial parts do not slip, over elements whose ranges are in order. -/
theorem membersSound_of_part {e : Expr} {v : List Expr}
    (h : ∀ x, Part st e x → ¬Slip st x) (hv : Part st e (.elsum v)) : MembersSound st v := by
  induction v using List.reverseRecOn with
  | nil => exact .inr ⟨⟨0, 0⟩, rfl, le_rfl, fun ρ _ => by simpa using ⟨le_rfl, le_rfl⟩⟩
  | append_singleton v m ih =>
      refine membersSound_snoc (ih (hv.tail (.init v m))) ?_ (h _ hv)
      rintro r lo hi el hr rfl hs
      by_contra hne
      have hsize := (hv.tail (.member _ hr)).tail (.size el)
      rw [hs] at hsize
      exact h _ hsize (.range hne)

/-! ### Soundness -/

theorem andMask_eq_some {l r : Expr} {c : Word} (h : andMask l r = some c) :
    (c &&& (c + 1) == 0) = true ∧ (r = .const c ∨ l = .const c) := by
  unfold andMask at h
  split at h
  · next hr =>
      cases h
      obtain ⟨hc, hmask⟩ := Option.filter_eq_some_iff.mp hr
      exact ⟨hmask, .inl (Expr.const?_eq_some.mp hc)⟩
  · obtain ⟨hc, hmask⟩ := Option.filter_eq_some_iff.mp h
    exact ⟨hmask, .inr (Expr.const?_eq_some.mp hc)⟩

/-- What is estimated for an expression without cycles is without cycles. -/
theorem Grounded.calls {e x : Expr} (hg : Grounded st e) (h : Calls st e x) : Grounded st x := by
  cases h with
  | name hv =>
      cases hg with
      | name hn => exact hn _ hv
  | size el =>
      cases hg with
      | element hs => exact hs
  | init v m =>
      cases hg with
      | elsum hm => exact .elsum fun a ha => hm a (List.mem_append_left _ ha)
  | member m hv =>
      cases hg with
      | elsum hm => exact hm _ (List.mem_append_right _ List.mem_cons_self)
  | plusLeft l r =>
      cases hg with
      | binop hl _ => exact hl
  | minusLeft l hr hmin =>
      cases hg with
      | binop hl _ => exact hl
  | plusRight l r | minusRight l r =>
      cases hg with
      | binop _ hr => exact hr

theorem Grounded.part {e x : Expr} (hg : Grounded st e) (h : Part st e x) : Grounded st x := by
  induction h with
  | refl => exact hg
  | tail _ hc ih => exact ih.calls hc

/-- Where nothing slips, an estimate is sound. -/
theorem estimateSound_of_not_slip {e : Expr} (hg : Grounded st e)
    (h : ∀ x, Part st e x → ¬Slip st x) : EstimateSound st e := by
  have hwide : ∀ {e}, Estimates st e widest → EstimateSound st e := fun hest =>
    estimateSound_iff.mpr ⟨widest, hest, widest_ordered, fun ρ _ => mem_widest _⟩
  induction hg with
  | const c =>
      exact estimateSound_iff.mpr ⟨⟨c, c⟩, ⟨1, rfl⟩, le_rfl, fun ρ _ => by
        rw [Expr.value_const]
        exact ⟨le_rfl, le_rfl⟩⟩
  | range lo hi =>
      have hord : (⟨lo, hi⟩ : Bounds).Ordered := by
        by_contra hne
        exact h _ .refl (.range hne)
      exact estimateSound_iff.mpr ⟨⟨lo, hi⟩, ⟨1, rfl⟩, hord, fun ρ hρ => by
        rw [Expr.value_range]
        exact hρ.range lo hi hord⟩
  | @name np _ ih =>
      rcases hv : st.localVal np with _ | v
      · exact hwide ⟨1, by rw [exprEstimate1, hv]⟩
      · obtain ⟨r, hest, hord, hmem⟩ := estimateSound_iff.mp
          (ih v hv fun x hx => h x (.head (.name hv) hx))
        refine estimateSound_iff.mpr ⟨r, (estimates_name hv).mpr hest, hord, fun ρ hρ => ?_⟩
        rw [Expr.value_name, hρ.name np v hv]
        exact hmem ρ hρ
  | @element el _ ih =>
      obtain ⟨r, hest, hord, hmem⟩ := estimateSound_iff.mp
        (ih fun x hx => h x (.head (.size el) hx))
      refine estimateSound_iff.mpr ⟨r, estimates_element.mpr hest, hord, fun ρ hρ => ?_⟩
      rw [Expr.value_element]
      have hsize := hρ.size el
      have hval := hmem ρ hρ
      rcases hs : st.size el with c | np | _ | _ | ⟨lo, hi⟩ | el' | v
      case range =>
        rw [hs] at hsize hest
        obtain rfl : (⟨lo, hi⟩ : Bounds) = r := Estimates.unique ⟨1, rfl⟩ hest
        exact hsize
      all_goals
        rw [hs] at hsize hval
        rw [show ρ.size el = _ from hsize]
        exact hval
  | elsum hm _ => exact estimateSound_elsum (membersSound_of_part h .refl)
  | @unop t r _ _ =>
      cases t with
      | neg => exact absurd (.neg r) (h _ .refl)
      | not =>
          refine estimateSound_iff.mpr ⟨⟨0, 1⟩, ⟨1, rfl⟩, by decide, fun ρ _ => ?_⟩
          rw [Expr.value_unop]
          show ofBool _ ∈ _
          cases r.value ρ true == 0 <;> decide
      | compl => exact hwide ⟨1, rfl⟩
  | @binop t l r _ _ ihl ihr =>
      cases t with
      | minus =>
          obtain ⟨temp, hr, hro, hrm⟩ := estimateSound_iff.mp
            (ihr fun x hx => h x (.head (.minusRight l r) hx))
          by_cases hmin : temp.lo = exprConstMin
          · exact hwide (estimates_minus_min hr hmin)
          · obtain ⟨uemp, hl, hlo, hlm⟩ := estimateSound_iff.mp
              (ihl fun x hx => h x (.head (.minusLeft l hr hmin) hx))
            have hest := estimates_minus hl hr
            rw [if_neg hmin] at hest
            split at hest
            · exact hwide hest
            · next hov =>
                rw [Bool.not_eq_true, Bool.or_eq_false_iff] at hov
                have hwrap : uemp.lo.ssubOverflow temp.hi = uemp.hi.ssubOverflow temp.lo := by
                  by_contra hne
                  exact h _ .refl (.minus hl hr hmin hov.1 hov.2 hne)
                have hwidth := width_of_not_overflow hov.1 hov.2
                have hord := (Support.Range.sub_ordered_iff hlo hro hwidth).mpr hwrap
                refine estimateSound_iff.mpr ⟨_, hest, hord, fun ρ hρ => ?_⟩
                rw [Expr.value_minus]
                exact Support.Range.sub_mem hwidth hord (hlm ρ hρ) (hrm ρ hρ)
      | plus =>
          obtain ⟨uemp, hl, hlo, hlm⟩ := estimateSound_iff.mp
            (ihl fun x hx => h x (.head (.plusLeft l r) hx))
          obtain ⟨temp, hr, hro, hrm⟩ := estimateSound_iff.mp
            (ihr fun x hx => h x (.head (.plusRight l r) hx))
          have hest := estimates_plus hl hr
          split at hest
          · exact hwide hest
          · next hov =>
              rw [Bool.not_eq_true, Bool.or_eq_false_iff, sumOverflows_eq, sumOverflows_eq] at hov
              refine estimateSound_iff.mpr ⟨_, hest,
                Support.Range.add_ordered hov.1 hov.2 hlo hro, fun ρ hρ => ?_⟩
              rw [Expr.value_plus]
              exact Support.Range.add_mem hov.1 hov.2 (hlm ρ hρ) (hrm ρ hρ)
      | and =>
          rcases hmask : andMask l r with _ | c
          · exact hwide ⟨1, by rw [exprEstimate1, hmask]⟩
          · have h1 : c ≠ -1 := by
              rintro rfl
              exact h _ .refl (.and hmask)
            obtain ⟨hc, hop⟩ := andMask_eq_some hmask
            refine estimateSound_iff.mpr ⟨⟨0, c⟩, ⟨1, by rw [exprEstimate1, hmask]⟩,
              .of_mem (and_mask_mem (x := 0) hc h1), fun ρ _ => ?_⟩
            rw [Expr.value_binop rfl]
            rcases hop with rfl | rfl
            · rw [Expr.value_const]
              exact and_mask_mem hc h1
            · rw [Expr.value_const, BitVec.and_comm]
              exact and_mask_mem hc h1
      | _ => exact hwide ⟨1, rfl⟩

/-- Where something slips, an estimate is not sound. -/
theorem not_estimateSound_of_slip {e : Expr} (hs : Slip st e)
    (h : ∀ x, Calls st e x → EstimateSound st x) : ¬EstimateSound st e := by
  intro hsound
  cases hs with
  | range hne => exact hne (hsound.of_estimates ⟨1, rfl⟩).1
  | neg r =>
      obtain ⟨b, ⟨fuel, hest⟩, -⟩ := estimateSound_iff.mp hsound
      cases fuel <;> cases hest
  | @minus l r uemp temp hl hr hmin hlo hhi hne =>
      have hest := estimates_minus hl hr
      rw [if_neg hmin, if_neg (by rw [hlo, hhi]; exact Bool.false_ne_true)] at hest
      have hord := (hsound.of_estimates hest).1
      have hlo' := ((h _ (.minusLeft l hr hmin)).of_estimates hl).1
      have hro' := ((h _ (.minusRight l r)).of_estimates hr).1
      exact hne ((Support.Range.sub_ordered_iff hlo' hro' (width_of_not_overflow hlo hhi)).mp hord)
  | and hmask =>
      have hord := (hsound.of_estimates ⟨1, by rw [exprEstimate1, hmask]⟩).1
      exact absurd hord (by decide)
  | @member v m r c hv hm hne hc =>
      have hvest : Estimates st (.elsum v) r :=
        estimates_elsum.mpr (by rw [exprEstimateElsum, hv]; rfl)
      have hvord := ((h _ (.init v m)).of_estimates hvest).1
      have hest : Estimates st (.elsum (v ++ [m])) (r.shift c) := estimates_elsum.mpr (by
        rw [exprEstimateElsum, estimateMembers_snoc, hv]
        simp only [hm]
        rfl)
      exact hne ((Support.Range.shift_ordered_iff hvord c).mp (hsound.of_estimates hest).1)
  | abort hv hm =>
      obtain ⟨b, hest, -⟩ := estimateSound_iff.mp hsound
      rw [estimates_elsum, exprEstimateElsum, estimateMembers_snoc, hv] at hest
      simp only [hm] at hest
      cases hest

/-- **Estimates are sound**, those of the expression and of everything estimated for it, exactly
where none of them takes a branch that slips. -/
theorem exprEstimate_sound_iff {e : Expr} (hg : Grounded st e) :
    (∀ x, Part st e x → EstimateSound st x) ↔ ∀ x, Part st e x → ¬Slip st x := by
  constructor
  · intro h x hx hs
    exact not_estimateSound_of_slip hs (fun y hy => h y (hx.tail hy)) (h x hx)
  · intro h x hx
    exact estimateSound_of_not_slip (hg.part hx) fun y hy => h y (hx.trans hy)

/-- `(x & 15) - 3`. -/
theorem exprEstimate_sound_mask :
    EstimateSound .unknown (.binop .minus (.binop .and (.name 0) (.const 15)) (.const 3)) := by
  refine (exprEstimate_sound_iff ?_).mpr (fun x hx => ?_) _ .refl
  · exact .binop (.binop (.name fun v hv => by cases hv) (.const 15)) (.const 3)
  · rcases hx.cases_head with rfl | ⟨y, hy, hx⟩
    · rintro ⟨⟩
      next hmin hlo hhi hne hl hr =>
        obtain rfl := hl.unique ⟨1, rfl⟩
        obtain rfl := hr.unique ⟨1, rfl⟩
        exact hne (by decide)
    · cases hy with
      | minusLeft =>
          rcases hx.cases_head with rfl | ⟨z, hz, -⟩
          · rintro ⟨⟩
            next hmask => exact absurd hmask (by decide)
          · cases hz
      | minusRight =>
          rcases hx.cases_head with rfl | ⟨z, hz, -⟩
          · rintro ⟨⟩
          · cases hz

/-- `(0 - (x & 0x7fffffff)) - (y & 0x7fffffff)` is estimated to lie between 2 and 0. -/
theorem exprEstimate_minus_wraps :
    let e : Expr := .binop .minus
      (.binop .minus (.const 0) (.binop .and (.name 0) (.const 0x7fffffff)))
      (.binop .and (.name 1) (.const 0x7fffffff))
    Grounded .unknown e ∧ exprEstimate .unknown 4 e = some (.range 2 0) ∧
      ¬EstimateSound .unknown e := by
  have hname : ∀ np, Grounded .unknown (.name np) := fun np => .name fun v hv => by cases hv
  refine ⟨.binop (.binop (.const 0) (.binop (hname 0) (.const _)))
    (.binop (hname 1) (.const _)), by decide, fun h => ?_⟩
  exact absurd (h.of_estimates ⟨4, rfl⟩).1 (by decide)

end Ttools
