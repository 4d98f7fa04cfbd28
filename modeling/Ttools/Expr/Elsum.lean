import Ttools.Expr.Formed

/-!
# Differences of sums

`substract_elsums` (`shared/expr.c`): the difference of two `ELSUM`s without the elements that
they have in common.

* `occurs_keepExcess`: its loops keep, of each element, what one vector has more of than the other.
* `substractElsums_spec`: so the result denotes the difference.
* `substractElsums_difference`: it is `e1` exactly where the two have no common element, `NULL`
  exactly where they have one and the difference is 0 at all sizes, and else the two sums that are
  left over have no common element.
-/

namespace Ttools

/-- What a scan leaves of a term: the term itself, nothing (`NULL`), or something else. -/
inductive Found where
  | kept | gone | into (e : Expr)
  deriving DecidableEq, Repr

/-- What is left of `e`. -/
def Found.expr (e : Expr) : Found → Option Expr
  | .kept => some e
  | .gone => none
  | .into e => some e

/-- The first loops: `xcount` of the elements in a vector. -/
def countUp (xcount : ElemId → Int) : List Expr → ElemId → Int
  | [] => xcount
  | .element el :: v => countUp (Function.update xcount el (xcount el + 1)) v
  | _ :: v => countUp xcount v

/-- The loop that takes the elements of the other vector away again, and `intersection_found`. -/
def countDown (xcount : ElemId → Int) : List Expr → (ElemId → Int) × Bool
  | [] => (xcount, false)
  | .element el :: v =>
      let (x, found) := countDown (Function.update xcount el (xcount el - 1)) v
      (x, decide (xcount el > 0) || found)
  | _ :: v => countDown xcount v

/-- The loops that build the new sides: the elements of `v` whose `xcount` has the sign `s` are
kept while it lasts, and the constants are summed. -/
def keepExcess (s : Int) (xcount : ElemId → Int) :
    List Expr → Option ((ElemId → Int) × List Expr × Word)
  | [] => some (xcount, [], 0)
  | .element el :: v =>
      if s * xcount el > 0 then do
        let (x, new, cnst) ← keepExcess s (Function.update xcount el (xcount el - s)) v
        return (x, .element el :: new, cnst)
      else keepExcess s xcount v
  | .const c :: v => do
      let (x, new, cnst) ← keepExcess s xcount v
      return (x, new, c + cnst)
  | _ :: _ => none

/-- What is left of the two sides, as one expression or `NULL`. -/
def sides : List Expr → List Expr → Option (Option Expr)
  | [], [] => some none
  | newl, [] => some (some (.elsum newl))
  | [], newr => (exprUnop .neg (.elsum newr)).map some
  | newl, newr => (exprBinop false .minus (.elsum newl) (.elsum newr)).map some

/-- The constant is added. -/
def plusRest (newe : Option Expr) (cnst : Word) : Option Found :=
  if cnst ≠ 0 then
    match newe with
    | some newe => (exprBinop false .plus newe (.const cnst)).map .into
    | none => some (.into (.const cnst))
  else
    match newe with
    | some newe => some (.into newe)
    | none => some .gone

/-- `substract_elsums`; `none` is `abort ()`. -/
def substractElsums (v1 v2 : List Expr) : Option Found :=
  let (xcount, found) := countDown (countUp (fun _ => 0) v1) v2
  if found = false then some .kept
  else do
    let (xcount, newl, cnst) ← keepExcess 1 xcount v1
    let (_, newr, cnst') ← keepExcess (-1) xcount v2
    let newe ← sides newl newr
    plusRest newe (cnst - cnst')

/-! ### Counting -/

/-- The elements of a vector. -/
def elements (v : List Expr) : List ElemId :=
  v.filterMap fun | .element el => some el | _ => none

@[simp] theorem elements_nil : elements [] = [] := rfl

@[simp] theorem elements_cons_element (el : ElemId) (v : List Expr) :
    elements (.element el :: v) = el :: elements v := rfl

theorem elements_cons {m : Expr} (h : ∀ el, m ≠ .element el) (v : List Expr) :
    elements (m :: v) = elements v := by
  cases m <;> first | rfl | exact absurd rfl (h _)

/-- How often an element occurs. -/
def occurs (v : List Expr) (el : ElemId) : Int := (elements v).count el

theorem occurs_nonneg (v : List Expr) (el : ElemId) : 0 ≤ occurs v el := Int.natCast_nonneg _

theorem occurs_cons (n : ElemId) (v : List Expr) (el : ElemId) :
    occurs (.element n :: v) el = occurs v el + if el = n then 1 else 0 := by
  rw [occurs, elements_cons_element, List.count_cons]
  by_cases h : el = n
  · simp [h, occurs]
  · simp [h, occurs, Ne.symm h]

theorem countUp_apply (x : ElemId → Int) (v : List Expr) (el : ElemId) :
    countUp x v el = x el + occurs v el := by
  induction v generalizing x with
  | nil => simp [countUp, occurs]
  | cons m v ih =>
      cases m with
      | element n =>
          rw [countUp, ih, occurs_cons, Function.update_apply]
          split <;> simp_all [add_assoc, add_comm]
      | _ => exact ih x

theorem countDown_apply (x : ElemId → Int) (v : List Expr) (el : ElemId) :
    (countDown x v).1 el = x el - occurs v el := by
  induction v generalizing x with
  | nil => simp [countDown, occurs]
  | cons m v ih =>
      cases m with
      | element n =>
          rw [countDown, ih, occurs_cons, Function.update_apply]
          split <;> simp_all [sub_sub, add_comm]
      | _ => exact ih x

/-- What a loop keeps: of each element its excess, the rest of `xcount` being left. -/
theorem occurs_keepExcess {s : Int} (hs : s = 1 ∨ s = -1) {x y : ElemId → Int} {v new : List Expr}
    {c : Word} (h : keepExcess s x v = some (y, new, c)) (el : ElemId) :
    occurs new el = min (occurs v el) (max (s * x el) 0) ∧ y el = x el - s * occurs new el := by
  induction v generalizing x y new c with
  | nil =>
      cases h
      simp [occurs]
  | cons m v ih =>
      cases m with
      | element n =>
          have hpos := occurs_nonneg v el
          rw [keepExcess] at h
          split at h
          · obtain ⟨⟨y', new', c'⟩, hv, h⟩ := Option.bind_eq_some_iff.mp h
            cases h
            have := ih hv
            rw [Function.update_apply] at this
            simp only [occurs_cons]
            rcases hs with rfl | rfl <;> split at this <;> simp_all <;> omega
          · have := ih h
            simp only [occurs_cons]
            rcases hs with rfl | rfl <;> split <;> simp_all <;> omega
      | const d =>
          obtain ⟨⟨y', new', c'⟩, hv, h⟩ := Option.bind_eq_some_iff.mp h
          cases h
          exact ih hv
      | _ => cases h

/-- The sum of a vector that a loop accepts: its elements, and the constants. -/
theorem values_keepExcess {s : Int} {x y : ElemId → Int} {v new : List Expr}
    {c : Word} (h : keepExcess s x v = some (y, new, c)) (ρ : Valuation) :
    Expr.values ρ v = ((elements v).map ρ.size).sum + c := by
  induction v generalizing x y new c with
  | nil =>
      cases h
      simp
  | cons m v ih =>
      cases m with
      | element n =>
          have hv : ∃ x y new, keepExcess s x v = some (y, new, c) := by
            rw [keepExcess] at h
            split at h
            · obtain ⟨⟨y', new', c'⟩, hv, h⟩ := Option.bind_eq_some_iff.mp h
              cases h
              exact ⟨_, _, _, hv⟩
            · exact ⟨_, _, _, h⟩
          obtain ⟨_, _, _, hv⟩ := hv
          simp only [Expr.values_cons, Expr.value_element, ih hv, elements_cons_element,
            List.map_cons, List.sum_cons, add_assoc]
      | const d =>
          obtain ⟨⟨y', new', c'⟩, hv, h⟩ := Option.bind_eq_some_iff.mp h
          cases h
          rw [Expr.values_cons, Expr.value_const, ih hv, elements_cons (by simp)]
          ring
      | _ => cases h

/-- A loop keeps elements of the vector, and nothing else. -/
theorem mem_keepExcess {s : Int} {x y : ElemId → Int} {v new : List Expr}
    {c : Word} (h : keepExcess s x v = some (y, new, c)) {m : Expr} (hm : m ∈ new) :
    m ∈ v ∧ ∃ el, m = .element el := by
  induction v generalizing x y new c with
  | nil =>
      cases h
      cases hm
  | cons a v ih =>
      cases a with
      | element n =>
          rw [keepExcess] at h
          split at h
          · obtain ⟨⟨y', new', c'⟩, hv, h⟩ := Option.bind_eq_some_iff.mp h
            cases h
            rcases List.mem_cons.mp hm with rfl | hm
            · exact ⟨List.mem_cons_self, n, rfl⟩
            · exact ⟨List.mem_cons_of_mem _ (ih hv hm).1, (ih hv hm).2⟩
          · exact ⟨List.mem_cons_of_mem _ (ih h hm).1, (ih h hm).2⟩
      | const d =>
          obtain ⟨⟨y', new', c'⟩, hv, h⟩ := Option.bind_eq_some_iff.mp h
          cases h
          exact ⟨List.mem_cons_of_mem _ (ih hv hm).1, (ih hv hm).2⟩
      | _ => cases h

theorem values_of_elements {v : List Expr} (h : ∀ m ∈ v, ∃ el, m = .element el) (ρ : Valuation) :
    Expr.values ρ v = ((elements v).map ρ.size).sum := by
  induction v with
  | nil => simp
  | cons m v ih =>
      obtain ⟨el, rfl⟩ := h m List.mem_cons_self
      simp [ih fun x hx => h x (List.mem_cons_of_mem _ hx)]

/-- Taking away what two multisets have in common does not change the difference of their sums. -/
theorem sum_sub_sum {α β : Type} [DecidableEq α] [AddCommGroup β] (f : α → β) (s t : Multiset α) :
    (s.map f).sum - (t.map f).sum = ((s - t).map f).sum - ((t - s).map f).sum := by
  have hs : (s.map f).sum = ((s - t).map f).sum + ((s ∩ t).map f).sum := by
    rw [← Multiset.sum_add, ← Multiset.map_add, Multiset.sub_add_inter]
  have ht : (t.map f).sum = ((t - s).map f).sum + ((s ∩ t).map f).sum := by
    rw [← Multiset.sum_add, ← Multiset.map_add, Multiset.inter_comm, Multiset.sub_add_inter]
  rw [hs, ht]
  abel

/-- Vectors that keep, of each element, the excess over the other have the same difference. -/
theorem values_sub_of_excess {v1 v2 new1 new2 : List Expr} (ρ : Valuation)
    (h1 : ∀ el, occurs new1 el = max (occurs v1 el - occurs v2 el) 0)
    (h2 : ∀ el, occurs new2 el = max (occurs v2 el - occurs v1 el) 0) :
    ((elements v1).map ρ.size).sum - ((elements v2).map ρ.size).sum =
      ((elements new1).map ρ.size).sum - ((elements new2).map ρ.size).sum := by
  have e1 : (elements new1 : Multiset ElemId) = elements v1 - elements v2 := by
    ext el
    have := h1 el
    simp only [Multiset.count_sub, Multiset.coe_count, occurs] at this ⊢
    omega
  have e2 : (elements new2 : Multiset ElemId) = elements v2 - elements v1 := by
    ext el
    have := h2 el
    simp only [Multiset.count_sub, Multiset.coe_count, occurs] at this ⊢
    omega
  have hsum : ∀ l : List ElemId, (l.map ρ.size).sum = ((l : Multiset ElemId).map ρ.size).sum :=
    fun l => by rw [Multiset.map_coe, Multiset.sum_coe]
  rw [hsum, hsum, hsum, hsum, e1, e2]
  exact sum_sub_sum ρ.size _ _

/-! ### What it denotes -/

/-- What is left of `x` is `x` with the item applied, and built from the two; nothing is left
where that is 0. -/
def Found.Applied (ρ : Valuation) (op : BinTag) (x item : Expr) : Found → Prop
  | .kept => True
  | .gone => op ≠ .and ∧ act op (x.value ρ true) (item.value ρ true) = 0
  | .into e => e.value ρ true = act op (x.value ρ true) (item.value ρ true) ∧
      ∀ P, Built P false x → Built P false item → Built P false e

theorem sides_spec {newl newr : List Expr} {newe : Option Expr} (h : sides newl newr = some newe)
    (ρ : Valuation) :
    newe.elim 0 (Expr.value ρ true) = Expr.values ρ newl - Expr.values ρ newr ∧
      ∀ P e, newe = some e → Built P false (.elsum newl) → Built P false (.elsum newr) →
        Built P false e := by
  unfold sides at h
  split at h
  · cases h
    exact ⟨by simp, fun _ _ he => by cases he⟩
  · cases h
    refine ⟨by simp, fun P e he hl _ => ?_⟩
    cases he
    exact hl
  · obtain ⟨e, he, rfl⟩ := Option.map_eq_some_iff.mp h
    refine ⟨?_, fun P e' he' _ hr => ?_⟩
    · rw [Option.elim_some, Expr.value_exprUnop he]
      simp [evalUn]
    · cases he'
      exact .exprUnop hr he
  · obtain ⟨e, he, rfl⟩ := Option.map_eq_some_iff.mp h
    refine ⟨?_, fun P e' he' hl hr => ?_⟩
    · rw [Option.elim_some, Expr.value_exprBinop he]
      simp
    · cases he'
      exact .exprBinop (by decide) (by decide) hl hr he

theorem plusRest_spec {newe : Option Expr} {cnst : Word} {f : Found}
    (h : plusRest newe cnst = some f) (ρ : Valuation) :
    (f.expr (.const 0)).elim 0 (Expr.value ρ true) = newe.elim 0 (Expr.value ρ true) + cnst ∧
      f ≠ .kept ∧ ∀ P e, f = .into e → (∀ x, newe = some x → Built P false x) → Built P false e := by
  unfold plusRest at h
  split at h
  · rcases newe with _ | newe
    · cases h
      exact ⟨by simp [Found.expr], by simp, fun P e he _ => by cases he; exact .const _⟩
    · obtain ⟨e, he, rfl⟩ := Option.map_eq_some_iff.mp h
      refine ⟨?_, by simp, fun P e' he' hx => ?_⟩
      · rw [Found.expr, Option.elim_some, Expr.value_exprBinop he]
        simp
      · cases he'
        exact .exprBinop (by decide) (by decide) (hx newe rfl) (.const _) he
  · next hc =>
      rw [not_not] at hc
      rcases newe with _ | newe
      · cases h
        exact ⟨by simp [Found.expr, hc], by simp, fun P e he _ => by cases he⟩
      · cases h
        refine ⟨by simp [Found.expr, hc], by simp, fun P e he hx => ?_⟩
        cases he
        exact hx _ rfl

/-- What the loops leave of the two vectors: of each element the excess on either side, and the
constant `c` for the rest. -/
structure Excess (v1 v2 newl newr : List Expr) (c : Word) : Prop where
  left : ∀ el, occurs newl el = max (occurs v1 el - occurs v2 el) 0
  right : ∀ el, occurs newr el = max (occurs v2 el - occurs v1 el) 0
  fromLeft : ∀ m ∈ newl, m ∈ v1 ∧ ∃ el, m = .element el
  fromRight : ∀ m ∈ newr, m ∈ v2 ∧ ∃ el, m = .element el
  value : ∀ ρ : Valuation,
    Expr.values ρ newl - Expr.values ρ newr + c = Expr.values ρ v1 - Expr.values ρ v2

theorem Excess.of_loops {v1 v2 newl newr : List Expr} {x y : ElemId → Int} {cnst cnst' : Word}
    (hl : keepExcess 1 (countDown (countUp (fun _ => 0) v1) v2).1 v1 = some (x, newl, cnst))
    (hr : keepExcess (-1) x v2 = some (y, newr, cnst')) :
    Excess v1 v2 newl newr (cnst - cnst') := by
  have hcount : ∀ el,
      (countDown (countUp (fun _ => 0) v1) v2).1 el = occurs v1 el - occurs v2 el := by
    intro el
    rw [countDown_apply, countUp_apply, zero_add]
  have hel : ∀ el, occurs newl el = max (occurs v1 el - occurs v2 el) 0 ∧
      x el = min (occurs v1 el - occurs v2 el) 0 := by
    intro el
    have := occurs_keepExcess (.inl rfl) hl el
    have := occurs_nonneg v1 el
    have := occurs_nonneg v2 el
    rw [hcount] at *
    omega
  have her : ∀ el, occurs newr el = max (occurs v2 el - occurs v1 el) 0 := by
    intro el
    have := occurs_keepExcess (.inr rfl) hr el
    have := occurs_nonneg v1 el
    have := occurs_nonneg v2 el
    have := hel el
    omega
  refine ⟨fun el => (hel el).1, her, fun m => mem_keepExcess hl, fun m => mem_keepExcess hr,
    fun ρ => ?_⟩
  rw [values_of_elements fun m hm => (mem_keepExcess hl hm).2,
    values_of_elements fun m hm => (mem_keepExcess hr hm).2,
    values_keepExcess hl, values_keepExcess hr,
    ← values_sub_of_excess ρ (fun el => (hel el).1) her]
  ring

/-- `f` is built from the sums `newl` and `newr` that are left over, and a constant. -/
def Found.LeftOver (f : Found) (newl newr : List Expr) (c : Word) : Prop :=
  ∃ newe, sides newl newr = some newe ∧ plusRest newe c = some f

/-- The result is `e1` where no intersection is found, else it is built from the excess. -/
theorem substractElsums_cases {v1 v2 : List Expr} {f : Found}
    (h : substractElsums v1 v2 = some f) :
    ((countDown (countUp (fun _ => 0) v1) v2).2 = false ∧ f = .kept) ∨
    ((countDown (countUp (fun _ => 0) v1) v2).2 = true ∧
      ∃ newl newr c, Excess v1 v2 newl newr c ∧ f.LeftOver newl newr c) := by
  unfold substractElsums at h
  simp only at h
  split at h
  · next hfound =>
      cases h
      exact .inl ⟨hfound, rfl⟩
  · next hfound =>
      obtain ⟨⟨x, newl, cnst⟩, hl, h⟩ := Option.bind_eq_some_iff.mp h
      obtain ⟨⟨y, newr, cnst'⟩, hr, h⟩ := Option.bind_eq_some_iff.mp h
      obtain ⟨newe, he, h⟩ := Option.bind_eq_some_iff.mp h
      change keepExcess (-1) x v2 = some (y, newr, cnst') at hr
      exact .inr ⟨by simpa using hfound, newl, newr, _, Excess.of_loops hl hr, newe, he, h⟩

theorem Found.LeftOver.value {f : Found} {newl newr : List Expr} {c : Word}
    (h : f.LeftOver newl newr c) (ρ : Valuation) :
    f ≠ .kept ∧ (f.expr (.const 0)).elim 0 (Expr.value ρ true) =
      Expr.values ρ newl - Expr.values ρ newr + c := by
  obtain ⟨newe, he, hf⟩ := h
  obtain ⟨hrest, hkept, -⟩ := plusRest_spec hf ρ
  exact ⟨hkept, by rw [hrest, (sides_spec he ρ).1]⟩

theorem substractElsums_spec {v1 v2 : List Expr} {f : Found} (h : substractElsums v1 v2 = some f)
    (ρ : Valuation) : f.Applied ρ .minus (.elsum v1) (.elsum v2) := by
  obtain ⟨-, rfl⟩ | ⟨-, newl, newr, c, hx, hf⟩ := substractElsums_cases h
  · trivial
  have hvalue := (hf.value ρ).2
  rw [hx.value] at hvalue
  obtain ⟨newe, he, hf⟩ := hf
  obtain ⟨-, hbuilt⟩ := sides_spec he ρ
  obtain ⟨-, -, hbuilt'⟩ := plusRest_spec hf ρ
  have hsum : ∀ {P v new}, (∀ m ∈ new, m ∈ v ∧ ∃ el, m = Expr.element el) →
      Built P false (.elsum v) → Built P false (.elsum new) := by
    intro P v new hnew hv
    cases hv with
    | elsum hv => exact .elsum fun m hm => hv m (hnew m hm).1
  cases f with
  | kept => trivial
  | gone =>
      refine ⟨by decide, ?_⟩
      rw [Expr.value_elsum, Expr.value_elsum]
      exact hvalue.symm
  | into e =>
      refine ⟨?_, fun P h1 h2 => ?_⟩
      · rw [Expr.value_elsum, Expr.value_elsum]
        exact hvalue
      · exact hbuilt' P e rfl fun x hx' =>
          hbuilt P x hx' (hsum hx.fromLeft h1) (hsum hx.fromRight h2)

/-! ### Exactly when something is left -/

theorem mem_elements_iff {v : List Expr} {el : ElemId} : el ∈ elements v ↔ 0 < occurs v el := by
  rw [occurs, Int.natCast_pos, List.count_pos_iff]

/-- An intersection is found at the first occurrence of a common element, or not at all. -/
theorem countDown_found (x : ElemId → Int) (v : List Expr) :
    (countDown x v).2 = true ↔ ∃ el ∈ elements v, x el > 0 := by
  induction v generalizing x with
  | nil => simp [countDown]
  | cons m v ih =>
      cases m with
      | element n =>
          rw [countDown, elements_cons_element]
          simp only [Bool.or_eq_true, decide_eq_true_eq, ih, List.exists_mem_cons_iff]
          constructor
          · rintro (hn | ⟨el, hel, hx⟩)
            · exact .inl hn
            · by_cases h : el = n
              · subst h
                rw [Function.update_self] at hx
                exact .inl (by omega)
              · rw [Function.update_of_ne h] at hx
                exact .inr ⟨el, hel, hx⟩
          · rintro (hn | ⟨el, hel, hx⟩)
            · exact .inl hn
            · by_cases h : el = n
              · exact .inl (h ▸ hx)
              · exact .inr ⟨el, hel, by rwa [Function.update_of_ne h]⟩
      | _ => exact ih x

theorem intersection_found (v1 v2 : List Expr) :
    (countDown (countUp (fun _ => 0) v1) v2).2 = true ↔
      ¬(elements v1).Disjoint (elements v2) := by
  rw [countDown_found]
  simp only [countUp_apply, zero_add, List.Disjoint, not_forall, not_false_eq_true, exists_prop,
    gt_iff_lt, ← mem_elements_iff]
  exact ⟨fun ⟨el, h2, h1⟩ => ⟨el, h1, h2, trivial⟩, fun ⟨el, h1, h2, _⟩ => ⟨el, h2, h1⟩⟩

/-- The members are elements and constants, and `count` is an `int`. -/
structure Summands (v : List Expr) : Prop where
  members : ∀ m ∈ v, (∃ el, m = .element el) ∨ ∃ c, m = .const c
  length : v.length < 2 ^ 31

theorem keepExcess_isSome (s : Int) (x : ElemId → Int) {v : List Expr}
    (hv : ∀ m ∈ v, (∃ el, m = .element el) ∨ ∃ c, m = .const c) :
    ∃ r, keepExcess s x v = some r := by
  induction v generalizing x with
  | nil => exact ⟨_, rfl⟩
  | cons m v ih =>
      have ih := fun x => ih x fun m hm => hv m (List.mem_cons_of_mem _ hm)
      obtain ⟨el, rfl⟩ | ⟨c, rfl⟩ := hv m List.mem_cons_self
      · rw [keepExcess]
        split
        · obtain ⟨r, hr⟩ := ih (Function.update x el (x el - s))
          exact ⟨_, by rw [hr]; rfl⟩
        · exact ih x
      · obtain ⟨r, hr⟩ := ih x
        exact ⟨_, by rw [keepExcess, hr]; rfl⟩

theorem sides_isSome (newl newr : List Expr) : ∃ newe, sides newl newr = some newe := by
  unfold sides
  split
  · exact ⟨_, rfl⟩
  · exact ⟨_, rfl⟩
  · exact ⟨_, rfl⟩
  · exact ⟨_, rfl⟩

theorem plusRest_isSome (newe : Option Expr) (c : Word) : ∃ f, plusRest newe c = some f := by
  unfold plusRest
  split
  · cases newe with
    | none => exact ⟨_, rfl⟩
    | some newe =>
        obtain ⟨e, he⟩ := Option.isSome_iff_exists.mp (Expr.exprBinop_plus_isSome false newe (.const c))
        exact ⟨.into e, by simp only [he, Option.map_some]⟩
  · cases newe with
    | none => exact ⟨_, rfl⟩
    | some newe => exact ⟨_, rfl⟩

/-- `abort ()` is not called. -/
theorem substractElsums_isSome {v1 v2 : List Expr} (h1 : Summands v1) (h2 : Summands v2) :
    ∃ f, substractElsums v1 v2 = some f := by
  unfold substractElsums
  simp only
  split
  · exact ⟨_, rfl⟩
  · obtain ⟨⟨x, newl, c⟩, hl⟩ :=
      keepExcess_isSome 1 (countDown (countUp (fun _ => 0) v1) v2).1 h1.members
    obtain ⟨⟨y, newr, d⟩, hr⟩ := keepExcess_isSome (-1) x h2.members
    obtain ⟨newe, he⟩ := sides_isSome newl newr
    obtain ⟨f, hf⟩ := plusRest_isSome newe (c - d)
    refine ⟨f, ?_⟩
    rw [hl]
    simp only [Option.bind_eq_bind, Option.bind_some]
    rw [hr]
    simp only [Option.bind_some]
    rw [he]
    exact hf

/-- No element is left over on both sides. -/
theorem Excess.disjoint {v1 v2 newl newr : List Expr} {c : Word} (h : Excess v1 v2 newl newr c) :
    (elements newl).Disjoint (elements newr) := by
  intro el hl hr
  rw [mem_elements_iff, h.left] at hl
  rw [mem_elements_iff, h.right] at hr
  omega

/-- The sizes that are 1 for the one element, and 0 for the others. -/
def Valuation.indicator (el : ElemId) : Valuation where
  name _ := 0
  size n := if n = el then 1 else 0
  range _ _ := 0

theorem values_indicator {v : List Expr} (hv : ∀ m ∈ v, ∃ el, m = .element el) (el : ElemId) :
    Expr.values (.indicator el) v = BitVec.ofInt 32 (occurs v el) := by
  induction v with
  | nil => rfl
  | cons m v ih =>
      obtain ⟨n, rfl⟩ := hv m List.mem_cons_self
      rw [Expr.values_cons, ih fun m hm => hv m (List.mem_cons_of_mem _ hm), occurs_cons,
        BitVec.ofInt_add, add_comm, Expr.value_element]
      congr 1
      simp only [Valuation.indicator, eq_comm (a := n)]
      split <;> rfl

theorem occurs_le_length (v : List Expr) (el : ElemId) : occurs v el ≤ v.length := by
  have hcount := List.count_le_length (a := el) (l := elements v)
  have hlength : (elements v).length ≤ v.length := List.length_filterMap_le _ _
  rw [occurs]
  omega

theorem values_zero_size {v : List Expr} (hv : ∀ m ∈ v, ∃ el, m = .element el) :
    Expr.values ⟨fun _ => 0, fun _ => 0, fun _ _ => 0⟩ v = 0 := by
  rw [values_of_elements hv]
  simp

/-- Where the difference is 0 at all sizes nothing is left over: the sizes 0 show the constant, and
an indicator each element. -/
theorem Excess.nothing {v1 v2 newl newr : List Expr} {c : Word} (h : Excess v1 v2 newl newr c)
    (h1 : Summands v1) (h2 : Summands v2)
    (hzero : ∀ ρ : Valuation, Expr.values ρ v1 = Expr.values ρ v2) :
    newl = [] ∧ newr = [] ∧ c = 0 := by
  have hc : c = 0 := by
    have hval := h.value ⟨fun _ => 0, fun _ => 0, fun _ _ => 0⟩
    rw [values_zero_size fun m hm => (h.fromLeft m hm).2,
      values_zero_size fun m hm => (h.fromRight m hm).2, hzero] at hval
    simpa using hval
  have hocc : ∀ el, occurs newl el = 0 ∧ occurs newr el = 0 := by
    intro el
    have hval := h.value (.indicator el)
    rw [values_indicator (fun m hm => (h.fromLeft m hm).2),
      values_indicator (fun m hm => (h.fromRight m hm).2), hzero, hc, sub_self, add_zero,
      sub_eq_zero] at hval
    have hval := congrArg BitVec.toInt hval
    have hl := h.left el
    have hr := h.right el
    have := occurs_le_length v1 el
    have := occurs_le_length v2 el
    have := occurs_nonneg v1 el
    have := occurs_nonneg v2 el
    have := h1.length
    have := h2.length
    rw [BitVec.toInt_ofInt, BitVec.toInt_ofInt, Int.bmod_eq_of_le (by omega) (by omega),
      Int.bmod_eq_of_le (by omega) (by omega)] at hval
    omega
  have hnil : ∀ {new : List Expr}, (∀ m ∈ new, ∃ el, m = .element el) →
      (∀ el, occurs new el = 0) → new = [] := by
    intro new hnew hzero
    refine List.eq_nil_iff_forall_not_mem.mpr fun m hm => ?_
    obtain ⟨el, rfl⟩ := hnew m hm
    have hmem : el ∈ elements new := List.mem_filterMap.mpr ⟨_, hm, rfl⟩
    rw [mem_elements_iff, hzero] at hmem
    exact lt_irrefl 0 hmem
  exact ⟨hnil (fun m hm => (h.fromLeft m hm).2) fun el => (hocc el).1,
    hnil (fun m hm => (h.fromRight m hm).2) fun el => (hocc el).2, hc⟩

/-- `f` is the difference of the two sums. -/
structure Difference (v1 v2 : List Expr) (f : Found) : Prop where
  value : f ≠ .kept → ∀ ρ, (f.expr (.elsum v1)).elim 0 (Expr.value ρ true) =
    (Expr.elsum v1).value ρ true - (Expr.elsum v2).value ρ true
  kept : f = .kept ↔ (elements v1).Disjoint (elements v2)
  gone : f = .gone ↔ ¬(elements v1).Disjoint (elements v2) ∧
    ∀ ρ, (Expr.elsum v1).value ρ true = (Expr.elsum v2).value ρ true
  leftOver : f ≠ .kept → ∃ newl newr c, f.LeftOver newl newr c ∧
    (elements newl).Disjoint (elements newr) ∧
    (∀ el, occurs newl el = max (occurs v1 el - occurs v2 el) 0) ∧
    ∀ el, occurs newr el = max (occurs v2 el - occurs v1 el) 0

/-- **`substract_elsums` is exact**: the result denotes the difference, nothing is left exactly
where an intersection is found and the difference is 0 at all sizes, and what is left over on the
two sides is disjoint. -/
theorem substractElsums_difference {v1 v2 : List Expr} (h1 : Summands v1) (h2 : Summands v2) :
    ∃ f, substractElsums v1 v2 = some f ∧ Difference v1 v2 f := by
  obtain ⟨f, hf⟩ := substractElsums_isSome h1 h2
  refine ⟨f, hf, ?_⟩
  obtain ⟨hfound, rfl⟩ | ⟨hfound, newl, newr, c, hx, hleft⟩ := substractElsums_cases hf
  · have hdisj : (elements v1).Disjoint (elements v2) := by
      by_contra hnot
      rw [← intersection_found, hfound] at hnot
      cases hnot
    exact ⟨fun h => absurd rfl h, iff_of_true rfl hdisj,
      iff_of_false (by simp) fun h => h.1 hdisj, fun h => absurd rfl h⟩
  · rw [intersection_found] at hfound
    have hkept : f ≠ .kept := (hleft.value (.indicator 0)).1
    have hvalue : ∀ ρ, (f.expr (.elsum v1)).elim 0 (Expr.value ρ true) =
        (Expr.elsum v1).value ρ true - (Expr.elsum v2).value ρ true := by
      intro ρ
      rw [Expr.value_elsum, Expr.value_elsum, ← hx.value, ← (hleft.value ρ).2]
      cases f with
      | kept => exact absurd rfl hkept
      | gone => rfl
      | into e => rfl
    refine ⟨fun _ => hvalue, iff_of_false hkept hfound, ?_,
      fun _ => ⟨newl, newr, c, hleft, hx.disjoint, hx.left, hx.right⟩⟩
    constructor
    · rintro rfl
      refine ⟨hfound, fun ρ => sub_eq_zero.mp (hvalue ρ).symm⟩
    · rintro ⟨-, hzero⟩
      obtain ⟨rfl, rfl, rfl⟩ := hx.nothing h1 h2 fun ρ => by simpa using hzero ρ
      obtain ⟨newe, he, hf⟩ := hleft
      cases he
      cases hf
      rfl

theorem substractElsums_difference_overlap :
    ∃ f, substractElsums [.element 1, .element 1, .const 5] [.const 5, .element 2, .element 1] =
        some f ∧
      Difference [.element 1, .element 1, .const 5] [.const 5, .element 2, .element 1] f :=
  substractElsums_difference ⟨by simp, by simp⟩ ⟨by simp, by simp⟩

/-- Two sums of constants have no common element, whatever their difference. -/
theorem substractElsums_constants_kept :
    ¬∀ f, substractElsums [.const 1, .const 2] [.const 3] = some f →
      (f = .gone ↔ ∀ ρ, (Expr.elsum [.const 1, .const 2]).value ρ true =
        (Expr.elsum [.const 3]).value ρ true) := by
  intro h
  have hgone := (h .kept rfl).mpr fun ρ => by
    simp only [Expr.value_elsum, Expr.values_cons, Expr.value_const, Expr.values_nil]
    decide
  cases hgone

end Ttools
