import Ttools.Pass.Chains

/-!
# The passes keep the bytes

`pass_canonicalize` and `pass_unroll` reduce expressions, `pass_unroll` and `pass_merge` join
neighbours that nothing refers to.

* `canonicalizeElement_settles`, `joinData_settles`, `unrollElement_settles`, `joinBlocks_settles`:
  each step keeps the bytes, if the risks of its reduction are met, and makes no reference.
* `Pass.run_settles`: so do the loops.
* `passes_keep_bytes`: the bytes of every fragment are kept, and elements that are referred to stay.
-/

namespace Ttools

open Support (Logged)
open Support.Logged (stop ofOption Settles)

/-! ### Sizes that can be estimated -/

/-- `expr_estimate` does not abort on the expression, nor go through names and elements. -/
inductive Estimable (st : Store) : Expr → Prop where
  | const (c : Word) : Estimable st (.const c)
  | range (lo hi : Word) : Estimable st (.range lo hi)
  | name {np : NameId} (h : st.localVal np = none) : Estimable st (.name np)
  | not (r : Expr) : Estimable st (.unop .not r)
  | compl (r : Expr) : Estimable st (.unop .compl r)
  | plus {l r : Expr} (hl : Estimable st l) (hr : Estimable st r) :
      Estimable st (.binop .plus l r)
  | minus {l r : Expr} (hl : Estimable st l) (hr : Estimable st r) :
      Estimable st (.binop .minus l r)
  | binop {t : BinTag} (hp : t ≠ .plus) (hm : t ≠ .minus) (l r : Expr) :
      Estimable st (.binop t l r)

section

variable {st st' : Store} {e : Expr}

theorem Estimable.follows (h : Estimable st e) (hf : st.Follows st') : Estimable st' e := by
  induction h with
  | const c => exact .const c
  | range lo hi => exact .range lo hi
  | @name np hnone =>
      refine .name ?_
      rcases hv : st'.localVal np with _ | v
      · rfl
      · obtain ⟨v, hv, -⟩ := hf.name np v hv
        rw [hnone] at hv
        cases hv
  | not r => exact .not r
  | compl r => exact .compl r
  | plus _ _ ihl ihr => exact .plus ihl ihr
  | minus _ _ ihl ihr => exact .minus ihl ihr
  | binop hp hm l r => exact .binop hp hm l r

theorem Estimable.estimates (h : Estimable st e) : ∃ r, Estimates st e r := by
  induction h with
  | const c => exact ⟨⟨c, c⟩, 1, rfl⟩
  | range lo hi => exact ⟨⟨lo, hi⟩, 1, rfl⟩
  | name hnone => exact ⟨widest, 1, by simp [exprEstimate1, hnone]⟩
  | not r => exact ⟨⟨0, 1⟩, 1, rfl⟩
  | compl r => exact ⟨widest, 1, rfl⟩
  | plus _ _ ihl ihr =>
      obtain ⟨a, ha⟩ := ihl
      obtain ⟨b, hb⟩ := ihr
      exact ⟨_, estimates_plus ha hb⟩
  | minus _ _ ihl ihr =>
      obtain ⟨a, ha⟩ := ihl
      obtain ⟨b, hb⟩ := ihr
      exact ⟨_, estimates_minus ha hb⟩
  | @binop t hp hm l r =>
      cases t with
      | plus => exact absurd rfl hp
      | minus => exact absurd rfl hm
      | and =>
          rcases hmask : andMask l r with _ | c
          · exact ⟨widest, 1, by rw [exprEstimate1, hmask]⟩
          · exact ⟨⟨0, c⟩, 1, by rw [exprEstimate1, hmask]⟩
      | _ => exact ⟨widest, 1, rfl⟩

theorem Estimable.left {l r : Expr} (h : Estimable st (.binop .plus l r)) : Estimable st l := by
  cases h with
  | plus hl _ => exact hl
  | binop hp _ _ _ => exact absurd rfl hp

theorem Estimable.exprNode {lone : Bool} {l r : Expr} (hl : Estimable st l)
    (hr : Estimable st r) : Estimable st (exprNode lone .plus l r) := by
  unfold Ttools.exprNode
  split
  · exact .plus hl.left (.const _)
  · split
    · exact .plus (.plus hl.left hr) (.const _)
    · exact .plus hl hr
  · exact .plus hl hr

theorem Estimable.exprBinop {lone : Bool} {l r : Expr} (hl : Estimable st l)
    (hr : Estimable st r) (h : exprBinop lone .plus l r = some e) : Estimable st e := by
  unfold Ttools.exprBinop at h
  split at h
  · obtain ⟨x, -, rfl⟩ := Option.map_eq_some_iff.mp h
    exact .const x
  · split at h
    · cases h
      exact hr.exprNode hl
    · cases h
      exact hl.exprNode hr

/-- An estimate is a constant or a range. -/
theorem exprEstimate_cases {fuel : Nat} {size : Expr} (h : exprEstimate st fuel e = some size) :
    (∃ c, size = .const c) ∨ ∃ lo hi, size = .range lo hi := by
  obtain ⟨r, -, rfl⟩ := Option.map_eq_some_iff.mp h
  split
  · exact .inl ⟨_, rfl⟩
  · exact .inr ⟨_, _, rfl⟩

theorem Estimable.settles {ok : Risk → Prop} (h : Estimable st e) (m : Memory) :
    Settles ok .fuel (fun fuel => (ofOption .fuel (exprEstimate st fuel e) : Reducer Expr))
      (fun _ size m' => m' = m ∧ ∃ fuel, exprEstimate st fuel e = some size) m := by
  obtain ⟨r, n, hr⟩ := h.estimates
  refine ⟨n, (.ok (if r.lo = r.hi then .const r.lo else .range r.lo r.hi, m), []),
    fun fuel hn => ?_, by rintro ⟨⟩, ?_⟩
  · show (ofOption .fuel (exprEstimate st fuel e) : Reducer Expr) m = _
    rw [exprEstimate, exprEstimate1_le hn hr]
    rfl
  · rintro _ _ ⟨⟩
    exact ⟨rfl, n, by rw [exprEstimate, hr]; rfl⟩

end

/-! ### Words and units -/

theorem toInt_one_word : (1 : Word).toInt = 1 := rfl

theorem toInt_mul_of_bounds {a b : Word} (hlo : -2 ^ 31 ≤ a.toInt * b.toInt)
    (hhi : a.toInt * b.toInt < 2 ^ 31) : (a * b).toInt = a.toInt * b.toInt := by
  rw [BitVec.toInt_mul]
  refine Int.bmod_eq_of_le ?_ ?_
  · omega
  · omega

theorem toInt_add_word {a b : Word} (hlo : -2 ^ 31 ≤ a.toInt + b.toInt)
    (hhi : a.toInt + b.toInt < 2 ^ 31) : (a + b).toInt = a.toInt + b.toInt := by
  rw [BitVec.toInt_add]
  refine Int.bmod_eq_of_le ?_ ?_
  · omega
  · omega


section

variable {width value : Word}

theorem length_unitBytes (width value : Word) :
    (unitBytes width value).length = width.toInt.toNat := by
  simp [unitBytes]

theorem length_dataBytes (width value count : Word) :
    (dataBytes width value count).length = count.toInt.toNat * width.toInt.toNat := by
  simp [dataBytes, length_unitBytes]

theorem dataBytes_add {a b : Word} (ha : 0 ≤ a.toInt) (hb : 0 ≤ b.toInt)
    (h : (a + b).toInt = a.toInt + b.toInt) :
    dataBytes width value (a + b) = dataBytes width value a ++ dataBytes width value b := by
  rw [dataBytes, h, Int.toNat_add ha hb, List.replicate_add, List.flatten_append]
  rfl

theorem bytesEqual_iff {b : Byte} {n : Nat} {word : Word} :
    bytesEqual b n word = true ↔ ∀ j < n, lowByte (word.sshiftRight (8 * (j + 1))) = b := by
  induction n generalizing word with
  | zero => simp [bytesEqual]
  | succ n ih =>
      rw [bytesEqual, Bool.and_eq_true, beq_iff_eq, ih]
      constructor
      · rintro ⟨h0, h⟩ (_ | j) hj
        · exact h0
        · rw [Nat.mul_succ, Nat.add_comm, BitVec.sshiftRight_add]
          exact h j (by omega)
      · intro h
        refine ⟨h 0 (Nat.succ_pos n), fun j hj => ?_⟩
        rw [← BitVec.sshiftRight_add, Nat.add_comm, ← Nat.mul_succ]
        exact h (j + 1) (by omega)

/-- A unit that is `byteable` has equal bytes. -/
theorem unitBytes_of_byteable (h : byteable value width = true) :
    unitBytes width value = List.replicate width.toInt.toNat (lowByte value) := by
  rw [byteable, bytesEqual_iff] at h
  refine List.eq_replicate_iff.mpr ⟨length_unitBytes width value, fun b hb => ?_⟩
  obtain ⟨j, hj, rfl⟩ := List.mem_map.mp hb
  rw [List.mem_range] at hj
  rcases j with _ | j
  · simp
  · exact h j (by omega)

theorem dataBytes_of_byteable {count temp : Word} (h : byteable value width = true)
    (htemp : temp.toInt.toNat = count.toInt.toNat * width.toInt.toNat) :
    dataBytes 1 value temp = dataBytes width value count := by
  have hone : unitBytes 1 value = [lowByte value] := by simp [unitBytes]
  rw [dataBytes, dataBytes, unitBytes_of_byteable h, hone, htemp,
    List.flatten_replicate_replicate, ← List.replicate_one, List.flatten_replicate_replicate,
    Nat.mul_one]

end

/-! ### Elements -/

/-- The expressions of an element are formed, and the size of data can be estimated. -/
structure Element.Good (st : Store) (el : Element) : Prop where
  formed : ∀ e ∈ el.exprs, e.Formed
  estimable : ∀ width value count, el.u = .data width value count → Estimable st el.size

/-- Data with a constant count has its size. -/
def Element.Exact (el : Element) : Prop :=
  ∀ width value k, el.u = .data width value (.const k) →
    ∃ c, el.size = .const c ∧ c.toInt = k.toInt * width.toInt

section

variable {st st' : Store} {ρ : Valuation} {h : Holders} {el : Element} {id : ElemId}

@[simp] theorem Element.exprs_block (size : Expr) (ptr : List Byte) :
    Element.exprs ⟨size, .block ptr⟩ = [] := rfl

@[simp] theorem Element.exprs_data (size : Expr) (width : Word) (value count : Expr) :
    Element.exprs ⟨size, .data width value count⟩ = [value, count, size] := rfl

@[simp] theorem Element.exprs_cmd (size : Expr) (opcode : Word) (arg : Expr) :
    Element.exprs ⟨size, .cmd opcode arg⟩ = [arg, size] := rfl

theorem Element.good_block (st : Store) (size : Expr) (ptr : List Byte) :
    Element.Good st ⟨size, .block ptr⟩ :=
  ⟨fun _ he => (by cases he), fun _ _ _ hu => (by cases hu)⟩

theorem Element.good_data {size : Expr} {width : Word} {value count : Expr} :
    Element.Good st ⟨size, .data width value count⟩ ↔
      (value.Formed ∧ count.Formed ∧ size.Formed) ∧ Estimable st size := by
  constructor
  · intro hg
    exact ⟨by simpa using hg.formed, hg.estimable width value count rfl⟩
  · rintro ⟨hf, hs⟩
    exact ⟨by simpa using hf, by rintro _ _ _ ⟨⟩; exact hs⟩

theorem Element.good_cmd {size : Expr} {opcode : Word} {arg : Expr} :
    Element.Good st ⟨size, .cmd opcode arg⟩ ↔ arg.Formed ∧ size.Formed := by
  constructor
  · intro hg
    simpa using hg.formed
  · intro hf
    exact ⟨by simpa using hf, by rintro _ _ _ ⟨⟩⟩

theorem Element.Good.follows (hg : el.Good st) (hf : st.Follows st') : el.Good st' :=
  ⟨hg.formed, fun width value count hu => (hg.estimable width value count hu).follows hf⟩

theorem Element.bytes_data {id : ElemId} {size value count : Expr} {width : Word} {b : List Byte} :
    Element.bytes ρ id ⟨size, .data width value count⟩ = some b ↔
      (0 < width.toInt ∧ width.toInt ≤ 4 ∧ 0 ≤ (count.value ρ true).toInt) ∧
        dataBytes width (value.value ρ true) (count.value ρ true) = b := by
  simp only [Element.bytes]
  split
  · next hcond => simp [hcond]
  · next hcond => simp [hcond]

theorem Element.bytes_block {id : ElemId} {size : Expr} {ptr b : List Byte} :
    Element.bytes ρ id ⟨size, .block ptr⟩ = some b ↔
      size = .const (BitVec.ofNat 32 ptr.length) ∧ ptr = b := by
  simp only [Element.bytes]
  split
  · next heq => simp [heq]
  · next hne => simp [hne]

/-- What `join` makes of two elements. -/
structure Joined (ρ : Valuation) (h : Holders) (st : Store) (exprs : List Expr)
    (p q : ElemId × Element) (el : Element) : Prop where
  unreferenced : h.Unreferenced st exprs p.1 ∧ h.Unreferenced st exprs q.1
  good : el.Good st
  refs : ∀ x, (∀ e ∈ p.2.exprs ++ q.2.exprs, e.refs x = 0) → ∀ e ∈ el.exprs, e.refs x = 0
  bytes : ∀ b b', p.2.bytes ρ p.1 = some b → q.2.bytes ρ q.1 = some b' →
    b.length + b'.length < 2 ^ 31 → p.2.Exact → q.2.Exact →
      el.bytes ρ p.1 = some (b ++ b') ∧ el.Exact

/-- What `settle` makes of an element. -/
structure Settled (H : Prop) (ρ : Valuation) (h : Holders) (st : Store) (el : Element)
    (st' : Store) (el' : Element) (errors : Nat) : Prop where
  follows : st.Follows st'
  kin : st.Kin st'
  size : el'.size = el.size
  good : el'.Good st'
  unreferenced : ∀ x exprs exprs', (∀ e ∈ el.exprs, e ∈ exprs) →
    (∀ e ∈ exprs', e ∈ el'.exprs ∨ e ∈ exprs) → h.Unreferenced st exprs x →
      h.Unreferenced st' exprs' x
  agrees : H → st.Formed → st.Agrees ρ → st'.Agrees ρ
  bytes : H → st.Formed → st.Agrees ρ → ∀ id b, el.bytes ρ id = some b → b.length < 2 ^ 31 →
    el.Exact → errors = 0 ∧ el'.bytes ρ id = some b ∧ el'.Exact

/-- The element is left as it is. -/
theorem Settled.refl (H : Prop) (ρ : Valuation) (hg : el.Good st) :
    Settled H ρ h st el st el 0 where
  follows := .refl st
  kin := .refl st
  size := rfl
  good := hg
  unreferenced _ _ _ hel hexprs hu :=
    hu.subset fun e he => (hexprs e he).elim (hel e) fun he => he
  agrees _ _ ha := ha
  bytes _ _ _ _ _ hb _ hx := ⟨rfl, hb, hx⟩

variable {H : Prop} {el' : Element} {n : Nat}

/-- The element is rewritten without a reduction. -/
theorem Settled.of_subset (hsize : el'.size = el.size) (hgood : el'.Good st)
    (hsub : ∀ e ∈ el'.exprs, e ∈ el.exprs)
    (hbytes : ∀ id b, el.bytes ρ id = some b → b.length < 2 ^ 31 → el.Exact →
      n = 0 ∧ el'.bytes ρ id = some b ∧ el'.Exact) : Settled H ρ h st el st el' n where
  follows := .refl st
  kin := .refl st
  size := hsize
  good := hgood
  unreferenced _ _ _ hel hexprs hu :=
    hu.subset fun e he => (hexprs e he).elim (fun he => hel e (hsub e he)) fun he => he
  agrees _ _ ha := ha
  bytes _ _ _ := hbytes

theorem Kept.imp {H H' : Prop} {ρ : Valuation} {st st' : Store} {e e' : Expr}
    (hk : Kept H ρ st e st' e') (h : H' → H) : Kept H' ρ st e st' e' :=
  ⟨hk.built, hk.follows, fun hH => hk.agrees (h hH), fun hH => hk.value (h hH)⟩

/-- The element is rewritten with an expression of it reduced. -/
theorem Settled.of_kept {e e' : Expr} (hc : h.Complete st) (hst : st.Formed)
    (hg : el.Good st) (he : e ∈ el.exprs) (hk : Kept H ρ st e st' e') (hkin : st.Kin st')
    (hsize : el'.size = el.size) (hgood : e'.Formed → el'.Good st')
    (hrefs : ∀ x, e'.refs x = 0 → (∀ y ∈ el.exprs, y.refs x = 0) → ∀ y ∈ el'.exprs, y.refs x = 0)
    (hbytes : e'.value ρ true = e.value ρ true → ∀ id b, el.bytes ρ id = some b →
      b.length < 2 ^ 31 → el.Exact → n = 0 ∧ el'.bytes ρ id = some b ∧ el'.Exact) :
    Settled H ρ h st el st' el' n where
  follows := hk.follows
  kin := hkin
  size := hsize
  good := hgood (hk.built _ false hst (hg.formed e he))
  unreferenced x exprs exprs' hel hexprs hu := by
    have hu' : h.Unreferenced st' (e' :: exprs) x :=
      hu.reduce hc hst (hg.formed e he) hk hkin (hel e he) fun y hy => List.mem_cons.mp hy
    intro y hy
    rcases List.mem_append.mp hy with hy | hy
    · exact hu' y (List.mem_append_left _ hy)
    · rcases hexprs y hy with hy | hy
      · refine hrefs x (hu' e' (List.mem_append_right _ List.mem_cons_self)) (fun z hz => ?_) y hy
        exact hu z (List.mem_append_right _ (hel z hz))
      · exact hu' y (List.mem_append_right _ (List.mem_cons_of_mem _ hy))
  agrees := hk.agrees
  bytes hH hf ha := hbytes (hk.value hH hf ha false (hg.formed e he) true)

end

/-! ### `pass_canonicalize` -/

/-- A product is a constant only if its factors are. -/
theorem exprBinop_eq_const {lone : Bool} {t : BinTag} {l r : Expr} {c : Word}
    (h : exprBinop lone t l r = some (.const c)) :
    ∃ a b, l = .const a ∧ r = .const b ∧ eval t a b = some c := by
  unfold exprBinop at h
  split at h
  · next a b ha hb =>
      obtain ⟨x, hx, hc⟩ := Option.map_eq_some_iff.mp h
      cases hc
      exact ⟨a, b, Expr.const?_eq_some.mp ha, Expr.const?_eq_some.mp hb, hx⟩
  · have hnode : ∀ l r, exprNode lone t l r ≠ .const c := by
      intro l r
      unfold exprNode
      split
      · rintro ⟨⟩
      · split <;> rintro ⟨⟩
      · rintro ⟨⟩
    split at h <;> exact absurd (Option.some.inj h) (hnode _ _)

/-- The unit bytes of a word, taken as bytes. -/
theorem Element.bytes_byteable {ρ : Valuation} {id : ElemId} {size count temp : Expr}
    {width v : Word} {value : Expr} {b : List Byte} (hv : value.value ρ true = v)
    (hbyte : byteable v width = true)
    (htemp : temp.value ρ true = count.value ρ true * width)
    (hb : Element.bytes ρ id ⟨size, .data width value count⟩ = some b) (hlen : b.length < 2 ^ 31) :
    Element.bytes ρ id ⟨size, .data 1 (.const v) temp⟩ = some b := by
  obtain ⟨⟨hw, hw4, hcount⟩, rfl⟩ := Element.bytes_data.mp hb
  rw [length_dataBytes] at hlen
  have hnonneg : 0 ≤ (count.value ρ true).toInt * width.toInt := Int.mul_nonneg hcount hw.le
  have hprod : (count.value ρ true * width).toInt =
      (count.value ρ true).toInt * width.toInt := by
    refine toInt_mul_of_bounds (by omega) ?_
    rw [← Int.toNat_of_nonneg hcount, ← Int.toNat_of_nonneg hw.le]
    exact_mod_cast hlen
  refine Element.bytes_data.mpr ⟨⟨by decide, by decide, ?_⟩, ?_⟩
  · rwa [htemp, hprod]
  · rw [Expr.value_const, hv]
    refine dataBytes_of_byteable hbyte ?_
    rw [htemp, hprod, Int.toNat_mul hcount hw.le]

theorem canonicalizeElement_settles {ρ : Valuation} {h : Holders} {m : Memory} {el : Element}
    {rank : Expr → Nat} (hrank : m.store.Ranked rank) (hst : m.store.Formed)
    (hc : h.Complete m.store) (hg : el.Good m.store) :
    Settles (Risk.Ok ρ) .fuel (fun fuel => canonicalizeElement fuel el)
      (fun H r m' => Settled H ρ h m.store el m'.store r.1 r.2) m := by
  obtain ⟨size, u⟩ := el
  cases u with
  | block ptr => exact Logged.settles_pure (.refl _ ρ hg)
  | cmd opcode arg => exact Logged.settles_pure (.refl _ ρ hg)
  | data width value count =>
      have hvalue : value ∈ Element.exprs ⟨size, .data width value count⟩ := List.mem_cons_self
      refine (exprReduce_settles ρ hrank (hg.formed value hvalue)).bind fun H v m' hv => ?_
      obtain ⟨hk, hkin⟩ := hv
      obtain ⟨⟨-, hcount, hsize⟩, hest⟩ := Element.good_data.mp hg
      -- the value is reduced, and nothing else
      have hreduced : Settled H ρ h m.store ⟨size, .data width value count⟩ m'.store
          ⟨size, .data width v count⟩ 0 := by
        refine .of_kept hc hst hg hvalue hk hkin rfl (fun hv => ?_) (fun x hx hrefs => ?_) ?_
        · exact Element.good_data.mpr ⟨⟨hv, hcount, hsize⟩, hest.follows hk.follows⟩
        · simp only [Element.exprs_data, List.forall_mem_cons] at hrefs ⊢
          exact ⟨hx, hrefs.2⟩
        · intro hval id b hb _ hx
          refine ⟨rfl, ?_, ?_⟩
          · simpa only [Element.bytes, hval] using hb
          · rintro _ _ k ⟨⟩
            exact hx width value k rfl
      rcases hconst : v.const? with _ | c
      · refine Logged.settles_pure ?_
        rwa [and_true]
      · dsimp only
        split
        · next hbyte =>
            rw [Bool.and_eq_true] at hbyte
            obtain rfl := Expr.const?_eq_some.mp hconst
            refine (Logged.settles_ofOption (Q := fun _ temp s => s = m' ∧
              exprBinop false .mul count (.const width) = some temp) (by rintro ⟨⟩)
              fun temp ht => ⟨rfl, ht⟩).bind fun H' temp s ⟨hs, htemp⟩ => ?_
            refine Logged.settles_pure ?_
            subst hs
            have hbuilt : ∀ {P : Expr → Prop}, Built P false count → Built P false temp :=
              fun hb => hb.exprBinop (by decide) (by decide) (.const width) htemp
            refine .of_kept hc hst hg hvalue (hk.imp fun h => h.1) hkin rfl (fun hv => ?_)
              (fun x hx hrefs => ?_) ?_
            · exact Element.good_data.mpr ⟨⟨hv, hbuilt hcount, hsize⟩, hest.follows hk.follows⟩
            · simp only [Element.exprs_data, List.forall_mem_cons] at hrefs ⊢
              exact ⟨hx, (hbuilt (hcount.of_refs hrefs.2.1)).refs, hrefs.2.2⟩
            · intro hval id b hb hlen hx
              refine ⟨rfl, Element.bytes_byteable hval.symm hbyte.2 ?_ hb hlen, ?_⟩
              · rw [Expr.value_exprBinop htemp, Expr.value_binop (x := count.value ρ true * width)]
                rw [Expr.value_const]
                rfl
              · rintro _ _ k ⟨⟩
                obtain ⟨a, b, rfl, hb, heval⟩ := exprBinop_eq_const htemp
                cases hb
                cases heval
                obtain ⟨c', hc', hprod⟩ := hx width value a rfl
                refine ⟨c', hc', ?_⟩
                rw [toInt_mul_of_bounds, hprod, toInt_one_word, mul_one]
                · rw [← hprod]
                  exact BitVec.le_toInt c'
                · rw [← hprod]
                  exact BitVec.toInt_lt
        · refine Logged.settles_pure ?_
          rwa [and_true]

/-! ### The loops -/

/-- What a pass makes of a chain, with `around` held elsewhere. -/
structure Passed (H : Prop) (ρ : Valuation) (h : Holders) (st : Store) (around : List Expr)
    (els : Chain) (st' : Store) (els' : Chain) (errors : Nat) : Prop where
  follows : st.Follows st'
  kin : st.Kin st'
  good : ∀ p ∈ els', p.2.Good st'
  unreferenced : ∀ x, h.Unreferenced st (around ++ els.exprs) x →
    h.Unreferenced st' (around ++ els'.exprs) x
  stays : ∀ p ∈ els, (∃ el', (p.1, el') ∈ els' ∧ el'.size = p.2.size) ∨
    h.Unreferenced st' (around ++ els'.exprs) p.1
  agrees : H → st.Formed → st.Agrees ρ → st'.Agrees ρ
  bytes : H → st.Formed → st.Agrees ρ → ∀ bs, els.bytes ρ = some bs → bs.length < 2 ^ 31 →
    (∀ p ∈ els, p.2.Exact) → errors = 0 ∧ els'.bytes ρ = some bs ∧ ∀ p ∈ els', p.2.Exact

/-- What the loops ask of a pass. -/
structure Pass.Keeps (p : Pass) (ρ : Valuation) : Prop where
  join : ∀ (h : Holders) (exprs : List Expr) (a b : ElemId × Element) (m : Memory),
    a.2.Good m.store → b.2.Good m.store →
      Settles (Risk.Ok ρ) .fuel (fun fuel => p.join h fuel exprs a b)
        (fun _ o m' => m'.store = m.store ∧
          ∀ el, o = some el → Joined ρ h m.store exprs a b el) m
  settle : ∀ (h : Holders) (threshold : Word) (el : Element) (m : Memory) (rank : Expr → Nat),
    m.store.Ranked rank → m.store.Formed → h.Complete m.store → el.Good m.store →
      Settles (Risk.Ok ρ) .fuel (fun fuel => p.settle fuel threshold el)
        (fun H r m' => Settled H ρ h m.store el m'.store r.1 r.2) m

section

variable {H H' : Prop} {ρ : Valuation} {h : Holders} {st st' st'' : Store} {around : List Expr}
  {id : ElemId} {el el' : Element} {els els' : Chain} {n n' : Nat}

theorem Chain.exprs_cons (id : ElemId) (el : Element) (els : Chain) :
    Chain.exprs ((id, el) :: els) = el.exprs ++ els.exprs := rfl

theorem Chain.bytes_cons {bs : List Byte} :
    Chain.bytes ρ ((id, el) :: els) = some bs ↔
      ∃ b, el.bytes ρ id = some b ∧ ∃ bs', els.bytes ρ = some bs' ∧ b ++ bs' = bs := by
  simp only [Chain.bytes, Option.bind_eq_bind, Option.bind_eq_some_iff, Option.some.injEq]

theorem Passed.nil (hst : st = st') : Passed H ρ h st around [] st' [] 0 := by
  subst hst
  exact ⟨.refl st, .refl st, fun _ hp => (by cases hp), fun _ hu => hu, fun _ hp => (by cases hp),
    fun _ _ ha => ha, fun _ _ _ _ hb _ hx => ⟨rfl, hb, hx⟩⟩

theorem Passed.imp (hp : Passed H ρ h st around els st' els' n) (himp : H' → H) :
    Passed H' ρ h st around els st' els' n :=
  ⟨hp.follows, hp.kin, hp.good, hp.unreferenced, hp.stays, fun hH => hp.agrees (himp hH),
    fun hH => hp.bytes (himp hH)⟩

/-- An element is settled, then the chain after it is passed. -/
theorem Settled.cons (hs : Settled H ρ h st el st' el' n)
    (hp : Passed H' ρ h st' (around ++ el'.exprs) els st'' els' n') :
    Passed (H ∧ H') ρ h st around ((id, el) :: els) st'' ((id, el') :: els') (n + n') where
  follows := hs.follows.trans hp.follows
  kin := hs.kin.trans hp.kin
  good := List.forall_mem_cons.mpr ⟨hs.good.follows hp.follows, hp.good⟩
  unreferenced x hu := by
    rw [Chain.exprs_cons, ← List.append_assoc]
    refine hp.unreferenced x (hs.unreferenced x _ _ (fun e he => ?_) (fun e he => ?_) hu)
    · exact List.mem_append_right _ (List.mem_append_left _ he)
    · simp only [List.mem_append, Chain.exprs_cons] at he ⊢
      tauto
  stays := by
    simp only [Chain.exprs_cons, ← List.append_assoc]
    refine List.forall_mem_cons.mpr ⟨.inl ⟨el', List.mem_cons_self, hs.size⟩, fun p hmem => ?_⟩
    rcases hp.stays p hmem with ⟨x, hx, hsize⟩ | hu
    · exact .inl ⟨x, List.mem_cons_of_mem _ hx, hsize⟩
    · exact .inr hu
  agrees hH hf ha := hp.agrees hH.2 (hs.follows.closed hf) (hs.agrees hH.1 hf ha)
  bytes hH hf ha bs hbs hlen hx := by
    obtain ⟨b, hb, bs', hbs', rfl⟩ := Chain.bytes_cons.mp hbs
    rw [List.length_append] at hlen
    obtain ⟨hx, hxs⟩ := List.forall_mem_cons.mp hx
    obtain ⟨rfl, hb', hx'⟩ := hs.bytes hH.1 hf ha id b hb (by omega) hx
    obtain ⟨rfl, hbs'', hxs'⟩ := hp.bytes hH.2 (hs.follows.closed hf) (hs.agrees hH.1 hf ha) bs'
      hbs' (by omega) hxs
    exact ⟨rfl, Chain.bytes_cons.mpr ⟨b, hb', bs', hbs'', rfl⟩,
      List.forall_mem_cons.mpr ⟨hx', hxs'⟩⟩

/-- Two elements are joined, then the chain is passed. -/
theorem Passed.join {nl : ElemId × Element}
    (hp : Passed H ρ h st around ((id, el') :: els) st' els' n)
    (hj : Joined ρ h st (around ++ Chain.exprs ((id, el) :: nl :: els)) (id, el) nl el') :
    Passed H ρ h st around ((id, el) :: nl :: els) st' els' n := by
  obtain ⟨id', nl⟩ := nl
  -- the reference is to one of the other expressions, which are all still there
  have hless : ∀ x, h.Unreferenced st (around ++ Chain.exprs ((id, el) :: (id', nl) :: els)) x →
      h.Unreferenced st (around ++ Chain.exprs ((id, el') :: els)) x := by
    intro x hu e he
    have hrefs := hj.refs x fun e he => hu e <| by
      simp only [List.mem_append, Chain.exprs_cons] at he ⊢
      tauto
    simp only [List.mem_append, Chain.exprs_cons] at he
    rcases he with hr | ha | he' | he'
    · exact hu e (List.mem_append_left _ hr)
    · exact hu e (List.mem_append_right _ (List.mem_append_left _ ha))
    · exact hrefs e he'
    · refine hu e ?_
      simp only [List.mem_append, Chain.exprs_cons]
      tauto
  refine ⟨hp.follows, hp.kin, hp.good, fun x hu => hp.unreferenced x (hless x hu), ?_, hp.agrees,
    fun hH hf ha bs hbs hlen hx => ?_⟩
  · refine List.forall_mem_cons.mpr ⟨.inr ?_, List.forall_mem_cons.mpr ⟨.inr ?_, fun p hmem => ?_⟩⟩
    · exact hp.unreferenced id (hless id hj.unreferenced.1)
    · exact hp.unreferenced id' (hless id' hj.unreferenced.2)
    · exact hp.stays p (List.mem_cons_of_mem _ hmem)
  · obtain ⟨b, hb, bs', hbs', rfl⟩ := Chain.bytes_cons.mp hbs
    obtain ⟨b', hb', bs'', hbs'', rfl⟩ := Chain.bytes_cons.mp hbs'
    simp only [List.length_append] at hlen
    simp only [List.forall_mem_cons] at hx
    obtain ⟨hjoin, hexact⟩ := hj.bytes b b' hb hb' (by omega) hx.1 hx.2.1
    refine hp.bytes hH hf ha _ (Chain.bytes_cons.mpr ⟨_, hjoin, bs'', hbs'', ?_⟩)
      (by simp only [List.length_append]; omega) (List.forall_mem_cons.mpr ⟨hexact, hx.2.2⟩)
    rw [List.append_assoc]

/-- **The loop over one chain**. -/
theorem Pass.walk_settles {p : Pass} (hp : p.Keeps ρ) (h : Holders) (threshold : Word)
    {rank : Expr → Nat} {m : Memory} (hrank : m.store.Ranked rank) (hst : m.store.Formed)
    (hc : h.Complete m.store) {head : ElemId × Element} {els : Chain}
    (hg : ∀ q ∈ head :: els, q.2.Good m.store) (around : List Expr) :
    Settles (Risk.Ok ρ) .fuel (fun fuel => p.walk h fuel threshold around head els)
      (fun H r m' => Passed H ρ h m.store around (head :: els) m'.store r.1 r.2) m := by
  obtain ⟨id, el⟩ := head
  induction els generalizing id el around m with
  | nil =>
      have hel : el.Good m.store := hg (id, el) List.mem_cons_self
      refine (hp.settle h threshold el m rank hrank hst hc hel).bind fun H r m' hs => ?_
      exact Logged.settles_pure (hs.cons (.nil rfl))
  | cons nl els ih =>
      obtain ⟨hel, hgs⟩ := List.forall_mem_cons.mp hg
      obtain ⟨hnl, hels⟩ := List.forall_mem_cons.mp hgs
      refine (hp.join h _ (id, el) nl m hel hnl).bind fun H o m₁ ⟨hm₁, hj⟩ => ?_
      rw [← hm₁] at hrank hst hc hg hgs hels
      rcases o with _ | el'
      · rw [← hm₁] at hel
        refine (hp.settle h threshold el m₁ rank hrank hst hc hel).bind fun H₁ r m₂ hs => ?_
        refine (ih (hrank.follows hs.follows) (hs.follows.closed hst)
          (hc.follows hs.follows hs.kin) (around ++ r.1.exprs) nl.1 nl.2
          fun q hq => (hgs q hq).follows hs.follows).bind fun H₂ r' m₃ hw => ?_
        refine Logged.settles_pure ?_
        rw [← hm₁]
        exact (hs.cons hw).imp fun hH => ⟨hH.2.1, hH.2.2.1⟩
      · have hj := hj el' rfl
        rw [← hm₁] at hj
        refine (ih hrank hst hc around id el'
          (List.forall_mem_cons.mpr ⟨hj.good, hels⟩)).mono fun H' r m' hw => ?_
        rw [← hm₁]
        exact (hw.join hj).imp fun hH => hH.2

/-- What a pass makes of all chains. -/
structure PassedAll (H : Prop) (ρ : Valuation) (h : Holders) (st : Store) (around : List Expr)
    (chains : List (Word × Chain)) (st' : Store) (chains' : List Chain) (errors : Nat) : Prop where
  unreferenced : ∀ x, h.Unreferenced st (around ++ chains.flatMap (·.2.exprs)) x →
    h.Unreferenced st' (around ++ chains'.flatMap Chain.exprs) x
  stays : List.Forall₂ (fun c els' => ∀ p ∈ c.2, (∃ el', (p.1, el') ∈ els' ∧ el'.size = p.2.size) ∨
    h.Unreferenced st' (around ++ chains'.flatMap Chain.exprs) p.1) chains chains'
  bytes : H → st.Formed → st.Agrees ρ → (∀ c ∈ chains, (∃ bs, c.2.bytes ρ = some bs ∧
    bs.length < 2 ^ 31) ∧ ∀ p ∈ c.2, p.2.Exact) →
      errors = 0 ∧ chains'.map (Chain.bytes ρ) = chains.map (·.2.bytes ρ)

/-- A chain is passed, then those after it. -/
theorem Passed.all {threshold : Word} {chains : List (Word × Chain)} {chains' : List Chain}
    (hp : Passed H ρ h st (around ++ chains.flatMap (·.2.exprs)) els st' els' n)
    (hq : PassedAll H' ρ h st' (around ++ els'.exprs) chains st'' chains' n') :
    PassedAll (H ∧ H') ρ h st around ((threshold, els) :: chains) st'' (els' :: chains')
      (n + n') where
  unreferenced x hu := by
    simp only [List.flatMap_cons, ← List.append_assoc] at hu ⊢
    refine hq.unreferenced x ((hp.unreferenced x (hu.subset fun e he => ?_)).subset fun e he => ?_)
    · simp only [List.mem_append] at he ⊢
      tauto
    · simp only [List.mem_append] at he ⊢
      tauto
  stays := by
    simp only [List.flatMap_cons, ← List.append_assoc]
    refine .cons (fun p hmem => (hp.stays p hmem).imp_right fun hu => ?_) hq.stays
    refine hq.unreferenced p.1 (hu.subset fun e he => ?_)
    simp only [List.mem_append] at he ⊢
    tauto
  bytes hH hf ha hall := by
    obtain ⟨⟨⟨bs, hbs, hlen⟩, hx⟩, hrest⟩ := List.forall_mem_cons.mp hall
    obtain ⟨rfl, hbs', -⟩ := hp.bytes hH.1 hf ha bs hbs hlen hx
    obtain ⟨rfl, hmap⟩ := hq.bytes hH.2 (hp.follows.closed hf) (hp.agrees hH.1 hf ha) hrest
    refine ⟨rfl, ?_⟩
    rw [List.map_cons, List.map_cons, hmap, hbs', hbs]

/-- **The loops over all chains**. -/
theorem Pass.run_settles {p : Pass} (hp : p.Keeps ρ) (h : Holders) {rank : Expr → Nat}
    {m : Memory} (hrank : m.store.Ranked rank) (hst : m.store.Formed) (hc : h.Complete m.store)
    {chains : List (Word × Chain)} (hg : ∀ c ∈ chains, ∀ q ∈ c.2, q.2.Good m.store)
    (around : List Expr) :
    Settles (Risk.Ok ρ) .fuel (fun fuel => p.run h fuel around chains)
      (fun H r m' => PassedAll H ρ h m.store around chains m'.store r.1 r.2) m := by
  induction chains generalizing around m with
  | nil =>
      refine Logged.settles_pure ⟨fun _ hu => hu, .nil, fun _ _ _ _ => ⟨rfl, rfl⟩⟩
  | cons c chains ih =>
      obtain ⟨threshold, els⟩ := c
      obtain ⟨hels, hgs⟩ := List.forall_mem_cons.mp hg
      rcases els with _ | ⟨el, els⟩
      · refine (ih hrank hst hc hgs around).bind fun H r m' hr => ?_
        refine Logged.settles_pure ?_
        have hnil : Passed True ρ h m.store (around ++ chains.flatMap (·.2.exprs)) [] m.store [] 0 :=
          .nil rfl
        have hr' : PassedAll H ρ h m.store (around ++ Chain.exprs []) chains m'.store r.1 r.2 := by
          rwa [Chain.exprs, List.flatMap_nil, List.append_nil]
        have hall : PassedAll (True ∧ H) ρ h m.store around ((threshold, []) :: chains) m'.store
            ([] :: r.1) (0 + r.2) := hnil.all hr'
        rwa [Nat.zero_add, true_and, ← and_true H] at hall
      · refine (p.walk_settles hp h threshold hrank hst hc hels
          (around ++ chains.flatMap (·.2.exprs))).bind fun H r m₁ hw => ?_
        refine (ih (hrank.follows hw.follows) (hw.follows.closed hst)
          (hc.follows hw.follows hw.kin) (fun c hmem q hq => (hgs c hmem q hq).follows hw.follows)
          (around ++ r.1.exprs)).bind fun H' r' m₂ hr => ?_
        refine Logged.settles_pure ?_
        rw [and_true]
        exact hw.all hr

end

/-! ### `pass_unroll` -/

section

variable {ρ : Valuation} {h : Holders} {m : Memory} {exprs : List Expr}

theorem settles_ask (ok : Risk → Prop) (m : Memory) :
    Settles ok .fuel (fun _ => ask) (fun _ _ m' => m'.store = m.store) m :=
  ⟨0, _, fun _ _ => rfl, by rintro ⟨⟩, by rintro _ _ ⟨⟩; rfl⟩

/-- The counts of two runs of units can be added where the bytes fit in the memory. -/
theorem sum_of_lengths {width value value' c c' : Word} (hw : 0 < width.toInt) (hc : 0 ≤ c.toInt)
    (hc' : 0 ≤ c'.toInt)
    (hlen : (dataBytes width value c).length + (dataBytes width value' c').length < 2 ^ 31) :
    (c + c').toInt = c.toInt + c'.toInt ∧ (c.toInt + c'.toInt) * width.toInt < 2 ^ 31 := by
  rw [length_dataBytes, length_dataBytes, ← Nat.add_mul] at hlen
  have hprod : (c.toInt + c'.toInt) * width.toInt < 2 ^ 31 := by
    rw [← Int.toNat_of_nonneg hc, ← Int.toNat_of_nonneg hc', ← Int.toNat_of_nonneg hw.le]
    exact_mod_cast hlen
  refine ⟨toInt_add_word (by omega) (lt_of_le_of_lt ?_ hprod), hprod⟩
  exact le_mul_of_one_le_right (by omega) (by omega)

/-- Similar data, with the counts added and the sum of the sizes estimated. -/
theorem Joined.data {st : Store} {id id' : ElemId} {width : Word}
    {value count count' count'' size size' temp size'' : Expr} {lone lone' : Bool} {fuel : Nat}
    (hu : h.Unreferenced st exprs id ∧ h.Unreferenced st exprs id')
    (ha : Element.Good st ⟨size, .data width value count⟩)
    (hb : Element.Good st ⟨size', .data width value count'⟩)
    (hcount : exprBinop lone .plus count count' = some count'')
    (htemp : exprBinop lone' .plus size size' = some temp)
    (hsize : exprEstimate st fuel temp = some size'') :
    Joined ρ h st exprs (id, ⟨size, .data width value count⟩)
      (id', ⟨size', .data width value count'⟩) ⟨size'', .data width value count''⟩ where
  unreferenced := hu
  good := by
    obtain ⟨⟨hvf, hcf, -⟩, -⟩ := Element.good_data.mp ha
    obtain ⟨⟨-, hcf', -⟩, -⟩ := Element.good_data.mp hb
    refine Element.good_data.mpr
      ⟨⟨hvf, hcf.exprBinop (by decide) (by decide) hcf' hcount, ?_⟩, ?_⟩
    · rcases exprEstimate_cases hsize with ⟨c, rfl⟩ | ⟨lo, hi, rfl⟩
      · exact .const c
      · exact .range trivial
    · rcases exprEstimate_cases hsize with ⟨c, rfl⟩ | ⟨lo, hi, rfl⟩
      · exact .const c
      · exact .range lo hi
  refs x hx := by
    obtain ⟨⟨-, hcf, -⟩, -⟩ := Element.good_data.mp ha
    obtain ⟨⟨-, hcf', -⟩, -⟩ := Element.good_data.mp hb
    simp only [Element.exprs_data, List.forall_mem_append, List.forall_mem_cons] at hx ⊢
    obtain ⟨⟨hv, hc, -⟩, -, hc', -⟩ := hx
    have hcount' := (hcf.of_refs hc).exprBinop (by decide) (by decide) (hcf'.of_refs hc') hcount
    refine ⟨hv, hcount'.refs, ?_, fun _ he => (by cases he)⟩
    rcases exprEstimate_cases hsize with ⟨c, rfl⟩ | ⟨lo, hi, rfl⟩ <;> rfl
  bytes b b' hbytes hbytes' hlen hx hx' := by
    have hvalue : count''.value ρ true = count.value ρ true + count'.value ρ true := by
      rw [Expr.value_exprBinop hcount, Expr.value_plus]
    obtain ⟨⟨hw, hw4, h0⟩, rfl⟩ := Element.bytes_data.mp hbytes
    obtain ⟨⟨-, -, h0'⟩, rfl⟩ := Element.bytes_data.mp hbytes'
    obtain ⟨hsum, hprod⟩ := sum_of_lengths hw h0 h0' hlen
    refine ⟨Element.bytes_data.mpr ⟨⟨hw, hw4, ?_⟩, ?_⟩, ?_⟩
    · rw [hvalue, hsum]
      exact Int.add_nonneg h0 h0'
    · rw [hvalue, dataBytes_add h0 h0' hsum]
    -- if the counts are constants then so are the sizes, and their sum is taken
    · rintro _ _ k ⟨⟩
      obtain ⟨c, c', rfl, rfl, heval⟩ := exprBinop_eq_const hcount
      obtain ⟨s, rfl, hs⟩ := hx width value c rfl
      obtain ⟨s', rfl, hs'⟩ := hx' width value c' rfl
      cases htemp
      cases heval
      rcases fuel with _ | fuel
      · cases hsize
      refine ⟨s + s', ?_, ?_⟩
      · rw [exprEstimate, exprEstimate1, Option.map_some, if_pos rfl] at hsize
        exact (Option.some.inj hsize).symm
      rw [Expr.value_const, Expr.value_const] at hsum hprod
      rw [hsum, Int.add_mul, ← hs, ← hs']
      rw [Int.add_mul, ← hs, ← hs'] at hprod
      refine toInt_add_word ?_ hprod
      have hpos := Int.mul_nonneg h0 hw.le
      have hpos' := Int.mul_nonneg h0' hw.le
      rw [Expr.value_const, ← hs] at hpos
      rw [Expr.value_const, ← hs'] at hpos'
      omega

theorem joinData_settles (h : Holders) (exprs : List Expr) {a b : ElemId × Element}
    (ha : a.2.Good m.store) (hb : b.2.Good m.store) :
    Settles (Risk.Ok ρ) .fuel (fun fuel => joinData h fuel exprs a b)
      (fun _ o m' => m'.store = m.store ∧
        ∀ el, o = some el → Joined ρ h m.store exprs a b el) m := by
  obtain ⟨id, size, u⟩ := a
  obtain ⟨id', size', u'⟩ := b
  refine (Logged.settles_get (Q := fun _ m₀ m' => m = m₀ ∧ m = m') ⟨rfl, rfl⟩).bind ?_
  rintro _ _ _ ⟨rfl, rfl⟩
  have hnone : Settles (Risk.Ok ρ) .fuel (fun _ => (pure none : Reducer (Option Element)))
      (fun _ o m' => m'.store = m.store ∧
        ∀ el, o = some el → Joined ρ h m.store exprs (id, ⟨size, u⟩) (id', ⟨size', u'⟩) el) m :=
    Logged.settles_pure ⟨rfl, fun _ he => (by cases he)⟩
  rcases u with ptr | ⟨width, value, count⟩ | ⟨opcode, arg⟩ <;>
    rcases u' with ptr' | ⟨width', value', count'⟩ | ⟨opcode', arg'⟩ <;> try exact hnone
  dsimp only
  by_cases hrefs : h.nrefs m.store exprs id = 0 ∧ h.nrefs m.store exprs id' = 0
  · simp only [if_pos hrefs]
    rw [Holders.nrefs_eq_zero, Holders.nrefs_eq_zero] at hrefs
    obtain ⟨⟨hvf, hcf, hsf⟩, hest⟩ := Element.good_data.mp ha
    obtain ⟨⟨-, hcf', hsf'⟩, hest'⟩ := Element.good_data.mp hb
    refine (settles_ask _ m).bind fun _ ptr m₁ hm₁ => ?_
    split
    · next heq =>
        rw [Bool.and_eq_true, beq_iff_eq] at heq
        obtain ⟨heq, rfl⟩ := heq
        obtain rfl := eq_of_exprEqual heq
        refine (settles_ask _ m₁).bind fun _ lone m₂ hm₂ => ?_
        refine (Logged.settles_ofOption (Q := fun _ c s => s = m₂ ∧
          exprBinop lone .plus count count' = some c) (by rintro ⟨⟩)
          fun c hc => ⟨rfl, hc⟩).bind fun _ count'' m₃ ⟨hm₃, hcount⟩ => ?_
        refine (settles_ask _ m₃).bind fun _ lone' m₄ hm₄ => ?_
        refine (Logged.settles_ofOption (Q := fun _ t s => s = m₄ ∧
          exprBinop lone' .plus size size' = some t) (by rintro ⟨⟩)
          fun t ht => ⟨rfl, ht⟩).bind fun _ temp m₅ ⟨hm₅, htemp⟩ => ?_
        refine ((hest.exprBinop hest' htemp).settles m₅).bind fun _ size'' m₆ ⟨hm₆, fuel, hsize⟩ => ?_
        refine Logged.settles_pure ⟨?_, ?_⟩
        · rw [hm₆, hm₅, hm₄, hm₃, hm₂, hm₁]
        rintro _ ⟨⟩
        exact .data hrefs ha hb hcount htemp hsize
    · exact Logged.settles_pure ⟨hm₁, fun _ he => (by cases he)⟩
  · simp only [if_neg hrefs]
    exact hnone

theorem const_of_length {s : Word} {n : Nat} (h : s.toInt = n) : s = BitVec.ofNat 32 n := by
  rw [← BitVec.ofInt_toInt (x := s), h, BitVec.ofInt_natCast]

/-- Constant data as a block. -/
theorem Element.bytes_dataBlock {id : ElemId} {size : Expr} {width v c : Word} {b : List Byte}
    (hb : Element.bytes ρ id ⟨size, .data width (.const v) (.const c)⟩ = some b)
    (hx : Element.Exact ⟨size, .data width (.const v) (.const c)⟩) :
    Element.bytes ρ id ⟨size, .block (dataBytes width v c)⟩ = some b := by
  obtain ⟨⟨hw, -, hc⟩, rfl⟩ := Element.bytes_data.mp hb
  obtain ⟨s, rfl, hs⟩ := hx width (.const v) c rfl
  rw [Expr.value_const] at hc
  have hlen : s.toInt = (dataBytes width v c).length := by
    rw [length_dataBytes, hs]
    push_cast
    rw [Int.toNat_of_nonneg hc, Int.toNat_of_nonneg hw.le]
  rw [const_of_length hlen]
  simp [Element.bytes]

/-- A command with a constant argument as a block. -/
theorem Element.bytes_cmdBlock {id : ElemId} {opcode v s : Word} {arg : Expr} {b : List Byte}
    (harg : arg.value ρ true = v)
    (hb : Element.bytes ρ id ⟨.const s, .cmd opcode arg⟩ = some b) :
    ∃ size, cmdGenerate (lowByte opcode) v s.toInt = .ok (size, b) ∧
      Element.bytes ρ id ⟨.const s, .block b⟩ = some b := by
  have hsize : sizeOf ρ id (.const s) = s := Expr.value_const ρ true s
  simp only [Element.bytes, hsize, harg] at hb
  split at hb
  · next size out hout =>
      split at hb
      · next hlen =>
          cases hb
          refine ⟨size, hout, ?_⟩
          rw [const_of_length hlen.symm]
          simp [Element.bytes]
      · cases hb
  · cases hb

theorem unrollElement_settles {el : Element} {rank : Expr → Nat} (threshold : Word)
    (hrank : m.store.Ranked rank) (hst : m.store.Formed) (hc : h.Complete m.store)
    (hg : el.Good m.store) :
    Settles (Risk.Ok ρ) .fuel (fun fuel => unrollElement fuel threshold el)
      (fun H r m' => Settled H ρ h m.store el m'.store r.1 r.2) m := by
  obtain ⟨size, u⟩ := el
  rcases u with ptr | ⟨width, value, count⟩ | ⟨opcode, arg⟩
  · exact Logged.settles_pure (.refl _ ρ hg)
  · rcases hv : value.const? with _ | v
    · simp only [unrollElement, hv]
      exact Logged.settles_pure (.refl _ ρ hg)
    rcases hn : count.const? with _ | c
    · simp only [unrollElement, hv, hn]
      exact Logged.settles_pure (.refl _ ρ hg)
    simp only [unrollElement, hv, hn]
    obtain rfl := Expr.const?_eq_some.mp hv
    obtain rfl := Expr.const?_eq_some.mp hn
    by_cases hsmall : (c * width).slt threshold = true
    · simp only [if_pos hsmall]
      by_cases hsize : size.isConst = true
      · simp only [if_pos hsize]
        refine Logged.settles_pure (.of_subset rfl (Element.good_block _ _ _)
          (fun _ he => (by cases he)) fun id b hb _ hx => ?_)
        exact ⟨rfl, Element.bytes_dataBlock hb hx, by rintro _ _ _ ⟨⟩⟩
      · simp only [if_neg hsize]
        exact Logged.settles_stop (by rintro ⟨⟩)
    · simp only [if_neg hsmall]
      exact Logged.settles_pure (.refl _ ρ hg)
  · have harg : arg ∈ Element.exprs ⟨size, .cmd opcode arg⟩ := List.mem_cons_self
    obtain ⟨-, hsf⟩ := Element.good_cmd.mp hg
    refine (exprReduce_settles ρ hrank (hg.formed arg harg)).bind fun H arg' m' hk => ?_
    obtain ⟨hk, hkin⟩ := hk
    rcases hv : arg'.const? with _ | v
    · refine Logged.settles_pure ?_
      rw [and_true]
      refine .of_kept hc hst hg harg hk hkin rfl (fun hf => Element.good_cmd.mpr ⟨hf, hsf⟩)
        (fun x hx hrefs => ?_) fun hval id b hb _ _ => ?_
      · simp only [Element.exprs_cmd, List.forall_mem_cons] at hrefs ⊢
        exact ⟨hx, hrefs.2⟩
      · refine ⟨rfl, ?_, by rintro _ _ _ ⟨⟩⟩
        simpa only [Element.bytes, hval] using hb
    · obtain rfl := Expr.const?_eq_some.mp hv
      dsimp only
      rcases hs : size.const? with _ | s
      · exact Logged.settles_stop (by rintro ⟨⟩)
      obtain rfl := Expr.const?_eq_some.mp hs
      -- whatever is written, it is in a block of the size that the command had
      have hblock : ∀ out n, (∀ id b, arg.value ρ true = v →
          Element.bytes ρ id ⟨.const s, .cmd opcode arg⟩ = some b → n = 0 ∧ out = b) →
          Settled (H ∧ True) ρ h m.store ⟨.const s, .cmd opcode arg⟩ m'.store
            ⟨.const s, .block out⟩ n := by
        intro out n hout
        rw [and_true]
        refine .of_kept hc hst hg harg hk hkin rfl (fun _ => Element.good_block _ _ _)
          (fun x _ _ _ he => (by cases he)) fun hval id b hb _ _ => ?_
        rw [Expr.value_const] at hval
        obtain ⟨rfl, rfl⟩ := hout id b hval.symm hb
        obtain ⟨-, -, hbytes⟩ := Element.bytes_cmdBlock hval.symm hb
        exact ⟨rfl, hbytes, by rintro _ _ _ ⟨⟩⟩
      rcases hgen : cmdGenerate (lowByte opcode) v s.toInt with written | ⟨sz, out⟩
      · simp only [hgen]
        refine Logged.settles_pure (hblock written 1 fun id b hval hb => ?_)
        obtain ⟨size, hok, -⟩ := Element.bytes_cmdBlock hval hb
        rw [hgen] at hok
        cases hok
      · simp only [hgen]
        refine Logged.settles_pure (hblock out 0 fun id b hval hb => ⟨rfl, ?_⟩)
        obtain ⟨size, hok, -⟩ := Element.bytes_cmdBlock hval hb
        rw [hgen] at hok
        cases hok
        rfl

theorem passUnroll_keeps (ρ : Valuation) : passUnroll.Keeps ρ where
  join h exprs _ _ _ := joinData_settles h exprs
  settle _ threshold _ _ _ hrank hst hc := unrollElement_settles threshold hrank hst hc

/-! ### `pass_merge` and `pass_canonicalize` -/

theorem take_ofNat {bs : List Byte} (h : bs.length < 2 ^ 31) :
    bs.take (BitVec.ofNat 32 bs.length).toInt.toNat = bs := by
  rw [BitVec.toInt_eq_toNat_cond, BitVec.toNat_ofNat]
  refine List.take_of_length_le ?_
  omega

/-- Two blocks of the sizes they say. -/
theorem Joined.blocks {st : Store} {id id' : ElemId} {ptr ptr' : List Byte} {len n : Word}
    {size : Expr} {lone : Bool}
    (hu : h.Unreferenced st exprs id ∧ h.Unreferenced st exprs id')
    (hsize : exprPlusConstant lone (.const len) n = some size) :
    Joined ρ h st exprs (id, ⟨.const len, .block ptr⟩) (id', ⟨.const n, .block ptr'⟩)
      ⟨size, .block (ptr.take len.toInt.toNat ++ ptr'.take n.toInt.toNat)⟩ where
  unreferenced := hu
  good := Element.good_block _ _ _
  refs _ _ _ he := by cases he
  bytes b b' hb hb' hlen _ _ := by
    obtain ⟨hs, rfl⟩ := Element.bytes_block.mp hb
    obtain ⟨hs', rfl⟩ := Element.bytes_block.mp hb'
    cases hs
    cases hs'
    cases hsize
    rw [take_ofNat (by omega), take_ofNat (by omega)]
    refine ⟨Element.bytes_block.mpr ⟨?_, rfl⟩, by rintro _ _ _ ⟨⟩⟩
    rw [List.length_append, BitVec.ofNat_add]

theorem joinBlocks_settles (h : Holders) (exprs : List Expr) (a b : ElemId × Element) :
    Settles (Risk.Ok ρ) .fuel (fun _ => joinBlocks h exprs a b)
      (fun _ o m' => m'.store = m.store ∧
        ∀ el, o = some el → Joined ρ h m.store exprs a b el) m := by
  obtain ⟨id, size, u⟩ := a
  obtain ⟨id', size', u'⟩ := b
  refine (Logged.settles_get (Q := fun _ m₀ m' => m = m₀ ∧ m = m') ⟨rfl, rfl⟩).bind ?_
  rintro _ _ _ ⟨rfl, rfl⟩
  have hnone : Settles (Risk.Ok ρ) .fuel (fun _ => (pure none : Reducer (Option Element)))
      (fun _ o m' => m'.store = m.store ∧
        ∀ el, o = some el → Joined ρ h m.store exprs (id, ⟨size, u⟩) (id', ⟨size', u'⟩) el) m :=
    Logged.settles_pure ⟨rfl, fun _ he => (by cases he)⟩
  rcases u with ptr | ⟨width, value, count⟩ | ⟨opcode, arg⟩ <;>
    rcases u' with ptr' | ⟨width', value', count'⟩ | ⟨opcode', arg'⟩ <;> try exact hnone
  dsimp only
  by_cases hrefs : h.nrefs m.store exprs id = 0 ∧ h.nrefs m.store exprs id' = 0
  · simp only [if_pos hrefs]
    rw [Holders.nrefs_eq_zero, Holders.nrefs_eq_zero] at hrefs
    rcases hs : size.const? with _ | len
    · exact Logged.settles_stop (by rintro ⟨⟩)
    rcases hs' : size'.const? with _ | n
    · exact Logged.settles_stop (by rintro ⟨⟩)
    obtain rfl := Expr.const?_eq_some.mp hs
    obtain rfl := Expr.const?_eq_some.mp hs'
    refine (settles_ask _ m).bind fun _ lone m₁ hm₁ => ?_
    refine (Logged.settles_ofOption (Q := fun _ e s => s = m₁ ∧
      exprPlusConstant lone (.const len) n = some e) (by rintro ⟨⟩)
      fun e he => ⟨rfl, he⟩).bind fun _ size m₂ ⟨hm₂, hsize⟩ => ?_
    refine Logged.settles_pure ⟨by rw [hm₂, hm₁], ?_⟩
    rintro _ ⟨⟩
    exact .blocks hrefs hsize
  · simp only [if_neg hrefs]
    exact hnone

theorem passMerge_keeps (ρ : Valuation) : passMerge.Keeps ρ where
  join h exprs a b _ _ _ := joinBlocks_settles h exprs a b
  settle _ _ _ _ _ _ _ _ hg := Logged.settles_pure (.refl _ ρ hg)

theorem passCanonicalize_keeps (ρ : Valuation) : passCanonicalize.Keeps ρ where
  join _ _ _ _ _ _ _ := Logged.settles_pure ⟨rfl, fun _ he => (by cases he)⟩
  settle _ _ _ _ _ hrank hst hc hg := canonicalizeElement_settles hrank hst hc hg

end

/-! ### The bytes are kept -/

/-- Chains as the passes find them: every expression is formed, the size of data is its count times
its width, a constant if the count is one, and the bytes of every fragment are there and fit in the
memory. -/
structure Regular (st : Store) (ρ : Valuation) (chains : List (Word × Chain)) : Prop where
  formed : ∀ c ∈ chains, ∀ q ∈ c.2, ∀ e ∈ q.2.exprs, e.Formed
  estimable : ∀ c ∈ chains, ∀ q ∈ c.2, ∀ width value count, q.2.u = .data width value count →
    Estimable st q.2.size
  sized : ∀ c ∈ chains, ∀ q ∈ c.2, ∀ width value count, q.2.u = .data width value count →
    (sizeOf ρ q.1 q.2.size).toInt = (count.value ρ true).toInt * width.toInt
  fixed : ∀ c ∈ chains, ∀ q ∈ c.2, ∀ width value count, q.2.u = .data width value count →
    count.isConst = true → q.2.size.isConst = true
  short : ∀ c ∈ chains, ∃ bs, c.2.bytes ρ = some bs ∧ bs.length < 2 ^ 31

theorem Regular.exact {st : Store} {ρ : Valuation} {chains : List (Word × Chain)}
    (hr : Regular st ρ chains) {c : Word × Chain} (hc : c ∈ chains) {q : ElemId × Element}
    (hq : q ∈ c.2) : q.2.Exact := by
  intro width value k hu
  obtain ⟨s, hs⟩ := Expr.isConst_iff.mp (hr.fixed c hc q hq width value _ hu rfl)
  have hsized := hr.sized c hc q hq width value _ hu
  rw [hs, Expr.value_const] at hsized
  exact ⟨s, hs, (congrArg _ (Expr.value_const ρ true s)).symm.trans hsized⟩

/-- The pass does not abort, and every risk that its reductions take is met. -/
def Pass.TakesNoWrongBranch (p : Pass) (ρ : Valuation) (h : Holders)
    (chains : List (Word × Chain)) (m : Memory) : Prop :=
  ∀ fuel, (p.run h fuel [] chains m).1 ≠ .error .abort ∧
    ∀ w ∈ (p.run h fuel [] chains m).2, w.Ok ρ

/-- **The passes keep the bytes** of every fragment, report nothing, and leave the elements that
something refers to where they are, with the sizes they had. -/
theorem passes_keep_bytes {p : Pass}
    (hp : p = passCanonicalize ∨ p = passUnroll ∨ p = passMerge) {m : Memory} {ρ : Valuation}
    {rank : Expr → Nat} (hrank : m.store.Ranked rank) (hst : m.store.Formed)
    (hρ : m.store.Models ρ) (hal : m.store.Aligned ρ) {h : Holders} (hc : h.Complete m.store)
    {chains : List (Word × Chain)} (hr : Regular m.store ρ chains)
    (hrun : p.TakesNoWrongBranch ρ h chains m) :
    ∃ n, ∀ fuel ≥ n, ∃ chains' m', (p.run h fuel [] chains m).1 = .ok ((chains', 0), m') ∧
      chains'.map (Chain.bytes ρ) = chains.map (·.2.bytes ρ) ∧
      List.Forall₂ (fun c els' => ∀ q ∈ c.2,
        h.nrefs m'.store (chains'.flatMap Chain.exprs) q.1 ≠ 0 →
          ∃ el', (q.1, el') ∈ els' ∧ el'.size = q.2.size) chains chains' := by
  have hkeeps : p.Keeps ρ := by
    rcases hp with rfl | rfl | rfl
    · exact passCanonicalize_keeps ρ
    · exact passUnroll_keeps ρ
    · exact passMerge_keeps ρ
  have hgood : ∀ c ∈ chains, ∀ q ∈ c.2, q.2.Good m.store := fun c hmem q hq =>
    ⟨hr.formed c hmem q hq, hr.estimable c hmem q hq⟩
  obtain ⟨n, r, hn, hend, hpost⟩ := p.run_settles hkeeps h hrank hst hc hgood []
  refine ⟨n, fun fuel hfuel => ?_⟩
  obtain ⟨habort, hlog⟩ := hrun fuel
  have hx : p.run h fuel [] chains m = r := hn fuel hfuel
  rw [hx] at habort hlog ⊢
  rcases hr₁ : r.1 with e | ⟨⟨chains', errors⟩, m'⟩
  · rw [hr₁] at hend habort
    cases e <;> contradiction
  have hpassed := hpost _ _ hr₁
  obtain ⟨rfl, hbytes⟩ := hpassed.bytes hlog hst (hρ.agrees hal) fun c hmem =>
    ⟨hr.short c hmem, fun q hq => hr.exact hmem hq⟩
  refine ⟨chains', m', rfl, hbytes, hpassed.stays.imp fun c els' hstays q hq hrefs => ?_⟩
  exact (hstays q hq).resolve_right fun hu => hrefs (Holders.nrefs_eq_zero.mpr hu)

/-- Nothing is held anywhere. -/
def Holders.none : Holders := ⟨[], [], []⟩

theorem complete_unknown : Holders.none.Complete .unknown :=
  ⟨fun _ _ => rfl, fun _ _ => .inr (.const 0)⟩

/-- `.byte 7,7` and `.byte 7` become a block of three bytes. -/
theorem passes_keep_bytes_unroll :
    let chains : List (Word × Chain) := [(256, [(0, ⟨.const 2, .data 1 (.const 7) (.const 2)⟩),
      (1, ⟨.const 1, .data 1 (.const 7) (.const 1)⟩)])]
    ∃ n, ∀ fuel ≥ n, ∃ chains' m', (passUnroll.run .none fuel [] chains .unknown).1 =
        .ok ((chains', 0), m') ∧ chains'.map (Chain.bytes .ones) = [some [7, 7, 7]] := by
  intro chains
  have hrank : Store.unknown.Ranked fun _ => 0 := ⟨fun _ _ h => (by cases h), fun _ _ => .const 0⟩
  have hst : Store.unknown.Formed := ⟨fun _ _ _ h => (by cases h), fun _ _ _ => .const 0⟩
  have hr : Regular .unknown .ones chains := by
    constructor <;> simp only [chains, List.forall_mem_singleton, List.forall_mem_cons]
    · simp [Built.const]
    · simp [Estimable.const]
    · simp [sizeOf, Expr.isRange]
    · simp
    · exact ⟨[7, 7, 7], by decide, by decide⟩
  have hrun : passUnroll.TakesNoWrongBranch .ones .none chains .unknown := by
    rintro (_ | fuel)
    · exact ⟨by rintro ⟨⟩, fun w hw => by cases hw⟩
    · exact ⟨by rintro ⟨⟩, fun w hw => by cases hw⟩
  obtain ⟨n, hn⟩ := passes_keep_bytes (.inr (.inl rfl)) hrank hst models_ones aligned_ones
    complete_unknown hr hrun
  refine ⟨n, fun fuel hfuel => ?_⟩
  obtain ⟨chains', m', hrun, hbytes, -⟩ := hn fuel hfuel
  exact ⟨chains', m', hrun, hbytes⟩

/-- `.word (x + 3) - (5 - y)` becomes `.word (x - 2) - y` in `pass_canonicalize`. -/
theorem passes_lose_sign :
    let chain : Chain := [(0, ⟨.const 4, .data 4 (.binop .minus (.binop .plus (.name 0) (.const 3))
      (.binop .minus (.const 5) (.name 1))) (.const 1)⟩)]
    ∃ chains' m', (∀ fuel, (passCanonicalize.run .none (fuel + 1) [] [(256, chain)] .unknown).1 =
        .ok ((chains', 0), m')) ∧
      Store.unknown.Models .ones ∧ Store.unknown.Aligned .ones ∧
      (sizeOf .ones 0 (.const 4)).toInt = 1 * (4 : Word).toInt ∧
      Chain.bytes .ones chain = some [0, 0, 0, 0] ∧
      chains'.map (Chain.bytes .ones) = [some [0xfe, 0xff, 0xff, 0xff]] :=
  ⟨_, _, fun _ => rfl, models_ones, aligned_ones, by decide, by decide, by decide⟩

end Ttools
