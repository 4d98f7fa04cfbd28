import Mathlib.Algebra.Order.BigOperators.Group.Finset
import Mathlib.Data.Fintype.Sets
import Ttools.T800.Life

/-!
# What the life analysis finds

* `scanBlock_spec`, `scanBlock_doomed`: a scan of a block finds what is live before it; once it has
  emitted a sequence of insns the next scan of the block aborts.
* `refsLoop_far`, `refsLoop_done`, `refsLoop_restart`, `refsLoop_live`: what the loop over the
  references of a label does to the exit sets.
* `Inv.turn`, `Live.turn`, `weight_turn`: what a turn of the analysis keeps, and what it makes
  smaller.
* `analysed_iff`: the analysis finds the least solution, with nothing live at the function's start,
  if and only if every turn meets the condition `Clean` and nothing is live there.
-/

namespace Ttools.T800

open Support

variable {R : Type*} [LinearOrder R]

/-! ### An insn and a block -/

theorem transfer_cons (i : LifeInsn R) (is : List (LifeInsn R)) (X : Finset R) :
    transfer (i :: is) X = i.transfer (transfer is X) := rfl

theorem transfer_append (is js : List (LifeInsn R)) (X : Finset R) :
    transfer (is ++ js) X = transfer is (transfer js X) := List.foldr_append

/-- Zero-initialising insns take away nothing but their own registers. -/
theorem transfer_zeroInit (initSet Y : Finset R) :
    Y \ initSet ⊆ transfer (zeroInit initSet) Y ∧ transfer (zeroInit initSet) Y ⊆ Y := by
  have hlist : ∀ (q : Bool) (l : List R),
      let is := l.map fun i => (⟨q, false, false, ∅, {i}, ∅, true⟩ : LifeInsn R)
      Y \ l.toFinset ⊆ transfer is Y ∧ transfer is Y ⊆ Y := by
    intro q l
    induction l with
    | nil => exact ⟨Finset.sdiff_subset, subset_rfl⟩
    | cons r l ih =>
        simp only [List.map_cons, transfer_cons, LifeInsn.transfer, List.toFinset_cons,
          Bool.or_false, Bool.not_false, Bool.and_true, Finset.union_empty, Finset.sdiff_empty]
        cases q with
        | false =>
            refine ⟨fun x hx => ih.1 ?_, ih.2⟩
            simp only [Finset.mem_sdiff, Finset.mem_insert, not_or] at hx ⊢
            exact ⟨hx.1, hx.2.2⟩
        | true =>
            refine ⟨fun x hx => ?_, Finset.sdiff_subset.trans ih.2⟩
            simp only [Finset.mem_sdiff, Finset.mem_insert, not_or, if_true,
              Finset.mem_singleton] at hx ⊢
            exact ⟨ih.1 (Finset.mem_sdiff.mpr ⟨hx.1, hx.2.2⟩), hx.2.1⟩
  simpa [zeroInit] using hlist (decide (1 < initSet.card)) (initSet.sort (· ≤ ·))

theorem mem_zeroInit {initSet : Finset R} {i : LifeInsn R} (h : i ∈ zeroInit initSet) :
    i.isNew = true ∧ i.isCall = false ∧ i.skipped = false ∧
      i.qimode = decide (1 < initSet.card) ∧ ∃ r, i.dest = {r} := by
  obtain ⟨r, -, rfl⟩ := List.mem_map.mp h
  exact ⟨rfl, rfl, rfl, rfl, r, rfl⟩

/-- What `record_reg_life` does to the registers, and what it may emit. -/
theorem recordRegLife_spec {i : LifeInsn R} {X X' : Finset R} {em : List (LifeInsn R)}
    (hact : (i.qimode || i.isCall) = true) (h : recordRegLife i X = some (em, X')) :
    X' = i.transfer X ∧
      ∃ initSet, em = zeroInit initSet ∧ initSet ⊆ X ∧ initSet ⊆ i.clobbered := by
  have hnil : ([] : List (LifeInsn R)) = zeroInit ∅ := by simp [zeroInit]
  unfold recordRegLife at h
  unfold LifeInsn.transfer
  rw [hact]
  cases hs : i.skipped with
  | true =>
      simp only [hs, if_true, Option.some.injEq, Prod.mk.injEq] at h
      obtain ⟨rfl, rfl⟩ := h
      exact ⟨by simp, ∅, hnil, by simp, by simp⟩
  | false =>
      simp only [hs, Bool.false_eq_true, if_false] at h
      simp only [Bool.not_false, Bool.and_self, if_true]
      split at h
      · next hempty =>
          simp only [Option.some.injEq, Prod.mk.injEq] at h
          obtain ⟨rfl, rfl⟩ := h
          exact ⟨by simp [hempty], ∅, hnil, by simp, by simp⟩
      · split at h
        · cases h
        · simp only [Option.some.injEq, Prod.mk.injEq] at h
          obtain ⟨rfl, rfl⟩ := h
          exact ⟨by rw [Finset.sdiff_inter_self_left], _, rfl,
            Finset.inter_subset_left.trans Finset.sdiff_subset, Finset.inter_subset_right⟩

/-- The insns emitted behind a clobbering insn do not change what is live before it. -/
theorem LifeInsn.transfer_emitted {i : LifeInsn R} {initSet : Finset R}
    (hact : (i.qimode || i.isCall) = true) (hskip : i.skipped = true → initSet = ∅)
    (hclob : initSet ⊆ i.clobbered) (Y : Finset R) :
    i.transfer (T800.transfer (zeroInit initSet) Y) = i.transfer Y := by
  obtain ⟨hlo, hhi⟩ := transfer_zeroInit initSet Y
  cases hs : i.skipped with
  | true =>
      have hnil : zeroInit initSet = [] := by simp [hskip hs, zeroInit]
      rw [hnil]
      rfl
  | false =>
      simp only [LifeInsn.transfer, hact, hs, Bool.not_false, Bool.and_self, if_true]
      congr 1
      ext x
      simp only [Finset.mem_sdiff]
      refine ⟨fun ⟨⟨hx, hd⟩, hc⟩ => ⟨⟨hhi hx, hd⟩, hc⟩, fun ⟨⟨hx, hd⟩, hc⟩ => ⟨⟨hlo ?_, hd⟩, hc⟩⟩
      exact Finset.mem_sdiff.mpr ⟨hx, fun hmem => hc (hclob hmem)⟩

theorem recordRegLife_skipped {i : LifeInsn R} {X X' : Finset R} {em : List (LifeInsn R)}
    (hs : i.skipped = true) (h : recordRegLife i X = some (em, X')) : em = [] := by
  simp only [recordRegLife, hs, if_true, Option.some.injEq, Prod.mk.injEq] at h
  exact h.1.symm

theorem zeroInit_eq_nil {initSet : Finset R} (h : zeroInit initSet = []) : initSet = ∅ := by
  have hlen := congrArg List.length h
  simpa [zeroInit] using hlen

/-- What the scan of a block leaves: the registers live before it, and a block with the same
effect. -/
structure Scanned (is : List (LifeInsn R)) (X : Finset R) (is' : List (LifeInsn R))
    (X' : Finset R) : Prop where
  live : X' = transfer is X
  same : ∀ Y, transfer is' Y = transfer is Y
  new : ∀ i ∈ is', i ∈ is ∨ i.isNew = true ∧ i.isCall = false

theorem scanBlock_spec {is is' : List (LifeInsn R)} {X X' : Finset R}
    (h : scanBlock is X = some (is', X')) : Scanned is X is' X' := by
  induction is generalizing is' X' with
  | nil =>
      simp only [scanBlock, Option.some.injEq, Prod.mk.injEq] at h
      obtain ⟨rfl, rfl⟩ := h
      exact ⟨rfl, fun _ => rfl, fun i hi => .inl hi⟩
  | cons i is ih =>
      simp only [scanBlock, Option.bind_eq_bind, Option.bind_eq_some_iff] at h
      obtain ⟨⟨js, X₁⟩, hjs, h⟩ := h
      obtain ⟨hlive, hsame, hnew⟩ := ih hjs
      split at h
      · next hact =>
          obtain ⟨⟨em, X₂⟩, hrec, h⟩ := Option.bind_eq_some_iff.mp h
          simp only [Option.some.injEq, Prod.mk.injEq] at h
          obtain ⟨rfl, rfl⟩ := h
          obtain ⟨hX₂, initSet, rfl, -, hclob⟩ := recordRegLife_spec hact hrec
          refine ⟨by rw [hX₂, hlive, transfer_cons], fun Y => ?_, fun j hj => ?_⟩
          · rw [List.cons_append, transfer_cons, transfer_append, transfer_cons, hsame]
            exact i.transfer_emitted hact
              (fun hs => zeroInit_eq_nil (recordRegLife_skipped hs hrec)) hclob _
          · rcases List.mem_cons.mp hj with rfl | hj
            · exact .inl List.mem_cons_self
            · rcases List.mem_append.mp hj with hj | hj
              · exact .inr ⟨(mem_zeroInit hj).1, (mem_zeroInit hj).2.1⟩
              · exact (hnew j hj).imp_left (List.mem_cons_of_mem _)
      · next hact =>
          simp only [Option.some.injEq, Prod.mk.injEq] at h
          obtain ⟨rfl, rfl⟩ := h
          have hidle : ∀ Y, i.transfer Y = Y := fun Y => by simp [LifeInsn.transfer, hact]
          refine ⟨by rw [hlive, transfer_cons, hidle], fun Y => ?_, fun j hj => ?_⟩
          · rw [transfer_cons, transfer_cons, hsame]
          · rcases List.mem_cons.mp hj with rfl | hj
            · exact .inl List.mem_cons_self
            · exact (hnew j hj).imp_left (List.mem_cons_of_mem _)

/-- A scan does not abort when the new insns it comes to do not mention stack registers. -/
theorem scanBlock_isSome {is : List (LifeInsn R)}
    (h : ∀ i ∈ is, i.isNew = true → i.qimode = false ∧ i.isCall = false) (X : Finset R) :
    ∃ is' X', scanBlock is X = some (is', X') := by
  induction is with
  | nil => exact ⟨_, _, rfl⟩
  | cons i is ih =>
      obtain ⟨js, X₁, hjs⟩ := ih fun j hj => h j (List.mem_cons_of_mem _ hj)
      simp only [scanBlock, hjs, Option.bind_eq_bind, Option.bind_some]
      split
      · next hact =>
          have hold : i.isNew = false := by
            by_contra hn
            obtain ⟨hq, hc⟩ := h i List.mem_cons_self (by simpa using hn)
            simp [hq, hc] at hact
          obtain ⟨em, X₂, hrec⟩ : ∃ em X₂, recordRegLife i X₁ = some (em, X₂) := by
            unfold recordRegLife
            simp only [hold, Bool.false_eq_true, if_false]
            split
            · exact ⟨_, _, rfl⟩
            · split
              · exact ⟨_, _, rfl⟩
              · exact ⟨_, _, rfl⟩
          exact ⟨i :: (em ++ js), X₂, by simp [hrec]⟩
      · exact ⟨_, _, rfl⟩

theorem scanBlock_append (is js : List (LifeInsn R)) (X : Finset R) :
    scanBlock (is ++ js) X = (scanBlock js X).bind fun p =>
      (scanBlock is p.2).map fun q => (q.1 ++ p.1, q.2) := by
  induction is with
  | nil => cases h : scanBlock js X <;> simp [scanBlock, h]
  | cons i is ih =>
      simp only [List.cons_append, scanBlock, ih, Option.bind_eq_bind]
      cases scanBlock js X with
      | none => rfl
      | some p =>
          simp only [Option.bind_some]
          cases scanBlock is p.2 with
          | none => rfl
          | some q =>
              simp only [Option.map_some, Option.bind_some]
              split
              · cases recordRegLife i q.2 with
                | none => rfl
                | some r => simp
              · rfl

/-- A sequence of zero-initialising insns whose registers are all live is not scanned again. -/
theorem scanBlock_zeroInit {initSet Y : Finset R} (hcard : 1 < initSet.card) (hY : initSet ⊆ Y) :
    scanBlock (zeroInit initSet) Y = none := by
  have hne : zeroInit initSet ≠ [] := by
    intro h
    rw [zeroInit_eq_nil h] at hcard
    simp at hcard
  obtain ⟨init, last, hlast⟩ := (List.eq_nil_or_concat (zeroInit initSet)).resolve_left hne
  rw [List.concat_eq_append] at hlast
  have hmem : last ∈ zeroInit initSet := by simp [hlast]
  obtain ⟨hnew, hcall, hskip, hq, r, hdest⟩ := mem_zeroInit hmem
  have hlive : Y \ {r} ≠ ∅ := by
    intro hempty
    have hsub : initSet ⊆ {r} := fun x hx => by
      by_contra hxr
      have : x ∈ Y \ {r} := Finset.mem_sdiff.mpr ⟨hY hx, hxr⟩
      simp [hempty] at this
    have := Finset.card_le_card hsub
    simp at this
    omega
  have hone : scanBlock [last] Y = none := by
    simp only [scanBlock, Option.bind_eq_bind, Option.bind_some, hq, hcard, decide_true,
      Bool.true_or, if_true, recordRegLife, hskip, Bool.false_eq_true, if_false, hdest,
      if_neg hlive, hnew, Option.bind_none]
  rw [hlast, scanBlock_append, hone]
  rfl

/-- Where a scan has emitted a sequence the next one aborts. -/
theorem scanBlock_doomed {is is' : List (LifeInsn R)} {X X' : Finset R}
    (h : scanBlock is X = some (is', X')) (hold : ∀ i ∈ is, i.isNew = true → i.qimode = false)
    (hseq : ∃ i ∈ is', i.isNew = true ∧ i.qimode = true) {Y : Finset R} (hY : X ⊆ Y) :
    scanBlock is' Y = none := by
  induction is generalizing is' X' with
  | nil =>
      simp only [scanBlock, Option.some.injEq, Prod.mk.injEq] at h
      obtain ⟨i, hi, -⟩ := hseq
      simp [← h.1] at hi
  | cons i is ih =>
      simp only [scanBlock, Option.bind_eq_bind, Option.bind_eq_some_iff] at h
      obtain ⟨⟨js, X₁⟩, hjs, h⟩ := h
      have hold' : ∀ j ∈ is, j.isNew = true → j.qimode = false :=
        fun j hj => hold j (List.mem_cons_of_mem _ hj)
      have htail : (∃ j ∈ js, j.isNew = true ∧ j.qimode = true) → scanBlock js Y = none :=
        fun hex => ih hjs hold' hex
      have hself : ¬ (i.isNew = true ∧ i.qimode = true) := by
        rintro ⟨hn, hq⟩
        rw [hold i List.mem_cons_self hn] at hq
        cases hq
      have hcons : ∀ ks : List (LifeInsn R), scanBlock ks Y = none →
          scanBlock (i :: ks) Y = none := fun ks hks => by simp [scanBlock, hks]
      split at h
      · next hact =>
          obtain ⟨⟨em, X₂⟩, hrec, h⟩ := Option.bind_eq_some_iff.mp h
          simp only [Option.some.injEq, Prod.mk.injEq] at h
          obtain ⟨rfl, rfl⟩ := h
          obtain ⟨hX₂, initSet, rfl, hinit, -⟩ := recordRegLife_spec hact hrec
          refine hcons _ ?_
          change scanBlock (zeroInit initSet ++ js) Y = none
          rw [scanBlock_append]
          cases hagain : scanBlock js Y with
          | none => rfl
          | some p =>
              obtain ⟨ks, Y₁⟩ := p
              obtain ⟨j, hj, hjnew, hjq⟩ := hseq
              rcases List.mem_cons.mp hj with rfl | hj
              · exact absurd ⟨hjnew, hjq⟩ hself
              · rcases List.mem_append.mp hj with hj | hj
                · have hcard : 1 < initSet.card := by
                    have := (mem_zeroInit hj).2.2.2.1
                    rw [hjq] at this
                    simpa using this.symm
                  have hle : X₁ ⊆ Y₁ := by
                    rw [(scanBlock_spec hagain).live, (scanBlock_spec hjs).same,
                      (scanBlock_spec hjs).live]
                    exact transfer_mono is hY
                  rw [Option.bind_some, scanBlock_zeroInit hcard (hinit.trans hle)]
                  rfl
                · rw [htail ⟨j, hj, hjnew, hjq⟩] at hagain
                  cases hagain
      · simp only [Option.some.injEq, Prod.mk.injEq] at h
        obtain ⟨rfl, rfl⟩ := h
        obtain ⟨j, hj, hjnew, hjq⟩ := hseq
        rcases List.mem_cons.mp hj with rfl | hj
        · exact absurd ⟨hjnew, hjq⟩ hself
        · exact hcons _ (htail ⟨j, hj, hjnew, hjq⟩)

/-! ### The references of a label -/

section Refs

variable {out : Nat → Finset R} {stackIn : Nat → Finset R} {refs : List Nat} {block own : Nat}

theorem iorRegset_self (out : Nat → Finset R) (x : Nat) (X : Finset R) :
    iorRegset out x X x = out x ∪ X :=
  Function.update_self ..

theorem iorRegset_of_ne {x b : Nat} (h : b ≠ x) (X : Finset R) : iorRegset out x X b = out b :=
  Function.update_of_ne h _ _

theorem subset_iorRegset (out : Nat → Finset R) (x : Nat) (X : Finset R) (b : Nat) :
    out b ⊆ iorRegset out x X b := by
  by_cases h : b = x
  · subst h
    rw [iorRegset_self]
    exact Finset.subset_union_left
  · rw [iorRegset_of_ne h]

theorem subset_iorRegset_self (out : Nat → Finset R) (x : Nat) (X : Finset R) :
    X ⊆ iorRegset out x X x := by
  rw [iorRegset_self]
  exact Finset.subset_union_right

theorem refsLoop_grows (refs : List Nat) (block : Nat) (r : Bool) (out : Nat → Finset R) (b : Nat) :
    out b ⊆ (refsLoop stackIn refs block r out).2.2 b := by
  induction refs generalizing block r out with
  | nil => exact subset_rfl
  | cons j refs ih =>
      unfold refsLoop
      split
      · exact (subset_iorRegset out j _ b).trans (ih ..)
      · split
        · exact ih ..
        · exact (subset_iorRegset out j _ b).trans (ih ..)

/-- Where the loop leaves `block`, and which exit sets it does not touch. -/
theorem refsLoop_far (stackIn : Nat → Finset R) (refs : List Nat) (block : Nat) (r : Bool)
    (out : Nat → Finset R) :
    block ≤ (refsLoop stackIn refs block r out).1 ∧
      ((refsLoop stackIn refs block r out).1 = block ∨
        (refsLoop stackIn refs block r out).1 ∈ refs) ∧
      ∀ x, (refsLoop stackIn refs block r out).1 < x →
        (refsLoop stackIn refs block r out).2.2 x = out x := by
  induction refs generalizing block r out with
  | nil => exact ⟨le_rfl, .inl rfl, fun _ _ => rfl⟩
  | cons j refs ih =>
      unfold refsLoop
      split
      · next hlt =>
          obtain ⟨hle, hwhere, hfar⟩ := ih block r (iorRegset out j (stackIn block))
          refine ⟨hle, hwhere.imp_right (List.mem_cons_of_mem _), fun x hx => ?_⟩
          rw [hfar x hx, iorRegset_of_ne (by omega)]
      · split
        · obtain ⟨hle, hwhere, hfar⟩ := ih block r out
          exact ⟨hle, hwhere.imp_right (List.mem_cons_of_mem _), hfar⟩
        · obtain ⟨hle, hwhere, hfar⟩ := ih j true (iorRegset out j (stackIn block))
          refine ⟨by omega, .inr ?_, fun x hx => ?_⟩
          · rcases hwhere with hwhere | hwhere
            · rw [hwhere]
              exact List.mem_cons_self
            · exact List.mem_cons_of_mem _ hwhere
          · rw [hfar x hx, iorRegset_of_ne (by omega)]

/-- Without a restart every reference has the entry set, and later blocks are as they were. -/
theorem refsLoop_done (stackIn : Nat → Finset R) (refs : List Nat) (block : Nat) (r : Bool)
    (out : Nat → Finset R)
    (h : (refsLoop stackIn refs block r out).2.1 = false) :
    r = false ∧ (∀ j ∈ refs, stackIn block ⊆ (refsLoop stackIn refs block r out).2.2 j) ∧
      ∀ x, block ≤ x → (refsLoop stackIn refs block r out).2.2 x = out x := by
  induction refs generalizing block r out with
  | nil => exact ⟨h, by simp, fun _ _ => rfl⟩
  | cons j refs ih =>
      unfold refsLoop at h ⊢
      by_cases hlt : j < block
      · simp only [if_pos hlt] at h ⊢
        obtain ⟨hr, hrefs, hfar⟩ := ih _ _ _ h
        refine ⟨hr, fun k hk => ?_, fun x hx => ?_⟩
        · rcases List.mem_cons.mp hk with rfl | hk
          · exact (subset_iorRegset_self out k _).trans (refsLoop_grows ..)
          · exact hrefs k hk
        · rw [hfar x hx, iorRegset_of_ne (by omega)]
      · by_cases hsub : stackIn block ⊆ out j
        · simp only [if_neg hlt, if_pos hsub] at h ⊢
          obtain ⟨hr, hrefs, hfar⟩ := ih _ _ _ h
          refine ⟨hr, fun k hk => ?_, hfar⟩
          rcases List.mem_cons.mp hk with rfl | hk
          · exact hsub.trans (refsLoop_grows ..)
          · exact hrefs k hk
        · simp only [if_neg hlt, if_neg hsub] at h
          cases (ih _ _ _ h).1

/-- A restart has something to tell. -/
theorem refsLoop_restart (refs : List Nat) (block : Nat) (r : Bool) (out : Nat → Finset R)
    (h : (refsLoop stackIn refs block r out).2.1 = true) :
    r = true ∨ ∃ j ∈ refs, ¬ (refsLoop stackIn refs block r out).2.2 j ⊆ out j := by
  induction refs generalizing block r out with
  | nil => exact .inl h
  | cons j refs ih =>
      have hback : ∀ (X : Finset R) (Y : Nat → Finset R) (k : Nat),
          ¬ Y k ⊆ iorRegset out j X k → ¬ Y k ⊆ out k :=
        fun X Y k hk hsub => hk (hsub.trans (subset_iorRegset out j X k))
      unfold refsLoop at h ⊢
      by_cases hlt : j < block
      · simp only [if_pos hlt] at h ⊢
        rcases ih _ _ _ h with hr | ⟨k, hk, hnew⟩
        · exact .inl hr
        · exact .inr ⟨k, List.mem_cons_of_mem _ hk, hback _ _ k hnew⟩
      · by_cases hsub : stackIn block ⊆ out j
        · simp only [if_neg hlt, if_pos hsub] at h ⊢
          rcases ih _ _ _ h with hr | ⟨k, hk, hnew⟩
          · exact .inl hr
          · exact .inr ⟨k, List.mem_cons_of_mem _ hk, hnew⟩
        · simp only [if_neg hlt, if_neg hsub]
          refine .inr ⟨j, List.mem_cons_self, fun hle => hsub ?_⟩
          exact (subset_iorRegset_self out j _).trans ((refsLoop_grows ..).trans hle)

/-- The exit sets stay live if the strays are. -/
theorem refsLoop_live {F : Flow Nat R} (own : Nat) (refs : List Nat) (block : Nat) (r : Bool)
    (out : Nat → Finset R) (hown : ∀ j ∈ refs, F.LiveOut j (stackIn own))
    (hstray : ∀ p ∈ strays stackIn own refs block out, F.LiveOut p.1 p.2) {b : Nat}
    (hout : F.LiveOut b (out b)) : F.LiveOut b ((refsLoop stackIn refs block r out).2.2 b) := by
  induction refs generalizing block r out with
  | nil => exact hout
  | cons j refs ih =>
      have hown' : ∀ k ∈ refs, F.LiveOut k (stackIn own) :=
        fun k hk => hown k (List.mem_cons_of_mem _ hk)
      have hior : F.LiveOut j (stackIn block) →
          F.LiveOut b (iorRegset out j (stackIn block) b) := by
        intro hj
        by_cases hb : b = j
        · subst hb
          rw [iorRegset_self]
          exact hout.union hj
        · rw [iorRegset_of_ne hb]
          exact hout
      have hadd : (∀ p ∈ (if block = own then [] else [(j, stackIn block)]),
          F.LiveOut (p : Nat × Finset R).1 p.2) → F.LiveOut j (stackIn block) := by
        intro hp
        by_cases hbo : block = own
        · exact hbo ▸ hown j List.mem_cons_self
        · exact hp (j, stackIn block) (by simp [hbo])
      unfold refsLoop
      unfold strays at hstray
      by_cases hlt : j < block
      · simp only [if_pos hlt] at hstray ⊢
        have hj := hadd fun p hp => hstray p (List.mem_append_left _ hp)
        exact ih _ _ _ hown' (fun p hp => hstray p (List.mem_append_right _ hp)) (hior hj)
      · by_cases hsub : stackIn block ⊆ out j
        · simp only [if_neg hlt, if_pos hsub] at hstray ⊢
          exact ih _ _ _ hown' hstray hout
        · simp only [if_neg hlt, if_neg hsub] at hstray ⊢
          have hj := hadd fun p hp => hstray p (List.mem_append_left _ hp)
          exact ih _ _ _ hown' (fun p hp => hstray p (List.mem_append_right _ hp)) (hior hj)

/-- The strays belong to references of the label. -/
theorem strays_fst (refs : List Nat) (block : Nat) (out : Nat → Finset R) {p : Nat × Finset R}
    (hp : p ∈ strays stackIn own refs block out) : p.1 ∈ refs := by
  induction refs generalizing block out with
  | nil => simp [strays] at hp
  | cons j refs ih =>
      have hhead : p ∈ (if block = own then [] else [(j, stackIn block)]) → p.1 ∈ j :: refs := by
        intro hmem
        by_cases hbo : block = own
        · simp [hbo] at hmem
        · obtain rfl : p = (j, stackIn block) := by simpa [hbo] using hmem
          exact List.mem_cons_self
      unfold strays at hp
      by_cases hlt : j < block
      · simp only [if_pos hlt] at hp
        exact (List.mem_append.mp hp).elim hhead fun hp => List.mem_cons_of_mem _ (ih _ _ hp)
      · by_cases hsub : stackIn block ⊆ out j
        · simp only [if_neg hlt, if_pos hsub] at hp
          exact List.mem_cons_of_mem _ (ih _ _ hp)
        · simp only [if_neg hlt, if_neg hsub] at hp
          exact (List.mem_append.mp hp).elim hhead fun hp => List.mem_cons_of_mem _ (ih _ _ hp)

/-- The strays are in the exit sets. -/
theorem strays_subset (refs : List Nat) (block : Nat) (r : Bool) (out : Nat → Finset R)
    {p : Nat × Finset R} (hp : p ∈ strays stackIn own refs block out) :
    p.2 ⊆ (refsLoop stackIn refs block r out).2.2 p.1 := by
  induction refs generalizing block r out with
  | nil => simp [strays] at hp
  | cons j refs ih =>
      have hhead : ∀ (b : Nat) (r : Bool), p ∈ (if block = own then [] else [(j, stackIn block)]) →
          p.2 ⊆ (refsLoop stackIn refs b r (iorRegset out j (stackIn block))).2.2 p.1 := by
        intro b r hmem
        by_cases hbo : block = own
        · simp [hbo] at hmem
        · obtain rfl : p = (j, stackIn block) := by simpa [hbo] using hmem
          exact (subset_iorRegset_self out j _).trans (refsLoop_grows ..)
      unfold strays at hp
      unfold refsLoop
      by_cases hlt : j < block
      · simp only [if_pos hlt] at hp ⊢
        rcases List.mem_append.mp hp with hp | hp
        · exact hhead _ _ hp
        · exact ih _ _ _ hp
      · by_cases hsub : stackIn block ⊆ out j
        · simp only [if_neg hlt, if_pos hsub] at hp ⊢
          exact ih _ _ _ hp
        · simp only [if_neg hlt, if_neg hsub] at hp ⊢
          rcases List.mem_append.mp hp with hp | hp
          · exact hhead _ _ hp
          · exact ih _ _ _ hp

end Refs

/-! ### A turn of the loop -/

variable {g : Cfg R} {s s' : Life R}

/-- What a turn does: the block is scanned, the references of its label are gone through, and the
loop goes back or on. -/
theorem turn_cases (h : Turn g s s') :
    ∃ block insns regSet, s.left = block + 1 ∧
      scanBlock (s.code block) (s.out block) = some (insns, regSet) ∧
      let code := Function.update s.code block insns
      let stackIn := Function.update s.stackIn block regSet
      let p := refsLoop stackIn ((g.labelRefs block).getD []) block false s.out
      (p.2.1 = true ∧ s' = ⟨p.1 + 1, code, stackIn, p.2.2⟩) ∨
      (p.2.1 = false ∧ s' = ⟨block, code, stackIn,
        if g.dropsIn block then iorRegset p.2.2 (block - 1) regSet else p.2.2⟩) := by
  unfold Turn lifeStep at h
  cases hleft : s.left with
  | zero => simp [hleft] at h
  | succ block =>
      simp only [hleft] at h
      cases hscan : scanBlock (s.code block) (s.out block) with
      | none => simp [hscan] at h
      | some q =>
          obtain ⟨insns, regSet⟩ := q
          simp only [hscan] at h
          refine ⟨block, insns, regSet, rfl, hscan, ?_⟩
          simp only
          generalize refsLoop (Function.update s.stackIn block regSet)
            ((g.labelRefs block).getD []) block false s.out = p at h ⊢
          obtain ⟨block', restart, out⟩ := p
          cases restart with
          | true => exact .inl ⟨rfl, (Sum.inl.inj h).symm⟩
          | false => exact .inr ⟨rfl, (Sum.inl.inj h).symm⟩

/-- What holds of the tables in every turn: the blocks have the effect of the given ones, a block
with a new sequence of insns cannot be scanned again, and for the blocks that are done the
equations hold. -/
structure Inv (g : Cfg R) (s : Life R) : Prop where
  left_le : s.left ≤ g.blocks
  same : ∀ b Y, transfer (s.code b) Y = transfer (g.code b) Y
  calls : ∀ b, ∀ i ∈ s.code b, i.isNew = true → i.isCall = false
  doomed : ∀ b, (∃ i ∈ s.code b, i.isNew = true ∧ i.qimode = true) →
    ∀ Y, s.out b ⊆ Y → scanBlock (s.code b) Y = none
  entry : ∀ b, s.left ≤ b → b < g.blocks → s.stackIn b = transfer (g.code b) (s.out b)
  succ : ∀ c, s.left ≤ c → c < g.blocks → ∀ b, g.flow.succ b c → s.stackIn c ⊆ s.out b
  seed : ∀ b, g.returns b ⊆ s.out b

theorem Inv.start (g : Cfg R) : Inv g g.start where
  left_le := le_rfl
  same _ _ := rfl
  calls b i hi hn := by
    rw [g.original b i hi] at hn
    cases hn
  doomed b := by
    rintro ⟨i, hi, hn, -⟩
    rw [g.original b i hi] at hn
    cases hn
  entry b hle hlt := absurd hlt (Nat.not_lt.mpr hle)
  succ c hle hlt := absurd hlt (Nat.not_lt.mpr hle)
  seed _ := subset_rfl

/-- The exit sets grow. -/
theorem turn_grows (h : Turn g s s') (b : Nat) : s.out b ⊆ s'.out b := by
  obtain ⟨block, insns, regSet, -, -, ⟨-, rfl⟩ | ⟨-, rfl⟩⟩ := turn_cases h
  · exact refsLoop_grows ..
  · dsimp only
    split
    · exact (refsLoop_grows ..).trans (subset_iorRegset ..)
    · exact refsLoop_grows ..

omit [LinearOrder R] in
theorem refs_lt (g : Cfg R) {b j : Nat} (hj : j ∈ (g.labelRefs b).getD []) : j < g.blocks := by
  cases h : g.labelRefs b with
  | none => simp [h] at hj
  | some refs => exact g.refs_lt b refs h j (by simpa [h] using hj)

theorem Inv.turn (hi : Inv g s) (h : Turn g s s') : Inv g s' := by
  have hgrow := turn_grows h
  obtain ⟨block, insns, regSet, hleft, hscan, hcase⟩ := turn_cases h
  have hscanned := scanBlock_spec hscan
  have hblock : block < g.blocks := by
    have := hi.left_le
    omega
  -- the tables, whichever way the loop goes
  have hcode : s'.code = Function.update s.code block insns := by
    obtain ⟨-, rfl⟩ | ⟨-, rfl⟩ := hcase <;> rfl
  have hin : s'.stackIn = Function.update s.stackIn block regSet := by
    obtain ⟨-, rfl⟩ | ⟨-, rfl⟩ := hcase <;> rfl
  have hself : s'.stackIn block = transfer (g.code block) (s.out block) := by
    rw [hin, Function.update_self, hscanned.live, hi.same]
  have hother : ∀ b, block < b → s'.stackIn b = s.stackIn b := by
    intro b hb
    rw [hin, Function.update_of_ne (by omega)]
  refine ⟨?_, ?_, ?_, ?_, ?_, ?_, fun b => (hi.seed b).trans (hgrow b)⟩
  · obtain ⟨-, rfl⟩ | ⟨-, rfl⟩ := hcase
    · rcases (refsLoop_far (Function.update s.stackIn block regSet)
        ((g.labelRefs block).getD []) block false s.out).2.1 with hwhere | hwhere
      · dsimp only
        omega
      · exact refs_lt g hwhere
    · exact hblock.le
  · intro b Y
    rw [hcode]
    by_cases hb : b = block
    · subst hb
      rw [Function.update_self, hscanned.same, hi.same]
    · rw [Function.update_of_ne hb, hi.same]
  · intro b i hmem hn
    rw [hcode] at hmem
    by_cases hb : b = block
    · subst hb
      rw [Function.update_self] at hmem
      rcases hscanned.new i hmem with hold | ⟨-, hcall⟩
      · exact hi.calls b i hold hn
      · exact hcall
    · rw [Function.update_of_ne hb] at hmem
      exact hi.calls b i hmem hn
  · intro b hseq Y hY
    rw [hcode] at hseq ⊢
    by_cases hb : b = block
    · subst hb
      rw [Function.update_self] at hseq ⊢
      refine scanBlock_doomed hscan (fun i hmem hn => ?_) hseq ((hgrow b).trans hY)
      by_contra hq
      have := hi.doomed b ⟨i, hmem, hn, by simpa using hq⟩ _ subset_rfl
      rw [hscan] at this
      cases this
    · rw [Function.update_of_ne hb] at hseq ⊢
      exact hi.doomed b hseq Y ((hgrow b).trans hY)
  · intro b hle hlt
    obtain ⟨hr, rfl⟩ | ⟨hr, rfl⟩ := hcase
    · -- the loop goes back: the blocks above are not touched
      obtain ⟨hfrom, -, hfar⟩ := refsLoop_far (Function.update s.stackIn block regSet)
        ((g.labelRefs block).getD []) block false s.out
      have hb : block < b := hfrom.trans_lt hle
      refine (hother b hb).trans ((hi.entry b (by omega) hlt).trans ?_)
      dsimp only
      rw [hfar b hle]
    · obtain ⟨-, -, hfar⟩ := refsLoop_done (Function.update s.stackIn block regSet)
        ((g.labelRefs block).getD []) block false s.out hr
      have hout : (if g.dropsIn block then iorRegset (refsLoop (Function.update s.stackIn block
          regSet) ((g.labelRefs block).getD []) block false s.out).2.2 (block - 1) regSet
          else (refsLoop (Function.update s.stackIn block regSet)
            ((g.labelRefs block).getD []) block false s.out).2.2) b = s.out b := by
        split
        · next hdrop =>
            have hpos : block ≠ 0 := by
              rintro rfl
              rw [g.first] at hdrop
              cases hdrop
            have hle' : block ≤ b := hle
            rw [iorRegset_of_ne (by omega), hfar b hle]
        · exact hfar b hle
      dsimp only at hout ⊢
      rw [hout]
      rcases Nat.eq_or_lt_of_le hle with hb | hb
      · obtain rfl : block = b := hb
        exact hself
      · exact (hother b hb).trans (hi.entry b (by have : block < b := hb; omega) hlt)
  · intro c hle hlt b hsucc
    have hc : block ≤ c := by
      obtain ⟨-, rfl⟩ | ⟨-, rfl⟩ := hcase
      · have hfrom := (refsLoop_far (Function.update s.stackIn block regSet)
          ((g.labelRefs block).getD []) block false s.out).1
        exact hfrom.trans (Nat.le_of_succ_le hle)
      · exact hle
    rcases Nat.eq_or_lt_of_le hc with rfl | hc
    · -- the block itself, when the loop goes on
      obtain ⟨-, rfl⟩ | ⟨hr, rfl⟩ := hcase
      · have hfrom := (refsLoop_far (Function.update s.stackIn block regSet)
          ((g.labelRefs block).getD []) block false s.out).1
        exact absurd (Nat.lt_of_succ_le hle) (by simpa using hfrom)
      · obtain ⟨-, hrefs, -⟩ := refsLoop_done (Function.update s.stackIn block regSet)
          ((g.labelRefs block).getD []) block false s.out hr
        dsimp only
        rcases hsucc with hj | ⟨hdrop, hb⟩
        · refine (hrefs b hj).trans ?_
          split
          · exact subset_iorRegset ..
          · exact subset_rfl
        · obtain rfl : b = block - 1 := by omega
          rw [if_pos hdrop, Function.update_self]
          exact subset_iorRegset_self ..
    · rw [hother c hc]
      exact (hi.succ c (by omega) hlt b hsucc).trans (hgrow b)

/-- When all blocks are done the tables solve the equations. -/
theorem Inv.solves (hi : Inv g s) (hdone : s.left = 0) : g.flow.Solves s.stackIn s.out where
  entry b hb := hi.entry b (by omega) (Finset.mem_range.mp hb)
  seed b _ := hi.seed b
  succ b _ c hc := hi.succ c (by omega) (Finset.mem_range.mp hc) b

/-- A turn that meets the condition does not abort. -/
theorem Inv.turns (hi : Inv g s) (hclean : Clean g s) (hleft : s.left ≠ 0) :
    ∃ s', lifeStep g s = .inl s' := by
  obtain ⟨block, hblock⟩ := Nat.exists_eq_succ_of_ne_zero hleft
  have hold : ∀ i ∈ s.code block, i.isNew = true → i.qimode = false ∧ i.isCall = false :=
    fun i hmem hn => ⟨(hclean block hblock).1 i hmem hn, hi.calls block i hmem hn⟩
  obtain ⟨insns, regSet, hscan⟩ := scanBlock_isSome hold (s.out block)
  unfold lifeStep
  simp only [hblock, hscan]
  generalize refsLoop (Function.update s.stackIn block regSet) ((g.labelRefs block).getD []) block
    false s.out = p
  obtain ⟨block', restart, out⟩ := p
  cases restart with
  | true => exact ⟨_, rfl⟩
  | false => exact ⟨_, rfl⟩

/-- The sets of the tables are live. -/
def Live (g : Cfg R) (s : Life R) : Prop :=
  ∀ b, b < g.blocks → g.flow.LiveIn b (s.stackIn b) ∧ g.flow.LiveOut b (s.out b)

theorem Live.start (g : Cfg R) : Live g g.start :=
  fun _ hb => ⟨Flow.LiveIn.empty, Flow.LiveOut.seed (F := g.flow) (Finset.mem_range.mpr hb)⟩

theorem Live.turn (hl : Live g s) (hi : Inv g s) (hclean : Clean g s) (h : Turn g s s') :
    Live g s' := by
  obtain ⟨block, insns, regSet, hleft, hscan, hcase⟩ := turn_cases h
  have hblock : block < g.blocks := by
    have := hi.left_le
    omega
  have hreg : regSet = transfer (s.code block) (s.out block) := (scanBlock_spec hscan).live
  have hentry : g.flow.LiveIn block regSet := by
    rw [hreg, hi.same]
    exact (hl block hblock).2.transfer (Finset.mem_range.mpr hblock)
  have hin : ∀ b, b < g.blocks →
      g.flow.LiveIn b (Function.update s.stackIn block regSet b) := by
    intro b hb
    by_cases hbb : b = block
    · subst hbb
      rwa [Function.update_self]
    · rw [Function.update_of_ne hbb]
      exact (hl b hb).1
  have hout : ∀ b, b < g.blocks → g.flow.LiveOut b
      ((refsLoop (Function.update s.stackIn block regSet) ((g.labelRefs block).getD []) block false
        s.out).2.2 b) := by
    intro b hb
    refine refsLoop_live block _ _ _ _ (fun j hj => ?_) ?_ (hl b hb).2
    · rw [Function.update_self]
      exact hentry.succ (Finset.mem_range.mpr (refs_lt g hj)) (Finset.mem_range.mpr hblock)
        (.inl hj)
    · rw [hreg]
      exact (hclean block hleft).2
  obtain ⟨-, rfl⟩ | ⟨-, rfl⟩ := hcase
  · exact fun b hb => ⟨hin b hb, hout b hb⟩
  · refine fun b hb => ⟨hin b hb, ?_⟩
    dsimp only
    split
    · next hdrop =>
        have hpos : block ≠ 0 := by
          rintro rfl
          rw [g.first] at hdrop
          cases hdrop
        by_cases hbb : b = block - 1
        · subst hbb
          rw [iorRegset_self]
          refine (hout _ hb).union ?_
          exact hentry.succ (Finset.mem_range.mpr hb) (Finset.mem_range.mpr hblock)
            (.inr ⟨hdrop, by omega⟩)
        · rw [iorRegset_of_ne hbb]
          exact hout b hb
    · exact hout b hb

/-! ### The loop -/

/-- The loop has been run for some turns. -/
def Run (g : Cfg R) (s s' : Life R) : Prop := Relation.ReflTransGen (Turn g) s s'

theorem Run.inv (h : Run g g.start s) : Inv g s := by
  induction h with
  | refl => exact Inv.start g
  | tail hrun hturn ih => exact ih.turn hturn

theorem Run.live (hclean : ∀ s, Run g g.start s → Clean g s) (h : Run g g.start s) : Live g s := by
  induction h with
  | refl => exact Live.start g
  | tail hrun hturn ih => exact ih.turn (Run.inv hrun) (hclean _ hrun) hturn

theorem Run.grows (h : Run g s s') (b : Nat) : s.out b ⊆ s'.out b := by
  induction h with
  | refl => exact subset_rfl
  | tail hrun hturn ih => exact ih.trans (turn_grows hturn b)

/-- What is not in the exit sets, and the blocks that are left. -/
def weight [Fintype R] (g : Cfg R) (s : Life R) : Nat :=
  (∑ b ∈ Finset.range g.blocks, ((s.out b)ᶜ).card) * (g.blocks + 1) + s.left

theorem weight_turn [Fintype R] (hi : Inv g s) (h : Turn g s s') : weight g s' < weight g s := by
  have hgrow := turn_grows h
  have hle := (hi.turn h).left_le
  have hsub : ∀ b, (s'.out b)ᶜ ⊆ (s.out b)ᶜ := fun b => Finset.compl_subset_compl.mpr (hgrow b)
  obtain ⟨block, insns, regSet, hleft, hscan, ⟨hr, rfl⟩ | ⟨hr, rfl⟩⟩ := turn_cases h
  · -- the loop goes back because an exit set has grown
    have hlt : ∑ b ∈ Finset.range g.blocks, ((refsLoop (Function.update s.stackIn block regSet)
        ((g.labelRefs block).getD []) block false s.out).2.2 b)ᶜ.card
        < ∑ b ∈ Finset.range g.blocks, ((s.out b)ᶜ).card := by
      obtain hr' | ⟨j, hj, hnew⟩ := refsLoop_restart _ _ _ _ hr
      · cases hr'
      · refine Finset.sum_lt_sum (fun b _ => Finset.card_le_card (hsub b))
          ⟨j, Finset.mem_range.mpr (refs_lt g hj), Finset.card_lt_card ⟨hsub j, fun hback => ?_⟩⟩
        exact hnew (Finset.compl_subset_compl.mp hback)
    unfold weight
    dsimp only at hle ⊢
    calc _ < _ * (g.blocks + 1) + (g.blocks + 1) := Nat.add_lt_add_left (Nat.lt_succ_of_le hle) _
      _ = (_ + 1) * (g.blocks + 1) := (Nat.succ_mul ..).symm
      _ ≤ _ * (g.blocks + 1) := Nat.mul_le_mul_right _ hlt
      _ ≤ _ := Nat.le_add_right ..
  · have hsum := Finset.sum_le_sum fun b (_ : b ∈ Finset.range g.blocks) =>
      Finset.card_le_card (hsub b)
    refine Nat.add_lt_add_of_le_of_lt (Nat.mul_le_mul_right _ hsum) ?_
    dsimp only
    omega

theorem life_ends [Fintype R] (g : Cfg R) : ∃ r, Ends (lifeStep g) g.start r :=
  ends_of_measure (weight g) (fun _ hi _ h => ⟨Inv.turn hi h, weight_turn hi h⟩) (Inv.start g)

/-- The loop ends well with the tables of its last turn. -/
theorem lifeStep_last {sf : Life R} (h : lifeStep g s = .inr (some sf)) : s = sf := by
  unfold lifeStep at h
  split at h
  · exact Option.some.inj (Sum.inr.inj h)
  · split at h
    · cases h
    · dsimp only at h
      split at h
      · cases h
      · cases h

/-- A run that ends well does not abort on the way. -/
theorem Run.turns {sf : Life R} (h : Ends (lifeStep g) s (some sf)) (hleft : s.left ≠ 0) :
    ∃ s', lifeStep g s = .inl s' ∧ Ends (lifeStep g) s' (some sf) := by
  cases h with
  | next hstep hends => exact ⟨_, hstep, hends⟩
  | done hlast =>
      obtain ⟨block, hblock⟩ := Nat.exists_eq_succ_of_ne_zero hleft
      unfold lifeStep at hlast
      simp only [hblock] at hlast
      split at hlast
      · cases hlast
      · split at hlast
        · cases hlast
        · cases hlast

/-- In an analysis with the least solution every turn meets the condition. -/
theorem Run.clean {sf : Life R} (hrun : Run g g.start s) (h : Ends (lifeStep g) g.start (some sf))
    (hleast : g.flow.Least sf.stackIn sf.out) : Clean g s := by
  intro block hleft
  have hi := Run.inv hrun
  obtain ⟨s', hturn, hends⟩ := Run.turns ((ends_of_steps hrun).mp h) (by omega)
  refine ⟨fun i hmem hn => ?_, fun p hp => ?_⟩
  · -- a sequence of new insns would abort the scan
    by_contra hq
    obtain ⟨block', insns, regSet, hleft', hscan, -⟩ := turn_cases hturn
    obtain rfl : block = block' := by omega
    rw [hi.doomed block ⟨i, hmem, hn, by simpa using hq⟩ _ subset_rfl] at hscan
    cases hscan
  · obtain ⟨sf', hrun', hlast⟩ := hends.steps
    obtain rfl := lifeStep_last hlast
    have hmem : p.2 ⊆ s'.out p.1 := by
      obtain ⟨block', insns, regSet, hleft', hscan, hcase⟩ := turn_cases hturn
      obtain rfl : block = block' := by omega
      rw [← (scanBlock_spec hscan).live] at hp
      have hsub := strays_subset _ _ false _ hp
      obtain ⟨-, rfl⟩ | ⟨-, rfl⟩ := hcase
      · exact hsub
      · dsimp only
        split
        · exact hsub.trans (subset_iorRegset ..)
        · exact hsub
    refine (hleast.liveOut (Finset.mem_range.mpr ?_)).mono (hmem.trans (Run.grows hrun' _))
    exact refs_lt g (strays_fst _ _ _ hp)

/-- The analysis finds what it should if and only if every turn of its loop meets the condition, and
nothing is live at the function's start. -/
theorem analysed_iff [Fintype R] (g : Cfg R) :
    g.Analysed ↔ (∀ s, Run g g.start s → Clean g s) ∧
      ∃ into out, g.flow.Solves into out ∧ into 0 = ∅ := by
  constructor
  · rintro ⟨sf, hends, hleast, hzero, -⟩
    exact ⟨fun s hrun => Run.clean hrun hends hleast, sf.stackIn, sf.out, hleast.1, hzero⟩
  · rintro ⟨hclean, into, out, hsolves, hzero⟩
    obtain ⟨r, hends⟩ := life_ends g
    obtain ⟨sf, hrun, hlast⟩ := hends.steps
    have hi := Run.inv hrun
    have hdone : sf.left = 0 := by
      by_contra hleft
      obtain ⟨s', hnext⟩ := hi.turns (hclean sf hrun) hleft
      rw [hnext] at hlast
      cases hlast
    have hlive := Run.live hclean hrun
    have hfirst : sf.stackIn 0 = ∅ :=
      Finset.subset_empty.mp (hzero ▸ (hlive 0 g.pos).1 into out hsolves)
    obtain rfl : some sf = r := by
      simpa [lifeStep, hdone] using hlast
    refine ⟨sf, hends, Flow.least_of_live (hi.solves hdone)
      (fun b hb => hlive b (Finset.mem_range.mp hb)), hfirst, ?_⟩
    simp [Life.zeroInitFirst, hfirst, zeroInit]

/-! ### Two functions -/

/-- An insn of a function, with the registers it uses and sets. -/
def LifeInsn.of (src dest : Finset (Fin 6)) : LifeInsn (Fin 6) :=
  ⟨true, false, false, src, dest, ∅, false⟩

/-- A function that returns an uninitialised variable. -/
def uninitialised : Cfg (Fin 6) where
  blocks := 1
  code b := if b = 0 then [.of {3} ∅] else []
  labelRefs _ := none
  dropsIn _ := false
  returns _ := ∅
  pos := by decide
  refs_lt _ _ h := by cases h
  first := rfl
  original b i hi := by
    split at hi
    · obtain rfl := List.mem_singleton.mp hi
      rfl
    · cases hi

/-- A loop with two jumps back to its label, at the ends of blocks 3 and 2; block 1 sets a register
that only block 3 uses. -/
def twoJumps : Cfg (Fin 6) where
  blocks := 4
  code b := match b with
    | 0 => [.of ∅ {0}]
    | 1 => [.of {0} {1}]
    | 3 => [.of {1} ∅]
    | _ => []
  labelRefs b := match b with
    | 1 => some [3, 2]
    | 3 => some [1]
    | _ => none
  dropsIn b := b == 1 || b == 2
  returns _ := ∅
  pos := by decide
  refs_lt b refs h j hj := by
    split at h
    · obtain rfl := Option.some.inj h
      simp only [List.mem_cons, List.not_mem_nil, or_false] at hj
      omega
    · obtain rfl := Option.some.inj h
      simp only [List.mem_cons, List.not_mem_nil, or_false] at hj
      omega
    · cases h
  first := rfl
  original b i hi := by
    split at hi
    · obtain rfl := List.mem_singleton.mp hi
      rfl
    · obtain rfl := List.mem_singleton.mp hi
      rfl
    · obtain rfl := List.mem_singleton.mp hi
      rfl
    · cases hi

/-- What is live in `twoJumps`. -/
def twoJumpsIn (b : Nat) : Finset (Fin 6) := match b with
  | 1 => {0}
  | 2 => {0}
  | 3 => {0, 1}
  | _ => ∅

def twoJumpsOut (b : Nat) : Finset (Fin 6) := match b with
  | 1 => {0, 1}
  | _ => {0}

theorem twoJumps_solved : twoJumps.flow.Solves twoJumpsIn twoJumpsOut where
  entry := by decide
  seed b _ := Finset.empty_subset _
  succ := by
    change ∀ b ∈ Finset.range 4, ∀ c ∈ Finset.range 4, (b ∈ (twoJumps.labelRefs c).getD [] ∨
      (twoJumps.dropsIn c = true ∧ b + 1 = c)) → twoJumpsIn c ⊆ twoJumpsOut b
    decide

/-- After three turns the register of block 3 is in the exit set of block 2. -/
theorem twoJumps_run : ∃ s, Run twoJumps twoJumps.start s ∧ 1 ∈ s.out 2 :=
  ⟨_, .tail (.tail (.tail .refl rfl) rfl) rfl, by decide⟩

/-- The variable is live at the function's start, and the register of block 3 is taken to be live
at the end of block 2. -/
theorem analysis_misses : ¬ uninitialised.Analysed ∧ ¬ twoJumps.Analysed := by
  constructor
  · rintro ⟨s, -, hleast, hzero, -⟩
    have hentry : s.stackIn 0 = ((s.out 0 \ ∅) \ ∅) ∪ {3} := hleast.1.entry 0 (by decide)
    have hmem : (3 : Fin 6) ∈ s.stackIn 0 := by
      rw [hentry]
      exact Finset.mem_union_right _ (Finset.mem_singleton_self _)
    rw [hzero] at hmem
    cases hmem
  · rintro ⟨sf, hends, hleast, -, -⟩
    obtain ⟨s, hrun, hmem⟩ := twoJumps_run
    have hlate : Ends (lifeStep twoJumps) s (some sf) := (ends_of_steps hrun).mp hends
    obtain ⟨s', hrun', hlast⟩ := hlate.steps
    obtain rfl := lifeStep_last hlast
    have hout := (hleast.2 _ _ twoJumps_solved 2 (by decide)).2 (Run.grows hrun' 2 hmem)
    revert hout
    decide

end Ttools.T800
