import Ttools.Ast.Names
import Ttools.Expr.Halt
import Ttools.Support.Acyclic

/-!
# Values of names have no cycles

`name_assign_value` (`shared/misc.c`) looks with `expr_name_mentioned` whether the expression leads
to the name, through the values of other names, before it assigns the one to the other.

* `exprNameMentioned_eq`: where the values have no cycle the search comes to an end, and finds the
  name exactly when the expression leads to it.
* `assignAll_settles`: no sequence of assignments makes a cycle; it assigns what `assigned` says.
* `Loopless`: a computation that makes no cycle; the actions, one after the other.
* `run_searches`: no source makes a cycle.
-/

namespace Ttools

open Support (Acyclic RankedBy)

/-- The value of the name `a` mentions `b`. -/
def Store.LeadsTo (st : Store) (a b : NameId) : Prop := ∃ v, (st.name a).val = some v ∧ v.Mentions b

/-- The expression leads to the name. -/
def Store.Leads (st : Store) (e : Expr) (np : NameId) : Prop :=
  ∃ b, e.Mentions b ∧ Relation.ReflTransGen st.LeadsTo b np

/-- Only the values count. -/
theorem leadsTo_congr {st st' : Store} (h : ∀ n, (st.name n).val = (st'.name n).val) :
    st.LeadsTo = st'.LeadsTo := by
  funext a b
  rw [Store.LeadsTo, Store.LeadsTo, h]

/-- More values lead to more names. -/
theorem leads_mono {st st' : Store} {e : Expr} {np : NameId}
    (h : ∀ n v, (st.name n).val = some v → (st'.name n).val = some v) (hl : st.Leads e np) :
    st'.Leads e np := by
  obtain ⟨n, hn, hpath⟩ := hl
  refine ⟨n, hn, ?_⟩
  induction hpath with
  | refl => exact .refl
  | @tail b c _ hstep ih =>
      obtain ⟨v, hv, hc⟩ := hstep
      exact ih.tail ⟨v, h b v hv, hc⟩

/-- What leads to a name after an assignment led there before, or the value that is assigned did. -/
theorem leads_setVal {st : Store} {e v : Expr} {a np : NameId} (h : (st.setVal a v).Leads e np) :
    st.Leads e np ∨ st.Leads v np := by
  obtain ⟨n, hn, hpath⟩ := h
  suffices hn' : Relation.ReflTransGen st.LeadsTo n np ∨ st.Leads v np from
    hn'.imp_left fun hp => ⟨n, hn, hp⟩
  clear hn
  induction hpath using Relation.ReflTransGen.head_induction_on with
  | refl => exact .inl .refl
  | @head b c hstep _ ih =>
      rcases ih with hc | hv
      · obtain ⟨w, hw, hm⟩ := hstep
        by_cases hb : b = a
        · subst hb
          obtain rfl : v = w := by simpa [Store.setVal] using hw
          exact .inr ⟨c, hm, hc⟩
        · exact .inl (.head ⟨w, by simpa [Store.setVal, hb] using hw, hm⟩ hc)
      · exact .inr hv

/-- An expression mentions finitely many names. -/
theorem Expr.mentions_finite (e : Expr) : {b | e.Mentions b}.Finite := by
  induction e with
  | unop _ r ih => exact ih
  | binop _ l r ihl ihr => exact ihl.union ihr
  | name m => exact Set.finite_singleton m |>.subset fun b hb => hb.symm
  | _ => exact Set.finite_empty

namespace Asm

open Support (Logged)
open Support.Logged

section

variable {st : Store} {np : NameId} {e : Expr} {rank : NameId → Nat} {fuel : Nat}

/-- A name leads where its value leads. -/
theorem leads_name {n : NameId} {v : Expr} (hv : (st.name n).val = some v) (hne : n ≠ np) :
    st.Leads (.name n) np ↔ st.Leads v np := by
  constructor
  · rintro ⟨b, hb, hpath⟩
    obtain rfl : n = b := hb
    rcases hpath.cases_head with rfl | ⟨c, ⟨v', hv', hc⟩, hrest⟩
    · exact absurd rfl hne
    · rw [hv] at hv'
      cases hv'
      exact ⟨c, hc, hrest⟩
  · rintro ⟨b, hb, hpath⟩
    exact ⟨n, rfl, .head ⟨v, hv, hb⟩ hpath⟩

/-- **The search is exact**, with more fuel than the names of the expression have ranks. -/
theorem exprNameMentioned_eq (hrank : RankedBy rank st.LeadsTo) (hpos : 0 < fuel)
    (he : ∀ b, e.Mentions b → rank b + 1 < fuel) :
    ∃ b, exprNameMentioned st np fuel e = some b ∧ (b = true ↔ st.Leads e np) := by
  induction fuel generalizing e with
  | zero => exact absurd hpos (lt_irrefl 0)
  | succ fuel ih =>
      rw [exprNameMentioned]
      induction e with
      | unop t r ihr => exact ihr he
      | binop t l r ihl ihr =>
          obtain ⟨b, hb, hiff⟩ := ihr fun n hn => he n (.inr hn)
          obtain ⟨b', hb', hiff'⟩ := ihl fun n hn => he n (.inl hn)
          have hleads : st.Leads (.binop t l r) np ↔ st.Leads r np ∨ st.Leads l np := by
            constructor
            · rintro ⟨n, hn | hn, hpath⟩
              · exact .inr ⟨n, hn, hpath⟩
              · exact .inl ⟨n, hn, hpath⟩
            · rintro (⟨n, hn, hpath⟩ | ⟨n, hn, hpath⟩)
              · exact ⟨n, .inr hn, hpath⟩
              · exact ⟨n, .inl hn, hpath⟩
          rw [hleads, ← hiff, ← hiff', mentioned, hb]
          cases b with
          | true => exact ⟨true, rfl, by simp⟩
          | false => exact ⟨b', hb', by simp⟩
      | name n =>
          rw [mentioned]
          by_cases hne : n = np
          · exact ⟨true, if_pos hne, iff_of_true rfl ⟨n, rfl, hne ▸ .refl⟩⟩
          · rw [if_neg hne]
            have hn : rank n + 1 < fuel + 1 := he n rfl
            rcases hv : (st.name n).val with _ | v
            · refine ⟨false, rfl, iff_of_false (by simp) ?_⟩
              rintro ⟨b, hb, hpath⟩
              obtain rfl : n = b := hb
              rcases hpath.cases_head with rfl | ⟨c, ⟨v, hv', -⟩, -⟩
              · exact hne rfl
              · rw [hv] at hv'
                cases hv'
            · rw [leads_name hv hne]
              refine ih (by omega) fun b hb => ?_
              have hlt := hrank n b ⟨v, hv, hb⟩
              omega
      | _ =>
          refine ⟨false, rfl, iff_of_false (by simp) ?_⟩
          rintro ⟨b, hb, -⟩
          exact hb

/-- The check of an alignment comes to an end too. -/
theorem exprCheckAlignment_settles (hrank : RankedBy rank st.LeadsTo) (align : Word)
    (hpos : 0 < fuel) (he : ∀ b, e.Mentions b → rank b + 1 < fuel) {m : Memory}
    (hm : m.store = st) : Ensures (fun _ => True) (fun _ => False) (exprCheckAlignment fuel align e)
      (fun _ m' => m'.store = st) m := by
  induction fuel generalizing e m with
  | zero => exact absurd hpos (lt_irrefl 0)
  | succ fuel ih =>
      rw [exprCheckAlignment]
      induction e generalizing m with
      | name n =>
          rw [checkAlignment, checkName, ensures_bind, ensures_get]
          have hn : rank n + 1 < fuel + 1 := he n rfl
          split
          · simp [hm]
          · rw [hm]
            rcases hv : st.localVal n with _ | v
            · exact ensures_pure.mpr hm
            · have hval : (st.name n).val = some v := by
                rw [Store.localVal] at hv
                split at hv
                · cases hv
                · exact hv
              refine ih (by omega) (fun b hb => ?_) hm
              have hlt := hrank n b ⟨v, hval, hb⟩
              omega
      | binop t l r ihl ihr =>
          cases t with
          | plus | minus =>
              rw [checkAlignment, ensures_bind]
              refine (ihl (fun b hb => he b (.inl hb)) hm).mono fun _ m' hm' => ?_
              rw [ensures_bind]
              refine (ihr (fun b hb => he b (.inr hb)) hm').mono fun _ m'' hm'' => ?_
              exact ensures_pure.mpr hm''
          | _ => exact ensures_pure.mpr hm
      | _ => exact ensures_pure.mpr hm

/-- There is fuel that is more than the ranks of the names in the expression. -/
theorem enough_fuel (rank : NameId → Nat) (e : Expr) :
    ∃ n, 0 < n ∧ ∀ b, e.Mentions b → rank b + 1 < n := by
  obtain ⟨k, hk⟩ := (e.mentions_finite.image rank).bddAbove
  refine ⟨k + 2, Nat.succ_pos _, fun b hb => ?_⟩
  have hle : rank b ≤ k := hk (Set.mem_image_of_mem rank hb)
  omega

end

/-! ### Assignments -/

variable {s : Assembler}

theorem succeeds_check (hs : Acyclic s.store.LeadsTo) (align : Word) (e : Expr) :
    Succeeds (fun fuel => reduce (exprCheckAlignment fuel align e))
      (fun _ s' => ∃ m : Memory, m.store = s.store ∧ s' = { s with memory := m }) s := by
  obtain ⟨rank, hrank⟩ := hs
  obtain ⟨n, hpos, hn⟩ := enough_fuel rank e
  have hcheck := exprCheckAlignment_settles hrank align hpos hn (m := s.memory) rfl
  have hends : Ends .fuel (exprCheckAlignment n align e) s.memory := hcheck.ends id
  have hsame : ∀ fuel, n ≤ fuel →
      exprCheckAlignment fuel align e s.memory = exprCheckAlignment n align e s.memory := by
    intro fuel hf
    refine hends.le ?_
    induction fuel, hf using Nat.le_induction with
    | base => exact .refl _ _
    | succ fuel _ ih => exact ih.trans (exprCheckAlignment_le fuel align e)
  unfold Ensures at hcheck
  unfold Succeeds reduce
  rcases hrun : exprCheckAlignment n align e s.memory with ⟨err | ⟨offset, m⟩, log⟩ <;>
    rw [hrun] at hcheck
  · exact (hcheck fun _ _ => trivial).elim
  · refine ⟨n, offset, { s with memory := m }, log, fun fuel hf => ?_, m, hcheck fun _ _ => trivial, rfl⟩
    dsimp only
    rw [hsame fuel hf, hrun]

open Classical in
/-- What an assignment is for, on the names and the number of the errors: the name gets the
expression, unless that leads to it. -/
noncomputable def assigned (x : Store × Nat) (p : NameId × Expr) : Store × Nat :=
  if x.1.Leads p.2 p.1 then (x.1.setVal p.1 (.const 0), x.2 + 1) else (x.1.setVal p.1 p.2, x.2)

/-- No alignment is asked of a name. -/
def Unaligned (st : Store) : Prop := ∀ np, (1 : Word).slt (st.name np).align = false

theorem acyclic_setVal {st : Store} (hs : Acyclic st.LeadsTo) {np : NameId} {e : Expr}
    (hno : ¬st.Leads e np) : Acyclic (st.setVal np e).LeadsTo := by
  refine hs.rebind (a := np) e.mentions_finite ?_ fun b hb hpath => hno ⟨b, hb, hpath⟩
  rintro a b ⟨v, hv, hb⟩
  by_cases ha : a = np
  · subst ha
    have hval : e = v := by simpa [Store.setVal] using hv
    exact .inr ⟨rfl, hval ▸ hb⟩
  · exact .inl ⟨v, by simpa [Store.setVal, ha] using hv, hb⟩

theorem store_setVal (s : Assembler) (np : NameId) (v : Expr) :
    (s.withName np { s.store.name np with val := some v }).store = s.store.setVal np v := by
  have hname : Function.update s.store.name np { s.store.name np with val := some v }
      = (s.store.setVal np v).name := by
    funext n
    by_cases hn : n = np
    · subst hn
      simp [Store.setVal]
    · simp [Store.setVal, hn]
  have hstore : (s.withName np { s.store.name np with val := some v }).store
      = ⟨Function.update s.store.name np { s.store.name np with val := some v }, s.store.element⟩ :=
    rfl
  rw [hstore, hname]
  rfl

theorem store_assigned {m : Memory} (hm : m.store = s.store) (errors : Nat) (np : NameId) (v : Expr) :
    (({ s with memory := m, errors := errors } : Assembler).withName np
      { s.store.name np with val := some v }).store = s.store.setVal np v := by
  rw [← hm]
  exact store_setVal { s with memory := m, errors := errors } np v

/-- **One assignment**: it keeps the values without cycles, and where no alignment is asked it does
what it is for. -/
theorem nameAssignValue_succeeds (hs : Acyclic s.store.LeadsTo) (p : NameId × Expr) :
    Succeeds (fun fuel => nameAssignValue fuel p.1 p.2)
      (fun _ s' => Acyclic s'.store.LeadsTo ∧
        (Unaligned s.store → (s'.store, s'.errors) = assigned (s.store, s.errors) p ∧
          Unaligned s'.store)) s := by
  obtain ⟨np, e⟩ := p
  have hzero : Acyclic (s.store.setVal np (.const 0)).LeadsTo :=
    acyclic_setVal hs fun ⟨_, hb, _⟩ => hb
  have hun : ∀ v, Unaligned s.store → Unaligned (s.store.setVal np v) := by
    intro v hu n
    rw [Store.align_setVal]
    exact hu n
  -- what both errors lead to
  have herror : ∀ m : Memory, m.store = s.store → Succeeds
      (fun _ => do
        report
        setVal np (.const 0))
      (fun _ s' => s'.store = s.store.setVal np (.const 0) ∧ s'.errors = s.errors + 1)
      { s with memory := m } := by
    intro m hm
    refine succeeds_of_run rfl ⟨?_, rfl⟩
    rw [← hm]
    exact store_setVal { s with memory := m } np (.const 0)
  have hset : ∀ m : Memory, m.store = s.store → Succeeds (fun _ => setVal np e)
      (fun _ s' => s'.store = s.store.setVal np e ∧ s'.errors = s.errors)
      { s with memory := m } := by
    intro m hm
    refine succeeds_of_run rfl ⟨?_, rfl⟩
    rw [← hm]
    exact store_setVal { s with memory := m } np e
  obtain ⟨rank, hrank⟩ := id hs
  obtain ⟨n, hpos, hn⟩ := enough_fuel rank e
  have hmentioned : ∀ fuel, n ≤ fuel → ∃ b, exprNameMentioned s.store np fuel e = some b ∧
      (b = true ↔ s.store.Leads e np) := fun fuel hf =>
    exprNameMentioned_eq hrank (hpos.trans_le hf) fun b hb => (hn b hb).trans_le hf
  by_cases hleads : s.store.Leads e np
  · refine .from ((herror s.memory rfl).mono ?_) n fun fuel hf => ?_
    · rintro _ s' ⟨hstore, herrors⟩
      rw [hstore, herrors]
      exact ⟨hzero, fun hu => ⟨by rw [assigned, if_pos hleads], hun _ hu⟩⟩
    · obtain ⟨b, hb, hiff⟩ := hmentioned fuel hf
      obtain rfl := hiff.mpr hleads
      show (ofOption _ (exprNameMentioned s.store np fuel e) >>= _) s = _
      rw [hb]
      rfl
  · have hdone : ∀ s' : Assembler,
        s'.store = s.store.setVal np e ∧ s'.errors = s.errors → Acyclic s'.store.LeadsTo ∧
        (Unaligned s.store → (s'.store, s'.errors) = assigned (s.store, s.errors) (np, e) ∧
          Unaligned s'.store) := by
      rintro s' ⟨hstore, herrors⟩
      rw [hstore, herrors]
      exact ⟨acyclic_setVal hs hleads, fun hu => ⟨by rw [assigned, if_neg hleads], hun _ hu⟩⟩
    have hfalse : ∀ fuel, n ≤ fuel → exprNameMentioned s.store np fuel e = some false := by
      intro fuel hf
      obtain ⟨b, hb, hiff⟩ := hmentioned fuel hf
      rw [hb, Bool.eq_false_iff.mpr fun h => hleads (hiff.mp h)]
    by_cases halign : (1 : Word).slt (s.store.name np).align = true
    · refine Succeeds.from (y := fun fuel => do
        let offset ← reduce (exprCheckAlignment fuel (s.store.name np).align e)
        if offset ≠ 0 then do
          report
          setVal np (.const 0)
        else setVal np e) ((succeeds_check hs _ e).bind ?_) n fun fuel hf => ?_
      · rintro offset _ ⟨m, hm, rfl⟩
        have hnot : ¬Unaligned s.store := fun hu => by
          rw [hu np] at halign
          cases halign
        split
        · refine (herror m hm).mono ?_
          rintro _ s' ⟨hstore, -⟩
          exact ⟨hstore ▸ hzero, fun hu => absurd hu hnot⟩
        · exact (hset m hm).mono fun _ => hdone
      · show (ofOption _ (exprNameMentioned s.store np fuel e) >>= _) s = _
        rw [hfalse fuel hf]
        show (if (1 : Word).slt (s.store.name np).align = true then _ else _ : Emission Unit) s = _
        rw [if_pos halign]
    · refine .from ((hset s.memory rfl).mono fun _ => hdone) n fun fuel hf => ?_
      show (ofOption _ (exprNameMentioned s.store np fuel e) >>= _) s = _
      rw [hfalse fuel hf]
      show (if (1 : Word).slt (s.store.name np).align = true then _ else _ : Emission Unit) s = _
      rw [if_neg halign]

/-- Assignments, one after the other. -/
def assignAll (fuel : Nat) : List (NameId × Expr) → Emission Unit
  | [] => return ()
  | p :: ps => do
      nameAssignValue fuel p.1 p.2
      assignAll fuel ps

/-- **No sequence of assignments makes a cycle**: each search comes to an end and the assignments are
made, a name gets the expression unless that leads to the name, and nothing leads back to itself. -/
theorem assignAll_settles (hs : Acyclic s.store.LeadsTo) (ps : List (NameId × Expr)) :
    Succeeds (fun fuel => assignAll fuel ps)
      (fun _ s' => (∀ np, ¬Relation.TransGen s'.store.LeadsTo np np) ∧
        (Unaligned s.store → (s'.store, s'.errors) = ps.foldl assigned (s.store, s.errors))) s := by
  suffices h : Succeeds (fun fuel => assignAll fuel ps) (fun _ s' => Acyclic s'.store.LeadsTo ∧
      (Unaligned s.store → (s'.store, s'.errors) = ps.foldl assigned (s.store, s.errors))) s from
    h.mono fun _ s' h => ⟨h.1.not_cycle, h.2⟩
  induction ps generalizing s with
  | nil => exact succeeds_of_run rfl ⟨hs, fun _ => rfl⟩
  | cons p ps ih =>
      refine (nameAssignValue_succeeds hs p).bind fun _ s₁ ⟨hs₁, hone⟩ => ?_
      refine (ih hs₁).mono fun _ s' ⟨hs', hrest⟩ => ⟨hs', fun hu => ?_⟩
      obtain ⟨hstep, hu₁⟩ := hone hu
      rw [hrest hu₁, hstep, List.foldl_cons]

theorem acyclic_empty (answers : Nat → Bool) : Acyclic (Assembler.empty answers).store.LeadsTo :=
  ⟨fun _ => 0, fun _ _ ⟨_, hv, _⟩ => by cases hv⟩

/-- `a = b + 1; b = a`: the second assignment is refused. -/
theorem assignAll_settles_pair :
    Succeeds (fun fuel => assignAll fuel [(0, .binop .plus (.name 2) (.const 1)), (2, .name 0)])
    (fun _ s' => (∀ np, ¬Relation.TransGen s'.store.LeadsTo np np) ∧
      (Unaligned (Assembler.empty fun _ => false).store → (s'.store, s'.errors) =
        [(0, .binop .plus (.name 2) (.const 1)), (2, .name 0)].foldl assigned
          ((Assembler.empty fun _ => false).store, (Assembler.empty fun _ => false).errors)))
    (Assembler.empty fun _ => false) :=
  assignAll_settles (acyclic_empty _) _

/-! ### Whole runs -/

/-- If the search says that the name is there, the expression leads to it. -/
theorem leads_of_mentioned {st : Store} {np : NameId} {e : Expr} {fuel : Nat}
    (h : exprNameMentioned st np fuel e = some true) : st.Leads e np := by
  induction fuel generalizing e with
  | zero => cases h
  | succ fuel ih =>
      rw [exprNameMentioned] at h
      induction e with
      | unop t r ihr => exact ihr h
      | binop t l r ihl ihr =>
          rw [mentioned] at h
          obtain ⟨b, hb, hrest⟩ := Option.bind_eq_some_iff.mp h
          cases b with
          | true =>
              obtain ⟨n, hn, hpath⟩ := ihr hb
              exact ⟨n, .inr hn, hpath⟩
          | false =>
              obtain ⟨n, hn, hpath⟩ := ihl hrest
              exact ⟨n, .inl hn, hpath⟩
      | name n =>
          rw [mentioned] at h
          by_cases hne : n = np
          · exact ⟨n, rfl, hne ▸ .refl⟩
          · rw [if_neg hne] at h
            rcases hv : (st.name n).val with _ | v <;> rw [hv] at h
            · cases h
            · exact (leads_name hv hne).mpr (ih h)
      | _ => cases h

/-- If the search says that the name is not there, the expression does not lead to it. -/
theorem not_leads {st : Store} {np : NameId} {e : Expr} {fuel : Nat}
    (h : exprNameMentioned st np fuel e = some false) : ¬st.Leads e np := by
  induction fuel generalizing e with
  | zero => cases h
  | succ fuel ih =>
      rw [exprNameMentioned] at h
      induction e with
      | unop t r ihr => exact ihr h
      | binop t l r ihl ihr =>
          rw [mentioned] at h
          obtain ⟨b, hb, hrest⟩ := Option.bind_eq_some_iff.mp h
          cases b with
          | true => cases hrest
          | false =>
              rintro ⟨n, hn | hn, hpath⟩
              · exact ihl hrest ⟨n, hn, hpath⟩
              · exact ihr hb ⟨n, hn, hpath⟩
      | name n =>
          rw [mentioned] at h
          split at h
          · cases h
          · rename_i hne
            rcases hv : (st.name n).val with _ | v
            · rintro ⟨b, hb, hpath⟩
              obtain rfl : n = b := hb
              rcases hpath.cases_head with rfl | ⟨c, ⟨v, hv', -⟩, -⟩
              · exact hne rfl
              · rw [hv] at hv'
                cases hv'
            · rw [hv] at h
              rw [leads_name hv hne]
              exact ih h
      | _ =>
          rintro ⟨b, hb, -⟩
          exact hb

/-- If the computation ends, the values still have no cycles. -/
def Loopless {α : Type} (x : Emission α) : Prop :=
  ∀ s, Ensures (fun _ => True) (fun _ => True) x
    (fun _ s' => Acyclic s.store.LeadsTo → Acyclic s'.store.LeadsTo) s

section

variable {α β : Type}

theorem Loopless.bind {x : Emission α} {f : α → Emission β} (h : Loopless x)
    (hf : ∀ a, Loopless (f a)) : Loopless (x >>= f) := fun s =>
  ensures_bind.mpr ((h s).mono fun a s' hs => (hf a s').mono fun _ _ hs' h => hs' (hs h))

theorem GrowsBy.loopless {x : Emission α} (h : GrowsBy x) : Loopless x := fun s =>
  ((h s).mono fun _ _ hs hold => hold.mono fun _ _ ⟨v, hv, hb⟩ => ⟨v, hs.name ▸ hv, hb⟩).weaken
    (fun _ _ => trivial) fun _ _ => trivial

theorem loopless_pure (a : α) : Loopless (pure a) := fun _ => ensures_pure.mpr id

theorem loopless_get : Loopless Logged.get := fun _ => ensures_get.mpr id

theorem loopless_ofOption (e : Halt) (o : Option α) : Loopless (ofOption e o) := fun _ =>
  ensures_ofOption.mpr ⟨fun _ _ => id, fun _ => trivial⟩

theorem loopless_stop (e : Halt) : Loopless (stop e : Emission α) := fun _ =>
  ensures_stop.mpr trivial

/-- No name gets a value. -/
theorem loopless_modify {f : Assembler → Assembler}
    (h : ∀ s np v, ((f s).store.name np).val = some v → (s.store.name np).val = some v) :
    Loopless (Logged.modify f) := fun s =>
  ensures_modify.mpr fun hold => hold.mono fun a _ ⟨v, hv, hb⟩ => ⟨v, h s a v hv, hb⟩

/-- One name changes, and not its value. -/
theorem loopless_withName (np : NameId) {f : Name → Name} (h : ∀ n, (f n).val = n.val) :
    Loopless (Logged.modify fun s => s.withName np (f (s.store.name np))) :=
  loopless_modify fun s n v hv => by
    have hname : (s.withName np (f (s.store.name np))).store.name
        = Function.update s.store.name np (f (s.store.name np)) := rfl
    rw [hname, Function.update_apply] at hv
    split at hv
    · rename_i hn
      rw [h] at hv
      rw [hn, hv]
    · exact hv

theorem loopless_tableAddNoname : Loopless tableAddNoname := fun s => by
  unfold Ensures tableAddNoname
  refine fun _ hold => hold.mono fun a _ ⟨v, hv, hb⟩ => ?_
  have hname : ((s.withName (noname s.nonames) nameAlloc).store.name a).val = some v := hv
  have hupd : (s.withName (noname s.nonames) nameAlloc).store.name
      = Function.update s.store.name (noname s.nonames) nameAlloc := rfl
  rw [hupd, Function.update_apply] at hname
  split at hname
  · cases hname
  · exact ⟨v, hname, hb⟩

end

theorem loopless_getSegment (seg : String) : Loopless (getSegment seg) :=
  (growsBy_getSegment seg).loopless

theorem loopless_setSegment (seg : String) (x : Segment) : Loopless (setSegment seg x) :=
  loopless_modify fun _ _ _ => id

/-- **The assignment** keeps the values without cycles, however long the search was. -/
theorem loopless_nameAssignValue (fuel : Nat) (np : NameId) (e : Expr) :
    Loopless (nameAssignValue fuel np e) := by
  intro s
  -- each way to end sets the value, to 0 or to what does not lead to the name
  have hset : ∀ (v : Expr) (s₁ : Assembler), s₁.store = s.store → ¬s.store.Leads v np →
      Ensures (fun _ => True) (fun _ => True) (setVal np v)
        (fun _ s' => Acyclic s.store.LeadsTo → Acyclic s'.store.LeadsTo) s₁ := by
    refine fun v s₁ hs₁ hno => ensures_modify.mpr fun hold => ?_
    rw [store_setVal, hs₁]
    exact acyclic_setVal hold hno
  have hzero : ∀ s₁ : Assembler, s₁.store = s.store →
      Ensures (fun _ => True) (fun _ => True) (report >>= fun _ => setVal np (.const 0))
        (fun _ s' => Acyclic s.store.LeadsTo → Acyclic s'.store.LeadsTo) s₁ := fun s₁ hs₁ =>
    ensures_bind.mpr (ensures_modify.mpr (hset _ _ hs₁ fun ⟨_, hb, _⟩ => hb))
  refine ensures_bind.mpr (ensures_get.mpr (ensures_bind.mpr (ensures_ofOption.mpr
    ⟨fun b hb => ?_, fun _ => trivial⟩)))
  cases b with
  | true => exact hzero s rfl
  | false =>
      have hno := not_leads hb
      rw [if_neg Bool.false_ne_true]
      split
      · refine ensures_bind.mpr (((goes_reduce (exprCheckAlignment_store _ _ _) s).weaken
          (fun _ _ => trivial) fun _ _ => trivial).mono fun offset s₁ h₁ => ?_)
        obtain ⟨m, hm, rfl⟩ := h₁
        split
        · exact hzero _ hm
        · exact hset _ _ hm hno
      · exact hset _ _ rfl hno

theorem loopless_reportDefined (np : NameId) : Loopless (reportDefined np) := by
  refine loopless_get.bind fun s => ?_
  split
  · exact growsBy_report.loopless
  · exact loopless_pure _

theorem loopless_setDefined (np : NameId) : Loopless (setDefined np) :=
  loopless_modify fun _ _ _ => id

theorem loopless_setFragment (np : NameId) : Loopless (setFragment np) :=
  loopless_modify fun _ _ _ => id

theorem loopless_globalizeName (np : NameId) : Loopless (globalizeName np) :=
  loopless_withName np (f := fun n => { n with global := true }) fun _ => rfl

theorem loopless_setAlign (np : NameId) (align : Word) : Loopless (setAlign np align) :=
  loopless_withName np (f := fun n => { n with align := align }) fun _ => rfl

theorem loopless_push (e : Expr) : Loopless (push e) := loopless_modify fun _ _ _ => id

theorem loopless_pop : Loopless pop := by
  refine loopless_get.bind fun s => ?_
  split
  · exact Loopless.bind (loopless_modify fun _ _ _ => id) fun _ => loopless_pure _
  · exact loopless_stop _

theorem loopless_curseg : Loopless curseg := loopless_get.bind fun _ => loopless_pure _

/-! ### The actions -/

theorem loopless_dropPendingAlignment (seg : String) : Loopless (dropPendingAlignment seg) :=
  (loopless_getSegment seg).bind fun _ => loopless_setSegment _ _

theorem loopless_addFragment (seg : String) (np : NameId) : Loopless (addFragment seg np) :=
  (loopless_getSegment seg).bind fun _ => loopless_setSegment _ _

theorem loopless_flushAlignment (fuel : Nat) (seg : String) :
    Loopless (flushAlignment fuel seg) := by
  refine (loopless_getSegment seg).bind fun x => ?_
  split
  · refine (loopless_getSegment seg).bind fun x => (loopless_ofOption _ _).bind fun filler =>
      (emitAlign_grows _ _ _ _).loopless.bind fun b => ?_
    cases b with
    | true =>
        exact loopless_tableAddNoname.bind fun np => (loopless_getSegment seg).bind fun x =>
          (loopless_nameAssignValue fuel np _).bind fun _ => (loopless_setDefined np).bind fun _ =>
          (loopless_setAlign np _).bind fun _ => (loopless_setSegment _ _).bind fun _ =>
          loopless_dropPendingAlignment seg
    | false => exact loopless_dropPendingAlignment seg
  · exact loopless_pure _

theorem loopless_aligned (fuel : Nat) : Loopless (aligned fuel) :=
  loopless_curseg.bind fun seg => (loopless_flushAlignment fuel seg).bind fun _ => loopless_pure _

theorem loopless_defaultFragment : Loopless defaultFragment :=
  loopless_tableAddNoname.bind fun np => (loopless_globalizeName np).bind fun _ =>
    (loopless_setFragment np).bind fun _ => (loopless_setDefined np).bind fun _ => loopless_pure _

theorem loopless_addSegment (seg : String) (np : NameId) : Loopless (addSegment seg np) :=
  Loopless.bind (loopless_modify fun _ _ _ => id) fun _ => loopless_addFragment seg np

theorem loopless_newSegment (ident : String) : Loopless (newSegment ident) := by
  refine loopless_defaultFragment.bind fun np => (loopless_addSegment ident np).bind fun _ => ?_
  split
  · exact loopless_defaultFragment.bind fun np => loopless_addFragment ident np
  · exact loopless_pure _

theorem loopless_swapLastFragments (seg : String) : Loopless (swapLastFragments seg) := by
  refine (loopless_getSegment seg).bind fun x => ?_
  dsimp only
  split
  · exact loopless_setSegment _ _
  · exact loopless_stop _

theorem loopless_labelAction (fuel : Nat) (np : NameId) : Loopless (labelAction fuel np) := by
  refine (loopless_reportDefined np).bind fun _ => (loopless_setDefined np).bind fun _ =>
    loopless_curseg.bind fun seg => (loopless_getSegment seg).bind fun x =>
    (loopless_setAlign np _).bind fun _ => loopless_get.bind fun s => ?_
  split
  · exact (loopless_setFragment np).bind fun _ => (loopless_dropPendingAlignment seg).bind fun _ =>
      loopless_addFragment seg np
  · exact (loopless_flushAlignment fuel seg).bind fun _ => (loopless_getSegment seg).bind fun x =>
      loopless_nameAssignValue fuel np x.point

theorem loopless_digLabelAction (fuel : Nat) (d : Fin 10) : Loopless (digLabelAction fuel d) := by
  refine (loopless_aligned fuel).bind fun seg => (loopless_getSegment seg).bind fun x =>
    Loopless.bind (loopless_modify fun _ _ _ => id) fun _ => loopless_get.bind fun s => ?_
  split
  · exact (loopless_nameAssignValue fuel _ _).bind fun _ => (loopless_setDefined _).bind fun _ =>
      loopless_modify fun _ _ _ => id
  · exact loopless_pure _

theorem loopless_commAction (fuel : Nat) (np : NameId) : Loopless (commAction fuel np) := by
  have htail : ∀ count, Loopless (do
      reportDefined np
      globalizeName np
      setFragment np
      setDefined np
      Logged.modify fun s => { s with common := Function.update s.common np true }
      let seg ← curseg
      let x ← getSegment seg
      setAlign np x.pendingAlignment
      dropPendingAlignment seg
      addFragment "bss" np
      emitData fuel "bss" 1 (.const 0) count
      swapLastFragments "bss") := fun count =>
    (loopless_reportDefined np).bind fun _ => (loopless_globalizeName np).bind fun _ =>
      (loopless_setFragment np).bind fun _ => (loopless_setDefined np).bind fun _ =>
      Loopless.bind (loopless_modify fun _ _ _ => id) fun _ => loopless_curseg.bind fun seg =>
      (loopless_getSegment seg).bind fun x => (loopless_setAlign np _).bind fun _ =>
      (loopless_dropPendingAlignment seg).bind fun _ => (loopless_addFragment _ np).bind fun _ =>
      (emitData_grows _ _ _ _ _).loopless.bind fun _ => loopless_swapLastFragments _
  refine loopless_pop.bind fun count => loopless_get.bind fun s => ?_
  split
  · exact htail count
  · exact (loopless_newSegment "bss").bind fun _ => htail count

theorem loopless_alignAction (fuel : Nat) : Loopless (alignAction fuel) := by
  refine loopless_pop.bind fun filler => loopless_pop.bind fun factor => ?_
  split
  · exact growsBy_report.loopless
  · split
    · exact loopless_pure _
    · exact (loopless_aligned fuel).bind fun seg => (loopless_getSegment seg).bind fun _ =>
        loopless_setSegment _ _

/-- No action makes a cycle. -/
theorem exec_loopless (fuel : Nat) (a : Action) : Loopless (a.exec fuel) := by
  have hdata : ∀ data count, Loopless (do
      let seg ← aligned fuel
      emitData fuel seg (← Logged.get).dataWidth data count) := fun data count =>
    (loopless_aligned fuel).bind fun seg => loopless_get.bind fun _ =>
      (emitData_grows _ _ _ _ _).loopless
  cases a with
  | number c => exact loopless_push _
  | name i => exact loopless_push _
  | dot =>
      exact (loopless_aligned fuel).bind fun seg => (loopless_getSegment seg).bind fun _ =>
        loopless_push _
  | digrefB d =>
      exact loopless_get.bind fun _ => (loopless_ofOption _ _).bind fun _ => loopless_push _
  | digrefF d =>
      refine loopless_get.bind fun s => ?_
      split
      · exact loopless_push _
      · exact loopless_tableAddNoname.bind fun np =>
          Loopless.bind (loopless_modify fun _ _ _ => id) fun _ => loopless_push _
  | unop op => exact loopless_pop.bind fun _ => (loopless_ofOption _ _).bind fun _ => loopless_push _
  | binop op =>
      refine loopless_pop.bind fun _ => loopless_pop.bind fun _ =>
        (growsBy_reduce ask_store).loopless.bind fun _ => ?_
      split
      · exact (loopless_ofOption _ _).bind fun _ => loopless_push _
      · exact loopless_stop _
  | questop =>
      exact loopless_pop.bind fun _ => loopless_pop.bind fun _ => loopless_pop.bind fun _ =>
        loopless_push _
  | label i => exact loopless_labelAction fuel _
  | labelColon i =>
      exact (loopless_reportDefined _).bind fun _ => (loopless_aligned fuel).bind fun seg =>
        (loopless_setDefined _).bind fun _ => (loopless_getSegment seg).bind fun _ =>
        loopless_nameAssignValue _ _ _
  | digLabel d => exact loopless_digLabelAction fuel d
  | cmdDirect opcode =>
      exact loopless_pop.bind fun _ => (loopless_aligned fuel).bind fun _ =>
        (emitCmd_grows _ _ _ _).loopless
  | cmdPcrel opcode =>
      exact loopless_pop.bind fun _ => loopless_tableAddNoname.bind fun np =>
        (loopless_aligned fuel).bind fun seg => (growsBy_reduce ask_store).loopless.bind fun _ =>
        (loopless_ofOption _ _).bind fun _ => (emitCmd_grows _ _ _ _).loopless.bind fun _ =>
        (loopless_getSegment seg).bind fun _ => (loopless_nameAssignValue _ _ _).bind fun _ =>
        loopless_setDefined _
  | cmdIndir c => exact (loopless_aligned fuel).bind fun _ => (emitCmd_grows _ _ _ _).loopless
  | cmdFpu c =>
      exact (loopless_aligned fuel).bind fun _ => (emitCmd_grows _ _ _ _).loopless.bind fun _ =>
        (emitCmd_grows _ _ _ _).loopless
  | segment ident =>
      refine loopless_get.bind fun s => ?_
      have hcur : Loopless (Logged.modify fun s : Assembler => { s with curseg := ident }) :=
        loopless_modify fun _ _ _ => id
      split
      · exact hcur
      · exact (loopless_newSegment ident).bind fun _ => hcur
  | globl i =>
      refine loopless_get.bind fun s => ?_
      dsimp only
      split
      · exact growsBy_report.loopless.bind fun _ => loopless_globalizeName _
      · exact loopless_globalizeName _
  | comm i => exact loopless_commAction fuel _
  | slot =>
      refine loopless_pop.bind fun e => ?_
      split
      · exact growsBy_report.loopless
      · exact loopless_curseg.bind fun seg => (growsBy_slot seg _).loopless
  | width w => exact loopless_modify fun _ _ _ => id
  | defaultFiller => exact loopless_curseg.bind fun _ => loopless_push _
  | align => exact loopless_alignAction fuel
  | datum => exact loopless_pop.bind fun data => hdata data _
  | space => exact hdata _ _
  | repeated => exact loopless_pop.bind fun count => loopless_pop.bind fun data => hdata data count
  | repeatedSpace => exact loopless_pop.bind fun count => hdata _ count
  | string bytes =>
      refine (loopless_aligned fuel).bind fun seg => loopless_get.bind fun s => ?_
      split
      · exact growsBy_report.loopless
      · exact (emitBlock_grows _ _).loopless
  | assign i =>
      refine loopless_pop.bind fun e => loopless_get.bind fun s => ?_
      split
      · exact growsBy_report.loopless
      · exact (loopless_setDefined _).bind fun _ => loopless_nameAssignValue _ _ _

theorem run_acyclic {fuel : Nat} {answers : Nat → Bool} {as : List Action}
    (hrun : Assembler.run fuel answers as = .ok s) : Acyclic s.store.LeadsTo := by
  induction as using List.reverseRecOn generalizing s with
  | nil =>
      obtain ⟨-, h⟩ := (((loopless_newSegment "head").bind fun _ => loopless_pure ())
        (.empty answers)).ended hrun
      exact h (acyclic_empty answers)
  | append_singleton as a ih =>
      rw [run_append] at hrun
      rcases hs : Assembler.run fuel answers as with e | s₀ <;> rw [hs] at hrun
      · cases hrun
      · obtain ⟨-, h⟩ := (exec_loopless fuel a s₀).ended hrun
        exact h (ih hs)

/-- **No source makes a cycle**, whatever names it defines twice, and in every state that is reached
the search for a name comes to an end and is exact. -/
theorem run_searches {fuel : Nat} {answers : Nat → Bool} {as : List Action}
    (hrun : Assembler.run fuel answers as = .ok s) :
    (∀ np, ¬Relation.TransGen s.store.LeadsTo np np) ∧
      ∀ e np, ∃ n, ∀ fuel', n ≤ fuel' → ∃ b, exprNameMentioned s.store np fuel' e = some b ∧
        (b = true ↔ s.store.Leads e np) := by
  have hs := run_acyclic hrun
  refine ⟨hs.not_cycle, fun e np => ?_⟩
  obtain ⟨rank, hrank⟩ := hs
  obtain ⟨n, hpos, hn⟩ := enough_fuel rank e
  exact ⟨n, fun fuel' hf => exprNameMentioned_eq hrank (hpos.trans_le hf) fun b hb =>
    (hn b hb).trans_le hf⟩

/-- `a = b` and `b = a`. -/
theorem run_searches_swap : ∃ s, Assembler.run 9 (fun _ => true)
      [.name 1, .assign 0, .name 0, .assign 1] = .ok s ∧
    (∀ np, ¬Relation.TransGen s.store.LeadsTo np np) ∧
    ∀ e np, ∃ n, ∀ fuel', n ≤ fuel' → ∃ b, exprNameMentioned s.store np fuel' e = some b ∧
      (b = true ↔ s.store.Leads e np) := by
  obtain ⟨s, hs⟩ : ∃ s, Assembler.run 9 (fun _ => true)
    [.name 1, .assign 0, .name 0, .assign 1] = .ok s := ⟨_, rfl⟩
  exact ⟨s, hs, run_searches hs⟩

end Asm

end Ttools
