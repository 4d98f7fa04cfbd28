import Mathlib.Logic.Relation
import Mathlib.Order.Basic

/-!
# Loops

A loop is a step that goes on with another state or is done with a result.

* `Ends.unique`, `ends_step`: it has at most one result, and a step that goes on does not change it.
* `ends_of_steps`, `Ends.steps`: a run of steps does not change it, and leads to the last state.
* `ends_of_measure`: it ends if every step keeps an invariant and makes a measure smaller.
* `Ends.rule`: what holds of every result.
* `not_ends`: it does not end if every step keeps an invariant and goes on.
* `Simulates.ends`, `Simulates.ends_of`: two loops of which one takes one or more steps for each of
  the other end together.
-/

namespace Support

variable {σ ρ : Type*} (step : σ → σ ⊕ ρ)

/-- From the state the loop comes to the result. -/
inductive Ends : σ → ρ → Prop
  | done {s : σ} {r : ρ} (hstep : step s = .inr r) : Ends s r
  | next {s s' : σ} {r : ρ} (hstep : step s = .inl s') (hends : Ends s' r) : Ends s r

variable {step} {s s' : σ} {r r' : ρ} {I : σ → Prop}

theorem ends_step (hstep : step s = .inl s') : Ends step s r ↔ Ends step s' r := by
  refine ⟨fun h => ?_, .next hstep⟩
  cases h with
  | done hdone =>
      rw [hstep] at hdone
      cases hdone
  | next hnext hends =>
      rw [hstep] at hnext
      obtain rfl := Sum.inl.inj hnext
      exact hends

theorem ends_done (hstep : step s = .inr r) : Ends step s r' ↔ r' = r := by
  refine ⟨fun h => ?_, fun h => h ▸ .done hstep⟩
  cases h with
  | done hdone =>
      rw [hstep] at hdone
      exact (Sum.inr.inj hdone).symm
  | next hnext hends =>
      rw [hstep] at hnext
      cases hnext

theorem Ends.unique (h : Ends step s r) (h' : Ends step s r') : r = r' := by
  induction h with
  | done hstep => exact ((ends_done hstep).mp h').symm
  | next hstep hends ih => exact ih ((ends_step hstep).mp h')

/-- From a state on the way the loop comes to the same result. -/
theorem ends_of_steps (h : Relation.ReflTransGen (fun s s' => step s = .inl s') s s') :
    Ends step s r ↔ Ends step s' r := by
  induction h with
  | refl => exact Iff.rfl
  | tail hsteps hstep ih => exact ih.trans (ends_step hstep)

/-- A loop that ends comes to a state whose step is the last. -/
theorem Ends.steps (h : Ends step s r) :
    ∃ s', Relation.ReflTransGen (fun s s' => step s = .inl s') s s' ∧ step s' = .inr r := by
  induction h with
  | done hstep => exact ⟨_, .refl, hstep⟩
  | next hstep hends ih =>
      obtain ⟨s', hsteps, hlast⟩ := ih
      exact ⟨s', .head hstep hsteps, hlast⟩

/-- A loop that makes a measure smaller ends. -/
theorem ends_of_measure (μ : σ → Nat)
    (hstep : ∀ s, I s → ∀ s', step s = .inl s' → I s' ∧ μ s' < μ s) (hs : I s) :
    ∃ r, Ends step s r := by
  induction hn : μ s using Nat.strongRecOn generalizing s with
  | _ n ih =>
      rcases h : step s with s' | r
      · obtain ⟨hs', hlt⟩ := hstep s hs s' h
        obtain ⟨r, hends⟩ := ih (μ s') (hn ▸ hlt) hs' rfl
        exact ⟨r, .next h hends⟩
      · exact ⟨r, .done h⟩

/-- What every step keeps, and every last step makes true of the result. -/
theorem Ends.rule {Q : ρ → Prop} (h : Ends step s r)
    (hstep : ∀ s, I s → ∀ s', step s = .inl s' → I s')
    (hdone : ∀ s, I s → ∀ r, step s = .inr r → Q r) (hs : I s) : Q r := by
  induction h with
  | done hlast => exact hdone _ hs _ hlast
  | next hnext hends ih => exact ih (hstep _ hs _ hnext)

/-- A loop that can always go on does not end. -/
theorem not_ends (hstep : ∀ s, I s → ∃ s', step s = .inl s' ∧ I s') (hs : I s) :
    ¬∃ r, Ends step s r := by
  rintro ⟨r, h⟩
  induction h with
  | done hlast =>
      obtain ⟨s', hnext, -⟩ := hstep _ hs
      rw [hlast] at hnext
      cases hnext
  | next hnext hends ih =>
      obtain ⟨s', hnext', hs'⟩ := hstep _ hs
      rw [hnext] at hnext'
      obtain rfl := Sum.inl.inj hnext'
      exact ih hs'

section

variable {τ π : Type*} {step' : τ → τ ⊕ π} {t : τ} {r' : π} {R : σ → τ → Prop} {Q : ρ → π → Prop}

/-- Every step of the one loop is one or more of the other, and every last step leads to the end. -/
structure Simulates (step : σ → σ ⊕ ρ) (step' : τ → τ ⊕ π) (R : σ → τ → Prop) (Q : ρ → π → Prop) :
    Prop where
  next : ∀ s t s', R s t → step s = .inl s' →
    ∃ t', Relation.TransGen (fun t t' => step' t = .inl t') t t' ∧ R s' t'
  done : ∀ s t r, R s t → step s = .inr r → ∃ r', Ends step' t r' ∧ Q r r'

theorem Simulates.ends (h : Simulates step step' R Q) (hst : R s t) (hends : Ends step s r) :
    ∃ r', Ends step' t r' ∧ Q r r' := by
  induction hends generalizing t with
  | done hstep => exact h.done _ _ _ hst hstep
  | next hstep _ ih =>
      obtain ⟨t', hsteps, hst'⟩ := h.next _ _ _ hst hstep
      obtain ⟨r', hends', hQ⟩ := ih hst'
      exact ⟨r', (ends_of_steps hsteps.to_reflTransGen).mpr hends', hQ⟩

theorem Ends.acc (h : Ends step s r) : Acc (fun b a => step a = .inl b) s := by
  induction h with
  | done hstep =>
      refine ⟨_, fun b hb => ?_⟩
      rw [hstep] at hb
      cases hb
  | next hstep _ ih =>
      refine ⟨_, fun b hb => ?_⟩
      obtain rfl := Sum.inl.inj (hstep.symm.trans hb)
      exact ih

/-- If the other loop ends, so does the one. -/
theorem Simulates.ends_of (h : Simulates step step' R Q) (hst : R s t) (hends : Ends step' t r') :
    ∃ r, Ends step s r ∧ Q r r' := by
  induction hends.acc.transGen generalizing s with
  | intro t _ ih =>
      rcases hstep : step s with s' | r
      · obtain ⟨t', hsteps, hst'⟩ := h.next _ _ _ hst hstep
        obtain ⟨r, hr, hQ⟩ := ih t' (Relation.transGen_swap.mpr hsteps) hst'
          ((ends_of_steps hsteps.to_reflTransGen).mp hends)
        exact ⟨r, .next hstep hr, hQ⟩
      · obtain ⟨r'', hends', hQ⟩ := h.done _ _ _ hst hstep
        obtain rfl := hends.unique hends'
        exact ⟨r, .done hstep, hQ⟩

end

end Support
