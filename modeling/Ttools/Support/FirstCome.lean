import Mathlib.Data.List.Basic

/-!
# First come, first served

A run takes a state through a list of items.  Of the items that ask for the same thing the first
one is served, and the others leave what has been handed out as it is.

* `Runs.invariant`: what every step keeps holds at the end.
* `FirstCome.run`: what has been handed out at the end is what the first item that asks gives.
-/

namespace Support

variable {σ α β : Type*} {step : σ → α → σ → Prop}

/-- From one state to another by one step for every item. -/
inductive Runs (step : σ → α → σ → Prop) : σ → List α → σ → Prop
  | nil (s : σ) : Runs step s [] s
  | cons {s s' s'' : σ} {x : α} {xs : List α} (hstep : step s x s') (hruns : Runs step s' xs s'') :
      Runs step s (x :: xs) s''

theorem Runs.append {s s' s'' : σ} {xs ys : List α} (h : Runs step s xs s')
    (h' : Runs step s' ys s'') : Runs step s (xs ++ ys) s'' := by
  induction h with
  | nil s => exact h'
  | cons hstep hruns ih => exact .cons hstep (ih h')

theorem Runs.invariant {I : σ → Prop} {s s' : σ} {xs : List α} (h : Runs step s xs s')
    (hstep : ∀ s, ∀ x ∈ xs, ∀ s', step s x s' → I s → I s') (hs : I s) : I s' := by
  induction h with
  | nil s => exact hs
  | cons hfirst hruns ih =>
      refine ih (fun s x hx => hstep s x (List.mem_cons_of_mem _ hx)) ?_
      exact hstep _ _ List.mem_cons_self _ hfirst hs

/-- How an item that `asks` is treated: the first gets what it `gives`, and from then on it is
`served`. -/
structure FirstCome (step : σ → α → σ → Prop) (asks : α → Bool) (gives : α → List β)
    (got : σ → List β) (waiting served : σ → Prop) : Prop where
  other : ∀ {s x s'}, step s x s' → asks x = false →
    got s' = got s ∧ (waiting s → waiting s') ∧ (served s → served s')
  first : ∀ {s x s'}, step s x s' → asks x = true → waiting s →
    got s' = got s ++ gives x ∧ served s'
  again : ∀ {s x s'}, step s x s' → asks x = true → served s → got s' = got s ∧ served s'

namespace FirstCome

variable {asks : α → Bool} {gives : α → List β} {got : σ → List β} {waiting served : σ → Prop}
  {s s' : σ} {xs : List α}

theorem run_served (hf : FirstCome step asks gives got waiting served) (h : Runs step s xs s')
    (hs : served s) : got s' = got s := by
  induction h with
  | nil s => rfl
  | @cons s s₁ s' x xs hstep hruns ih =>
      cases hx : asks x with
      | false =>
          obtain ⟨hgot, -, hserved⟩ := hf.other hstep hx
          exact (ih (hserved hs)).trans hgot
      | true =>
          obtain ⟨hgot, hserved⟩ := hf.again hstep hx hs
          exact (ih hserved).trans hgot

/-- Only the first item that asks is served. -/
theorem run (hf : FirstCome step asks gives got waiting served) (h : Runs step s xs s')
    (hs : waiting s) : got s' = got s ++ ((xs.find? asks).map gives).getD [] := by
  induction h with
  | nil s => exact (List.append_nil _).symm
  | @cons s s₁ s' x xs hstep hruns ih =>
      cases hx : asks x with
      | false =>
          obtain ⟨hgot, hwaiting, -⟩ := hf.other hstep hx
          rw [ih (hwaiting hs), hgot, List.find?_cons_of_neg (by rw [hx]; exact Bool.false_ne_true)]
      | true =>
          obtain ⟨hgot, hserved⟩ := hf.first hstep hx hs
          rw [hf.run_served hruns hserved, hgot, List.find?_cons_of_pos hx]
          rfl

end FirstCome

end Support
