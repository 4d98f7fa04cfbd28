import Mathlib.Data.Set.Finite.Lattice
import Mathlib.Logic.Relation

/-!
# Support — Acyclic

A relation along which a rank goes down.  Such a relation has no cycle, and it keeps having a rank
when one point is related to other points in place of those it was related to, if none of the new
ones leads to it.
-/

namespace Support

variable {α : Type*} {R R' : α → α → Prop}

/-- What `a` is related to has a lower rank. -/
def RankedBy (rank : α → ℕ) (R : α → α → Prop) : Prop := ∀ a b, R a b → rank b < rank a

/-- There is such a rank. -/
def Acyclic (R : α → α → Prop) : Prop := ∃ rank, RankedBy rank R

theorem RankedBy.lt {rank : α → ℕ} (h : RankedBy rank R) {a b : α} (hab : Relation.TransGen R a b) :
    rank b < rank a := by
  induction hab with
  | single hab => exact h _ _ hab
  | tail _ hbc ih => exact (h _ _ hbc).trans ih

/-- Nothing leads back to itself. -/
theorem Acyclic.not_cycle (h : Acyclic R) (a : α) : ¬Relation.TransGen R a a := by
  obtain ⟨rank, hrank⟩ := h
  exact fun hcycle => absurd (hrank.lt hcycle) (lt_irrefl _)

theorem Acyclic.mono (h : Acyclic R) (hsub : ∀ a b, R' a b → R a b) : Acyclic R' := by
  obtain ⟨rank, hrank⟩ := h
  exact ⟨rank, fun a b hab => hrank a b (hsub a b hab)⟩

/-- **The point `a` is related to finitely many others instead**, none of which leads to it. -/
theorem Acyclic.rebind (h : Acyclic R) {a : α} {T : Set α} (hT : T.Finite)
    (hnew : ∀ x y, R' x y → R x y ∨ x = a ∧ y ∈ T) (hno : ∀ y ∈ T, ¬Relation.ReflTransGen R y a) :
    Acyclic R' := by
  classical
  obtain ⟨rank, hrank⟩ := h
  obtain ⟨k, hk⟩ := (hT.image rank).bddAbove
  have hbound : ∀ y ∈ T, rank y ≤ k := fun y hy => hk (Set.mem_image_of_mem rank hy)
  -- whatever leads to `a` is put above the new points
  refine ⟨fun x => if Relation.ReflTransGen R x a then rank x + k + 1 else rank x,
    fun x y hxy => ?_⟩
  dsimp only
  rcases hnew x y hxy with hold | ⟨rfl, hy⟩
  · have hlt := hrank x y hold
    by_cases hlead : Relation.ReflTransGen R y a
    · rw [if_pos hlead, if_pos (.head hold hlead)]
      omega
    · rw [if_neg hlead]
      split <;> omega
  · have hle := hbound y hy
    rw [if_neg (hno y hy), if_pos .refl]
    omega

end Support
