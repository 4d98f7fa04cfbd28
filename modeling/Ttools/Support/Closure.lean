import Mathlib.Data.Set.Insert
import Mathlib.Order.Bounds.Basic

/-!
# Closures and how a marking search finds them

`IsClosure roots r W`: `W` is the least set that has the roots and is closed under the relation
`r`.  A search that marks what it meets, and goes on from what was not marked before, is described
by `Marks`: from the marks `W` it has gone to `W'`, starting at `xs`.

* `Marks.nil`, `Marks.append`, `Marks.seen`, `Marks.visit`: the rules for such a search, one for
  each thing it does.
* `Marks.eq_of_closed`: it marks nothing when all that it reaches is marked.
* `IsClosure.root`, `IsClosure.edge_unmarked`, `IsClosure.edge_marked`: the closure is kept up to
  date when a root or an edge is added.
-/

namespace Support

variable {α : Type*}

/-- `S` is closed under `r`. -/
def Closed (r : α → α → Prop) (S : Set α) : Prop := ∀ ⦃a⦄, a ∈ S → ∀ ⦃b⦄, r a b → b ∈ S

/-- `W` is the least set that has the roots and is closed under `r`. -/
def IsClosure (roots : Set α) (r : α → α → Prop) (W : Set α) : Prop :=
  IsLeast {S | roots ⊆ S ∧ Closed r S} W

/-- From `W` a search that starts at `xs` has marked `W'`. -/
structure Marks (r : α → α → Prop) (W : Set α) (xs : List α) (W' : Set α) : Prop where
  mono : W ⊆ W'
  roots : ∀ x ∈ xs, x ∈ W'
  closed : ∀ a ∈ W', a ∉ W → ∀ b, r a b → b ∈ W'
  least : ∀ S, Closed r S → (∀ x ∈ xs, x ∈ S) → W' ⊆ W ∪ S

variable {r : α → α → Prop} {W W' W₁ W₂ : Set α} {xs ys : List α} {x : α}

/-! ### The search -/

theorem Marks.nil (r : α → α → Prop) (W : Set α) : Marks r W [] W where
  mono := subset_rfl
  roots := List.forall_mem_nil _
  closed := fun _ ha hn => absurd ha hn
  least := fun _ _ _ => Set.subset_union_left

/-- What is marked already is not searched again. -/
theorem Marks.seen (h : x ∈ W) : Marks r W [x] W where
  mono := subset_rfl
  roots := fun _ hy => List.mem_singleton.mp hy ▸ h
  closed := fun _ ha hn => absurd ha hn
  least := fun _ _ _ => Set.subset_union_left

theorem Marks.append (h₁ : Marks r W xs W₁) (h₂ : Marks r W₁ ys W₂) : Marks r W (xs ++ ys) W₂ where
  mono := h₁.mono.trans h₂.mono
  roots := by
    intro x hx
    rcases List.mem_append.mp hx with hx | hx
    · exact h₂.mono (h₁.roots x hx)
    · exact h₂.roots x hx
  closed := by
    intro a ha hn b hab
    by_cases h : a ∈ W₁
    · exact h₂.mono (h₁.closed a h hn b hab)
    · exact h₂.closed a ha h b hab
  least := by
    intro S hS hroots a ha
    have hxs : ∀ x ∈ xs, x ∈ S := fun x hx => hroots x (List.mem_append_left ys hx)
    have hys : ∀ y ∈ ys, y ∈ S := fun y hy => hroots y (List.mem_append_right xs hy)
    rcases h₂.least S hS hys ha with ha | ha
    · exact h₁.least S hS hxs ha
    · exact Or.inr ha

/-- Nothing is marked when all that is reached is marked already. -/
theorem Marks.eq_of_closed (h : Marks r W xs W') (hW : Closed r W) (hxs : ∀ x ∈ xs, x ∈ W) :
    W' = W :=
  ((h.least W hW hxs).trans (Set.union_self W).subset).antisymm h.mono

/-- Something new is marked, and then its successors are searched. -/
theorem Marks.visit (hr : ∀ b, r x b ↔ b ∈ ys) (h : Marks r (insert x W) ys W') :
    Marks r W [x] W' where
  mono := (Set.subset_insert x W).trans h.mono
  roots := fun y hy => List.mem_singleton.mp hy ▸ h.mono (Set.mem_insert x W)
  closed := by
    intro a ha hn b hab
    by_cases hax : a = x
    · subst hax
      exact h.roots b ((hr b).mp hab)
    · exact h.closed a ha (fun hi => hi.elim hax hn) b hab
  least := by
    intro S hS hroots a ha
    have hx : x ∈ S := hroots x (List.mem_singleton_self x)
    have hys : ∀ y ∈ ys, y ∈ S := fun y hy => hS hx ((hr y).mpr hy)
    rcases h.least S hS hys ha with (rfl | ha) | ha
    · exact Or.inr hx
    · exact Or.inl ha
    · exact Or.inr ha

/-! ### The closure -/

theorem isClosure_empty (r : α → α → Prop) : IsClosure ∅ r ∅ :=
  ⟨⟨subset_rfl, fun _ ha => absurd ha (Set.notMem_empty _)⟩, fun _ _ => Set.empty_subset _⟩

/-- An edge from something to itself does not matter. -/
theorem IsClosure.congr {roots : Set α} {r' : α → α → Prop} (h : IsClosure roots r W)
    (hr : ∀ a b, a ≠ b → (r a b ↔ r' a b)) : IsClosure roots r' W := by
  have hclosed : ∀ S, Closed r S ↔ Closed r' S := by
    intro S
    constructor
    · intro hS a ha b hab
      by_cases heq : a = b
      · exact heq ▸ ha
      · exact hS ha ((hr a b heq).mpr hab)
    · intro hS a ha b hab
      by_cases heq : a = b
      · exact heq ▸ ha
      · exact hS ha ((hr a b heq).mp hab)
  simpa only [IsClosure, hclosed] using h

theorem IsClosure.root {roots : Set α} (h : IsClosure roots r W) (hm : Marks r W [x] W') :
    IsClosure (insert x roots) r W' := by
  obtain ⟨⟨hroots, hclosed⟩, hleast⟩ := h
  have hx : x ∈ W' := hm.roots x (List.mem_singleton_self x)
  refine ⟨⟨Set.insert_subset hx (hroots.trans hm.mono), ?_⟩, ?_⟩
  · intro a ha b hab
    by_cases haW : a ∈ W
    · exact hm.mono (hclosed haW hab)
    · exact hm.closed a ha haW b hab
  · rintro S ⟨hrS, hS⟩
    have hxS : ∀ y ∈ [x], y ∈ S := fun y hy => List.mem_singleton.mp hy ▸ hrS (Set.mem_insert x _)
    have hWS : W ⊆ S := hleast ⟨(Set.subset_insert x roots).trans hrS, hS⟩
    exact (hm.least S hS hxS).trans (Set.union_subset hWS subset_rfl)

/-- An edge that leaves the closure out of it changes nothing. -/
theorem IsClosure.edge_unmarked {roots : Set α} {r' : α → α → Prop} {p q : α}
    (h : IsClosure roots r W) (hr : ∀ a b, r' a b ↔ r a b ∨ (a = p ∧ b = q)) (hp : p ∉ W) :
    IsClosure roots r' W := by
  obtain ⟨⟨hroots, hclosed⟩, hleast⟩ := h
  refine ⟨⟨hroots, ?_⟩, ?_⟩
  · intro a ha b hab
    rcases (hr a b).mp hab with hab | ⟨rfl, rfl⟩
    · exact hclosed ha hab
    · exact absurd ha hp
  · rintro S ⟨hrS, hS⟩
    exact hleast ⟨hrS, fun a ha b hab => hS ha ((hr a b).mpr (Or.inl hab))⟩

/-- After a new edge out of the closure, the search goes on at its end. -/
theorem IsClosure.edge_marked {roots : Set α} {r' : α → α → Prop} {p q : α}
    (h : IsClosure roots r W) (hr : ∀ a b, r' a b ↔ r a b ∨ (a = p ∧ b = q)) (hp : p ∈ W)
    (hm : Marks r' W [q] W') : IsClosure roots r' W' := by
  obtain ⟨⟨hroots, hclosed⟩, hleast⟩ := h
  refine ⟨⟨hroots.trans hm.mono, ?_⟩, ?_⟩
  · intro a ha b hab
    by_cases haW : a ∈ W
    · rcases (hr a b).mp hab with hab | ⟨rfl, rfl⟩
      · exact hm.mono (hclosed haW hab)
      · exact hm.roots b (List.mem_singleton_self b)
    · exact hm.closed a ha haW b hab
  · rintro S ⟨hrS, hS⟩
    have hWS : W ⊆ S := hleast ⟨hrS, fun a ha b hab => hS ha ((hr a b).mpr (Or.inl hab))⟩
    have hqS : ∀ y ∈ [q], y ∈ S := fun y hy =>
      List.mem_singleton.mp hy ▸ hS (hWS hp) ((hr p q).mpr (Or.inr ⟨rfl, rfl⟩))
    exact (hm.least S hS hqS).trans (Set.union_subset hWS subset_rfl)

end Support
