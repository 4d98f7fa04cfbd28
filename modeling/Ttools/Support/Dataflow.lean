import Mathlib.Data.Finset.Basic
import Mathlib.Order.Monotone.Basic

/-!
# Backward data flow

Nodes of a graph with a monotone function from what is live on exit to what is live on entry, and
what is live on exit by itself.  `Solves` are the equations, `Least` the least solution.

`LiveIn` and `LiveOut` are what every solution has.  They are derived by the rules `LiveOut.seed`,
`LiveOut.transfer` and `LiveIn.succ`, one for each equation; `least_of_live` is the converse: a
solution with nothing but what is live is the least.
-/

namespace Support

/-- A backward data flow problem. -/
structure Flow (ι α : Type*) where
  nodes : Finset ι
  transfer : ι → Finset α → Finset α
  seed : ι → Finset α
  succ : ι → ι → Prop
  mono : ∀ b, Monotone (transfer b)

namespace Flow

variable {ι α : Type*} {F : Flow ι α} {into out : ι → Finset α} {b c : ι} {X Y : Finset α}

/-- What is live on entry and on exit, by the equations. -/
structure Solves (F : Flow ι α) (into out : ι → Finset α) : Prop where
  entry : ∀ b ∈ F.nodes, into b = F.transfer b (out b)
  seed : ∀ b ∈ F.nodes, F.seed b ⊆ out b
  succ : ∀ b ∈ F.nodes, ∀ c ∈ F.nodes, F.succ b c → into c ⊆ out b

/-- The least solution. -/
def Least (F : Flow ι α) (into out : ι → Finset α) : Prop :=
  F.Solves into out ∧ ∀ into' out', F.Solves into' out' →
    ∀ b ∈ F.nodes, into b ⊆ into' b ∧ out b ⊆ out' b

/-- Live on entry to `b` in every solution. -/
def LiveIn (F : Flow ι α) (b : ι) (X : Finset α) : Prop :=
  ∀ into out, F.Solves into out → X ⊆ into b

/-- Live on exit from `b` in every solution. -/
def LiveOut (F : Flow ι α) (b : ι) (X : Finset α) : Prop :=
  ∀ into out, F.Solves into out → X ⊆ out b

theorem LiveOut.seed (hb : b ∈ F.nodes) : F.LiveOut b (F.seed b) := fun _ _ h => h.seed b hb

theorem LiveOut.transfer (h : F.LiveOut b X) (hb : b ∈ F.nodes) :
    F.LiveIn b (F.transfer b X) := by
  intro into out hs
  rw [hs.entry b hb]
  exact F.mono b (h into out hs)

theorem LiveIn.succ (h : F.LiveIn c X) (hb : b ∈ F.nodes) (hc : c ∈ F.nodes) (hbc : F.succ b c) :
    F.LiveOut b X :=
  fun into out hs => (h into out hs).trans (hs.succ b hb c hc hbc)

theorem LiveIn.empty : F.LiveIn b ∅ := fun _ _ _ => Finset.empty_subset _

theorem LiveOut.union [DecidableEq α] (hX : F.LiveOut b X) (hY : F.LiveOut b Y) :
    F.LiveOut b (X ∪ Y) :=
  fun into out hs => Finset.union_subset (hX into out hs) (hY into out hs)

theorem LiveOut.mono (h : F.LiveOut b X) (hY : Y ⊆ X) : F.LiveOut b Y :=
  fun into out hs => hY.trans (h into out hs)

theorem least_of_live (hs : F.Solves into out)
    (hlive : ∀ b ∈ F.nodes, F.LiveIn b (into b) ∧ F.LiveOut b (out b)) : F.Least into out :=
  ⟨hs, fun into' out' hs' b hb => ⟨(hlive b hb).1 into' out' hs', (hlive b hb).2 into' out' hs'⟩⟩

theorem Least.liveOut (h : F.Least into out) (hb : b ∈ F.nodes) : F.LiveOut b (out b) :=
  fun into' out' hs => (h.2 into' out' hs b hb).2

end Flow

end Support
