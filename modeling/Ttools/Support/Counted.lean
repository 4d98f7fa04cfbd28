import Mathlib.Algebra.BigOperators.Group.Finset.Basic
import Mathlib.Algebra.Order.BigOperators.Group.Finset
import Mathlib.Data.Multiset.Count
import Mathlib.Tactic.Ring

/-!
# Memory with counted references

Nodes of any type at numbered addresses, each with a count of the references to it.  A node is
live while its count is not zero.  `total w` adds up a weight over the live nodes; with the
occurrences of an address as the weight it is the number of references the nodes hold to it.

`Counted kids held m`: every count is the number of references from live nodes (`kids`) plus those
held from outside, a multiset.

* `Counted.share`, `Counted.drop`, `Counted.bury`, `Counted.erase`, `Counted.alloc`,
  `Counted.write`: the references after each operation.
* `Kept`: what is live after is live before, with the same node.  `Kept.trans` and a rule for each
  operation.
* `Counted.kid_live`, `Counted.sole`: nothing dangles, and who holds the only reference knows that
  no live node has one.
-/

namespace Support

/-- A node and the count of the references to it. -/
structure Cell (α : Type*) where
  node : α
  nrefs : ℕ
  deriving DecidableEq, Repr

/-- Nodes at addresses below `next`. -/
structure Memory (α : Type*) where
  cell : ℕ → Option (Cell α)
  next : ℕ

namespace Memory

variable {α : Type*}

/-- Nothing allocated yet. -/
def empty : Memory α := ⟨fun _ => none, 0⟩

/-- The node at an address. -/
def node (m : Memory α) (a : ℕ) : Option α := (m.cell a).map Cell.node

/-- The count of the references to an address. -/
def nrefs (m : Memory α) (a : ℕ) : ℕ := (m.cell a).elim 0 Cell.nrefs

/-- There is a reference to `a`. -/
def Live (m : Memory α) (a : ℕ) : Prop := 0 < m.nrefs a

/-- Another cell, or none, at `a`. -/
def put (m : Memory α) (a : ℕ) (c : Option (Cell α)) : Memory α :=
  { m with cell := Function.update m.cell a c }

/-- A new node with one reference; its address is the `next` there was. -/
def alloc (m : Memory α) (n : α) : Memory α where
  cell := Function.update m.cell m.next (some ⟨n, 1⟩)
  next := m.next + 1

/-- One more reference. -/
def share (m : Memory α) (a : ℕ) : Memory α :=
  m.put a ((m.cell a).map fun c => { c with nrefs := c.nrefs + 1 })

/-- One reference less. -/
def drop (m : Memory α) (a : ℕ) : Memory α :=
  m.put a ((m.cell a).map fun c => { c with nrefs := c.nrefs - 1 })

/-- Another node in the same place. -/
def write (m : Memory α) (a : ℕ) (n : α) : Memory α :=
  m.put a ((m.cell a).map fun c => { c with node := n })

/-- The memory of the node is given back. -/
def erase (m : Memory α) (a : ℕ) : Memory α := m.put a none

/-! ### What the operations leave at an address -/

variable {m m' m₁ m₂ m₃ : Memory α} {a b : ℕ} {n n' : α}

@[simp] theorem next_put (c : Option (Cell α)) : (m.put a c).next = m.next := rfl
@[simp] theorem next_share : (m.share a).next = m.next := rfl
@[simp] theorem next_drop : (m.drop a).next = m.next := rfl
@[simp] theorem next_write : (m.write a n).next = m.next := rfl
@[simp] theorem next_erase : (m.erase a).next = m.next := rfl
@[simp] theorem next_alloc : (m.alloc n).next = m.next + 1 := rfl

theorem cell_of_node (h : m.node a = some n) : m.cell a = some ⟨n, m.nrefs a⟩ := by
  unfold node nrefs at *
  cases hc : m.cell a with
  | none => simp [hc] at h
  | some c =>
      simp only [hc, Option.map_some, Option.some.injEq] at h
      subst h
      rfl

theorem Live.cell (h : m.Live a) : ∃ n, m.cell a = some ⟨n, m.nrefs a⟩ := by
  unfold Live nrefs at *
  cases hc : m.cell a with
  | none => simp [hc] at h
  | some c => exact ⟨c.node, rfl⟩

theorem Live.node (h : m.Live a) : ∃ n, m.node a = some n := by
  obtain ⟨n, hn⟩ := h.cell
  exact ⟨n, by simp [Memory.node, hn]⟩

@[simp] theorem node_share : (m.share a).node b = m.node b := by
  unfold share put node
  by_cases h : b = a
  · subst h
    cases m.cell b <;> simp
  · simp [h]

@[simp] theorem node_drop : (m.drop a).node b = m.node b := by
  unfold drop put node
  by_cases h : b = a
  · subst h
    cases m.cell b <;> simp
  · simp [h]

theorem node_write (h : m.node a = some n') :
    (m.write a n).node b = if b = a then some n else m.node b := by
  rw [node, write, put, cell_of_node h]
  by_cases hb : b = a <;> simp [hb, node]

theorem node_write_ne (h : b ≠ a) : (m.write a n).node b = m.node b := by
  simp [write, put, node, h]

theorem node_alloc : (m.alloc n).node b = if b = m.next then some n else m.node b := by
  unfold alloc node
  by_cases hb : b = m.next <;> simp [hb]

theorem nrefs_share (h : m.Live a) :
    (m.share a).nrefs b = m.nrefs b + if b = a then 1 else 0 := by
  obtain ⟨n, hn⟩ := h.cell
  rw [nrefs, share, put, hn]
  by_cases hb : b = a <;> simp [hb, nrefs]

theorem nrefs_drop : (m.drop a).nrefs b = m.nrefs b - if b = a then 1 else 0 := by
  unfold drop put nrefs
  by_cases hb : b = a
  · subst hb
    cases m.cell b <;> simp
  · simp [hb]

@[simp] theorem nrefs_write : (m.write a n).nrefs b = m.nrefs b := by
  unfold write put nrefs
  by_cases hb : b = a
  · subst hb
    cases m.cell b <;> simp
  · simp [hb]

theorem nrefs_alloc : (m.alloc n).nrefs b = if b = m.next then 1 else m.nrefs b := by
  unfold alloc nrefs
  by_cases hb : b = m.next <;> simp [hb]

theorem nrefs_erase : (m.erase a).nrefs b = if b = a then 0 else m.nrefs b := by
  unfold erase put nrefs
  by_cases hb : b = a <;> simp [hb]

/-! ### A weight over the live nodes -/

/-- What a cell adds to the total. -/
def weigh (w : α → ℕ) : Option (Cell α) → ℕ
  | some c => if 0 < c.nrefs then w c.node else 0
  | none => 0

/-- The weights of the live nodes, added up. -/
def total (w : α → ℕ) (m : Memory α) : ℕ := ∑ a ∈ Finset.range m.next, weigh w (m.cell a)

variable {w : α → ℕ}

theorem total_put (ha : a < m.next) (c : Option (Cell α)) :
    (m.put a c).total w + weigh w (m.cell a) = m.total w + weigh w c := by
  have hmem : a ∈ Finset.range m.next := Finset.mem_range.mpr ha
  have hrest : ∑ b ∈ (Finset.range m.next).erase a, weigh w ((m.put a c).cell b)
      = ∑ b ∈ (Finset.range m.next).erase a, weigh w (m.cell b) :=
    Finset.sum_congr rfl fun b hb => by simp [put, Finset.ne_of_mem_erase hb]
  have hself : (m.put a c).cell a = c := by simp [put]
  unfold total
  rw [next_put, ← Finset.add_sum_erase _ _ hmem, hrest, hself,
    ← Finset.add_sum_erase _ (fun b => weigh w (m.cell b)) hmem]
  ring

theorem total_alloc (n : α) : (m.alloc n).total w = m.total w + w n := by
  unfold total
  rw [next_alloc, Finset.sum_range_succ]
  congr 1
  · refine Finset.sum_congr rfl fun b hb => ?_
    simp [alloc, (Finset.mem_range.mp hb).ne]
  · simp [alloc, weigh]

theorem total_share (ha : a < m.next) (h : m.Live a) : (m.share a).total w = m.total w := by
  obtain ⟨n, hn⟩ := h.cell
  have := total_put (w := w) ha ((m.cell a).map fun c => { c with nrefs := c.nrefs + 1 })
  rw [← share, hn] at this
  simpa [weigh, show 0 < m.nrefs a from h] using this

/-- A reference less leaves the node live. -/
theorem total_drop (ha : a < m.next) (h : 1 < m.nrefs a) : (m.drop a).total w = m.total w := by
  obtain ⟨n, hn⟩ := Live.cell (m := m) (a := a) (by unfold Live; omega)
  have := total_put (w := w) ha ((m.cell a).map fun c => { c with nrefs := c.nrefs - 1 })
  rw [← drop, hn] at this
  simpa [weigh, h, show 0 < m.nrefs a by omega] using this

/-- The last reference is given up: what the node held is no longer counted. -/
theorem total_bury (ha : a < m.next) (h : m.nrefs a = 1) (hn : m.node a = some n) :
    (m.drop a).total w + w n = m.total w := by
  have := total_put (w := w) ha ((m.cell a).map fun c => { c with nrefs := c.nrefs - 1 })
  rw [← drop, cell_of_node hn] at this
  simpa [weigh, h] using this

theorem total_erase (ha : a < m.next) (h : m.nrefs a = 0) : (m.erase a).total w = m.total w := by
  have := total_put (w := w) ha none
  rw [← erase] at this
  have h0 : weigh w (m.cell a) = 0 := by
    unfold nrefs at h
    cases hc : m.cell a with
    | none => rfl
    | some c =>
        have : c.nrefs = 0 := by simpa [hc] using h
        simp [weigh, this]
  rw [h0] at this
  simpa [weigh] using this

theorem total_write (ha : a < m.next) (h : m.Live a) (hn : m.node a = some n') :
    (m.write a n).total w + w n' = m.total w + w n := by
  have := total_put (w := w) ha ((m.cell a).map fun c => { c with node := n })
  rw [← write, cell_of_node hn] at this
  simpa [weigh, show 0 < m.nrefs a from h] using this

/-- A live node's weight is part of the total. -/
theorem le_total (ha : a < m.next) (h : m.Live a) (hn : m.node a = some n) : w n ≤ m.total w := by
  have := total_put (w := w) ha none
  rw [cell_of_node hn] at this
  simp only [weigh, show 0 < m.nrefs a from h, if_true] at this
  omega

theorem le_total₂ (hne : a ≠ b) (ha : a < m.next) (hb : b < m.next) (hla : m.Live a)
    (hlb : m.Live b) (hna : m.node a = some n) (hnb : m.node b = some n') :
    w n + w n' ≤ m.total w := by
  have htotal := total_put (w := w) ha none
  rw [cell_of_node hna] at htotal
  simp only [weigh, show 0 < m.nrefs a from hla, if_true] at htotal
  have hcell : (m.put a none).cell b = m.cell b := by simp [put, hne.symm]
  have hlb' : (m.put a none).Live b := by
    unfold Live nrefs at *
    rwa [hcell]
  have := le_total (w := w) (m := m.put a none) hb hlb' (by rw [node, hcell, ← node, hnb])
  omega

/-! ### Counts that are right -/

/-- Every count is the number of references, from live nodes and from outside. -/
structure Counted (kids : α → List ℕ) (held : Multiset ℕ) (m : Memory α) : Prop where
  count : ∀ a, m.nrefs a = held.count a + m.total fun n => (kids n).count a
  bound : ∀ a, m.next ≤ a → m.cell a = none

namespace Counted

variable {kids : α → List ℕ} {held : Multiset ℕ}

protected theorem empty : Counted kids 0 (empty : Memory α) where
  count a := by simp [Memory.nrefs, Memory.empty, total]
  bound _ _ := rfl

theorem lt (h : Counted kids held m) (hn : m.node a = some n) : a < m.next := by
  by_contra hlt
  simp [Memory.node, h.bound a (by omega)] at hn

theorem live_lt (h : Counted kids held m) (ha : m.Live a) : a < m.next := by
  obtain ⟨n, hn⟩ := ha.node
  exact h.lt hn

theorem live (h : Counted kids held m) (ha : a ∈ held) : m.Live a := by
  have := Multiset.count_pos.mpr ha
  have := h.count a
  unfold Live
  omega

/-- Nothing dangles: what a live node points to is live. -/
theorem kid_live (h : Counted kids held m) (ha : m.Live a) (hn : m.node a = some n)
    (hb : b ∈ kids n) : m.Live b := by
  have hle : (kids n).count b ≤ m.total fun n => (kids n).count b :=
    le_total (w := fun n => (kids n).count b) (h.lt hn) ha hn
  have := List.count_pos_iff.mpr hb
  have := h.count b
  unfold Live
  omega

/-- Who holds the only reference to `b` knows that no live node has one. -/
theorem sole (h : Counted kids held m) (hb : b ∈ held) (h1 : m.nrefs b = 1) (ha : m.Live a)
    (hn : m.node a = some n) : b ∉ kids n := by
  intro hmem
  have hle : (kids n).count b ≤ m.total fun n => (kids n).count b :=
    le_total (w := fun n => (kids n).count b) (h.lt hn) ha hn
  have := List.count_pos_iff.mpr hmem
  have := Multiset.count_pos.mpr hb
  have := h.count b
  omega

/-- Two live nodes that point to `b`. -/
theorem two_le (h : Counted kids held m) {a₁ a₂ : ℕ} {n₁ n₂ : α} (hne : a₁ ≠ a₂) (h₁ : m.Live a₁)
    (h₂ : m.Live a₂) (hn₁ : m.node a₁ = some n₁) (hn₂ : m.node a₂ = some n₂) (hb₁ : b ∈ kids n₁)
    (hb₂ : b ∈ kids n₂) : 1 < m.nrefs b := by
  have hle := le_total₂ (w := fun n => (kids n).count b) hne (h.lt hn₁) (h.lt hn₂) h₁ h₂ hn₁ hn₂
  have := List.count_pos_iff.mpr hb₁
  have := List.count_pos_iff.mpr hb₂
  have := h.count b
  omega

theorem share (h : Counted kids held m) (ha : m.Live a) : Counted kids (a ::ₘ held) (m.share a) where
  count b := by
    rw [nrefs_share ha, h.count b, total_share (h.live_lt ha) ha, Multiset.count_cons]
    ring
  bound b hb := by
    have hne : b ≠ a := by
      rintro rfl
      exact absurd (h.live_lt ha) (by simpa using hb)
    simpa [Memory.share, put, hne] using h.bound b hb

theorem drop (h : Counted kids (a ::ₘ held) m) (h1 : 1 < m.nrefs a) :
    Counted kids held (m.drop a) where
  count b := by
    have ha : m.Live a := by unfold Live; omega
    have := h.count b
    rw [Multiset.count_cons] at this
    rw [nrefs_drop, total_drop (h.live_lt ha) h1]
    omega
  bound b hb := by
    have := h.bound b hb
    by_cases hne : b = a
    · subst hne
      simp [Memory.drop, put, this]
    · simpa [Memory.drop, put, hne] using this

/-- After the last reference the references of the node itself are held from outside. -/
theorem bury (h : Counted kids (a ::ₘ held) m) (h1 : m.nrefs a = 1) (hn : m.node a = some n) :
    Counted kids (↑(kids n) + held) (m.drop a) where
  count b := by
    have hb := h.count b
    have ht := total_bury (w := fun n => (kids n).count b) (h.lt hn) h1 hn
    rw [Multiset.count_cons] at hb
    rw [nrefs_drop, Multiset.count_add, Multiset.coe_count]
    omega
  bound b hb := by
    have := h.bound b hb
    by_cases hne : b = a
    · subst hne
      simp [Memory.drop, put, this]
    · simpa [Memory.drop, put, hne] using this

theorem erase (h : Counted kids held m) (ha : a < m.next) (h0 : m.nrefs a = 0) :
    Counted kids held (m.erase a) where
  count b := by
    rw [total_erase ha h0, nrefs_erase]
    split
    · next hb =>
        subst hb
        rw [← h0, h.count b]
    · exact h.count b
  bound b hb := by
    by_cases hne : b = a
    · simp [Memory.erase, put, hne]
    · simpa [Memory.erase, put, hne] using h.bound b hb

/-- The references that the new node holds are handed to it. -/
theorem alloc (h : Counted kids (↑(kids n) + held) m) :
    Counted kids (m.next ::ₘ held) (m.alloc n) where
  count b := by
    have hb := h.count b
    rw [Multiset.count_add, Multiset.coe_count] at hb
    rw [nrefs_alloc, total_alloc, Multiset.count_cons]
    split
    · next he =>
        subst he
        have : m.nrefs m.next = 0 := by simp [Memory.nrefs, h.bound _ le_rfl]
        omega
    · omega
  bound b hb := by
    have hb' : m.next + 1 ≤ b := hb
    have hne : b ≠ m.next := by omega
    simpa [Memory.alloc, hne] using h.bound b (by omega)

/-- The references of the new node are handed to it, those of the old one handed out. -/
theorem write {held' : Multiset ℕ} (h : Counted kids held m) (ha : m.Live a)
    (hn : m.node a = some n') (hswap : held + ↑(kids n') = held' + ↑(kids n)) :
    Counted kids held' (m.write a n) where
  count b := by
    have hb := h.count b
    have ht := total_write (w := fun n => (kids n).count b) (n := n) (h.lt hn) ha hn
    have hs := congrArg (Multiset.count b) hswap
    rw [Multiset.count_add, Multiset.count_add, Multiset.coe_count, Multiset.coe_count] at hs
    rw [nrefs_write]
    omega
  bound b hb := by
    have := h.bound b hb
    by_cases hne : b = a
    · subst hne
      simp [Memory.write, put, this]
    · simpa [Memory.write, put, hne] using this

end Counted

/-! ### What stays -/

/-- Of the addresses there were, those live in `m'` were live in `m`, and outside `S` they have the
same node. -/
structure Kept (S : Set ℕ) (m m' : Memory α) : Prop where
  next : m.next ≤ m'.next
  live : ∀ a < m.next, m'.Live a → m.Live a
  node : ∀ a < m.next, a ∉ S → m'.Live a → m'.node a = m.node a

namespace Kept

variable {S : Set ℕ}

protected theorem refl (m : Memory α) : Kept S m m := ⟨le_rfl, fun _ _ h => h, fun _ _ _ _ => rfl⟩

theorem trans (h₁ : Kept S m₁ m₂) (h₂ : Kept S m₂ m₃) : Kept S m₁ m₃ where
  next := h₁.next.trans h₂.next
  live a ha hl := h₁.live a ha (h₂.live a (ha.trans_le h₁.next) hl)
  node a ha hS hl := by
    have ha₂ := ha.trans_le h₁.next
    rw [h₂.node a ha₂ hS hl, h₁.node a ha hS (h₂.live a ha₂ hl)]

/-- What is changed later may be new. -/
theorem trans_fresh {S' : Set ℕ} (h₁ : Kept S m₁ m₂) (h₂ : Kept S' m₂ m₃)
    (hS : ∀ a ∈ S', m₁.next ≤ a) : Kept S m₁ m₃ where
  next := h₁.next.trans h₂.next
  live a ha hl := h₁.live a ha (h₂.live a (ha.trans_le h₁.next) hl)
  node a ha hnot hl := by
    have ha₂ := ha.trans_le h₁.next
    rw [h₂.node a ha₂ (fun hmem => ha.not_ge (hS a hmem)) hl,
      h₁.node a ha hnot (h₂.live a ha₂ hl)]

theorem mono {S' : Set ℕ} (h : Kept S m m') (hS : S ⊆ S') : Kept S' m m' :=
  ⟨h.next, h.live, fun a ha hn hl => h.node a ha (fun hmem => hn (hS hmem)) hl⟩

theorem share (h : m.Live a) : Kept S m (m.share a) where
  next := le_rfl
  live b _ hl := by
    unfold Live at *
    rw [nrefs_share h] at hl
    by_cases hb : b = a
    · exact hb ▸ h
    · simpa [hb] using hl
  node b _ _ _ := node_share

theorem drop : Kept S m (m.drop a) where
  next := le_rfl
  live b _ hl := by
    unfold Live at *
    rw [nrefs_drop] at hl
    omega
  node b _ _ _ := node_drop

theorem erase : Kept S m (m.erase a) where
  next := le_rfl
  live b _ hl := by
    unfold Live at *
    rw [nrefs_erase] at hl
    split at hl
    · exact absurd hl (lt_irrefl _)
    · exact hl
  node b _ _ hl := by
    unfold Live at hl
    rw [nrefs_erase] at hl
    have hb : b ≠ a := by
      rintro rfl
      simp at hl
    simp [Memory.node, Memory.erase, put, hb]

theorem alloc (n : α) : Kept S m (m.alloc n) where
  next := Nat.le_succ _
  live b hb hl := by
    unfold Live at *
    rwa [nrefs_alloc, if_neg hb.ne] at hl
  node b hb _ _ := by rw [node_alloc, if_neg hb.ne]

/-- A node of `S` is changed, or one that was not there. -/
theorem write (h : Kept S m m') (ha : a ∈ S ∨ m.next ≤ a) : Kept S m (m'.write a n) where
  next := h.next
  live b hb hl := h.live b hb (by simpa [Live] using hl)
  node b hb hS hl := by
    have hne : b ≠ a := by
      rintro rfl
      exact ha.elim hS (by omega)
    rw [node_write_ne hne]
    exact h.node b hb hS (by simpa [Live] using hl)

end Kept

/-- The order of a write and of a reference less does not matter. -/
theorem write_drop_comm : (m.drop b).write a n = (m.write a n).drop b := by
  unfold Memory.write Memory.drop put
  congr 1
  funext x
  by_cases hxa : x = a <;> by_cases hxb : x = b <;> by_cases hab : a = b <;>
    simp_all [Function.update_apply]
  rfl

/-! ### How many are live -/

/-- The number of live nodes. -/
def population (m : Memory α) : ℕ := m.total fun _ => 1

theorem population_le : m.population ≤ m.next := by
  have hone : ∀ c : Option (Cell α), weigh (fun _ => 1) c ≤ 1 := by
    intro c
    unfold weigh
    split
    · split <;> simp
    · simp
  calc m.population ≤ ∑ _a ∈ Finset.range m.next, 1 := by
        unfold population total
        exact Finset.sum_le_sum fun a _ => hone (m.cell a)
    _ = m.next := by simp

/-! ### What is given back -/

/-- Outside `S`, a cell that is there has a reference. -/
def Tidy (S : Set ℕ) (m : Memory α) : Prop :=
  ∀ a n, m.node a = some n → a < m.next ∧ (a ∉ S → m.Live a)

namespace Tidy

variable {S : Set ℕ}

protected theorem empty : Tidy S (empty : Memory α) := fun _ _ hn => by cases hn

theorem alloc (h : Tidy S m) (n : α) : Tidy S (m.alloc n) := by
  intro b n' hn
  rw [node_alloc] at hn
  unfold Live
  rw [nrefs_alloc]
  by_cases hb : b = m.next
  · exact ⟨hb.trans_lt (Nat.lt_succ_self _), fun _ => by simp [hb]⟩
  · rw [if_neg hb] at hn ⊢
    exact ⟨Nat.lt_succ_of_lt (h b n' hn).1, (h b n' hn).2⟩

theorem share (h : Tidy S m) (a : ℕ) : Tidy S (m.share a) := by
  intro b n hn
  rw [node_share] at hn
  refine ⟨(h b n hn).1, fun hS => ((h b n hn).2 hS).trans_le ?_⟩
  unfold Memory.share put nrefs
  by_cases hb : b = a
  · subst hb
    rcases m.cell b with _ | c <;> simp
  · simp [hb]

theorem write (h : Tidy S m) (a : ℕ) (n : α) : Tidy S (m.write a n) := by
  intro b n' hn
  unfold Live
  rw [nrefs_write]
  by_cases hb : b = a
  · subst hb
    rcases hold : m.node b with _ | n₀
    · simp [Memory.node, Memory.write, put, Option.map_eq_none_iff.mp hold] at hn
    · exact h b n₀ hold
  · exact h b n' (node_write_ne hb ▸ hn)

/-- A reference goes, but not the last one. -/
theorem drop (h : Tidy S m) (h1 : m.nrefs a ≠ 1) : Tidy S (m.drop a) := by
  intro b n hn
  rw [node_drop] at hn
  refine ⟨(h b n hn).1, fun hS => ?_⟩
  have hlive := (h b n hn).2 hS
  unfold Live at *
  rw [nrefs_drop]
  split
  · next heq =>
      subst heq
      omega
  · exact hlive

/-- The last reference goes. -/
theorem bury (h : Tidy S m) : Tidy (insert a S) (m.drop a) := by
  intro b n hn
  rw [node_drop] at hn
  refine ⟨(h b n hn).1, fun hS => ?_⟩
  rw [Set.mem_insert_iff, not_or] at hS
  have hlive := (h b n hn).2 hS.2
  unfold Live at *
  rw [nrefs_drop, if_neg hS.1]
  exact hlive

theorem of_live (h : Tidy (insert a S) m) (ha : m.Live a) : Tidy S m := fun b n hn =>
  ⟨(h b n hn).1, fun hS => by
    by_cases hb : b = a
    · exact hb ▸ ha
    · exact (h b n hn).2 fun hmem => (Set.mem_insert_iff.mp hmem).elim hb hS⟩

theorem erase (h : Tidy (insert a S) m) : Tidy S (m.erase a) := by
  intro b n hn
  have hb : b ≠ a := by
    rintro rfl
    simp [Memory.node, Memory.erase, put] at hn
  have hn' : m.node b = some n := by simpa [Memory.node, Memory.erase, put, hb] using hn
  refine ⟨(h b n hn').1, fun hS => ?_⟩
  have hlive := (h b n hn').2 fun hmem => (Set.mem_insert_iff.mp hmem).elim hb hS
  unfold Live at *
  rwa [nrefs_erase, if_neg hb]

end Tidy

/-- What is live is held, or another live node refers to it. -/
theorem Counted.referrer {kids : α → List ℕ} {held : Multiset ℕ} (h : Counted kids held m)
    (ha : m.Live a) (hheld : a ∉ held) : ∃ b n, m.Live b ∧ m.node b = some n ∧ a ∈ kids n := by
  have hcount := h.count a
  rw [Multiset.count_eq_zero_of_notMem hheld, zero_add] at hcount
  have htotal : m.total (fun n => (kids n).count a) ≠ 0 := hcount ▸ Nat.ne_of_gt ha
  obtain ⟨b, -, hb⟩ := Finset.exists_ne_zero_of_sum_ne_zero htotal
  rcases hc : m.cell b with _ | ⟨n, k⟩
  · rw [hc] at hb
    exact absurd rfl hb
  · rw [hc, weigh] at hb
    split at hb
    · next hk =>
        refine ⟨b, n, ?_, by simp [Memory.node, hc], List.count_pos_iff.mp (Nat.pos_of_ne_zero hb)⟩
        simpa [Live, nrefs, hc] using hk
    · exact absurd rfl hb

end Memory

end Support
