import Mathlib.Data.List.Basic
import Mathlib.Logic.Function.Basic
import Mathlib.Order.Nat
import Mathlib.Tactic.Common

/-!
# Areas of memory

Memory in areas of so many members each, which are written and read by their index; a member that
has not been written is indeterminate.  It is a fault to write or read outside an area, or one that
has been given back, or an indeterminate member.  To run out of memory is noticed.

* `Safe`: without a fault, and with a result of which something holds.
* `Safe.bind`, `safe_foldlM`: the rules for a sequence and for a loop.
* `safe_realloc`, `safe_write`, `safe_read`: the rules for the operations.
-/

namespace Support

/-- What can go wrong. -/
inductive Fault where
  | exhausted | overrun | dangling | indeterminate
  deriving DecidableEq, Repr

universe u

variable {α β γ σ : Type u}

/-- No fault but that memory is exhausted, and `P` of the result. -/
def Safe (r : Except Fault β) (P : β → Prop) : Prop :=
  match r with
  | .ok x => P x
  | .error f => f = .exhausted

section

variable {r : Except Fault β} {P Q : β → Prop} {R : γ → Prop} {f : β → Except Fault γ} {x : β}

theorem safe_ok (h : P x) : Safe (.ok x) P := h

theorem safe_exhausted : Safe (.error .exhausted) P := rfl

theorem Safe.of_ok (h : Safe r P) (hr : r = .ok x) : P x := by
  subst hr
  exact h

theorem Safe.of_error {fault : Fault} (h : Safe r P) (hr : r = .error fault) :
    fault = .exhausted := by
  subst hr
  exact h

theorem Safe.mono (h : Safe r P) (hPQ : ∀ x, P x → Q x) : Safe r Q := by
  cases r with
  | ok x => exact hPQ x h
  | error f => exact h

theorem Safe.bind (h : Safe r P) (hf : ∀ x, P x → Safe (f x) R) : Safe (r >>= f) R := by
  cases r with
  | ok x => exact hf x h
  | error f => exact h

/-- A loop over the numbers below `n`, with an invariant. -/
theorem safe_foldlM {f : σ → ℕ → Except Fault σ} (I : ℕ → σ → Prop) {n : ℕ} {s : σ} (hstart : I 0 s)
    (hstep : ∀ i < n, ∀ s, I i s → Safe (f s i) (I (i + 1))) :
    Safe ((List.range n).foldlM f s) (I n) := by
  induction n with
  | zero => exact hstart
  | succ n ih =>
      rw [List.range_succ, List.foldlM_append]
      refine (ih fun i hi => hstep i (hi.trans (Nat.lt_succ_self n))).bind fun s' hs' => ?_
      rw [List.foldlM_cons]
      exact (hstep n (Nat.lt_succ_self n) s' hs').bind fun s'' hs'' => hs''

end

/-- Areas at numbered addresses, the next of which are free. -/
structure Areas (α : Type u) where
  area : ℕ → Option (List (Option α))
  next : ℕ
  fresh : ∀ p, next ≤ p → area p = none

namespace Areas

/-- No area yet. -/
def start : Areas α := ⟨fun _ => none, 0, fun _ _ => rfl⟩

/-- The area at a pointer; `none` is the null pointer. -/
def get (m : Areas α) (p : Option ℕ) : Option (List (Option α)) := p.bind m.area

/-- The area is given back. -/
def free (m : Areas α) (p : Option ℕ) : Areas α where
  area q := if p = some q then none else m.area q
  next := m.next
  fresh q hq := by rw [m.fresh q hq, ite_self]

/-- Another content of an area. -/
def put (m : Areas α) (p : ℕ) (a : List (Option α)) (hp : p < m.next) : Areas α where
  area := Function.update m.area p (some a)
  next := m.next
  fresh q hq := by rw [Function.update_of_ne (hp.trans_le hq).ne', m.fresh q hq]

/-- A new area. -/
def alloc (m : Areas α) (a : List (Option α)) : ℕ × Areas α :=
  (m.next,
    { area := Function.update m.area m.next (some a)
      next := m.next + 1
      fresh := fun q hq => by
        rw [Function.update_of_ne (Nat.lt_of_succ_le hq).ne', m.fresh q (Nat.le_of_succ_le hq)] })

/-- The members that there is room for, and indeterminate ones. -/
def resize (n : ℕ) (a : List (Option α)) : List (Option α) :=
  a.take n ++ List.replicate (n - a.length) none

/-- What `realloc` keeps the members of: nothing if the pointer is null. -/
def old (m : Areas α) : Option ℕ → Option (List (Option α))
  | none => some []
  | some p => m.area p

/-- `realloc` of so many members; the area moves.  `avail` says if there is memory for them. -/
def realloc (avail : Areas α → ℕ → Bool) (m : Areas α) (p : Option ℕ) (n : ℕ) :
    Except Fault (ℕ × Areas α) :=
  if avail m n = true then
    match m.old p with
    | some a => .ok ((m.free p).alloc (resize n a))
    | none => .error .dangling
  else .error .exhausted

theorem lt_next {m : Areas α} {p : ℕ} {a : List (Option α)} (h : m.area p = some a) :
    p < m.next := by
  by_contra hle
  rw [m.fresh p (not_lt.mp hle)] at h
  cases h

/-- A member is written. -/
def write (m : Areas α) (p : Option ℕ) (i : ℕ) (x : α) : Except Fault (Areas α) :=
  match p with
  | none => .error .dangling
  | some p =>
      match h : m.area p with
      | none => .error .dangling
      | some a =>
          if i < a.length then .ok (m.put p (a.set i (some x)) (lt_next h)) else .error .overrun

/-- A member is read. -/
def read (m : Areas α) (p : Option ℕ) (i : ℕ) : Except Fault α :=
  match m.get p with
  | none => .error .dangling
  | some a =>
      match a[i]? with
      | none => .error .overrun
      | some none => .error .indeterminate
      | some (some x) => .ok x

section

variable {avail : Areas α → ℕ → Bool} {m m' : Areas α} {p : ℕ} {q : Option ℕ} {i n : ℕ} {x : α}
  {a : List (Option α)}

@[simp] theorem length_resize : (resize n a).length = n := by
  rw [resize, List.length_append, List.length_take, List.length_replicate]
  omega

theorem take_resize (h : i ≤ n) (hi : i ≤ a.length) : (resize n a).take i = a.take i := by
  rw [resize, List.take_append_of_le_length (by rw [List.length_take]; omega), List.take_take,
    Nat.min_eq_left h]

/-- `realloc` keeps the members that there is room for, and all other areas. -/
theorem safe_realloc (h : m.old q = some a) :
    Safe (m.realloc avail q n) fun r => m.area r.1 = none ∧ r.2.area r.1 = some (resize n a) ∧
      ∀ s, s ≠ r.1 → q ≠ some s → r.2.area s = m.area s := by
  unfold realloc
  split
  · rw [h]
    refine safe_ok ⟨m.fresh _ le_rfl, Function.update_self .., fun s hs hq => ?_⟩
    exact (Function.update_of_ne hs ..).trans (if_neg hq)
  · exact safe_exhausted

/-- A write inside an area changes one member. -/
theorem safe_write (h : m.area p = some a) (hi : i < a.length) :
    Safe (m.write (some p) i x) fun m' => m'.area p = some (a.set i (some x)) ∧
      ∀ s, s ≠ p → m'.area s = m.area s := by
  unfold write
  dsimp only
  split
  · next hnone =>
      rw [h] at hnone
      cases hnone
  · next b hb =>
      obtain rfl := Option.some.inj (h.symm.trans hb)
      rw [if_pos hi]
      exact safe_ok ⟨Function.update_self .., fun s hs => Function.update_of_ne hs ..⟩

theorem safe_read (h : m.area p = some a) (hi : a[i]? = some (some x)) :
    Safe (m.read (some p) i) (· = x) := by
  unfold read
  rw [show m.get (some p) = some a from h]
  dsimp only
  rw [hi]
  exact safe_ok rfl

/-- A member after those before it, as a beginning of the area. -/
theorem take_set_succ (hi : i < a.length) (y : Option α) :
    (a.set i y).take (i + 1) = a.take i ++ [y] := by
  rw [List.take_add_one, List.take_set_of_le le_rfl, List.getElem?_set_self hi]
  rfl

end

end Areas

end Support
