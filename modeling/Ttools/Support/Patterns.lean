import Mathlib.Data.List.Basic
import Mathlib.Tactic.Common

/-!
# Patterns

A pattern is the texts that it matches.  Of several rules the one whose pattern matches the longest
beginning of the input is taken, and of two that match as much the first.

* `longest_eq_some`: how much of the input a pattern matches.
* `best_spec`, `best_append`, `best_isSome`: which rule is taken.
-/

namespace Support

variable {α ρ : Type*}

/-- The texts that are matched. -/
abbrev Pattern (α : Type*) := List α → Bool

namespace Pattern

variable {P Q : Pattern α} {p q : α → Bool} {s t u v w : List α} {n m k lo hi : Nat}

/-- One character of a class. -/
def one (p : α → Bool) : Pattern α
  | [c] => p c
  | _ => false

/-- Any number of characters of a class. -/
def many (p : α → Bool) : Pattern α := fun w => w.all p

/-- At least one character of a class. -/
def many1 (p : α → Bool) : Pattern α := fun w => decide (1 ≤ w.length) && w.all p

/-- One after the other. -/
def seq (P Q : Pattern α) : Pattern α := fun w =>
  (List.range (w.length + 1)).any fun n => P (w.take n) && Q (w.drop n)

/-- So many texts of a pattern, one after the other. -/
def power (P : Pattern α) : Nat → Pattern α
  | 0 => List.isEmpty
  | n + 1 => seq P (power P n)

/-- From `lo` to `hi` texts of a pattern, one after the other. -/
def times (lo hi : Nat) (P : Pattern α) : Pattern α := fun w =>
  (List.range (hi + 1)).any fun n => decide (lo ≤ n) && power P n w

@[simp] theorem one_iff : one p w = true ↔ ∃ c, w = [c] ∧ p c = true := by
  unfold one
  split
  · simp
  · rename_i h
    simp only [Bool.false_eq_true, false_iff, not_exists, not_and]
    exact fun c hc => absurd hc (h c)

@[simp] theorem many_iff : many p w = true ↔ ∀ c ∈ w, p c = true := by
  simp [many]

@[simp] theorem many1_iff : many1 p w = true ↔ w ≠ [] ∧ ∀ c ∈ w, p c = true := by
  simp [many1, Nat.one_le_iff_ne_zero]

@[simp] theorem seq_iff : seq P Q w = true ↔ ∃ u v, w = u ++ v ∧ P u = true ∧ Q v = true := by
  simp only [seq, List.any_eq_true, List.mem_range, Bool.and_eq_true]
  constructor
  · rintro ⟨n, -, hP, hQ⟩
    exact ⟨w.take n, w.drop n, (List.take_append_drop n w).symm, hP, hQ⟩
  · rintro ⟨u, v, rfl, hP, hQ⟩
    refine ⟨u.length, Nat.lt_succ_of_le (List.length_append ▸ Nat.le_add_right ..), ?_, ?_⟩
    · rwa [List.take_left]
    · rwa [List.drop_left]

theorem power_iff : power P n w = true ↔
    ∃ us : List (List α), us.length = n ∧ (∀ u ∈ us, P u = true) ∧ w = us.flatten := by
  induction n generalizing w with
  | zero =>
      constructor
      · exact fun h => ⟨[], rfl, List.forall_mem_nil _, List.isEmpty_iff.mp h⟩
      · rintro ⟨us, hlen, -, rfl⟩
        rw [List.length_eq_zero_iff.mp hlen]
        rfl
  | succ n ih =>
      rw [power, seq_iff]
      constructor
      · rintro ⟨u, v, rfl, hu, hv⟩
        obtain ⟨us, rfl, hus, rfl⟩ := ih.mp hv
        exact ⟨u :: us, rfl, List.forall_mem_cons.mpr ⟨hu, hus⟩, rfl⟩
      · rintro ⟨us, hlen, hus, rfl⟩
        obtain ⟨u, us, rfl⟩ := List.exists_cons_of_length_eq_add_one hlen
        obtain ⟨hu, hus⟩ := List.forall_mem_cons.mp hus
        exact ⟨u, us.flatten, rfl, hu, ih.mpr ⟨us, Nat.succ.inj hlen, hus, rfl⟩⟩

@[simp] theorem times_iff : times lo hi P w = true ↔
    ∃ us : List (List α), (lo ≤ us.length ∧ us.length ≤ hi) ∧ (∀ u ∈ us, P u = true) ∧
      w = us.flatten := by
  simp only [times, List.any_eq_true, List.mem_range, Bool.and_eq_true, decide_eq_true_eq,
    power_iff, Nat.lt_succ_iff]
  constructor
  · rintro ⟨n, hhi, hlo, us, rfl, hus⟩
    exact ⟨us, ⟨hlo, hhi⟩, hus⟩
  · rintro ⟨us, ⟨hlo, hhi⟩, hus⟩
    exact ⟨us.length, hhi, hlo, us, rfl, hus⟩

/-! ### The longest match -/

/-- How much of the input is matched. -/
def longest (P : Pattern α) (s : List α) : Option Nat :=
  ((List.range (s.length + 1)).filter fun n => P (s.take n)).getLast?

theorem longest_eq_some : longest P s = some n ↔
    n ≤ s.length ∧ P (s.take n) = true ∧ ∀ m ≤ s.length, P (s.take m) = true → m ≤ n := by
  have hmem : ∀ m, m ∈ (List.range (s.length + 1)).filter (fun n => P (s.take n)) ↔
      m ≤ s.length ∧ P (s.take m) = true := fun m => by
    rw [List.mem_filter, List.mem_range, Nat.lt_succ_iff]
  have hsorted : ((List.range (s.length + 1)).filter fun n => P (s.take n)).Pairwise (· < ·) :=
    List.pairwise_lt_range.filter _
  unfold longest
  generalize (List.range (s.length + 1)).filter (fun n => P (s.take n)) = l at hmem hsorted ⊢
  constructor
  · intro hlast
    obtain ⟨l', rfl⟩ := List.getLast?_eq_some_iff.mp hlast
    have hn := (hmem n).mp (by simp)
    refine ⟨hn.1, hn.2, fun m hm hP => ?_⟩
    obtain hm' | hm' := List.mem_append.mp ((hmem m).mpr ⟨hm, hP⟩)
    · exact Nat.le_of_lt ((List.pairwise_append.mp hsorted).2.2 m hm' n (by simp))
    · exact Nat.le_of_eq (List.mem_singleton.mp hm')
  · rintro ⟨hn, hP, hmax⟩
    have hin := (hmem n).mpr ⟨hn, hP⟩
    obtain ⟨l', m, rfl⟩ : ∃ l' m, l = l' ++ [m] := by
      obtain rfl | ⟨l', m, rfl⟩ := List.eq_nil_or_concat l
      · cases hin
      · exact ⟨l', m, by simp⟩
    have hm := (hmem m).mp (by simp)
    have hle := hmax m hm.1 hm.2
    obtain hn' | hn' := List.mem_append.mp hin
    · have := (List.pairwise_append.mp hsorted).2.2 n hn' m (by simp)
      omega
    · rw [List.mem_singleton.mp hn']
      simp

theorem longest_eq_none : longest P s = none ↔ ∀ m ≤ s.length, P (s.take m) = false := by
  rw [longest, List.getLast?_eq_none_iff, List.filter_eq_nil_iff]
  simp only [List.mem_range, Nat.lt_succ_iff, Bool.not_eq_true]

/-- A text that is matched is at most the longest. -/
theorem exists_longest (h : P u = true) (t : List α) :
    ∃ n, longest P (u ++ t) = some n ∧ u.length ≤ n := by
  have hu : P ((u ++ t).take u.length) = true := by rwa [List.take_left]
  cases hl : longest P (u ++ t) with
  | none =>
      rw [longest_eq_none] at hl
      have := hl u.length (by simp)
      rw [hu] at this
      cases this
  | some n => exact ⟨n, rfl, (longest_eq_some.mp hl).2.2 u.length (by simp) hu⟩

/-- The longest match, as a beginning of the input. -/
theorem longest_split (h : longest P s = some n) :
    ∃ u t, s = u ++ t ∧ u.length = n ∧ P u = true := by
  obtain ⟨hn, hP, -⟩ := longest_eq_some.mp h
  exact ⟨s.take n, s.drop n, (List.take_append_drop n s).symm, List.length_take_of_le hn, hP⟩

/-! ### The longest match of each kind of pattern -/

theorem longest_one (p : α → Bool) (c : α) (s : List α) :
    longest (one p) (c :: s) = if p c = true then some 1 else none := by
  split
  · next h =>
      refine longest_eq_some.mpr ⟨by simp, by simpa using h, fun m hle hm => ?_⟩
      rw [List.length_cons] at hle
      obtain ⟨d, hd, -⟩ := one_iff.mp hm
      have hlen := congrArg List.length hd
      rw [List.length_take, List.length_cons, List.length_singleton] at hlen
      omega
  · next h =>
      refine longest_eq_none.mpr fun m _ => Bool.eq_false_iff.mpr fun hm => ?_
      obtain ⟨d, hd, hp⟩ := one_iff.mp hm
      cases m with
      | zero => cases hd
      | succ m => exact h ((List.cons.inj hd).1 ▸ hp)

/-- What all is in a class at the beginning is no longer than `takeWhile` takes. -/
theorem le_takeWhile_length (h : ∀ c ∈ s.take n, p c = true) (hn : n ≤ s.length) :
    n ≤ (s.takeWhile p).length := by
  conv_rhs => rw [← List.take_append_drop n s]
  rw [List.takeWhile_append_of_pos h, List.length_append, List.length_take]
  omega

theorem take_takeWhile_length (p : α → Bool) (s : List α) :
    s.take (s.takeWhile p).length = s.takeWhile p :=
  (List.prefix_iff_eq_take.mp (List.takeWhile_prefix p)).symm

theorem longest_many1 (p : α → Bool) (s : List α) :
    longest (many1 p) s = if s.takeWhile p = [] then none else some (s.takeWhile p).length := by
  have hmax (m : Nat) (hle : m ≤ s.length) (hm : many1 p (s.take m) = true) :
      m ≤ (s.takeWhile p).length := le_takeWhile_length (many1_iff.mp hm).2 hle
  split
  · next h =>
      refine longest_eq_none.mpr fun m hle => Bool.eq_false_iff.mpr fun hm => ?_
      have hzero := hmax m hle hm
      rw [h] at hzero
      obtain rfl := Nat.le_zero.mp hzero
      exact (many1_iff.mp hm).1 rfl
  · next h =>
      refine longest_eq_some.mpr ⟨(List.takeWhile_prefix p).length_le, ?_, hmax⟩
      rw [take_takeWhile_length]
      exact many1_iff.mpr ⟨h, List.all_eq_true.mp List.all_takeWhile⟩

/-- How many texts of the length `k` the input begins with, up to `n`. -/
def repeats (P : Pattern α) (k : Nat) : Nat → List α → Nat
  | 0, _ => 0
  | n + 1, s => if P (s.take k) = true then repeats P k n (s.drop k) + 1 else 0

theorem repeats_of_not (h : P (s.take k) = false) (n : Nat) : repeats P k n s = 0 := by
  cases n with
  | zero => rfl
  | succ n => exact if_neg (Bool.eq_false_iff.mp h)

theorem repeats_eq_min (h : n ≤ m) : repeats P k n s = min n (repeats P k m s) := by
  induction n generalizing m s with
  | zero => exact (Nat.zero_min _).symm
  | succ n ih =>
      obtain ⟨m, rfl⟩ : ∃ m', m = m' + 1 := ⟨m - 1, by omega⟩
      rw [repeats, repeats]
      split
      · rw [ih (Nat.le_of_succ_le_succ h), Nat.succ_min_succ]
      · rfl

theorem repeats_le (n : Nat) : repeats P k n s ≤ n := by
  rw [repeats_eq_min (Nat.le_refl n)]
  exact Nat.min_le_left n _

theorem repeats_length (hk : ∀ u, P u = true → u.length = k) :
    k * repeats P k n s ≤ s.length := by
  induction n generalizing s with
  | zero => exact Nat.zero_le _
  | succ n ih =>
      rw [repeats]
      split
      · next h =>
          have hlen := hk _ h
          have ih := ih (s := s.drop k)
          rw [List.length_take] at hlen
          rw [List.length_drop] at ih
          rw [Nat.mul_succ]
          omega
      · exact Nat.zero_le _

/-- Texts of one length are a beginning of the input in one way. -/
theorem power_take_iff (hk : ∀ u, P u = true → u.length = k) (hm : m ≤ s.length) :
    power P n (s.take m) = true ↔ m = k * n ∧ repeats P k n s = n := by
  induction n generalizing m s with
  | zero =>
      rw [power, List.isEmpty_iff, List.take_eq_nil_iff]
      constructor
      · rintro (rfl | rfl)
        · exact ⟨rfl, rfl⟩
        · exact ⟨Nat.le_zero.mp hm, rfl⟩
      · exact fun h => .inl h.1
  | succ n ih =>
      rw [power, seq_iff, repeats]
      constructor
      · rintro ⟨u, v, huv, hu, hv⟩
        have hlen := hk u hu
        have hle : k ≤ m := by
          have hsum := congrArg List.length huv
          rw [List.length_take, List.length_append] at hsum
          omega
        have hsplit : s.take m = s.take k ++ (s.drop k).take (m - k) := by
          rw [← List.take_add, Nat.add_sub_cancel' hle]
        obtain ⟨rfl, rfl⟩ := List.append_inj (huv.symm.trans hsplit) (by
          rw [hlen, List.length_take]
          omega)
        obtain ⟨hmk, hn⟩ := (ih (by rw [List.length_drop]; omega)).mp hv
        rw [if_pos hu, hn]
        exact ⟨by rw [Nat.mul_succ]; omega, rfl⟩
      · rintro ⟨rfl, hrep⟩
        split at hrep
        · next hu =>
            rw [Nat.mul_succ] at hm ⊢
            refine ⟨s.take k, (s.drop k).take (k * n), ?_, hu, ?_⟩
            · rw [← List.take_add, Nat.add_comm]
            · refine (ih ?_).mpr ⟨rfl, Nat.succ.inj hrep⟩
              rw [List.length_drop]
              omega
        · cases hrep

theorem longest_times (hk : ∀ u, P u = true → u.length = k) (lo hi : Nat) (s : List α) :
    longest (times lo hi P) s =
      if lo ≤ repeats P k hi s then some (k * repeats P k hi s) else none := by
  have htimes (m : Nat) (hle : m ≤ s.length) : times lo hi P (s.take m) = true ↔
      ∃ n, lo ≤ n ∧ n ≤ repeats P k hi s ∧ m = k * n := by
    simp only [times, List.any_eq_true, List.mem_range, Bool.and_eq_true, decide_eq_true_eq,
      power_take_iff hk hle]
    constructor
    · rintro ⟨n, hhi, hlo, rfl, hn⟩
      rw [repeats_eq_min (Nat.le_of_lt_succ hhi)] at hn
      exact ⟨n, hlo, by omega, rfl⟩
    · rintro ⟨n, hlo, hn, rfl⟩
      have hhi : repeats P k hi s ≤ hi := repeats_le hi
      refine ⟨n, by omega, hlo, rfl, ?_⟩
      rw [repeats_eq_min (Nat.le_trans hn hhi)]
      exact Nat.min_eq_left hn
  have hlen : k * repeats P k hi s ≤ s.length := repeats_length hk
  split
  · next h =>
      refine longest_eq_some.mpr ⟨hlen, (htimes _ hlen).mpr ⟨_, h, Nat.le_refl _, rfl⟩,
        fun m hle hm => ?_⟩
      obtain ⟨n, -, hn, rfl⟩ := (htimes m hle).mp hm
      exact Nat.mul_le_mul_left k hn
  · next h =>
      refine longest_eq_none.mpr fun m hle => Bool.eq_false_iff.mpr fun hm => ?_
      obtain ⟨n, hlo, hn, -⟩ := (htimes m hle).mp hm
      exact h (Nat.le_trans hlo hn)

theorem longest_seq_one (p : α → Bool) (Q : Pattern α) (c : α) (s : List α) :
    longest (seq (one p) Q) (c :: s) = if p c = true then (longest Q s).map (· + 1) else none := by
  have hsplit (m : Nat) : seq (one p) Q ((c :: s).take m) = true ↔
      ∃ k, m = k + 1 ∧ p c = true ∧ Q (s.take k) = true := by
    rw [seq_iff]
    constructor
    · rintro ⟨u, v, huv, hu, hv⟩
      obtain ⟨d, rfl, hd⟩ := one_iff.mp hu
      cases m with
      | zero => cases huv
      | succ k =>
          obtain ⟨rfl, rfl⟩ := List.cons.inj huv
          exact ⟨k, rfl, hd, hv⟩
    · rintro ⟨k, rfl, hc, hk⟩
      exact ⟨[c], s.take k, rfl, one_iff.mpr ⟨c, rfl, hc⟩, hk⟩
  split
  · next hc =>
      rcases hQ : longest Q s with _ | n
      · refine longest_eq_none.mpr fun m hle => Bool.eq_false_iff.mpr fun hm => ?_
        obtain ⟨k, rfl, -, hk⟩ := (hsplit m).mp hm
        have := longest_eq_none.mp hQ k (Nat.le_of_succ_le_succ hle)
        rw [hk] at this
        cases this
      · obtain ⟨hn, hmatch, hlong⟩ := longest_eq_some.mp hQ
        refine longest_eq_some.mpr
          ⟨Nat.succ_le_succ hn, (hsplit _).mpr ⟨n, rfl, hc, hmatch⟩, fun m hle hm => ?_⟩
        obtain ⟨k, rfl, -, hk⟩ := (hsplit m).mp hm
        exact Nat.succ_le_succ (hlong k (Nat.le_of_succ_le_succ hle) hk)
  · next hc =>
      refine longest_eq_none.mpr fun m _ => Bool.eq_false_iff.mpr fun hm => ?_
      obtain ⟨k, -, hp, -⟩ := (hsplit m).mp hm
      exact hc hp

end Pattern

/-! ### The rule that is taken -/

open Pattern (longest)

variable (pattern : ρ → Pattern α)

/-- Of two the longer, and of two of one length the first. -/
def longer : Option (Nat × ρ) → Option (Nat × ρ) → Option (Nat × ρ)
  | none, b => b
  | some a, none => some a
  | some (n, r), some (m, r') => if n < m then some (m, r') else some (n, r)

/-- The rule that is taken, and how much it matches. -/
def best : List ρ → List α → Option (Nat × ρ)
  | [], _ => none
  | r :: rs, s => longer ((longest (pattern r) s).map (·, r)) (best rs s)

variable {pattern} {rs rs' : List ρ} {r r' : ρ} {s : List α} {n m : Nat} {a b : Option (Nat × ρ)}

theorem longer_cases (h : longer a b = some (n, r)) :
    (a = some (n, r) ∧ ∀ m r', b = some (m, r') → m ≤ n) ∨
      (b = some (n, r) ∧ ∀ m r', a = some (m, r') → m < n) := by
  match a, b with
  | none, b => exact .inr ⟨h, by simp⟩
  | some a, none => exact .inl ⟨h, by simp⟩
  | some (k, r₁), some (m, r₂) =>
      rw [longer] at h
      split at h
      · cases h
        exact .inr ⟨rfl, by simpa using ‹_›⟩
      · cases h
        exact .inl ⟨rfl, by simpa using Nat.not_lt.mp ‹_›⟩

theorem longer_eq_none : longer a b = none ↔ a = none ∧ b = none := by
  match a, b with
  | none, b => simp [longer]
  | some a, none => simp [longer]
  | some (k, r₁), some (m, r₂) =>
      simp only [longer, reduceCtorEq, and_self, iff_false]
      split <;> simp

theorem best_eq_none : best pattern rs s = none ↔ ∀ r ∈ rs, longest (pattern r) s = none := by
  induction rs with
  | nil => simp [best]
  | cons r rs ih => rw [best, longer_eq_none, Option.map_eq_none_iff, ih, List.forall_mem_cons]

/-- The rule that is taken is one of them, and none matches more. -/
theorem best_spec (h : best pattern rs s = some (n, r)) :
    r ∈ rs ∧ longest (pattern r) s = some n ∧
      ∀ r' ∈ rs, ∀ m, longest (pattern r') s = some m → m ≤ n := by
  induction rs generalizing n r with
  | nil => cases h
  | cons r₀ rs ih =>
      obtain ⟨hhead, hmax⟩ | ⟨htail, hmax⟩ := longer_cases h
      · obtain ⟨k, hk, hpair⟩ := Option.map_eq_some_iff.mp hhead
        cases hpair
        refine ⟨List.mem_cons_self, hk, fun r' hr' m hm => ?_⟩
        obtain rfl | hr' := List.mem_cons.mp hr'
        · exact Nat.le_of_eq (Option.some.inj (hm.symm.trans hk))
        · cases hb : best pattern rs s with
          | none =>
              rw [best_eq_none.mp hb r' hr'] at hm
              cases hm
          | some b =>
              obtain ⟨k', r₁⟩ := b
              exact Nat.le_trans ((ih hb).2.2 r' hr' m hm) (hmax k' r₁ hb)
      · obtain ⟨hr, hlong, hle⟩ := ih htail
        refine ⟨List.mem_cons_of_mem _ hr, hlong, fun r' hr' m hm => ?_⟩
        obtain rfl | hr' := List.mem_cons.mp hr'
        · exact Nat.le_of_lt (hmax m r' (by rw [hm]; rfl))
        · exact hle r' hr' m hm

theorem longer_assoc (c : Option (Nat × ρ)) : longer (longer a b) c = longer a (longer b c) := by
  match a, b, c with
  | none, b, c => rfl
  | some a, none, c => cases c <;> rfl
  | some (k, r₁), some (m, r₂), none =>
      by_cases h : k < m <;> simp [longer, h]
  | some (k, r₁), some (m, r₂), some (n, r₃) =>
      simp only [longer]
      by_cases h₁ : k < m
      · by_cases h₂ : m < n
        · simp [h₁, h₂, Nat.lt_trans h₁ h₂]
        · simp [h₁, h₂]
      · by_cases h₂ : m < n
        · simp [h₁, h₂]
        · simp [h₁, h₂]
          omega

theorem best_append :
    best pattern (rs ++ rs') s = longer (best pattern rs s) (best pattern rs' s) := by
  induction rs with
  | nil => rfl
  | cons r rs ih => rw [List.cons_append, best, ih, best, longer_assoc]

/-- One of the last rules is taken if it matches more than all before. -/
theorem best_last (h : best pattern (rs ++ rs') s = some (n, r)) :
    r ∈ rs ∨ r ∈ rs' ∧ ∀ r' ∈ rs, ∀ m, longest (pattern r') s = some m → m < n := by
  rw [best_append] at h
  obtain ⟨hrs, -⟩ | ⟨hrs', hmax⟩ := longer_cases h
  · exact .inl (best_spec hrs).1
  · refine .inr ⟨(best_spec hrs').1, fun r' hr' m hm => ?_⟩
    cases hb : best pattern rs s with
    | none =>
        rw [best_eq_none.mp hb r' hr'] at hm
        cases hm
    | some b =>
        obtain ⟨k, r₁⟩ := b
        exact Nat.lt_of_le_of_lt ((best_spec hb).2.2 r' hr' m hm) (hmax k r₁ hb)

end Support
