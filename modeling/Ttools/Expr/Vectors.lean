import Mathlib.Algebra.Order.Ring.Nat
import Mathlib.Data.Nat.Log
import Ttools.Support.Areas

/-!
# Growing vectors

The vectors of `shared/misc.h`: a pointer to an area and a count of the members in it.  The size of
the area is not stored; it is told from the count.  Sizes are in members; `xrealloc` ends the
program when it gets no memory.

* `growSize_full`, `growSize_growPoint`: both ways to ask for an area give what the next count
  needs.
* `Holds`: what a vector holds, and that it has the room that its count needs.
* `run_represents`: every history of operations on any number of vectors is one on lists.
-/

namespace Ttools.Vectors

open Support

/-! ### The macros -/

/-- `VECTOR_FULL`. -/
def vectorFull (minsize count : ℕ) : Bool :=
  count == 0 || count == minsize || count &&& (count - 1) == 0

/-- How many members `VECTOR_GROW` asks for. -/
def growSize (minsize count : ℕ) : ℕ := if count < minsize then minsize else count * 2

/-- What is needed for a count: a size of the sequence 0, MINSIZE, MINSIZE*2, MINSIZE*4, .. -/
def capacity (minsize count : ℕ) : ℕ :=
  if count = 0 then 0 else max minsize (2 ^ Nat.clog 2 count)

section

variable {k i n m : ℕ}

theorem vectorFull_iff : vectorFull (2 ^ k) n = true ↔ n = 0 ∨ ∃ j, n = 2 ^ j := by
  rw [vectorFull, Bool.or_eq_true, Bool.or_eq_true, beq_iff_eq, beq_iff_eq, beq_iff_eq]
  by_cases hn : n = 0
  · simp [hn]
  · rw [Nat.and_sub_one_eq_zero_iff_isPowerOfTwo hn, Nat.isPowerOfTwo, or_assoc]
    refine or_congr_right ⟨?_, .inr⟩
    rintro (h | h)
    · exact ⟨k, h⟩
    · exact h

theorem capacity_succ (minsize n : ℕ) :
    capacity minsize (n + 1) = max minsize (2 ^ Nat.clog 2 (n + 1)) := if_neg (Nat.succ_ne_zero n)

theorem capacity_mono {minsize : ℕ} (h : m ≤ n) : capacity minsize m ≤ capacity minsize n := by
  cases m with
  | zero => exact Nat.zero_le _
  | succ m =>
      have hpos : 0 < n := Nat.lt_of_lt_of_le m.succ_pos h
      obtain ⟨n, rfl⟩ := Nat.exists_eq_succ_of_ne_zero hpos.ne'
      rw [capacity_succ, capacity_succ]
      exact max_le_max_left _ (Nat.pow_le_pow_right Nat.two_pos (Nat.clog_mono_right 2 h))

theorem le_capacity (minsize n : ℕ) : n ≤ capacity minsize n := by
  cases n with
  | zero => exact Nat.zero_le _
  | succ n =>
      rw [capacity_succ]
      exact (Nat.le_pow_clog Nat.one_lt_two _).trans (le_max_right _ _)

/-- At a full count the next one needs what VECTOR_GROW asks for. -/
theorem growSize_full (h : vectorFull (2 ^ k) n = true) :
    growSize (2 ^ k) n = capacity (2 ^ k) (n + 1) := by
  rw [capacity_succ, growSize]
  split
  · next hlt =>
      refine (max_eq_left (Nat.pow_le_pow_right Nat.two_pos ?_)).symm
      exact Nat.clog_le_of_le_pow hlt
  · next hle =>
      obtain rfl | ⟨j, rfl⟩ := vectorFull_iff.mp h
      · exact absurd (Nat.two_pow_pos k) hle
      · have hclog : Nat.clog 2 (2 ^ j + 1) = j + 1 := by
          refine le_antisymm (Nat.clog_le_of_le_pow ?_)
            ((Nat.lt_clog_iff_pow_lt Nat.one_lt_two).mpr (Nat.lt_succ_self _))
          rw [Nat.pow_succ, Nat.mul_two]
          exact Nat.add_le_add_left (Nat.one_le_two_pow) _
        rw [hclog, ← Nat.pow_succ, max_eq_right]
        exact (not_lt.mp hle).trans (Nat.pow_le_pow_right Nat.two_pos (Nat.le_succ j))

/-- At any other count the next one needs no more. -/
theorem capacity_of_not_full (h : vectorFull (2 ^ k) n = false) :
    capacity (2 ^ k) (n + 1) = capacity (2 ^ k) n := by
  have hnot : ¬(n = 0 ∨ ∃ j, n = 2 ^ j) := by
    rw [← vectorFull_iff (k := k), h]
    exact Bool.false_ne_true
  obtain ⟨hzero, hpow⟩ := not_or.mp hnot
  have hclog : Nat.clog 2 n = Nat.clog 2 (n + 1) :=
    (Nat.clog_eq_clog_succ_iff Nat.one_lt_two).mpr fun hn => hpow ⟨_, hn.symm⟩
  rw [capacity_succ, capacity, if_neg hzero, hclog]

/-- `expr_node_copy`: down to the nearest grow point. -/
def growPoint (minsize : ℕ) : ℕ → ℕ
  | 0 => 0
  | i + 1 => if vectorFull minsize (i + 1) = true then i + 1 else growPoint minsize i

/-- The grow point is full, and from it to the count nothing more is needed. -/
theorem growPoint_spec (k i : ℕ) : vectorFull (2 ^ k) (growPoint (2 ^ k) i) = true ∧
    capacity (2 ^ k) (growPoint (2 ^ k) i + 1) = capacity (2 ^ k) (i + 1) := by
  induction i with
  | zero => exact ⟨rfl, rfl⟩
  | succ i ih =>
      rw [growPoint]
      split
      · next h => exact ⟨h, rfl⟩
      · next h =>
          rw [Bool.not_eq_true] at h
          exact ⟨ih.1, ih.2.trans (capacity_of_not_full h).symm⟩

/-- A copy asks for what its count needs. -/
theorem growSize_growPoint (k i : ℕ) :
    growSize (2 ^ k) (growPoint (2 ^ k) i) = capacity (2 ^ k) (i + 1) := by
  obtain ⟨hfull, hcapacity⟩ := growPoint_spec k i
  rw [growSize_full hfull, hcapacity]

end

/-! ### The operations -/

/-- A vector and its count. -/
structure Vec where
  vector : Option ℕ
  count : ℕ
  deriving DecidableEq, Repr

variable {α : Type}

section

variable (avail : Areas α → ℕ → Bool) (minsize : ℕ)

/-- `VECTOR_GROW`. -/
def vectorGrow (count : ℕ) (vector : Option ℕ) (mem : Areas α) : Except Fault (ℕ × Areas α) :=
  mem.realloc avail vector (growSize minsize count)

/-- `VECTOR_GROW` if `VECTOR_FULL`. -/
def makeRoom (count : ℕ) (vector : Option ℕ) (mem : Areas α) :
    Except Fault (Option ℕ × Areas α) :=
  if vectorFull minsize count = true then do
    let r ← vectorGrow avail minsize count vector mem
    return (some r.1, r.2)
  else return (vector, mem)

/-- `expr_elsum_append`, and wherever else a member is added behind the others. -/
def vecAppend (x : α) (v : Vec) (mem : Areas α) : Except Fault (Vec × Areas α) := do
  let r ← makeRoom avail minsize v.count v.vector mem
  let mem ← r.2.write r.1 v.count x
  return (⟨r.1, v.count + 1⟩, mem)

/-- `add_need`, and wherever else a member is added before the null that ends the vector; the count
is with the null. -/
def addNeed (null x : α) (v : Vec) (mem : Areas α) : Except Fault (Vec × Areas α) := do
  let nneeds := v.count - 1
  let r ← makeRoom avail minsize (nneeds + 1) v.vector mem
  let mem ← r.2.write r.1 nneeds x
  let mem ← mem.write r.1 (nneeds + 1) null
  return (⟨r.1, nneeds + 2⟩, mem)

/-- The loop of `expr_reduce_elsum`, with `ep2` as an index. -/
def squeezeLoop (keep : α → Bool) (vector : Option ℕ) (s : ℕ × Areas α) (ep : ℕ) :
    Except Fault (ℕ × Areas α) := do
  let x ← s.2.read vector ep
  if keep x = true then do
    let mem ← s.2.write vector s.1 x
    return (s.1 + 1, mem)
  else return s

/-- `expr_reduce_elsum`: only the members that are ranges stay. -/
def squeezeVec (keep : α → Bool) (v : Vec) (mem : Areas α) : Except Fault (Vec × Areas α) := do
  let s ← (List.range v.count).foldlM (squeezeLoop keep v.vector) (0, mem)
  return (⟨v.vector, s.1⟩, s.2)

/-- One turn of the loop of `expr_node_copy`. -/
def copyMember (src dst : Option ℕ) (mem : Areas α) (i : ℕ) : Except Fault (Areas α) := do
  let x ← mem.read src i
  mem.write dst i x

/-- `expr_node_copy` of a sum. -/
def exprNodeCopy (src : Vec) (mem : Areas α) : Except Fault (Vec × Areas α) :=
  match src.vector with
  | none => return (src, mem)
  | some _ =>
      if src.count = 0 then return (⟨none, 0⟩, mem)
      else do
        let r ← vectorGrow avail minsize (growPoint minsize (src.count - 1)) none mem
        let mem ← (List.range src.count).foldlM (copyMember src.vector (some r.1)) r.2
        return (⟨some r.1, src.count⟩, mem)

end

/-! ### What the operations leave -/

/-- What a vector holds; its area has the room that the count needs. -/
structure Holds (minsize : ℕ) (mem : Areas α) (v : Vec) (l : List α) : Prop where
  count : v.count = l.length
  area : ∃ a, mem.old v.vector = some a ∧ capacity minsize l.length ≤ a.length ∧
    a.take l.length = l.map some

/-- The area of a vector is the same or a new one, and no other area has changed. -/
structure Moved (mem : Areas α) (vector : Option ℕ) (mem' : Areas α) (vector' : Option ℕ) :
    Prop where
  pointer : ∀ p, vector' = some p → vector = some p ∨ mem.area p = none
  frame : ∀ s, vector ≠ some s → mem.area s ≠ none → mem'.area s = mem.area s

/-- What an operation leaves of a vector. -/
def Leaves (minsize : ℕ) (mem : Areas α) (v : Vec) (l : List α) (r : Vec × Areas α) : Prop :=
  Holds minsize r.2 r.1 l ∧ Moved mem v.vector r.2 r.1.vector

section

variable {avail : Areas α → ℕ → Bool} {k c i p : ℕ} {mem mem' mem'' : Areas α}
  {vector vector' : Option ℕ} {v : Vec} {l : List α} {a : List (Option α)} {x : α}

theorem Moved.refl : Moved mem vector mem vector := ⟨fun _ h => .inl h, fun _ _ _ => rfl⟩

theorem Moved.write (h : Moved mem vector mem' (some p))
    (hwrite : ∀ s, s ≠ p → mem''.area s = mem'.area s) : Moved mem vector mem'' (some p) := by
  refine ⟨h.pointer, fun s hs hlive => ?_⟩
  have hne : s ≠ p := by
    rintro rfl
    exact (h.pointer s rfl).elim hs hlive
  rw [hwrite s hne, h.frame s hs hlive]

theorem old_some (h : mem.old vector = some a) (ha : a ≠ []) :
    ∃ p, vector = some p ∧ mem.area p = some a := by
  cases vector with
  | none => exact absurd (Option.some.inj h).symm ha
  | some p => exact ⟨p, rfl, h⟩

/-- `VECTOR_GROW` keeps the members below the count. -/
theorem safe_vectorGrow (h : mem.old vector = some a) :
    Safe (vectorGrow avail (2 ^ k) c vector mem) fun r => ∃ b, r.2.area r.1 = some b ∧
      b.length = growSize (2 ^ k) c ∧ (∀ i ≤ c, i ≤ a.length → b.take i = a.take i) ∧
        Moved mem vector r.2 (some r.1) := by
  refine (Areas.safe_realloc h).mono ?_
  rintro r ⟨hfresh, harea, hframe⟩
  refine ⟨_, harea, Areas.length_resize, fun i hi hia => Areas.take_resize ?_ hia, ?_, ?_⟩
  · rw [growSize]
    split
    · next hlt => exact hi.trans hlt.le
    · exact hi.trans (Nat.le_mul_of_pos_right c Nat.two_pos)
  · rintro p ⟨⟩
    exact .inr hfresh
  · intro s hs hlive
    refine hframe s ?_ hs
    rintro rfl
    exact hlive hfresh

/-- There is room for one member more, and those below the count are kept. -/
theorem safe_makeRoom (h : mem.old vector = some a)
    (hroom : vectorFull (2 ^ k) c = false → capacity (2 ^ k) c ≤ a.length) :
    Safe (makeRoom avail (2 ^ k) c vector mem) fun r => ∃ p b, r.1 = some p ∧
      r.2.area p = some b ∧ capacity (2 ^ k) (c + 1) ≤ b.length ∧
        (∀ i ≤ c, i ≤ a.length → b.take i = a.take i) ∧ Moved mem vector r.2 (some p) := by
  unfold makeRoom
  split
  · next hfull =>
      refine (safe_vectorGrow h).bind fun r => ?_
      rintro ⟨b, hb, hlen, htake, hmoved⟩
      exact safe_ok ⟨r.1, b, rfl, hb, (hlen.trans (growSize_full hfull)).ge, htake, hmoved⟩
  · next hfull =>
      rw [Bool.not_eq_true] at hfull
      have hcap := hroom hfull
      rw [← capacity_of_not_full hfull] at hcap
      have hne : a ≠ [] := by
        rintro rfl
        exact absurd ((le_capacity (2 ^ k) (c + 1)).trans hcap) (Nat.not_succ_le_zero c)
      obtain ⟨p, rfl, hp⟩ := old_some h hne
      exact safe_ok ⟨p, a, rfl, hp, hcap, fun _ _ _ => rfl, .refl⟩

/-- **An append** adds a member, without a fault. -/
theorem vecAppend_leaves (h : Holds (2 ^ k) mem v l) :
    Safe (vecAppend avail (2 ^ k) x v mem) (Leaves (2 ^ k) mem v (l ++ [x])) := by
  obtain ⟨hcount, a, ha, hcap, htake⟩ := h
  unfold vecAppend
  rw [hcount]
  refine (safe_makeRoom ha fun _ => hcap).bind ?_
  rintro ⟨vector, mem'⟩ ⟨p, b, rfl, hb, hroom, hkeep, hmoved⟩
  have hlt : l.length < b.length := (le_capacity (2 ^ k) (l.length + 1)).trans hroom
  refine (Areas.safe_write hb hlt).bind ?_
  rintro mem'' ⟨harea, hframe⟩
  refine safe_ok ⟨⟨by simp, _, harea, ?_, ?_⟩, hmoved.write hframe⟩
  · rw [List.length_append, List.length_singleton, List.length_set]
    exact hroom
  · rw [List.length_append, List.length_singleton, Areas.take_set_succ hlt,
      hkeep _ le_rfl ((le_capacity (2 ^ k) _).trans hcap), htake, List.map_append]
    rfl

theorem length_le (h : capacity (2 ^ k) l.length ≤ a.length) : l.length ≤ a.length :=
  (le_capacity _ _).trans h

/-- **A member before the null** takes its place, and the null comes behind it. -/
theorem addNeed_leaves {null : α} (h : Holds (2 ^ k) mem v l) :
    Safe (addNeed avail (2 ^ k) null x v mem) (Leaves (2 ^ k) mem v (l.dropLast ++ [x, null])) := by
  obtain ⟨hcount, a, ha, hcap, htake⟩ := h
  unfold addNeed
  rw [hcount, ← List.length_dropLast]
  have hle : l.dropLast.length ≤ a.length :=
    (l.dropLast_prefix.length_le).trans (length_le hcap)
  have hroom (hfull : vectorFull (2 ^ k) (l.dropLast.length + 1) = false) :
      capacity (2 ^ k) (l.dropLast.length + 1) ≤ a.length := by
    cases l with
    | nil =>
        have hone : vectorFull (2 ^ k) 1 = true := vectorFull_iff.mpr (.inr ⟨0, rfl⟩)
        cases hone.symm.trans hfull
    | cons y l =>
        rw [List.length_dropLast]
        exact hcap
  have hdrop : a.take l.dropLast.length = l.dropLast.map some := by
    rw [List.dropLast_eq_take, List.map_take, ← htake, List.take_take, List.length_take]
  refine (safe_makeRoom ha hroom).bind ?_
  rintro ⟨vector, mem'⟩ ⟨p, b, rfl, hb, hnext, hkeep, hmoved⟩
  have hlt : l.dropLast.length + 1 < b.length := (le_capacity (2 ^ k) _).trans hnext
  refine (Areas.safe_write hb (Nat.lt_of_succ_lt hlt)).bind ?_
  rintro mem₁ ⟨harea₁, hframe₁⟩
  refine (Areas.safe_write harea₁ (by rwa [List.length_set])).bind ?_
  rintro mem₂ ⟨harea₂, hframe₂⟩
  refine safe_ok ⟨⟨?_, _, harea₂, ?_, ?_⟩, (hmoved.write hframe₁).write hframe₂⟩
  · rw [List.length_append]
    rfl
  · rw [List.length_append, List.length_set, List.length_set]
    exact hnext
  · have hlen : (l.dropLast ++ [x, null]).length = l.dropLast.length + 1 + 1 := List.length_append
    rw [hlen, Areas.take_set_succ (by rwa [List.length_set]),
      Areas.take_set_succ (Nat.lt_of_succ_lt hlt), hkeep _ (Nat.le_succ _) hle, hdrop,
      List.map_append, List.append_assoc]
    rfl

/-- A smaller count leaves the first members. -/
theorem decrease_leaves (d : ℕ) (h : Holds (2 ^ k) mem v l) :
    Leaves (2 ^ k) mem v (l.take (l.length - d)) (⟨v.vector, v.count - d⟩, mem) := by
  obtain ⟨hcount, a, ha, hcap, htake⟩ := h
  have hlen : (l.take (l.length - d)).length = l.length - d := by
    rw [List.length_take]
    omega
  refine ⟨⟨?_, a, ha, ?_, ?_⟩, .refl⟩
  · rw [hlen, hcount]
  · rw [hlen]
    exact (capacity_mono (Nat.sub_le _ _)).trans hcap
  · rw [hlen, List.map_take, ← htake, List.take_take, Nat.min_eq_left (Nat.sub_le _ _)]

/-- A vector that is given back holds nothing. -/
theorem free_leaves : Leaves (2 ^ k) mem v ([] : List α) (⟨none, 0⟩, mem.free v.vector) :=
  ⟨⟨rfl, [], rfl, Nat.le_refl 0, rfl⟩, fun _ h => (nomatch h), fun _ hs _ => if_neg hs⟩

theorem getElem?_of_take (htake : a.take l.length = l.map some) (hi : i < l.length) :
    a[i]? = some (some l[i]) := by
  rw [← List.getElem?_take_of_lt hi, htake, List.getElem?_map, List.getElem?_eq_getElem hi]
  rfl

/-- **The squeeze** leaves the members that are kept. -/
theorem squeezeVec_leaves (keep : α → Bool) (h : Holds (2 ^ k) mem v l) :
    Safe (squeezeVec keep v mem) (Leaves (2 ^ k) mem v (l.filter keep)) := by
  obtain ⟨hcount, a, ha, hcap, htake⟩ := h
  obtain ⟨vector, count⟩ := v
  obtain rfl : count = l.length := hcount
  unfold squeezeVec
  cases vector with
  | none =>
      obtain rfl : a = [] := (Option.some.inj ha).symm
      obtain rfl : l = [] := List.length_eq_zero_iff.mp (Nat.le_zero.mp (length_le hcap))
      exact safe_ok ⟨⟨rfl, [], rfl, Nat.le_refl 0, rfl⟩, .refl⟩
  | some p =>
      -- what has been read so far is squeezed, the rest is where it was
      let kept (i : ℕ) := (l.take i).filter keep
      have hloop := safe_foldlM (f := squeezeLoop keep (some p)) (n := l.length) (s := (0, mem))
        (fun i s => s.1 = (kept i).length ∧ ∃ b, s.2.area p = some b ∧ b.length = a.length ∧
          b.take s.1 = (kept i).map some ∧ (∀ j, i ≤ j → b[j]? = a[j]?) ∧
            ∀ q, q ≠ p → s.2.area q = mem.area q)
        ⟨rfl, a, ha, rfl, rfl, fun _ _ => rfl, fun _ _ => rfl⟩ (by
          rintro i hi ⟨ep2, mem'⟩ ⟨rfl, b, hb, hlen, hkept, hrest, hframe⟩
          have hread : b[i]? = some (some l[i]) :=
            (hrest i le_rfl).trans (getElem?_of_take htake hi)
          have hsucc : kept (i + 1) = kept i ++ if keep l[i] = true then [l[i]] else [] := by
            rw [show kept (i + 1) = (l.take (i + 1)).filter keep from rfl,
              ← List.take_append_getElem hi, List.filter_append, List.filter_singleton,
              Bool.cond_eq_ite]
          have hle : (kept i).length ≤ i :=
            (List.length_filter_le _ _).trans (List.length_take_le i l)
          unfold squeezeLoop
          refine (Areas.safe_read hb hread).bind ?_
          rintro x rfl
          split
          · next hkeep =>
              rw [if_pos hkeep] at hsucc
              have hlt : (kept i).length < b.length := by
                rw [hlen]
                exact (hle.trans_lt hi).trans_le (length_le hcap)
              refine (Areas.safe_write hb hlt).bind ?_
              rintro mem'' ⟨harea, hframe'⟩
              refine safe_ok ⟨?_, _, harea, ?_, ?_, fun j hj => ?_, fun q hq => ?_⟩
              · rw [hsucc, List.length_append]
                rfl
              · rw [List.length_set, hlen]
              · rw [Areas.take_set_succ hlt, hkept, hsucc, List.map_append]
                rfl
              · rw [List.getElem?_set_ne (by omega), hrest j (Nat.le_of_succ_le hj)]
              · rw [hframe' q hq, hframe q hq]
          · next hkeep =>
              rw [if_neg hkeep, List.append_nil] at hsucc
              refine safe_ok ⟨?_, b, hb, hlen, ?_, fun j hj => ?_, hframe⟩
              · rw [hsucc]
              · rw [hsucc, hkept]
              · exact hrest j (Nat.le_of_succ_le hj))
      refine hloop.bind ?_
      rintro ⟨ep2, mem'⟩ ⟨rfl, b, hb, hlen, hkept, -, hframe⟩
      have hall : kept l.length = l.filter keep := by
        rw [show kept l.length = (l.take l.length).filter keep from rfl, List.take_length]
      rw [hall] at hkept ⊢
      refine safe_ok ⟨⟨rfl, b, hb, ?_, hkept⟩, fun q hq => .inl hq, fun s hs _ => hframe s ?_⟩
      · rw [hlen]
        exact (capacity_mono (List.length_filter_le _ _)).trans hcap
      · rintro rfl
        exact hs rfl

/-- **A copy** holds the same members in a new area, whatever the copied vector has had before. -/
theorem exprNodeCopy_leaves (dst : Vec) (h : Holds (2 ^ k) mem v l) :
    Safe (exprNodeCopy avail (2 ^ k) v mem) (Leaves (2 ^ k) mem dst l) := by
  obtain ⟨hcount, a, ha, hcap, htake⟩ := h
  obtain ⟨vector, count⟩ := v
  obtain rfl : count = l.length := hcount
  unfold exprNodeCopy
  cases vector with
  | none =>
      exact safe_ok ⟨⟨rfl, a, ha, hcap, htake⟩, fun _ hp => (nomatch hp), fun _ _ _ => rfl⟩
  | some q =>
      dsimp only
      split
      · next hzero =>
          obtain rfl := List.length_eq_zero_iff.mp hzero
          exact safe_ok ⟨⟨rfl, [], rfl, Nat.le_refl 0, rfl⟩, fun _ hp => (nomatch hp),
            fun _ _ _ => rfl⟩
      · next hzero =>
          refine (safe_vectorGrow (a := []) rfl).bind ?_
          rintro ⟨p, mem'⟩ ⟨b, hb, hlen, -, hmoved⟩
          have hfresh : mem.area p = none := (hmoved.pointer p rfl).resolve_left nofun
          have hne : q ≠ p := by
            rintro rfl
            rw [show mem.area q = some a from ha] at hfresh
            cases hfresh
          rw [growSize_growPoint, Nat.sub_add_cancel (Nat.one_le_iff_ne_zero.mpr hzero)] at hlen
          have hlive : ∀ s, mem.area s ≠ none → mem'.area s = mem.area s :=
            fun s => hmoved.frame s nofun
          have hsrc : mem'.area q = some a :=
            (hlive q fun hnone => Option.some_ne_none a (ha.symm.trans hnone)).trans ha
          have hloop := safe_foldlM (f := copyMember (some q) (some p)) (n := l.length) (s := mem')
            (fun i m => ∃ b, m.area p = some b ∧ b.length = capacity (2 ^ k) l.length ∧
              b.take i = (l.take i).map some ∧ ∀ s, s ≠ p → m.area s = mem'.area s)
            ⟨b, hb, hlen, rfl, fun _ _ => rfl⟩ (by
              rintro i hi m ⟨b, hb, hlen, htake', hframe⟩
              have hlt : i < b.length := by
                rw [hlen]
                exact hi.trans_le (le_capacity _ _)
              unfold copyMember
              refine (Areas.safe_read ((hframe q hne).trans hsrc)
                (getElem?_of_take htake hi)).bind ?_
              rintro x rfl
              refine (Areas.safe_write hb hlt).mono ?_
              rintro m' ⟨harea, hframe'⟩
              refine ⟨_, harea, ?_, ?_, fun s hs => ?_⟩
              · rw [List.length_set, hlen]
              · rw [Areas.take_set_succ hlt, htake', ← List.take_append_getElem hi,
                  List.map_append]
                rfl
              · rw [hframe' s hs, hframe s hs])
          refine hloop.bind ?_
          rintro mem'' ⟨b, hb, hlen, htake', hframe⟩
          rw [List.take_length] at htake'
          refine safe_ok ⟨⟨rfl, b, hb, hlen.ge, htake'⟩, ?_, fun s _ hs => ?_⟩
          · rintro r ⟨⟩
            exact .inr hfresh
          · rw [hframe s ?_, hlive s hs]
            rintro rfl
            exact hs hfresh

end

/-! ### Histories -/

/-- Any number of vectors. -/
structure State (α : Type) where
  mem : Areas α
  vecs : ℕ → Vec

/-- No memory is used, and vectors and counts are zero. -/
def State.start : State α := ⟨.start, fun _ => ⟨none, 0⟩⟩

/-- An operation on the vector of a number. -/
inductive Op (α : Type) where
  | append (i : ℕ) (x : α)
  | need (i : ℕ) (x : α)
  | decrease (i d : ℕ)
  | squeeze (i : ℕ) (keep : α → Bool)
  | copy (dst src : ℕ)
  | free (i : ℕ)

/-- What is left of a vector is put in its place. -/
def State.put (s : State α) (i : ℕ) (r : Vec × Areas α) : State α :=
  ⟨r.2, Function.update s.vecs i r.1⟩

section

variable (avail : Areas α → ℕ → Bool) (minsize : ℕ) (null : α)

/-- One operation; a node is not copied to itself. -/
def step (s : State α) : Op α → Except Fault (State α)
  | .append i x => (vecAppend avail minsize x (s.vecs i) s.mem).map (s.put i)
  | .need i x => (addNeed avail minsize null x (s.vecs i) s.mem).map (s.put i)
  | .decrease i d => .ok (s.put i (⟨(s.vecs i).vector, (s.vecs i).count - d⟩, s.mem))
  | .squeeze i keep => (squeezeVec keep (s.vecs i) s.mem).map (s.put i)
  | .copy dst src =>
      if dst = src then .ok s
      else (exprNodeCopy avail minsize (s.vecs src) s.mem).map (s.put dst)
  | .free i => .ok (s.put i (⟨none, 0⟩, s.mem.free (s.vecs i).vector))

/-- A history of operations. -/
def run (ops : List (Op α)) : Except Fault (State α) :=
  ops.foldlM (step avail minsize null) .start

/-- The operations on lists. -/
def listStep (ls : ℕ → List α) : Op α → ℕ → List α
  | .append i x => Function.update ls i (ls i ++ [x])
  | .need i x => Function.update ls i ((ls i).dropLast ++ [x, null])
  | .decrease i d => Function.update ls i ((ls i).take ((ls i).length - d))
  | .squeeze i keep => Function.update ls i ((ls i).filter keep)
  | .copy dst src => Function.update ls dst (ls src)
  | .free i => Function.update ls i []

/-- A history on lists. -/
def listRun (ops : List (Op α)) : ℕ → List α := ops.foldl (listStep null) fun _ => []

end

/-- Every vector holds its list, and no two share an area. -/
structure Represents (minsize : ℕ) (s : State α) (ls : ℕ → List α) : Prop where
  holds : ∀ i, Holds minsize s.mem (s.vecs i) (ls i)
  separate : ∀ i j p, i ≠ j → (s.vecs i).vector = some p → (s.vecs j).vector ≠ some p

section

variable {avail : Areas α → ℕ → Bool} {k i : ℕ} {null : α} {s : State α} {ls : ℕ → List α}
  {mem mem' : Areas α} {v : Vec} {l : List α} {r : Vec × Areas α}

theorem Holds.live {p : ℕ} (h : Holds k mem v l) (hp : v.vector = some p) : mem.area p ≠ none := by
  obtain ⟨-, a, ha, -⟩ := h
  rw [hp] at ha
  rw [show mem.area p = some a from ha]
  exact Option.some_ne_none a

theorem Holds.frame (h : Holds k mem v l) (hframe : ∀ p, v.vector = some p →
    mem'.area p = mem.area p) : Holds k mem' v l := by
  obtain ⟨hcount, a, ha, hroom⟩ := h
  refine ⟨hcount, a, ?_, hroom⟩
  cases hv : v.vector with
  | none =>
      rw [hv] at ha
      exact ha
  | some p =>
      rw [hv] at ha
      exact (hframe p hv).trans ha

/-- An operation on one vector leaves the others alone. -/
theorem Represents.put (h : Represents k s ls) (hr : Leaves k s.mem (s.vecs i) l r) :
    Represents k (s.put i r) (Function.update ls i l) := by
  obtain ⟨hholds, hpointer, hframe⟩ := hr
  have hother (j : ℕ) (hj : j ≠ i) (p : ℕ) (hp : (s.vecs j).vector = some p) :
      s.mem.area p ≠ none ∧ (s.vecs i).vector ≠ some p :=
    ⟨(h.holds j).live hp, h.separate j i p hj hp⟩
  have hnew (j : ℕ) (hj : j ≠ i) (p : ℕ) (hp : r.1.vector = some p) :
      (s.vecs j).vector ≠ some p := by
    intro hjp
    obtain ⟨hlive, hne⟩ := hother j hj p hjp
    exact (hpointer p hp).elim hne hlive
  constructor
  · intro j
    by_cases hj : j = i
    · subst hj
      simpa only [State.put, Function.update_self] using hholds
    · simp only [State.put, Function.update_of_ne hj]
      refine (h.holds j).frame fun p hp => ?_
      obtain ⟨hlive, hne⟩ := hother j hj p hp
      exact hframe p hne hlive
  · intro j j' p hne hp
    by_cases hj : j = i
    · subst hj
      simp only [State.put, Function.update_self, Function.update_of_ne hne.symm] at hp ⊢
      exact hnew j' hne.symm p hp
    · simp only [State.put, Function.update_of_ne hj] at hp ⊢
      by_cases hj' : j' = i
      · subst hj'
        simp only [Function.update_self]
        exact fun hp' => hnew j hj p hp' hp
      · simp only [Function.update_of_ne hj']
        exact h.separate j j' p hne hp

theorem Represents.of_leaves {r : Except Fault (Vec × Areas α)} (h : Represents k s ls)
    (hr : Safe r (Leaves k s.mem (s.vecs i) l)) :
    Safe (r.map (s.put i)) fun s' => Represents k s' (Function.update ls i l) := by
  cases r with
  | ok r => exact h.put hr
  | error f => exact hr

/-- **One operation** is the one on lists. -/
theorem step_represents (h : Represents (2 ^ k) s ls) (op : Op α) :
    Safe (step avail (2 ^ k) null s op) fun s' =>
      Represents (2 ^ k) s' (listStep null ls op) := by
  cases op with
  | append i x => exact h.of_leaves (vecAppend_leaves (h.holds i))
  | need i x => exact h.of_leaves (addNeed_leaves (h.holds i))
  | decrease i d => exact safe_ok (h.put (decrease_leaves d (h.holds i)))
  | squeeze i keep => exact h.of_leaves (squeezeVec_leaves keep (h.holds i))
  | copy dst src =>
      rw [step, listStep]
      split
      · next heq =>
          subst heq
          rw [Function.update_eq_self]
          exact safe_ok h
      · exact h.of_leaves (exprNodeCopy_leaves _ (h.holds src))
  | free i => exact safe_ok (h.put free_leaves)

theorem represents_start : Represents (2 ^ k) (State.start : State α) fun _ => [] :=
  ⟨fun _ => ⟨rfl, [], rfl, Nat.le_refl 0, rfl⟩, fun _ _ _ _ h => (nomatch h)⟩

/-- **A history** is the one on lists. -/
theorem run_represents (avail : Areas α → ℕ → Bool) (k : ℕ) (null : α) (ops : List (Op α)) :
    Safe (run avail (2 ^ k) null ops) fun s => Represents (2 ^ k) s (listRun null ops) := by
  have hrun : ∀ s ls, Represents (2 ^ k) s ls → Safe (ops.foldlM (step avail (2 ^ k) null) s)
      fun s' => Represents (2 ^ k) s' (ops.foldl (listStep null) ls) := by
    induction ops with
    | nil => exact fun s ls h => safe_ok h
    | cons op ops ih =>
        intro s ls h
        rw [List.foldlM_cons]
        exact (step_represents h op).bind fun s' h' => ih s' _ h'
  exact hrun _ _ represents_start

/-- The members below the count, as they are in memory. -/
def members (mem : Areas α) (v : Vec) : List (Option α) :=
  ((mem.old v.vector).getD []).take v.count

/-- How many members are allocated. -/
def allocated (mem : Areas α) (v : Vec) : ℕ := ((mem.old v.vector).getD []).length

theorem Holds.members_eq (h : Holds k mem v l) : members mem v = l.map some := by
  obtain ⟨hcount, a, ha, -, htake⟩ := h
  rw [members, ha, hcount]
  exact htake

theorem Holds.room (h : Holds (2 ^ k) mem v l) (hfull : vectorFull (2 ^ k) v.count = false) :
    v.count < allocated mem v := by
  obtain ⟨hcount, a, ha, hcap, -⟩ := h
  rw [hcount] at hfull ⊢
  rw [← capacity_of_not_full hfull] at hcap
  rw [allocated, ha]
  exact (le_capacity (2 ^ k) (l.length + 1)).trans hcap

/-- VECTOR_GROW makes room at a full count, and all vectors keep their members. -/
theorem Represents.vectorGrow (h : Represents (2 ^ k) s ls) (i : ℕ) :
    Safe (vectorGrow avail (2 ^ k) (s.vecs i).count (s.vecs i).vector s.mem) fun r =>
      (vectorFull (2 ^ k) (s.vecs i).count = true →
        (s.vecs i).count < allocated r.2 ⟨some r.1, (s.vecs i).count⟩) ∧
      members r.2 ⟨some r.1, (s.vecs i).count⟩ = members s.mem (s.vecs i) ∧
      ∀ j, j ≠ i → members r.2 (s.vecs j) = members s.mem (s.vecs j) := by
  obtain ⟨hcount, a, ha, hcap, htake⟩ := h.holds i
  refine (safe_vectorGrow ha).mono ?_
  rintro ⟨p, mem⟩ ⟨b, hb, hlen, hkeep, hmoved⟩
  refine ⟨fun hfull => ?_, ?_, fun j hj => ?_⟩
  · rw [allocated, show mem.old (some p) = some b from hb, Option.getD_some, hlen,
      growSize_full hfull]
    exact le_capacity _ _
  · rw [members, members, show mem.old (some p) = some b from hb, ha, Option.getD_some,
      Option.getD_some, hkeep _ le_rfl (hcount ▸ length_le hcap)]
  · have hj' : Holds (2 ^ k) mem (s.vecs j) (ls j) := (h.holds j).frame fun q hq =>
      hmoved.frame q (h.separate j i q hj hq) ((h.holds j).live hq)
    rw [hj'.members_eq, (h.holds j).members_eq]

/-- In every history no index is written that is not allocated, every vector has the members that
its operations have left, and there is room for the next member or VECTOR_FULL says that there is
not; VECTOR_GROW then makes it, and keeps the members. -/
theorem vectors_never_overrun (avail : Areas α → ℕ → Bool) (k : ℕ) (null : α)
    (ops : List (Op α)) :
    (∀ fault, run avail (2 ^ k) null ops = .error fault → fault = .exhausted) ∧
      ∀ s, run avail (2 ^ k) null ops = .ok s → ∀ i,
        members s.mem (s.vecs i) = (listRun null ops i).map some ∧
        (vectorFull (2 ^ k) (s.vecs i).count = false →
          (s.vecs i).count < allocated s.mem (s.vecs i)) ∧
        ∀ p mem, vectorGrow avail (2 ^ k) (s.vecs i).count (s.vecs i).vector s.mem = .ok (p, mem) →
          (vectorFull (2 ^ k) (s.vecs i).count = true →
            (s.vecs i).count < allocated mem ⟨some p, (s.vecs i).count⟩) ∧
          members mem ⟨some p, (s.vecs i).count⟩ = members s.mem (s.vecs i) ∧
          ∀ j, j ≠ i → members mem (s.vecs j) = members s.mem (s.vecs j) := by
  have hrun := run_represents avail k null ops
  refine ⟨fun fault => hrun.of_error, fun s hs i => ?_⟩
  have h : Represents (2 ^ k) s (listRun null ops) := hrun.of_ok hs
  exact ⟨(h.holds i).members_eq, (h.holds i).room, fun p mem => (h.vectorGrow i).of_ok⟩

end

end Ttools.Vectors
