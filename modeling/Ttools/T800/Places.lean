import Mathlib.Data.Finset.Card
import Mathlib.Data.List.Forall2
import Mathlib.Data.List.Nodup
import Mathlib.Data.List.Pairwise
import Mathlib.Data.List.Perm.Basic

/-!
# Places for operands

`place_regs` of `reg-stack2.c` puts the register operands of an insn where its constraints want
them, by trying all places, and the other live registers wherever there is room.

The stacks are those of any target.  A mode counts for the number of words it has, the class of an
operand for the hard registers in it.

* `placeInputs_search`: the search finds an arrangement if there is one, and leaves the stack as it
  was if there is none.
* `checkRule2_iff`: what the search asks of an arrangement.
* `placeRegs_right`: the new stack.
-/

namespace Ttools.Stacker

/-! ### Stacks -/

/-- `STACK_REG_NSTACKS`, `STACK_REG_FIRST`, `STACK_REG_LAST` and `STACK_REG_STACKNO`. -/
structure Target where
  nstacks : Nat
  first : Nat → Nat
  last : Nat → Nat
  stackno : Nat → Nat
  stackno_eq : ∀ k < nstacks, ∀ r, first k ≤ r → r ≤ last k → stackno r = k

/-- `stack`; a place is empty where the code has -1. -/
structure Stack where
  top : Nat → Nat
  reg : Nat → Option Nat
  regSet : Finset Nat

/-- `struct insn_info_reg`: an input operand, the number of words of its mode, whether it is popped,
and its class. -/
structure InsnReg where
  reg : Nat
  nregs : Nat
  popped : Bool
  cls : Nat → Bool
  nregs_pos : 0 < nregs

namespace Target

variable (T : Target)

/-- The places of a stack, from the top down. -/
def cells (top : Nat → Nat) (k : Nat) : List Nat := List.range' (top k) (T.last k + 1 - top k)

/-- The hard register that a place of stack `k` is. -/
def regno (top : Nat → Nat) (k place : Nat) : Nat := T.first k + (place - top k)

/-- `get_hard_regnum`. -/
def getHardRegnum (st : Stack) (reg : Nat) : Option Nat :=
  let k := T.stackno reg
  ((T.cells st.top k).find? fun i => st.reg i == some reg).map (T.regno st.top k)

end Target

namespace Stack

/-- The loop of `displace_reg`. -/
def displace (st : Stack) (place : Nat) : Nat → Stack
  | 0 => st
  | n + 1 => { st.displace place n with
      reg := Function.update (st.displace place n).reg (place + n) none }

/-- `displace_reg`. -/
def displaceReg (st : Stack) (place : Nat) (p : InsnReg) : Stack := st.displace place p.nregs

/-- The loop of `place_reg`: `n` words from `i` on are left to be stored. -/
def placeWords (place : Nat) : Nat → Nat → Nat → Stack → Bool × Stack
  | 0, _, _, st => (true, st)
  | n + 1, i, r, st =>
      match st.reg i with
      | some _ => (false, st.displace place (i - place))
      | none => placeWords place n (i + 1) (r + 1) { st with reg := Function.update st.reg i (some r) }

end Stack

namespace Target

variable (T : Target)

/-- `place_reg`. -/
def placeReg (st : Stack) (place : Nat) (p : InsnReg) : Bool × Stack :=
  if T.last (T.stackno place) < place + p.nregs - 1 then (false, st)
  else Stack.placeWords place p.nregs place p.reg st

/-! ### Rule 2 -/

/-- `set_hard_reg_bits_3`. -/
def setHardRegBits3 (r n : Nat) : Finset Nat := (Finset.range n).image (r + ·)

/-- The hard registers of the popped inputs. -/
def poppedIns (st : Stack) : List InsnReg → Finset Nat
  | [] => ∅
  | p :: ps =>
      if p.popped then
        ((T.getHardRegnum st p.reg).elim ∅ fun r => setHardRegBits3 r p.nregs) ∪ poppedIns st ps
      else poppedIns st ps

/-- The inner loop of `check_rule_2`: the bits are cleared up to the first that is not set. -/
def clearTop : List Nat → Finset Nat → Finset Nat
  | [], s => s
  | j :: js, s => if j ∈ s then clearTop js (s.erase j) else s

/-- The hard registers of a stack. -/
def hardRegs (k : Nat) : List Nat := List.range' (T.first k) (T.last k + 1 - T.first k)

/-- `check_rule_2`. -/
def checkRule2 (st : Stack) (info : List InsnReg) : Bool :=
  (List.range T.nstacks).foldl (fun s k => clearTop (T.hardRegs k) s) (T.poppedIns st info) = ∅

/-! ### The search -/

/-- The loop over the places of `place_inputs`; `next` is the call for the operands that follow. -/
def tryPlaces (next : Stack → Bool × Stack) (p : InsnReg) (oldplace : Option Nat) :
    List Nat → Stack → Bool × Stack
  | [], new => (false, new)
  | place :: places, new =>
      if some place ≠ oldplace ∧ p.cls (T.regno new.top (T.stackno p.reg) place) then
        match T.placeReg new place p with
        | (true, new) =>
            match next new with
            | (true, new) => (true, new)
            | (false, new) => tryPlaces next p oldplace places (new.displaceReg place p)
        | (false, new) => tryPlaces next p oldplace places new
      else tryPlaces next p oldplace places new

/-- `place_inputs`. -/
def placeInputs (old : Stack) (info : List InsnReg) : List InsnReg → Stack → Bool × Stack
  | [], new => (T.checkRule2 new info, new)
  | p :: ps, new =>
      let k := T.stackno p.reg
      let oldregno := T.getHardRegnum old p.reg
      let oldplace := oldregno.map fun r => r - T.first k + old.top k
      let others := T.tryPlaces (placeInputs old info ps) p oldplace (T.cells new.top k)
      match oldregno, oldplace with
      | some r, some place =>
          if p.cls r then
            match T.placeReg new place p with
            | (true, new) =>
                match placeInputs old info ps new with
                | (true, new) => (true, new)
                | (false, new) => others (new.displaceReg place p)
            | (false, new) => others new
          else others new
      | _, _ => others new

/-! ### The other registers -/

/-- The registers in the places. -/
def placedRegs (st : Stack) : List Nat → Finset Nat
  | [] => ∅
  | i :: is => (st.reg i).elim (placedRegs st is) fun r => insert r (placedRegs st is)

/-- A register stays where it is if it is not placed and the place is empty. -/
def leaveReg (old : Stack) (s : Stack × Finset Nat) (i : Nat) : Stack × Finset Nat :=
  match s.1.reg i, old.reg i with
  | none, some r =>
      if r ∈ s.2 then s
      else ({ s.1 with reg := Function.update s.1.reg i (some r) }, insert r s.2)
  | _, _ => s

/-- `while (newstack->reg[j] != -1)`, with the places from `j` on; `none` past the last one. -/
def nextPlace (st : Stack) : List Nat → Option (List Nat)
  | [] => none
  | j :: js => if st.reg j = none then some (j :: js) else nextPlace st js

/-- The last loop of `place_regs` in one stack. -/
def fillRegs (old : Stack) :
    List Nat → List Nat → Stack × Finset Nat → Option (Stack × Finset Nat)
  | [], _, s => some s
  | i :: is, js, s =>
      match old.reg i with
      | none => fillRegs old is js s
      | some r =>
          if r ∈ s.2 then fillRegs old is js s
          else
            match nextPlace s.1 js with
            | some (j :: js) => fillRegs old is (j :: js)
                ({ s.1 with reg := Function.update s.1.reg j (some r) }, insert r s.2)
            | _ => none

/-- All places of all stacks. -/
def allCells (top : Nat → Nat) : List Nat := (List.range T.nstacks).flatMap (T.cells top)

/-- `place_regs`; `none` where it aborts. -/
def placeRegs (old new : Stack) (info : List InsnReg) : Option (Bool × Stack) :=
  let empty := { new with reg := fun _ => none }
  match T.placeInputs old info info empty with
  | (false, new) => some (false, new)
  | (true, new) =>
      let placed := placedRegs new ((List.range T.nstacks).flatMap T.hardRegs)
      let left := (T.allCells old.top).foldl (leaveReg old) (new, placed)
      let filled := (List.range T.nstacks).foldlM (fun s k =>
        fillRegs old (T.cells old.top k) (T.cells s.1.top k) s) left
      match filled with
      | none => none
      | some (new, placed) => if new.regSet = placed then some (true, new) else none

end Target

/-! ### One operand -/

namespace Stack

variable {st : Stack} {place reg m n : Nat} {p : InsnReg}

@[ext] theorem ext' {s s' : Stack} (ht : s.top = s'.top) (hr : s.reg = s'.reg)
    (hs : s.regSet = s'.regSet) : s = s' := by
  cases s
  cases s'
  cases ht
  cases hr
  cases hs
  rfl

/-- The stack with `m` words from a place on. -/
def words (st : Stack) (place reg m : Nat) : Stack :=
  { st with reg := fun j => if place ≤ j ∧ j < place + m then some (reg + (j - place)) else st.reg j }

/-- The stack with an operand in its place. -/
def put (st : Stack) (place : Nat) (p : InsnReg) : Stack := st.words place p.reg p.nregs

/-- The places are empty. -/
def Empty (st : Stack) (place m : Nat) : Prop := ∀ j, place ≤ j → j < place + m → st.reg j = none

theorem words_zero : st.words place reg 0 = st := by
  refine ext' rfl (funext fun j => ?_) rfl
  exact if_neg fun h => by omega

theorem words_succ : { st.words place reg m with
    reg := Function.update (st.words place reg m).reg (place + m) (some (reg + m)) } =
      st.words place reg (m + 1) := by
  refine ext' rfl (funext fun j => ?_) rfl
  simp only [words, Function.update_apply]
  by_cases hj : j = place + m
  · rw [if_pos hj, if_pos (by omega), show j - place = m by omega]
  · rw [if_neg hj]
    exact if_congr (by omega) rfl rfl

theorem displace_reg : (st.displace place m).reg = fun j =>
    if place ≤ j ∧ j < place + m then none else st.reg j := by
  induction m with
  | zero => exact funext fun j => (if_neg fun h => by omega).symm
  | succ m ih =>
      refine funext fun j => ?_
      simp only [displace, Function.update_apply, ih]
      by_cases hj : j = place + m
      · rw [if_pos hj, if_pos (by omega)]
      · rw [if_neg hj]
        exact if_congr (by omega) rfl rfl

theorem displace_top : (st.displace place m).top = st.top := by
  induction m with
  | zero => rfl
  | succ m ih => exact ih

theorem displace_regSet : (st.displace place m).regSet = st.regSet := by
  induction m with
  | zero => rfl
  | succ m ih => exact ih

/-- The words are taken away again. -/
theorem displace_words (he : st.Empty place m) : (st.words place reg m).displace place m = st := by
  refine ext' displace_top ?_ displace_regSet
  rw [displace_reg]
  refine funext fun j => ?_
  split
  · next h => exact (he j h.1 h.2).symm
  · next h => exact if_neg h

theorem displaceReg_put (he : st.Empty place p.nregs) :
    (st.put place p).displaceReg place p = st := displace_words he

/-- The loop of `place_reg` puts the words where the places are empty, or changes nothing. -/
theorem placeWords_eq (reg : Nat) (he : st.Empty place m) :
    (st.Empty place (m + n) →
      placeWords place n (place + m) (reg + m) (st.words place reg m) =
        (true, st.words place reg (m + n))) ∧
    (¬st.Empty place (m + n) →
      placeWords place n (place + m) (reg + m) (st.words place reg m) = (false, st)) := by
  induction n generalizing m with
  | zero => exact ⟨fun _ => rfl, fun h => absurd he h⟩
  | succ n ih =>
      have hreg : (st.words place reg m).reg (place + m) = st.reg (place + m) :=
        if_neg fun h => by omega
      cases hv : st.reg (place + m) with
      | some v =>
          refine ⟨fun h => ?_, fun _ => ?_⟩
          · rw [h (place + m) (by omega) (by omega)] at hv
            cases hv
          · simp only [placeWords, hreg, hv, Nat.add_sub_cancel_left]
            rw [displace_words he]
      | none =>
          have he' : st.Empty place (m + 1) := fun j hj hj' => by
            by_cases hjm : j = place + m
            · exact hjm ▸ hv
            · exact he j hj (by omega)
          have := ih he'
          rw [show m + (n + 1) = m + 1 + n by omega]
          simpa only [placeWords, hreg, hv, words_succ, ← Nat.add_assoc] using this

end Stack

namespace Target

variable {T : Target} {st : Stack} {place : Nat} {p : InsnReg} {k : Nat}

/-- The operand fits into the places from here on. -/
structure Free (T : Target) (st : Stack) (p : InsnReg) (place : Nat) : Prop where
  last : place + p.nregs ≤ T.last (T.stackno place) + 1
  empty : st.Empty place p.nregs

theorem placeReg_true (h : T.Free st p place) : T.placeReg st place p = (true, st.put place p) := by
  have hpos := p.nregs_pos
  have hlast := h.last
  rw [placeReg, if_neg (by omega)]
  have hnil : st.Empty place 0 := fun j hj hj' => by omega
  have := (Stack.placeWords_eq (n := p.nregs) p.reg hnil).1 (by simpa using h.empty)
  simpa [Stack.words_zero, Stack.put] using this

theorem placeReg_false (h : ¬T.Free st p place) : T.placeReg st place p = (false, st) := by
  have hpos := p.nregs_pos
  rw [placeReg]
  split
  · rfl
  · next hlast =>
      have hnil : st.Empty place 0 := fun j hj hj' => by omega
      have := (Stack.placeWords_eq (n := p.nregs) p.reg hnil).2 fun he => h ⟨by omega, by simpa using he⟩
      simpa [Stack.words_zero] using this

/-! ### The search is exhaustive -/

/-- A place for an operand: one of its stack, in its class, with room from there on. -/
structure Suits (T : Target) (st : Stack) (p : InsnReg) (place : Nat) : Prop where
  cell : place ∈ T.cells st.top (T.stackno p.reg)
  cls : p.cls (T.regno st.top (T.stackno p.reg) place) = true
  free : T.Free st p place

/-- The operands can be put into the places one after the other. -/
def Seats (T : Target) : Stack → List InsnReg → List Nat → Prop
  | _, [], [] => True
  | st, p :: ps, place :: places => T.Suits st p place ∧ T.Seats (st.put place p) ps places
  | _, _, _ => False

/-- The stack with the operands in the places. -/
def seat : Stack → List InsnReg → List Nat → Stack
  | st, p :: ps, place :: places => seat (st.put place p) ps places
  | st, _, _ => st

/-- A search from here: it finds places that pass the last check if there are any, and changes
nothing if there are none. -/
def Searches (T : Target) (info ins : List InsnReg) (st : Stack) (result : Bool × Stack) : Prop :=
  match result with
  | (true, st') => ∃ places, T.Seats st ins places ∧ st' = seat st ins places ∧
      T.checkRule2 st' info = true
  | (false, st') => st' = st ∧ ∀ places, T.Seats st ins places →
      T.checkRule2 (seat st ins places) info = false

variable {info ps : List InsnReg} {next : Stack → Bool × Stack} {oldplace : Option Nat}

/-- What the search finds with the first operand in a place. -/
theorem Searches.of_first {result : Bool × Stack} (hs : T.Suits st p place)
    (h : T.Searches info ps (st.put place p) result) (htrue : result.1 = true) :
    T.Searches info (p :: ps) st result := by
  obtain ⟨b, st'⟩ := result
  obtain rfl : b = true := htrue
  obtain ⟨places, hseats, heq, hrule⟩ := h
  exact ⟨place :: places, ⟨hs, hseats⟩, heq, hrule⟩

/-- The loop over the places, of which the old one is left out. -/
def Tries (T : Target) (info ps : List InsnReg) (p : InsnReg) (oldplace : Option Nat) (st : Stack)
    (places : List Nat) (result : Bool × Stack) : Prop :=
  match result with
  | (true, st') => T.Searches info (p :: ps) st (true, st')
  | (false, st') => st' = st ∧ ∀ place ∈ places, some place ≠ oldplace → T.Suits st p place →
      ∀ rest, T.Seats (st.put place p) ps rest →
        T.checkRule2 (seat (st.put place p) ps rest) info = false

/-- A place that does not do leaves the rest of the list. -/
theorem Tries.cons {result : Bool × Stack} {places : List Nat}
    (h : T.Tries info ps p oldplace st places result)
    (hnot : some place ≠ oldplace → T.Suits st p place → ∀ rest, T.Seats (st.put place p) ps rest →
      T.checkRule2 (seat (st.put place p) ps rest) info = false) :
    T.Tries info ps p oldplace st (place :: places) result := by
  obtain ⟨b, st'⟩ := result
  cases b with
  | true => exact h
  | false => exact ⟨h.1, List.forall_mem_cons.mpr ⟨hnot, h.2⟩⟩

theorem tryPlaces_tries (hnext : ∀ st', st'.top = st.top → T.Searches info ps st' (next st'))
    (places : List Nat) (hcells : ∀ place ∈ places, place ∈ T.cells st.top (T.stackno p.reg)) :
    T.Tries info ps p oldplace st places (T.tryPlaces next p oldplace places st) := by
  induction places with
  | nil => exact ⟨rfl, by simp⟩
  | cons place places ih =>
      have ih := ih fun place' h => hcells place' (List.mem_cons_of_mem _ h)
      have hcell := hcells place List.mem_cons_self
      by_cases hcond : some place ≠ oldplace ∧ p.cls (T.regno st.top (T.stackno p.reg) place) = true
      · rw [tryPlaces, if_pos hcond]
        by_cases hfree : T.Free st p place
        · rw [placeReg_true hfree]
          have hn := hnext (st.put place p) rfl
          rcases hres : next (st.put place p) with ⟨b, st'⟩
          rw [hres] at hn
          cases b with
          | true =>
              simp only [hres]
              exact hn.of_first ⟨hcell, hcond.2, hfree⟩ rfl
          | false =>
              obtain ⟨rfl, hnone⟩ := hn
              simp only [hres, Stack.displaceReg_put hfree.empty]
              exact ih.cons fun _ _ => hnone
        · rw [placeReg_false hfree]
          exact ih.cons fun _ hs => absurd hs.free hfree
      · rw [tryPlaces, if_neg hcond]
        exact ih.cons fun hne hs => absurd ⟨hne, hs.cls⟩ hcond

/-- Where the loop fails, and the old place failed before, all places fail. -/
theorem Tries.searches {result : Bool × Stack}
    (h : T.Tries info ps p oldplace st (T.cells st.top (T.stackno p.reg)) result)
    (hold : ∀ place, some place = oldplace → T.Suits st p place → ∀ rest,
      T.Seats (st.put place p) ps rest →
      T.checkRule2 (seat (st.put place p) ps rest) info = false) :
    T.Searches info (p :: ps) st result := by
  obtain ⟨b, st'⟩ := result
  cases b with
  | true => exact h
  | false =>
      refine ⟨h.1, fun places hseats => ?_⟩
      match places, hseats with
      | place :: rest, ⟨hs, hrest⟩ =>
          by_cases hp : some place = oldplace
          · exact hold place hp hs rest hrest
          · exact h.2 place hs.cell hp hs rest hrest

theorem mem_cells {top : Nat → Nat} {i : Nat} :
    i ∈ T.cells top k ↔ top k ≤ i ∧ i < top k + (T.last k + 1 - top k) := by
  simp [cells, List.mem_range'_1]

/-- A register that is in the stack is found. -/
theorem getHardRegnum_of_mem {reg i : Nat} (hi : i ∈ T.cells st.top (T.stackno reg))
    (hreg : st.reg i = some reg) : ∃ j ∈ T.cells st.top (T.stackno reg), st.reg j = some reg ∧
      T.getHardRegnum st reg = some (T.regno st.top (T.stackno reg) j) := by
  obtain ⟨j, hj⟩ := Option.isSome_iff_exists.mp (List.find?_isSome
    (p := fun i => st.reg i == some reg) |>.mpr ⟨i, hi, by simp [hreg]⟩)
  refine ⟨j, List.mem_of_find?_eq_some hj, by simpa using List.find?_some hj, ?_⟩
  simp only [getHardRegnum, hj, Option.map_some]

/-- The search finds an arrangement if there is one, and else changes nothing. -/
theorem placeInputs_search {old : Stack} (info ins : List InsnReg)
    (hlive : ∀ p ∈ ins, ∃ i ∈ T.cells old.top (T.stackno p.reg), old.reg i = some p.reg)
    (st : Stack) (htop : st.top = old.top) :
    T.Searches info ins st (T.placeInputs old info ins st) := by
  induction ins generalizing st with
  | nil =>
      rw [placeInputs]
      cases h : T.checkRule2 st info with
      | true => exact ⟨[], trivial, rfl, h⟩
      | false =>
          refine ⟨rfl, fun places hseats => ?_⟩
          match places, hseats with
          | [], _ => exact h
  | cons p ps ih =>
      have ih := ih fun q hq => hlive q (List.mem_cons_of_mem _ hq)
      have hnext : ∀ st', st'.top = st.top →
          T.Searches info ps st' (T.placeInputs old info ps st') := fun st' h => ih st' (h.trans htop)
      obtain ⟨i, hi, hreg⟩ := hlive p List.mem_cons_self
      obtain ⟨place, hplace, -, hnum⟩ := getHardRegnum_of_mem hi hreg
      have hplace' : place ∈ T.cells st.top (T.stackno p.reg) := htop ▸ hplace
      have hold : T.regno old.top (T.stackno p.reg) place - T.first (T.stackno p.reg) +
          old.top (T.stackno p.reg) = place := by
        have := (mem_cells.mp hplace).1
        rw [regno]
        omega
      -- the other places, after the old one has failed
      have hothers : (T.Suits st p place → ∀ rest, T.Seats (st.put place p) ps rest →
            T.checkRule2 (seat (st.put place p) ps rest) info = false) →
          T.Searches info (p :: ps) st (T.tryPlaces (T.placeInputs old info ps) p (some place)
            (T.cells st.top (T.stackno p.reg)) st) := fun hnot =>
        (tryPlaces_tries hnext _ fun _ h => h).searches fun place' h => by
          obtain rfl := Option.some.inj h
          exact hnot
      simp only [placeInputs, hnum, Option.map_some, hold]
      split
      · next hcls =>
          have hcls : p.cls (T.regno st.top (T.stackno p.reg) place) = true := htop ▸ hcls
          by_cases hfree : T.Free st p place
          · rw [placeReg_true hfree]
            have hn := hnext (st.put place p) rfl
            rcases hres : T.placeInputs old info ps (st.put place p) with ⟨b, st'⟩
            rw [hres] at hn
            cases b with
            | true =>
                simp only [hres]
                exact hn.of_first ⟨hplace', hcls, hfree⟩ rfl
            | false =>
                obtain ⟨rfl, hnone⟩ := hn
                simp only [hres, Stack.displaceReg_put hfree.empty]
                exact hothers fun _ => hnone
          · rw [placeReg_false hfree]
            exact hothers fun hs => absurd hs.free hfree
      · next hcls => exact hothers fun hs => absurd (htop ▸ hs.cls) hcls

/-! ### Arrangements -/

/-- The stack holds the live registers, each in one place of its stack. -/
structure Holds (T : Target) (st : Stack) : Prop where
  first_le : ∀ k < T.nstacks, T.first k ≤ st.top k
  live : ∀ k < T.nstacks, ∀ i ∈ T.cells st.top k, ∃ r, st.reg i = some r ∧ T.stackno r = k
  inj : ∀ k < T.nstacks, ∀ i ∈ T.cells st.top k, ∀ j ∈ T.cells st.top k,
    st.reg i = st.reg j → i = j
  regSet : ∀ r, r ∈ st.regSet ↔ ∃ k < T.nstacks, ∃ i ∈ T.cells st.top k, st.reg i = some r

/-- The operands are distinct, and all their words are live. -/
structure Inputs (T : Target) (st : Stack) (info : List InsnReg) : Prop where
  stack : ∀ p ∈ info, T.stackno p.reg < T.nstacks
  live : ∀ p ∈ info, ∀ t < p.nregs,
    ∃ i ∈ T.cells st.top (T.stackno p.reg), st.reg i = some (p.reg + t)
  distinct : info.Pairwise fun p q => ∀ t < p.nregs, ∀ u < q.nregs, p.reg + t ≠ q.reg + u

/-- The hard register is one of a popped operand. -/
def Pops (T : Target) (top : Nat → Nat) (info : List InsnReg) (places : List Nat) (j : Nat) : Prop :=
  ∃ a ∈ info.zip places, a.1.popped = true ∧
    ∃ t < a.1.nregs, j = T.regno top (T.stackno a.1.reg) a.2 + t

/-- Each operand is in its stack and of its class, no two overlap, and the popped ones are on top of
their stacks. -/
structure Arranged (T : Target) (top : Nat → Nat) (info : List InsnReg) (places : List Nat) :
    Prop where
  suits : List.Forall₂ (fun p place => place ∈ T.cells top (T.stackno p.reg) ∧
    place + p.nregs ≤ T.last (T.stackno p.reg) + 1 ∧
    p.cls (T.regno top (T.stackno p.reg) place) = true) info places
  apart : (info.zip places).Pairwise fun a b =>
    ∀ t < a.1.nregs, ∀ u < b.1.nregs, a.2 + t ≠ b.2 + u
  contiguous : ∀ k < T.nstacks, ∀ j, T.first k ≤ j → j ≤ T.last k → T.Pops top info places j →
    ∀ i, T.first k ≤ i → i ≤ j → T.Pops top info places i

variable {places : List Nat}

theorem seat_top : (seat st ps places).top = st.top := by
  induction ps generalizing st places with
  | nil => rfl
  | cons p ps ih =>
      cases places with
      | nil => rfl
      | cons place places => exact ih

theorem seat_regSet : (seat st ps places).regSet = st.regSet := by
  induction ps generalizing st places with
  | nil => rfl
  | cons p ps ih =>
      cases places with
      | nil => rfl
      | cons place places => exact ih

theorem seat_of_some (h : T.Seats st ps places) {i r : Nat} (hr : st.reg i = some r) :
    (seat st ps places).reg i = some r := by
  induction ps generalizing st places with
  | nil => exact hr
  | cons p ps ih =>
      match places, h with
      | place :: places, ⟨hs, hrest⟩ =>
          refine ih hrest ?_
          rw [Stack.put, Stack.words]
          refine (if_neg fun hi => ?_).trans hr
          rw [hs.free.empty i hi.1 hi.2] at hr
          cases hr

/-- The words of an operand follow one another. -/
theorem seat_words (h : T.Seats st ps places) : ∀ a ∈ ps.zip places, ∀ t < a.1.nregs,
    (seat st ps places).reg (a.2 + t) = some (a.1.reg + t) := by
  induction ps generalizing st places with
  | nil => simp
  | cons p ps ih =>
      match places, h with
      | place :: places, ⟨hs, hrest⟩ =>
          intro a ha t ht
          rcases List.mem_cons.mp ha with rfl | ha
          · refine seat_of_some hrest ?_
            rw [Stack.put, Stack.words]
            refine (if_pos ⟨Nat.le_add_right _ _, by simpa using ht⟩).trans ?_
            simp
          · exact ih hrest a ha t ht

/-- Where there is no operand nothing changes. -/
theorem seat_of_not {i : Nat} (h : ∀ a ∈ ps.zip places, ¬(a.2 ≤ i ∧ i < a.2 + a.1.nregs)) :
    (seat st ps places).reg i = st.reg i := by
  induction ps generalizing st places with
  | nil => rfl
  | cons p ps ih =>
      cases places with
      | nil => rfl
      | cons place places =>
          rw [seat, ih fun a ha => h a (List.mem_cons_of_mem _ ha)]
          exact if_neg (h _ List.mem_cons_self)

/-- Where there is something, there was something or there is a word of an operand. -/
theorem seat_cases (hs : T.Seats st ps places) {i r : Nat} (h : (seat st ps places).reg i = some r) :
    st.reg i = some r ∨ ∃ a ∈ ps.zip places, ∃ t < a.1.nregs, i = a.2 + t ∧ r = a.1.reg + t := by
  by_cases hex : ∃ a ∈ ps.zip places, a.2 ≤ i ∧ i < a.2 + a.1.nregs
  · obtain ⟨a, ha, hlo, hhi⟩ := hex
    obtain ⟨t, rfl⟩ := Nat.exists_eq_add_of_le hlo
    have ht : t < a.1.nregs := by omega
    exact .inr ⟨a, ha, t, ht, rfl, Option.some.inj (h.symm.trans (seat_words hs a ha t ht))⟩
  · rw [seat_of_not fun a ha hi => hex ⟨a, ha, hi⟩] at h
    exact .inl h

theorem suits_put {q : InsnReg} {place' : Nat} : T.Suits (st.put place p) q place' ↔
    T.Suits st q place' ∧ ∀ t < p.nregs, ∀ u < q.nregs, place + t ≠ place' + u := by
  have hreg : ∀ j, (st.put place p).reg j = none ↔
      st.reg j = none ∧ ¬(place ≤ j ∧ j < place + p.nregs) := fun j => by
    simp only [Stack.put, Stack.words]
    split
    · next h => simp [h]
    · next h => simp [h]
  constructor
  · intro h
    refine ⟨⟨h.cell, h.cls, h.free.last, fun j hj hj' => ((hreg j).mp (h.free.empty j hj hj')).1⟩,
      fun t ht u hu heq => ?_⟩
    exact ((hreg (place' + u)).mp (h.free.empty _ (by omega) (by omega))).2 (by omega)
  · rintro ⟨h, hne⟩
    refine ⟨h.cell, h.cls, h.free.last, fun j hj hj' => (hreg j).mpr ⟨h.free.empty j hj hj', ?_⟩⟩
    rintro ⟨hlo, hhi⟩
    exact hne (j - place) (by omega) (j - place') (by omega) (by omega)

/-- What can be seated one after the other are operands that do not overlap. -/
theorem seats_iff : T.Seats st ps places ↔ List.Forall₂ (T.Suits st) ps places ∧
    (ps.zip places).Pairwise fun a b => ∀ t < a.1.nregs, ∀ u < b.1.nregs, a.2 + t ≠ b.2 + u := by
  induction ps generalizing st places with
  | nil => cases places <;> simp [Seats]
  | cons p ps ih =>
      cases places with
      | nil => simp [Seats]
      | cons place places =>
          rw [Seats, ih, List.zip_cons_cons, List.pairwise_cons, List.forall₂_cons,
            List.forall₂_iff_zip, List.forall₂_iff_zip]
          constructor
          · rintro ⟨hs, ⟨hlen, hall⟩, hpair⟩
            exact ⟨⟨hs, hlen, fun h => (suits_put.mp (hall h)).1⟩,
              fun a ha => (suits_put.mp (hall ha)).2, hpair⟩
          · rintro ⟨⟨hs, hlen, hall⟩, hfirst, hpair⟩
            exact ⟨hs, ⟨hlen, fun h => suits_put.mpr ⟨hall h, hfirst _ h⟩⟩, hpair⟩

/-- The place of a stack belongs to it. -/
theorem stackno_cell {i : Nat} (hk : k < T.nstacks) (hfirst : T.first k ≤ st.top k)
    (hi : i ∈ T.cells st.top k) : T.stackno i = k := by
  have := mem_cells.mp hi
  exact T.stackno_eq k hk i (by omega) (by omega)

/-- The operands of a stack with nothing in it. -/
theorem seats_empty_iff (hempty : ∀ i, st.reg i = none)
    (hfirst : ∀ k < T.nstacks, T.first k ≤ st.top k)
    (hk : ∀ p ∈ ps, T.stackno p.reg < T.nstacks) : T.Seats st ps places ↔
      List.Forall₂ (fun p place => place ∈ T.cells st.top (T.stackno p.reg) ∧
        place + p.nregs ≤ T.last (T.stackno p.reg) + 1 ∧
        p.cls (T.regno st.top (T.stackno p.reg) place) = true) ps places ∧
      (ps.zip places).Pairwise fun a b =>
        ∀ t < a.1.nregs, ∀ u < b.1.nregs, a.2 + t ≠ b.2 + u := by
  rw [seats_iff, List.forall₂_iff_zip, List.forall₂_iff_zip]
  refine and_congr_left fun _ => and_congr_right fun _ => ⟨fun h a b hab => ?_, fun h a b hab => ?_⟩
  · have hs := h hab
    have hno := stackno_cell (hk a (List.of_mem_zip hab).1) (hfirst _ (hk a (List.of_mem_zip hab).1))
      hs.cell
    exact ⟨hs.cell, hno ▸ hs.free.last, hs.cls⟩
  · obtain ⟨hcell, hlast, hcls⟩ := h hab
    have hno := stackno_cell (hk a (List.of_mem_zip hab).1) (hfirst _ (hk a (List.of_mem_zip hab).1))
      hcell
    exact ⟨hcell, hcls, hno.symm ▸ hlast, fun j _ _ => hempty j⟩

/-! ### Rule 2 -/

theorem mem_setHardRegBits3 {r n j : Nat} : j ∈ setHardRegBits3 r n ↔ ∃ t < n, j = r + t := by
  simp [setHardRegBits3, eq_comm]

theorem mem_poppedIns {j : Nat} : j ∈ T.poppedIns st ps ↔ ∃ p ∈ ps, p.popped = true ∧
    ∃ r, T.getHardRegnum st p.reg = some r ∧ ∃ t < p.nregs, j = r + t := by
  induction ps with
  | nil => simp [poppedIns]
  | cons p ps ih =>
      rw [poppedIns]
      split
      · next hp =>
          cases hr : T.getHardRegnum st p.reg with
          | none => simp [ih, hr]
          | some r => simp [ih, hr, hp, mem_setHardRegBits3]
      · next hp => simp [ih, hp]

/-- What is left of a set after its top has been cleared. -/
theorem mem_clearTop {a n j : Nat} {s : Finset Nat} : j ∈ clearTop (List.range' a n) s ↔
    j ∈ s ∧ ¬(a ≤ j ∧ j < a + n ∧ ∀ i, a ≤ i → i ≤ j → i ∈ s) := by
  induction n generalizing a s with
  | zero =>
      rw [List.range'_zero, clearTop]
      exact ⟨fun h => ⟨h, fun h' => by omega⟩, fun h => h.1⟩
  | succ n ih =>
      rw [List.range'_succ, clearTop]
      split
      · next ha =>
          rw [ih, Finset.mem_erase]
          constructor
          · rintro ⟨⟨hne, hj⟩, hnot⟩
            refine ⟨hj, fun ⟨hlo, hhi, hall⟩ => hnot ⟨by omega, by omega, fun i hi hij => ?_⟩⟩
            exact Finset.mem_erase.mpr ⟨by omega, hall i (by omega) hij⟩
          · rintro ⟨hj, hnot⟩
            have hne : j ≠ a := by
              rintro rfl
              exact hnot ⟨le_rfl, by omega, fun i hi hij => (by omega : i = j) ▸ ha⟩
            refine ⟨⟨hne, hj⟩, fun ⟨hlo, hhi, hall⟩ => hnot ⟨by omega, by omega, fun i hi hij => ?_⟩⟩
            by_cases hia : i = a
            · exact hia ▸ ha
            · exact (Finset.mem_erase.mp (hall i (by omega) hij)).2
      · next ha =>
          refine ⟨fun h => ⟨h, fun ⟨hlo, _, hall⟩ => ha (hall a le_rfl hlo)⟩, fun h => h.1⟩

theorem mem_clearAll {n j : Nat} (hn : n ≤ T.nstacks) {s : Finset Nat} :
    j ∈ (List.range n).foldl (fun s k => clearTop (T.hardRegs k) s) s ↔
      j ∈ s ∧ ∀ k < n, ¬(T.first k ≤ j ∧ j ≤ T.last k ∧
        ∀ i, T.first k ≤ i → i ≤ j → i ∈ s) := by
  induction n generalizing j with
  | zero => simp
  | succ n ih =>
      have ih : ∀ {j}, _ := fun {j} => ih (j := j) (Nat.le_of_succ_le hn)
      rw [List.range_succ, List.foldl_append, List.foldl_cons, List.foldl_nil, hardRegs,
        mem_clearTop, ih]
      -- the stacks before this one have not touched its registers
      have hsame : T.first n ≤ j → j ≤ T.last n →
          ((∀ i, T.first n ≤ i → i ≤ j →
            i ∈ (List.range n).foldl (fun s k => clearTop (T.hardRegs k) s) s) ↔
          ∀ i, T.first n ≤ i → i ≤ j → i ∈ s) := by
        intro _ hlast
        refine forall_congr' fun i => forall_congr' fun hi => forall_congr' fun hij => ?_
        rw [ih]
        refine and_iff_left fun k hk ⟨hlo, hhi, _⟩ => ?_
        have h1 := T.stackno_eq k (by omega) i hlo hhi
        have h2 := T.stackno_eq n (by omega) i hi (by omega)
        omega
      rw [Nat.forall_lt_succ_right]
      constructor
      · rintro ⟨⟨hj, hall⟩, hnot⟩
        refine ⟨hj, hall, fun ⟨hlo, hhi, h⟩ => hnot ⟨hlo, by omega, (hsame hlo hhi).mpr h⟩⟩
      · rintro ⟨hj, hall, hnot⟩
        refine ⟨⟨hj, hall⟩, fun ⟨hlo, hhi, h⟩ => hnot ⟨hlo, by omega, ?_⟩⟩
        exact (hsame hlo (by omega)).mp h

/-- Rule 2: the hard registers of the popped inputs go down from the top of each stack. -/
theorem checkRule2_iff : T.checkRule2 st info = true ↔ ∀ j ∈ T.poppedIns st info,
    ∃ k < T.nstacks, T.first k ≤ j ∧ j ≤ T.last k ∧
      ∀ i, T.first k ≤ i → i ≤ j → i ∈ T.poppedIns st info := by
  rw [checkRule2, decide_eq_true_iff, Finset.eq_empty_iff_forall_notMem]
  refine forall_congr' fun j => ?_
  rw [mem_clearAll le_rfl]
  constructor
  · intro h hj
    by_contra hno
    exact h ⟨hj, fun k hk hin => hno ⟨k, hk, hin⟩⟩
  · rintro h ⟨hj, hall⟩
    obtain ⟨k, hk, hin⟩ := h hj
    exact hall k hk hin

/-! ### The operands in their places -/

section Seated

variable {old : Stack} (hold : T.Holds old) (hin : T.Inputs old info)
  (hempty : ∀ i, st.reg i = none) (htop : st.top = old.top)

include hin in
/-- Distinct pairs of an operand and a place have no word in common. -/
theorem zip_distinct (hlen : info.length = places.length) {a b : InsnReg × Nat}
    (ha : a ∈ info.zip places) (hb : b ∈ info.zip places) (hne : a ≠ b) {t u : Nat}
    (ht : t < a.1.nregs) (hu : u < b.1.nregs) : a.1.reg + t ≠ b.1.reg + u := by
  let R := fun a b : InsnReg × Nat => ∀ t < a.1.nregs, ∀ u < b.1.nregs, a.1.reg + t ≠ b.1.reg + u
  have hpair : (info.zip places).Pairwise R := by
    have hmap : (info.zip places).map Prod.fst = info := List.map_fst_zip hlen.le
    exact List.pairwise_map.mp (hmap.symm ▸ hin.distinct)
  have : Std.Symm R := ⟨fun x y h t ht u hu heq => h u hu t ht heq.symm⟩
  exact hpair.forall ha hb hne t ht u hu

include hold hin hempty htop in
/-- An operand that has been placed is found in its place. -/
theorem getHardRegnum_seat (hs : T.Seats st info places) {a : InsnReg × Nat}
    (ha : a ∈ info.zip places) : T.getHardRegnum (seat st info places) a.1.reg =
      some (T.regno old.top (T.stackno a.1.reg) a.2) := by
  have htop' : (seat st info places).top = old.top := seat_top.trans htop
  have hfirst : ∀ k < T.nstacks, T.first k ≤ st.top k := fun k hk => htop ▸ hold.first_le k hk
  have hsuits := ((seats_empty_iff hempty hfirst hin.stack).mp hs).1
  rw [List.forall₂_iff_zip] at hsuits
  have hword := seat_words hs a ha 0 a.1.nregs_pos
  have hcell : a.2 ∈ T.cells (seat st info places).top (T.stackno a.1.reg) := by
    rw [htop', ← htop]
    exact (hsuits.2 ha).1
  obtain ⟨j, hj, hreg, hnum⟩ := getHardRegnum_of_mem hcell (by simpa using hword)
  rw [hnum, htop']
  -- no other place holds its first word
  rcases seat_cases hs hreg with h | ⟨b, hb, t, ht, rfl, hr⟩
  · rw [hempty] at h
    cases h
  · by_cases hab : a = b
    · subst hab
      obtain rfl : t = 0 := by omega
      rfl
    · exact absurd (by simpa using hr) (zip_distinct hin hsuits.1 ha hb hab a.1.nregs_pos ht)

include hold hin hempty htop in
theorem mem_poppedIns_seat (hs : T.Seats st info places) {j : Nat} :
    j ∈ T.poppedIns (seat st info places) info ↔ T.Pops old.top info places j := by
  have hlen : info.length = places.length := (List.forall₂_iff_zip.mp (seats_iff.mp hs).1).1
  rw [mem_poppedIns]
  constructor
  · rintro ⟨p, hp, hpop, r, hr, t, ht, rfl⟩
    obtain ⟨i, hi, rfl⟩ := List.getElem_of_mem hp
    have hi' : i < places.length := hlen ▸ hi
    have ha : (info[i], places[i]) ∈ info.zip places := by
      rw [List.mem_iff_getElem]
      exact ⟨i, by simp [← hlen, hi], by simp⟩
    have := getHardRegnum_seat hold hin hempty htop hs ha
    exact ⟨_, ha, hpop, t, ht, by rw [← Option.some.inj (hr.symm.trans this)]⟩
  · rintro ⟨a, ha, hpop, t, ht, rfl⟩
    exact ⟨a.1, (List.of_mem_zip ha).1, hpop, _, getHardRegnum_seat hold hin hempty htop hs ha, t,
      ht, rfl⟩

include hold hin hempty htop in
/-- The operands are arranged if they can be seated and pass the check of rule 2. -/
theorem arranged_iff : T.Arranged old.top info places ↔
    T.Seats st info places ∧ T.checkRule2 (seat st info places) info = true := by
  have hfirst : ∀ k < T.nstacks, T.first k ≤ st.top k := fun k hk => htop ▸ hold.first_le k hk
  have hseats : T.Seats st info places ↔ _ := seats_empty_iff hempty hfirst hin.stack
  rw [htop] at hseats
  constructor
  · rintro ⟨hsuits, hapart, hcont⟩
    have hs := hseats.mpr ⟨hsuits, hapart⟩
    refine ⟨hs, checkRule2_iff.mpr fun j hj => ?_⟩
    rw [mem_poppedIns_seat hold hin hempty htop hs] at hj
    obtain ⟨a, ha, hpop, t, ht, rfl⟩ := id hj
    obtain ⟨hcell, hlast, -⟩ := (List.forall₂_iff_zip.mp hsuits).2 ha
    have hk := hin.stack a.1 (List.of_mem_zip ha).1
    have h1 := hold.first_le _ hk
    have h2 := mem_cells.mp hcell
    have h3 : T.first (T.stackno a.1.reg) ≤ T.regno old.top (T.stackno a.1.reg) a.2 + t ∧
        T.regno old.top (T.stackno a.1.reg) a.2 + t ≤ T.last (T.stackno a.1.reg) := by
      rw [regno]
      omega
    refine ⟨_, hk, h3.1, h3.2, fun i hi hij => ?_⟩
    rw [mem_poppedIns_seat hold hin hempty htop hs]
    exact hcont _ hk _ h3.1 h3.2 hj i hi hij
  · rintro ⟨hs, hrule⟩
    obtain ⟨hsuits, hapart⟩ := hseats.mp hs
    refine ⟨hsuits, hapart, fun k hk j hlo hhi hj i hi hij => ?_⟩
    have hpop := fun {j} => mem_poppedIns_seat hold hin hempty htop hs (j := j)
    obtain ⟨k', hk', hlo', hhi', hall⟩ := checkRule2_iff.mp hrule j (hpop.mpr hj)
    obtain rfl : k' = k :=
      (T.stackno_eq k' hk' j hlo' hhi').symm.trans (T.stackno_eq k hk j hlo hhi)
    exact hpop.mp (hall i hi hij)

end Seated

/-! ### The other registers -/

/-- A stack that is being filled, with the registers placed so far. -/
structure Filling (T : Target) (old st : Stack) (s : Stack × Finset Nat) : Prop where
  top : s.1.top = old.top
  regSet : s.1.regSet = st.regSet
  placed : ∀ r, r ∈ s.2 ↔ ∃ k < T.nstacks, ∃ i ∈ T.cells old.top k, s.1.reg i = some r
  live : ∀ k < T.nstacks, ∀ i ∈ T.cells old.top k, ∀ r, s.1.reg i = some r →
    ∃ j ∈ T.cells old.top k, old.reg j = some r
  inj : ∀ k < T.nstacks, ∀ i ∈ T.cells old.top k, ∀ j ∈ T.cells old.top k, ∀ r,
    s.1.reg i = some r → s.1.reg j = some r → i = j
  kept : ∀ i r, st.reg i = some r → s.1.reg i = some r

section Filling

variable {old : Stack} (hold : T.Holds old) {s : Stack × Finset Nat} {i j r : Nat}

include hold in
/-- A live register is put into an empty place of its stack. -/
theorem Filling.add (hs : T.Filling old st s) (hk : k < T.nstacks) (hj : j ∈ T.cells old.top k)
    (hnone : s.1.reg j = none) (hi : i ∈ T.cells old.top k) (hr : old.reg i = some r)
    (hnot : r ∉ s.2) :
    T.Filling old st ({ s.1 with reg := Function.update s.1.reg j (some r) }, insert r s.2) := by
  have hno : ∀ k' < T.nstacks, j ∈ T.cells old.top k' → k' = k := fun k' hk' hj' =>
    (stackno_cell hk' (hold.first_le k' hk') hj').symm.trans
      (stackno_cell hk (hold.first_le k hk) hj)
  have hself : Function.update s.1.reg j (some r) j = some r := Function.update_self _ _ _
  have hother : ∀ l, l ≠ j → Function.update s.1.reg j (some r) l = s.1.reg l := fun l hl =>
    Function.update_of_ne hl _ _
  refine ⟨hs.top, hs.regSet, fun r' => ?_, fun k' hk' l hl r' hr' => ?_,
    fun k' hk' l hl m hm r' hl' hm' => ?_, fun l r' hl => ?_⟩
  · rw [Finset.mem_insert, hs.placed]
    constructor
    · rintro (rfl | ⟨k', hk', l, hl, hr'⟩)
      · exact ⟨k, hk, j, hj, hself⟩
      · have hlj : l ≠ j := by
          rintro rfl
          rw [hnone] at hr'
          cases hr'
        exact ⟨k', hk', l, hl, (hother l hlj).trans hr'⟩
    · rintro ⟨k', hk', l, hl, hr'⟩
      by_cases hlj : l = j
      · subst hlj
        exact .inl (Option.some.inj (hr'.symm.trans hself))
      · exact .inr ⟨k', hk', l, hl, (hother l hlj).symm.trans hr'⟩
  · by_cases hlj : l = j
    · subst hlj
      obtain rfl := hno k' hk' hl
      obtain rfl : r' = r := Option.some.inj (hr'.symm.trans hself)
      exact ⟨i, hi, hr⟩
    · exact hs.live k' hk' l hl r' ((hother l hlj).symm.trans hr')
  · -- the register was nowhere before
    have hwas : ∀ l ∈ T.cells old.top k', l ≠ j → s.1.reg l ≠ some r := fun l hl _ hr' =>
      hnot ((hs.placed r).mpr ⟨k', hk', l, hl, hr'⟩)
    by_cases hlj : l = j
    · by_cases hmj : m = j
      · exact hlj.trans hmj.symm
      · subst hlj
        obtain rfl : r' = r := Option.some.inj (hl'.symm.trans hself)
        exact absurd ((hother m hmj).symm.trans hm') (hwas m hm hmj)
    · by_cases hmj : m = j
      · subst hmj
        obtain rfl : r' = r := Option.some.inj (hm'.symm.trans hself)
        exact absurd ((hother l hlj).symm.trans hl') (hwas l hl hlj)
      · exact hs.inj k' hk' l hl m hm r' ((hother l hlj).symm.trans hl')
          ((hother m hmj).symm.trans hm')
  · refine (hother l ?_).trans (hs.kept l r' hl)
    rintro rfl
    have := hs.kept l r' hl
    rw [hnone] at this
    cases this

include hold in
theorem Filling.leave (hs : T.Filling old st s) (hi : i ∈ T.allCells old.top) :
    T.Filling old st (leaveReg old s i) ∧ s.2 ⊆ (leaveReg old s i).2 := by
  obtain ⟨k, hk, hi⟩ := List.mem_flatMap.mp hi
  rw [leaveReg]
  split
  · next r hnone hr =>
      split
      · exact ⟨hs, subset_rfl⟩
      · next hnot =>
          exact ⟨hs.add hold (List.mem_range.mp hk) hi hnone hi hr hnot, Finset.subset_insert _ _⟩
  · exact ⟨hs, subset_rfl⟩

include hold in
theorem Filling.leaveAll (is : List Nat) (his : ∀ i ∈ is, i ∈ T.allCells old.top)
    (hs : T.Filling old st s) : T.Filling old st (is.foldl (leaveReg old) s) := by
  induction is generalizing s with
  | nil => exact hs
  | cons i is ih =>
      exact ih (fun j hj => his j (List.mem_cons_of_mem _ hj))
        (hs.leave hold (his i List.mem_cons_self)).1

/-- Where a stack is full all its registers are placed. -/
theorem Filling.full (hs : T.Filling old st s) (hk : k < T.nstacks)
    (hfull : ∀ j ∈ T.cells old.top k, s.1.reg j ≠ none) (hi : i ∈ T.cells old.top k)
    (hr : old.reg i = some r) : r ∈ s.2 := by
  -- as many places as registers, and no register twice
  have hinj : Set.InjOn s.1.reg (T.cells old.top k).toFinset := fun l hl m hm heq => by
    rw [Finset.mem_coe, List.mem_toFinset] at hl hm
    obtain ⟨r', hr'⟩ := Option.ne_none_iff_exists'.mp (hfull l hl)
    exact hs.inj k hk l hl m hm r' hr' (heq ▸ hr')
  have hsub : (T.cells old.top k).toFinset.image s.1.reg ⊆
      (T.cells old.top k).toFinset.image old.reg := by
    intro o ho
    obtain ⟨l, hl, rfl⟩ := Finset.mem_image.mp ho
    rw [List.mem_toFinset] at hl
    obtain ⟨r', hr'⟩ := Option.ne_none_iff_exists'.mp (hfull l hl)
    obtain ⟨m, hm, hm'⟩ := hs.live k hk l hl r' hr'
    exact Finset.mem_image.mpr ⟨m, List.mem_toFinset.mpr hm, hm'.trans hr'.symm⟩
  have hcard : ((T.cells old.top k).toFinset.image old.reg).card ≤
      ((T.cells old.top k).toFinset.image s.1.reg).card := by
    rw [Finset.card_image_of_injOn hinj]
    exact Finset.card_image_le
  have heq := Finset.eq_of_subset_of_card_le hsub hcard
  have hmem : old.reg i ∈ (T.cells old.top k).toFinset.image s.1.reg :=
    heq ▸ Finset.mem_image_of_mem _ (List.mem_toFinset.mpr hi)
  obtain ⟨l, hl, hl'⟩ := Finset.mem_image.mp hmem
  exact (hs.placed r).mpr ⟨k, hk, l, List.mem_toFinset.mp hl, hl'.trans hr⟩

theorem nextPlace_spec (st : Stack) (js : List Nat) :
    match nextPlace st js with
    | none => ∀ j ∈ js, st.reg j ≠ none
    | some js' => ∃ pre j rest, js = pre ++ js' ∧ js' = j :: rest ∧ st.reg j = none ∧
        ∀ i ∈ pre, st.reg i ≠ none := by
  induction js with
  | nil => simp [nextPlace]
  | cons j js ih =>
      by_cases h : st.reg j = none
      · rw [nextPlace, if_pos h]
        exact ⟨[], j, js, rfl, rfl, h, by simp⟩
      · rw [nextPlace, if_neg h]
        cases hnext : nextPlace st js with
        | none =>
            rw [hnext] at ih
            exact List.forall_mem_cons.mpr ⟨h, ih⟩
        | some js' =>
            rw [hnext] at ih
            obtain ⟨pre, l, rest, rfl, rfl, hl, hpre⟩ := ih
            exact ⟨j :: pre, l, rest, rfl, rfl, hl, List.forall_mem_cons.mpr ⟨h, hpre⟩⟩

include hold in
/-- There is room for every register that is left. -/
theorem fillRegs_spec (hk : k < T.nstacks) (is js : List Nat)
    (his : ∀ i ∈ is, i ∈ T.cells old.top k) (hjs : ∀ j ∈ js, j ∈ T.cells old.top k)
    (hs : T.Filling old st s) (hfull : ∀ j ∈ T.cells old.top k, j ∉ js → s.1.reg j ≠ none) :
    ∃ s', fillRegs old is js s = some s' ∧ T.Filling old st s' ∧ s.2 ⊆ s'.2 ∧
      ∀ i ∈ is, ∀ r, old.reg i = some r → r ∈ s'.2 := by
  induction is generalizing js s with
  | nil => exact ⟨s, rfl, hs, subset_rfl, by simp⟩
  | cons i is ih =>
      have his' : ∀ i ∈ is, i ∈ T.cells old.top k := fun j hj => his j (List.mem_cons_of_mem _ hj)
      have hi := his i List.mem_cons_self
      obtain ⟨r, hr, -⟩ := hold.live k hk i hi
      simp only [fillRegs, hr]
      split
      · next hin =>
          obtain ⟨s', hs', hfill, hsub, hall⟩ := ih js his' hjs hs hfull
          exact ⟨s', hs', hfill, hsub, List.forall_mem_cons.mpr
            ⟨fun r' hr' => hsub (Option.some.inj (hr.symm.trans hr') ▸ hin), hall⟩⟩
      · next hnot =>
          have hnext := nextPlace_spec s.1 js
          cases hjs' : nextPlace s.1 js with
          | none =>
              rw [hjs'] at hnext
              refine absurd (hs.full hk (fun j hj => ?_) hi hr) hnot
              by_cases hmem : j ∈ js
              · exact hnext j hmem
              · exact hfull j hj hmem
          | some js' =>
              rw [hjs'] at hnext
              obtain ⟨pre, j, rest, rfl, rfl, hj, hpre⟩ := hnext
              have hadd := hs.add hold hk (hjs j (by simp)) hj hi hr hnot
              obtain ⟨s', hs', hfill, hsub, hall⟩ := ih (j :: rest) his'
                (fun l hl => hjs l (List.mem_append_right _ hl)) hadd fun l hl hnl => by
                  change Function.update s.1.reg j (some r) l ≠ none
                  rw [Function.update_of_ne (List.ne_of_not_mem_cons hnl)]
                  by_cases hlp : l ∈ pre
                  · exact hpre l hlp
                  · exact hfull l hl fun h => (List.mem_append.mp h).elim hlp hnl
              exact ⟨s', hs', hfill, (Finset.subset_insert _ _).trans hsub, List.forall_mem_cons.mpr
                ⟨fun r' hr' => hsub (Option.some.inj (hr.symm.trans hr') ▸
                  Finset.mem_insert_self _ _), hall⟩⟩

include hold in
/-- All the stacks are filled. -/
theorem fillAll_spec (n : Nat) (hn : n ≤ T.nstacks) (hs : T.Filling old st s) :
    ∃ s', (List.range n).foldlM (fun s k => fillRegs old (T.cells old.top k) (T.cells s.1.top k) s)
        s = some s' ∧ T.Filling old st s' ∧
      ∀ k < n, ∀ i ∈ T.cells old.top k, ∀ r, old.reg i = some r → r ∈ s'.2 := by
  induction n with
  | zero => exact ⟨s, rfl, hs, by simp⟩
  | succ n ih =>
      obtain ⟨s₁, hs₁, hfill₁, hall₁⟩ := ih (Nat.le_of_succ_le hn)
      obtain ⟨s₂, hs₂, hfill₂, hsub, hall₂⟩ := fillRegs_spec hold hn _ (T.cells old.top n)
        (fun _ h => h) (fun _ h => h) hfill₁ fun j hj hnj => absurd hj hnj
      refine ⟨s₂, ?_, hfill₂, Nat.forall_lt_succ_right.mpr
        ⟨fun k hk i hi r hr => hsub (hall₁ k hk i hi r hr), hall₂⟩⟩
      rw [List.range_succ, List.foldlM_append, hs₁]
      simp [hfill₁.top, hs₂]

include hold in
/-- A stack in which all live registers are placed holds those of the old one. -/
theorem Filling.perm (hs : T.Filling old st s) (hk : k < T.nstacks)
    (hall : ∀ i ∈ T.cells old.top k, ∀ r, old.reg i = some r → r ∈ s.2) :
    ((T.cells old.top k).map s.1.reg).Perm ((T.cells old.top k).map old.reg) := by
  have hsub : (T.cells old.top k).toFinset.image old.reg ⊆
      (T.cells old.top k).toFinset.image s.1.reg := by
    intro o ho
    obtain ⟨i, hi, rfl⟩ := Finset.mem_image.mp ho
    rw [List.mem_toFinset] at hi
    obtain ⟨r, hr, hrk⟩ := hold.live k hk i hi
    obtain ⟨k', hk', l, hl, hl'⟩ := (hs.placed r).mp (hall i hi r hr)
    -- the register is in a place of its own stack
    obtain ⟨m, hm, hm'⟩ := hs.live k' hk' l hl r hl'
    obtain ⟨r', hr', hrk'⟩ := hold.live k' hk' m hm
    obtain rfl := Option.some.inj (hm'.symm.trans hr')
    obtain rfl : k' = k := hrk'.symm.trans hrk
    exact Finset.mem_image.mpr ⟨l, List.mem_toFinset.mpr hl, hl'.trans hr.symm⟩
  have hinj : Set.InjOn old.reg (T.cells old.top k).toFinset := fun l hl m hm heq => by
    rw [Finset.mem_coe, List.mem_toFinset] at hl hm
    exact hold.inj k hk l hl m hm heq
  have heq := Finset.eq_of_subset_of_card_le hsub (by
    rw [Finset.card_image_of_injOn hinj]
    exact Finset.card_image_le)
  have hnodup : (T.cells old.top k).Nodup := List.nodup_range'
  have hmem : ∀ o, o ∈ (T.cells old.top k).map s.1.reg ↔ o ∈ (T.cells old.top k).map old.reg :=
    fun o => by
      have := Finset.ext_iff.mp heq o
      simp only [Finset.mem_image, List.mem_toFinset] at this
      rw [List.mem_map, List.mem_map, this]
  refine (List.perm_ext_iff_of_nodup ?_ ?_).mpr hmem
  · refine List.Nodup.map_on (fun l hl m hm hlm => ?_) hnodup
    obtain ⟨i, hi, hi'⟩ := List.mem_map.mp ((hmem _).mp (List.mem_map.mpr ⟨l, hl, rfl⟩))
    obtain ⟨r, hr, -⟩ := hold.live k hk i hi
    exact hs.inj k hk l hl m hm r (hi'.symm.trans hr) (hlm ▸ hi'.symm.trans hr)
  · exact List.Nodup.map_on (fun l hl m hm hlm => hold.inj k hk l hl m hm hlm) hnodup

theorem mem_placedRegs {is : List Nat} {r : Nat} :
    r ∈ placedRegs st is ↔ ∃ i ∈ is, st.reg i = some r := by
  induction is with
  | nil => simp [placedRegs]
  | cons i is ih =>
      cases hi : st.reg i with
      | none => simp [placedRegs, hi, ih]
      | some r' => simp [placedRegs, hi, ih, eq_comm]

include hold in
/-- The stack with the operands in it, before the other registers are placed. -/
theorem filling_seat (hin : T.Inputs old info) (hempty : ∀ i, st.reg i = none)
    (htop : st.top = old.top) (hs : T.Seats st info places) :
    T.Filling old (seat st info places) (seat st info places,
      placedRegs (seat st info places) ((List.range T.nstacks).flatMap T.hardRegs)) := by
  have hfirst : ∀ k < T.nstacks, T.first k ≤ st.top k := fun k hk => htop ▸ hold.first_le k hk
  have hsuits := ((seats_empty_iff hempty hfirst hin.stack).mp hs).1
  rw [List.forall₂_iff_zip] at hsuits
  have hlen := hsuits.1
  have hword : ∀ i r, (seat st info places).reg i = some r → ∃ a ∈ info.zip places,
      ∃ t < a.1.nregs, i = a.2 + t ∧ r = a.1.reg + t := fun i r h =>
    (seat_cases hs h).resolve_left (by rw [hempty]; simp)
  -- a word is in a place of its operand's stack
  have hcell : ∀ a ∈ info.zip places, ∀ t < a.1.nregs,
      T.stackno a.1.reg < T.nstacks ∧ a.2 + t ∈ T.cells old.top (T.stackno a.1.reg) := by
    intro a ha t ht
    obtain ⟨hc, hlast, -⟩ := hsuits.2 ha
    rw [htop] at hc
    have := mem_cells.mp hc
    exact ⟨hin.stack a.1 (List.of_mem_zip ha).1, mem_cells.mpr (by omega)⟩
  have hno : ∀ k < T.nstacks, ∀ i ∈ T.cells old.top k, T.stackno i = k := fun k hk i hi =>
    stackno_cell hk (hold.first_le k hk) hi
  refine ⟨seat_top.trans htop, rfl, fun r => ?_, fun k hk i hi r hr => ?_,
    fun k hk i hi j hj r hr hr' => ?_, fun _ _ h => h⟩
  · rw [mem_placedRegs]
    constructor
    · rintro ⟨i, -, hr⟩
      obtain ⟨a, ha, t, ht, rfl, -⟩ := hword i r hr
      exact ⟨_, (hcell a ha t ht).1, _, (hcell a ha t ht).2, hr⟩
    · rintro ⟨k, hk, i, hi, hr⟩
      refine ⟨i, List.mem_flatMap.mpr ⟨k, List.mem_range.mpr hk, ?_⟩, hr⟩
      have := hold.first_le k hk
      have := mem_cells.mp hi
      rw [hardRegs, List.mem_range'_1]
      omega
  · obtain ⟨a, ha, t, ht, rfl, rfl⟩ := hword i r hr
    obtain ⟨hk', hi'⟩ := hcell a ha t ht
    obtain rfl := (hno _ hk' _ hi').symm.trans (hno k hk _ hi)
    exact hin.live a.1 (List.of_mem_zip ha).1 t ht
  · obtain ⟨a, ha, t, ht, rfl, rfl⟩ := hword i r hr
    obtain ⟨b, hb, u, hu, rfl, heq⟩ := hword j _ hr'
    by_cases hab : a = b
    · subst hab
      omega
    · exact absurd heq (zip_distinct hin hlen ha hb hab ht hu)

end Filling

/-! ### The new stack -/

/-- The stack holds what the old one held, in another order, with the operands in their places. -/
structure Realises (T : Target) (old : Stack) (info : List InsnReg) (places : List Nat)
    (st : Stack) : Prop where
  top : st.top = old.top
  perm : ∀ k < T.nstacks,
    ((T.cells old.top k).map st.reg).Perm ((T.cells old.top k).map old.reg)
  words : ∀ a ∈ info.zip places, ∀ t < a.1.nregs, st.reg (a.2 + t) = some (a.1.reg + t)

/-- `place_regs` on a copy of the old stack succeeds if and only if the operands can be arranged,
and then the new stack realises an arrangement; it does not abort.  Where the search fails, from any
stack and with any of the operands left, it leaves the stack as it found it. -/
theorem placeRegs_right {old new : Stack} (hold : T.Holds old) (hin : T.Inputs old info)
    (htop : new.top = old.top) (hset : new.regSet = old.regSet) :
    ((∃ st, T.placeRegs old new info = some (true, st)) ↔ ∃ places, T.Arranged old.top info places) ∧
    (∀ st, T.placeRegs old new info = some (true, st) →
      ∃ places, T.Arranged old.top info places ∧ T.Realises old info places st) ∧
    T.placeRegs old new info ≠ none ∧
    ∀ ins, ins ⊆ info → ∀ st : Stack, st.top = old.top →
      (T.placeInputs old info ins st).1 = false → (T.placeInputs old info ins st).2 = st := by
  have hlive : ∀ p ∈ info, ∃ i ∈ T.cells old.top (T.stackno p.reg), old.reg i = some p.reg :=
    fun p hp => by simpa using hin.live p hp 0 p.nregs_pos
  have hfail : ∀ ins, ins ⊆ info → ∀ st : Stack, st.top = old.top →
      (T.placeInputs old info ins st).1 = false → (T.placeInputs old info ins st).2 = st := by
    intro ins hsub st htop hfalse
    have hsearch := placeInputs_search info ins (fun p hp => hlive p (hsub hp)) st htop
    rcases hres : T.placeInputs old info ins st with ⟨b, st'⟩
    rw [hres] at hsearch hfalse
    obtain rfl : b = false := hfalse
    exact hsearch.1
  let empty : Stack := { new with reg := fun _ => none }
  have harr : ∀ places, T.Arranged old.top info places ↔ T.Seats empty info places ∧
      T.checkRule2 (seat empty info places) info = true := fun places =>
    arranged_iff hold hin (fun _ => rfl) htop
  have hsearch := placeInputs_search info info hlive empty htop
  rcases hres : T.placeInputs old info info empty with ⟨b, st⟩
  rw [hres] at hsearch
  cases b with
  | false =>
      have hplace : T.placeRegs old new info = some (false, st) := by
        rw [placeRegs]
        simp only [show T.placeInputs old info info { new with reg := fun _ => none } = _ from hres]
      refine ⟨⟨?_, ?_⟩, ?_, by rw [hplace]; simp, hfail⟩
      · rintro ⟨st', h⟩
        rw [hplace] at h
        cases h
      · rintro ⟨places, h⟩
        obtain ⟨hseats, hrule⟩ := (harr places).mp h
        cases (hsearch.2 places hseats).symm.trans hrule
      · intro st' h
        rw [hplace] at h
        cases h
  | true =>
      obtain ⟨places, hseats, rfl, hrule⟩ := hsearch
      have harranged := (harr places).mpr ⟨hseats, hrule⟩
      have hfill : T.Filling old (seat empty info places) (_, _) :=
        filling_seat hold hin (fun _ => rfl) htop hseats
      have hleft := hfill.leaveAll hold (T.allCells old.top) fun _ h => h
      obtain ⟨s, hs, hfilled, hall⟩ := fillAll_spec hold T.nstacks le_rfl hleft
      have hplaced : s.1.regSet = s.2 := by
        rw [hfilled.regSet, seat_regSet]
        refine Finset.ext fun r => ?_
        rw [show empty.regSet = old.regSet from hset, hold.regSet]
        constructor
        · rintro ⟨k, hk, i, hi, hr⟩
          exact hall k hk i hi r hr
        · intro hr
          obtain ⟨k, hk, i, hi, hi'⟩ := (hfilled.placed r).mp hr
          obtain ⟨j, hj, hj'⟩ := hfilled.live k hk i hi r hi'
          exact ⟨k, hk, j, hj, hj'⟩
      have hplace : T.placeRegs old new info = some (true, s.1) := by
        rw [placeRegs]
        simp only [show T.placeInputs old info info { new with reg := fun _ => none } = _ from hres]
        rw [hs]
        exact if_pos hplaced
      refine ⟨⟨fun _ => ⟨places, harranged⟩, fun _ => ⟨s.1, hplace⟩⟩, fun st' h => ?_,
        by rw [hplace]; simp, hfail⟩
      obtain rfl : s.1 = st' := by
        rw [hplace] at h
        exact congrArg Prod.snd (Option.some.inj h)
      exact ⟨places, harranged, hfilled.top, fun k hk => hfilled.perm hold hk (hall k hk),
        fun a ha t ht => hfilled.kept _ _ (seat_words hseats a ha t ht)⟩

/-- The stacks of the T800: `R_AREG` to `R_CREG` and `R_FAREG` to `R_FCREG`. -/
def t800 : Target where
  nstacks := 2
  first k := if k = 0 then 0 else 3
  last k := if k = 0 then 2 else 5
  stackno r := if 3 ≤ r then 1 else 0
  stackno_eq k hk r := by
    obtain rfl | rfl : k = 0 ∨ k = 1 := by omega
    · simp
      omega
    · simp
      omega

/-- Two integer registers, which are wanted the other way round. -/
def twoLive : Stack where
  top k := if k = 0 then 1 else 6
  reg i := if i = 1 then some 0 else if i = 2 then some 1 else none
  regSet := {0, 1}

def wanted : List InsnReg :=
  [⟨1, 1, true, fun r => r == 0, Nat.one_pos⟩, ⟨0, 1, true, fun r => r == 1, Nat.one_pos⟩]

theorem twoLive_holds : t800.Holds twoLive where
  first_le := by decide
  live := by
    simp only [t800, twoLive, cells]
    decide
  inj := by
    simp only [t800, twoLive, cells]
    decide
  regSet r := by
    have hcells : t800.cells twoLive.top 0 = [1, 2] ∧ t800.cells twoLive.top 1 = [] := by decide
    constructor
    · intro hr
      obtain rfl | rfl : r = 0 ∨ r = 1 := by simpa [twoLive] using hr
      · exact ⟨0, by decide, 1, by decide, rfl⟩
      · exact ⟨0, by decide, 2, by decide, rfl⟩
    · rintro ⟨k, hk, i, hi, hr⟩
      obtain rfl | rfl : k = 0 ∨ k = 1 := by
        change k < 2 at hk
        omega
      · rw [hcells.1] at hi
        rcases List.mem_pair.mp hi with rfl | rfl <;> cases hr <;> decide
      · rw [hcells.2] at hi
        cases hi

theorem wanted_inputs : t800.Inputs twoLive wanted where
  stack := by decide
  live := by
    simp only [t800, twoLive, cells, wanted]
    decide
  distinct := by simp [wanted]

/-- The two registers change places. -/
theorem placeRegs_right_turned : ∃ st places, t800.placeRegs twoLive twoLive wanted = some (true, st) ∧
    t800.Arranged twoLive.top wanted places ∧ t800.Realises twoLive wanted places st := by
  have harranged : t800.Arranged twoLive.top wanted [1, 2] := by
    have hpops : ∀ j, t800.Pops twoLive.top wanted [1, 2] j ↔ j = 0 ∨ j = 1 := by
      intro j
      constructor
      · rintro ⟨a, ha, -, t, ht, rfl⟩
        obtain rfl | rfl := List.mem_pair.mp ha
        · obtain rfl : t = 0 := Nat.lt_one_iff.mp ht
          exact .inl rfl
        · obtain rfl : t = 0 := Nat.lt_one_iff.mp ht
          exact .inr rfl
      · rintro (rfl | rfl)
        · exact ⟨_, List.mem_pair.mpr (.inl rfl), rfl, 0, Nat.one_pos, rfl⟩
        · exact ⟨_, List.mem_pair.mpr (.inr rfl), rfl, 0, Nat.one_pos, rfl⟩
    refine ⟨.cons (by decide) (.cons (by decide) .nil), by simp [wanted], fun k _ j _ _ hj i _ hij => ?_⟩
    rw [hpops] at hj ⊢
    omega
  obtain ⟨hiff, hreal, -⟩ := placeRegs_right twoLive_holds wanted_inputs rfl rfl
  obtain ⟨st, hst⟩ := hiff.mpr ⟨[1, 2], harranged⟩
  obtain ⟨places, hplaces⟩ := hreal st hst
  exact ⟨st, places, hst, hplaces⟩

end Target

end Ttools.Stacker
