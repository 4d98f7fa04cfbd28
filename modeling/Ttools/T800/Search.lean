import Ttools.T800.Liveness

/-!
# The order of the life analysis

A search for the live registers, on the graph alone: it goes backward from their uses, and always on
from the highest block that has something to tell.

* `Known`: what is known in the course of the search.
* `LastLearns`, `Apart`: the conditions on the graph.  A jump back learns something only if it is
  the last in the chain of its label, and the search then goes over no insn again that clobbers two
  live registers.
* `Regular`: a turn of the loop in the source as it should be.  `Run.regular`: under the conditions
  every turn is; `lastLearns_of_regular`, `apart_of_regular`: and under no others.
* `life_analysis`: what the analysis finds under the conditions.
* `lastLearns_and_apart`: the conditions hold if only the last jumps to a label lead back, and no
  insn clobbers two registers.
-/

namespace Ttools.T800

open Support

variable {R : Type*} [LinearOrder R]

/-! ### The search -/

/-- An insn clobbers two registers that are live behind it. -/
def Pairs : List (LifeInsn R) → Finset R → Prop
  | [], _ => False
  | i :: is, X => Pairs is X ∨ ((i.qimode || i.isCall) = true ∧ i.skipped = false ∧
      1 < ((transfer is X \ i.dest) ∩ i.clobbered).card)

namespace Cfg

variable (g : Cfg R) (X : Nat → Finset R)

/-- What is live at the start of a block, as far as is known. -/
def entry (c : Nat) : Finset R := transfer (g.code c) (X c)

/-- Some block that leads to `c` is not known to have all that is live there behind it. -/
def Owes (c : Nat) : Prop := c < g.blocks ∧ ∃ b, g.flow.succ b c ∧ ¬g.entry X c ⊆ X b

/-- The highest block that has something to tell. -/
def Next (c : Nat) : Prop := g.Owes X c ∧ ∀ d, g.Owes X d → d ≤ c

/-- The jumps to its label are told. -/
def tellJumps (c : Nat) : Nat → Finset R := fun b =>
  if b ∈ (g.labelRefs c).getD [] then X b ∪ g.entry X c else X b

/-- All that lead to it are told. -/
def tellAll (c : Nat) : Nat → Finset R := fun b =>
  if b ∈ (g.labelRefs c).getD [] ∨ (g.dropsIn c = true ∧ b + 1 = c) then X b ∪ g.entry X c else X b

/-- What is known behind the blocks in the course of the search.  If a jump back has learned
something, the search goes on from there before the block in front is told. -/
inductive Known : (Nat → Finset R) → Prop where
  | start : Known g.returns
  | back {X : Nat → Finset R} {c j : Nat} (h : Known X) (hc : g.Next X c)
      (hj : j ∈ (g.labelRefs c).getD []) (hle : c ≤ j) (hnew : ¬g.entry X c ⊆ X j) :
      Known (g.tellJumps X c)
  | on {X : Nat → Finset R} {c : Nat} (h : Known X) (hc : g.Next X c)
      (hold : ∀ j ∈ (g.labelRefs c).getD [], c ≤ j → g.entry X c ⊆ X j) : Known (g.tellAll X c)

/-- In the order of the search, a jump back learns something only if it is the last in the chain of
its label. -/
def LastLearns : Prop := ∀ X c j, g.Known X → g.Next X c →
  j ∈ ((g.labelRefs c).getD []).dropLast → c ≤ j → g.entry X c ⊆ X j

/-- When a jump back learns something, no insn from the label to the jump clobbers two registers
that are known to be live behind it. -/
def Apart : Prop := ∀ X c j, g.Known X → g.Next X c → j ∈ (g.labelRefs c).getD [] → c ≤ j →
  ¬g.entry X c ⊆ X j → ∀ x, c ≤ x → x ≤ j → ¬Pairs (g.code x) (X x)

end Cfg

/-- A turn of the loop as it should be: it does not scan insns of its own that come in a sequence,
and does not change `block` while there are references left. -/
def Regular (g : Cfg R) (s : Life R) : Prop :=
  ∀ block, s.left = block + 1 →
    (∀ i ∈ s.code block, i.isNew = true → i.qimode = false) ∧
    ∀ j ∈ ((g.labelRefs block).getD []).dropLast, block ≤ j →
      transfer (s.code block) (s.out block) ⊆ s.out j

/-! ### A scan -/

theorem Pairs.exists_insn {is : List (LifeInsn R)} {X : Finset R} (h : Pairs is X) :
    ∃ i ∈ is, ∃ Y : Finset R, 1 < ((Y \ i.dest) ∩ i.clobbered).card := by
  induction is with
  | nil => exact h.elim
  | cons i is ih =>
      rcases h with h | ⟨-, -, hcard⟩
      · obtain ⟨j, hj, hY⟩ := ih h
        exact ⟨j, List.mem_cons_of_mem _ hj, hY⟩
      · exact ⟨i, List.mem_cons_self, _, hcard⟩

/-- Insns that the analysis passes over. -/
theorem transfer_idle {is js : List (LifeInsn R)}
    (h : ∀ i ∈ is, i.qimode = false ∧ i.isCall = false) (Y : Finset R) :
    transfer (is ++ js) Y = transfer js Y := by
  induction is with
  | nil => rfl
  | cons i is ih =>
      obtain ⟨hq, hc⟩ := h i List.mem_cons_self
      rw [List.cons_append, transfer_cons, ih fun j hj => h j (List.mem_cons_of_mem _ hj)]
      simp [LifeInsn.transfer, hq, hc]

theorem pairs_idle {is js : List (LifeInsn R)}
    (h : ∀ i ∈ is, i.qimode = false ∧ i.isCall = false) (Y : Finset R) :
    Pairs (is ++ js) Y ↔ Pairs js Y := by
  induction is with
  | nil => exact Iff.rfl
  | cons i is ih =>
      obtain ⟨hq, hc⟩ := h i List.mem_cons_self
      rw [List.cons_append, Pairs, ih fun j hj => h j (List.mem_cons_of_mem _ hj)]
      simp [hq, hc]

/-- A sequence of new insns. -/
def NewSequence (is : List (LifeInsn R)) : Prop := ∃ i ∈ is, i.isNew = true ∧ i.qimode = true

omit [LinearOrder R] in
theorem not_sequence {is : List (LifeInsn R)} :
    ¬NewSequence is ↔ ∀ i ∈ is, i.isNew = true → i.qimode = false := by
  simp [NewSequence]

/-- What `record_reg_life` emits is a sequence if it is for two registers. -/
theorem recordRegLife_sequence {i : LifeInsn R} {X X' : Finset R} {em : List (LifeInsn R)}
    (h : recordRegLife i X = some (em, X')) :
    NewSequence em ↔ i.skipped = false ∧ 1 < ((X \ i.dest) ∩ i.clobbered).card := by
  have hnil : ¬NewSequence ([] : List (LifeInsn R)) := by simp [NewSequence]
  unfold recordRegLife at h
  cases hs : i.skipped with
  | true =>
      simp only [hs, if_true, Option.some.injEq, Prod.mk.injEq] at h
      obtain ⟨rfl, -⟩ := h
      simp [hnil]
  | false =>
      simp only [hs, Bool.false_eq_true, if_false] at h
      split at h
      · next hempty =>
          simp only [Option.some.injEq, Prod.mk.injEq] at h
          obtain ⟨rfl, -⟩ := h
          simp [hnil, hempty]
      · split at h
        · cases h
        · simp only [Option.some.injEq, Prod.mk.injEq] at h
          obtain ⟨rfl, -⟩ := h
          constructor
          · rintro ⟨j, hj, -, hq⟩
            have hcard := (mem_zeroInit hj).2.2.2.1
            rw [hq] at hcard
            exact ⟨rfl, by simpa using hcard.symm⟩
          · rintro ⟨-, hcard⟩
            obtain ⟨j, hj⟩ : ∃ j, j ∈ zeroInit ((X \ i.dest) ∩ i.clobbered) := by
              refine List.exists_mem_of_ne_nil _ fun hnil => ?_
              rw [zeroInit_eq_nil hnil] at hcard
              simp at hcard
            obtain ⟨hnew, -, -, hq, -⟩ := mem_zeroInit hj
            exact ⟨j, hj, hnew, by simpa [hcard] using hq⟩

/-- A scan makes a sequence where an insn clobbers two live registers; the single insns that it
makes otherwise change nothing. -/
theorem scanBlock_pairs {is is' : List (LifeInsn R)} {X X' : Finset R}
    (h : scanBlock is X = some (is', X')) (hold : ¬NewSequence is)
    (hcall : ∀ i ∈ is, i.isNew = true → i.isCall = false) :
    (NewSequence is' ↔ Pairs is X) ∧ (¬NewSequence is' → ∀ Y, Pairs is' Y ↔ Pairs is Y) := by
  induction is generalizing is' X' with
  | nil =>
      simp only [scanBlock, Option.some.injEq, Prod.mk.injEq] at h
      obtain ⟨rfl, rfl⟩ := h
      exact ⟨⟨fun hs => absurd hs hold, False.elim⟩, fun _ _ => Iff.rfl⟩
  | cons i is ih =>
      have hself : ¬(i.isNew = true ∧ i.qimode = true) := fun hi =>
        hold ⟨i, List.mem_cons_self, hi⟩
      have hcons : ∀ ks, NewSequence (i :: ks) ↔ NewSequence ks := fun ks => by
        simp only [NewSequence, List.exists_mem_cons_iff, or_iff_right hself]
      have happ : ∀ ks ls : List (LifeInsn R),
          NewSequence (ks ++ ls) ↔ NewSequence ks ∨ NewSequence ls := fun ks ls => by
        simp only [NewSequence, List.mem_append, or_and_right, exists_or]
      simp only [scanBlock, Option.bind_eq_bind, Option.bind_eq_some_iff] at h
      obtain ⟨⟨js, X₁⟩, hjs, h⟩ := h
      obtain ⟨hseq, hsame⟩ := ih hjs (fun hs => hold ((hcons is).mpr hs)) fun j hj =>
        hcall j (List.mem_cons_of_mem _ hj)
      have hscan := scanBlock_spec hjs
      split at h
      · next hact =>
          obtain ⟨⟨em, X₂⟩, hrec, h⟩ := Option.bind_eq_some_iff.mp h
          simp only [Option.some.injEq, Prod.mk.injEq] at h
          obtain ⟨rfl, rfl⟩ := h
          have hem := recordRegLife_sequence hrec
          rw [hscan.live] at hem
          refine ⟨?_, fun hno Y => ?_⟩
          · rw [List.cons_append, hcons, happ, hseq, hem, Pairs, or_comm]
            simp [hact]
          · rw [List.cons_append, hcons, happ, not_or] at hno
            obtain ⟨-, initSet, rfl, -⟩ := recordRegLife_spec hact hrec
            have hidle : ∀ j ∈ zeroInit initSet, j.qimode = false ∧ j.isCall = false :=
              fun j hj => ⟨not_sequence.mp hno.1 j hj (mem_zeroInit hj).1, (mem_zeroInit hj).2.1⟩
            rw [List.cons_append, Pairs, Pairs, pairs_idle hidle, hsame hno.2, transfer_idle hidle,
              hscan.same]
      · next hact =>
          simp only [Option.some.injEq, Prod.mk.injEq] at h
          obtain ⟨rfl, rfl⟩ := h
          refine ⟨?_, fun hno Y => ?_⟩
          · rw [hcons, hseq, Pairs]
            simp [hact]
          · rw [Pairs, Pairs, hsame fun hs => hno ((hcons js).mpr hs), hscan.same]

/-! ### A turn of the loop -/

section Refs

variable {out : Nat → Finset R} {stackIn : Nat → Finset R} {refs : List Nat} {block : Nat}

/-- The loop over the references when only the last can change `block`: all of them get the entry
set of the label, and the analysis goes back to the jump that has learned something. -/
theorem refsLoop_regular
    (hreg : ∀ j ∈ refs.dropLast, block ≤ j → stackIn block ⊆ out j) :
    strays stackIn block refs block out = [] ∧
    (refsLoop stackIn refs block false out).2.2
      = (fun b => if b ∈ refs then out b ∪ stackIn block else out b) ∧
    ((refsLoop stackIn refs block false out).2.1 = true ↔
      ∃ j ∈ refs, block ≤ j ∧ ¬stackIn block ⊆ out j) ∧
    ∀ j ∈ refs, block ≤ j → ¬stackIn block ⊆ out j →
      (refsLoop stackIn refs block false out).1 = j := by
  induction refs generalizing out with
  | nil => simp [strays, refsLoop]
  | cons j refs ih =>
      have hlast : ∀ k ∈ refs.dropLast, k ∈ (j :: refs).dropLast := by
        cases refs with
        | nil => simp
        | cons k refs => exact fun _ hk => List.mem_cons_of_mem _ hk
      by_cases hlt : j < block
      · -- a jump forward
        obtain ⟨hstray, hout, hback, hwhere⟩ := @ih (iorRegset out j (stackIn block))
          fun k hk hle => (hreg k (hlast k hk) hle).trans (subset_iorRegset ..)
        have hsame : ∀ k, block ≤ k → iorRegset out j (stackIn block) k = out k :=
          fun k hle => iorRegset_of_ne (by omega) _
        simp only [strays, refsLoop, if_pos hlt, if_true, List.nil_append]
        refine ⟨hstray, hout.trans (funext fun b => ?_), hback.trans ?_, fun k hk hle hnew => ?_⟩
        · by_cases hb : b = j
          · subst hb
            simp [iorRegset_self, Finset.union_assoc]
          · simp [iorRegset_of_ne hb, hb]
        · constructor
          · rintro ⟨k, hk, hle, hnew⟩
            exact ⟨k, List.mem_cons_of_mem _ hk, hle, hsame k hle ▸ hnew⟩
          · rintro ⟨k, hk, hle, hnew⟩
            rcases List.mem_cons.mp hk with rfl | hk
            · omega
            · exact ⟨k, hk, hle, (hsame k hle).symm ▸ hnew⟩
        · rcases List.mem_cons.mp hk with rfl | hk
          · omega
          · exact hwhere k hk hle ((hsame k hle).symm ▸ hnew)
      · by_cases hsub : stackIn block ⊆ out j
        · obtain ⟨hstray, hout, hback, hwhere⟩ := @ih out fun k hk => hreg k (hlast k hk)
          simp only [strays, refsLoop, if_neg hlt, if_pos hsub]
          refine ⟨hstray, hout.trans (funext fun b => ?_), hback.trans ?_, fun k hk hle hnew => ?_⟩
          · by_cases hb : b = j
            · subst hb
              simp [Finset.union_eq_left.mpr hsub]
            · simp [hb]
          · simp [hsub]
          · rcases List.mem_cons.mp hk with rfl | hk
            · exact absurd hsub hnew
            · exact hwhere k hk hle hnew
        · -- a jump back that learns something is the last
          have hnil : refs = [] := by
            cases refs with
            | nil => rfl
            | cons k refs => exact absurd (hreg j List.mem_cons_self (by omega)) hsub
          subst hnil
          simp only [strays, refsLoop, if_neg hlt, if_neg hsub, if_true, List.nil_append]
          refine ⟨trivial, funext fun b => ?_, ?_, ?_⟩
          · by_cases hb : b = j
            · subst hb
              simp [iorRegset_self]
            · simp [iorRegset_of_ne hb, hb]
          · simpa using ⟨by omega, hsub⟩
          · intro k hk _ _
            exact (List.mem_singleton.mp hk).symm

end Refs

variable {g : Cfg R} {s s' : Life R} {X : Nat → Finset R} {b c x : Nat}

theorem Cfg.tellJumps_eq (h : b ∈ (g.labelRefs c).getD [] → g.entry X c ⊆ X b) :
    g.tellJumps X c b = X b := by
  unfold Cfg.tellJumps
  split
  · next hmem => exact Finset.union_eq_left.mpr (h hmem)
  · rfl

theorem Cfg.tellAll_eq (h : g.flow.succ b c → g.entry X c ⊆ X b) : g.tellAll X c b = X b := by
  unfold Cfg.tellAll
  split
  · next hmem => exact Finset.union_eq_left.mpr (h hmem)
  · rfl

theorem Regular.clean (hreg : Regular g s) : Clean g s := by
  intro block hleft
  obtain ⟨hseq, hlast⟩ := hreg block hleft
  refine ⟨hseq, ?_⟩
  rw [(refsLoop_regular fun j hj hle => by
    rw [Function.update_self]
    exact hlast j hj hle).1]
  simp

/-- The block `c` has told what is known, and the loop goes back to the one jump that has learned
something, or on. -/
def Cfg.Told (g : Cfg R) (X : Nat → Finset R) (c : Nat) (s : Life R) : Prop :=
  (∃ j ∈ (g.labelRefs c).getD [], c ≤ j ∧ ¬g.entry X c ⊆ X j ∧
    (∀ k ∈ (g.labelRefs c).getD [], c ≤ k → ¬g.entry X c ⊆ X k → k = j) ∧
    s.left = j + 1 ∧ s.out = g.tellJumps X c) ∨
  ((∀ j ∈ (g.labelRefs c).getD [], c ≤ j → g.entry X c ⊆ X j) ∧
    s.left = c ∧ s.out = g.tellAll X c)

/-- What a turn does as it should be. -/
theorem Regular.turn (hreg : Regular g s) (hi : Inv g s) (h : Turn g s s') :
    ∃ block insns regSet, s.left = block + 1 ∧
      scanBlock (s.code block) (s.out block) = some (insns, regSet) ∧
      s'.code = Function.update s.code block insns ∧ g.Told s.out block s' := by
  obtain ⟨block, insns, regSet, hleft, hscan, hcase⟩ := turn_cases h
  have hentry : regSet = g.entry s.out block := by
    rw [(scanBlock_spec hscan).live, hi.same]
    rfl
  subst hentry
  have hself : Function.update s.stackIn block (g.entry s.out block) block
      = g.entry s.out block := Function.update_self ..
  have hknown : ∀ j ∈ ((g.labelRefs block).getD []).dropLast, block ≤ j →
      Function.update s.stackIn block (g.entry s.out block) block ⊆ s.out j := by
    intro j hj hle
    rw [hself]
    have hsub := (hreg block hleft).2 j hj hle
    rwa [hi.same] at hsub
  obtain ⟨-, hout, hback, hwhere⟩ := @refsLoop_regular R _ s.out
    (Function.update s.stackIn block (g.entry s.out block)) _ _ hknown
  rw [hself] at hout hback hwhere
  refine ⟨block, insns, _, hleft, hscan, ?_⟩
  obtain ⟨hr, rfl⟩ | ⟨hr, rfl⟩ := hcase
  · obtain ⟨j, hj, hle, hnew⟩ := hback.mp hr
    have hj' := hwhere j hj hle hnew
    refine ⟨rfl, .inl ⟨j, hj, hle, hnew, fun k hk hlek hnewk => ?_, ?_, hout⟩⟩
    · exact (hwhere k hk hlek hnewk).symm.trans hj'
    · dsimp only
      rw [hj']
  · refine ⟨rfl, .inr ⟨fun j hj hle => ?_, rfl, ?_⟩⟩
    · by_contra hnew
      rw [hback.mpr ⟨j, hj, hle, hnew⟩] at hr
      cases hr
    · dsimp only
      rw [hout]
      funext b
      unfold Cfg.tellAll
      cases hdrop : g.dropsIn block with
      | false => simp
      | true =>
          have hpos : block ≠ 0 := by
            rintro rfl
            rw [g.first] at hdrop
            cases hdrop
          by_cases hb : b + 1 = block
          · obtain rfl : b = block - 1 := by omega
            simp only [if_true, iorRegset_self, hb, and_self, or_true]
            split
            · rw [Finset.union_assoc, Finset.union_self]
            · rfl
          · rw [if_pos rfl, iorRegset_of_ne (by omega)]
            simp [hb]

/-- The blocks that are done after a turn are as they were. -/
theorem Regular.turn_far (hreg : Regular g s) (hi : Inv g s) (h : Turn g s s') (hx : s'.left ≤ x)
    (hs : s.left ≤ x + 1) : s'.out x = s.out x := by
  obtain ⟨block, insns, regSet, hleft, -, -, hcase⟩ := hreg.turn hi h
  obtain ⟨j, -, -, -, hwhere, hleft', hout⟩ | ⟨hold, hleft', hout⟩ := hcase
  · rw [hout]
    refine Cfg.tellJumps_eq fun hmem => ?_
    by_contra hnew
    obtain rfl := hwhere x hmem (by omega) hnew
    omega
  · rw [hout]
    refine Cfg.tellAll_eq ?_
    rintro (hmem | ⟨-, hdrop⟩)
    · exact hold x hmem (by omega)
    · omega

/-- The sequences that the scans have made. -/
structure Scans (g : Cfg R) (s : Life R) : Prop where
  pairs : ∀ x, ¬NewSequence (s.code x) → ∀ Y, Pairs (s.code x) Y ↔ Pairs (g.code x) Y
  seq : ∀ x, s.left ≤ x → x < g.blocks → (NewSequence (s.code x) ↔ Pairs (g.code x) (s.out x))

theorem Scans.start (g : Cfg R) : Scans g g.start where
  pairs _ _ _ := Iff.rfl
  seq _ hle hlt := absurd hlt (Nat.not_lt.mpr hle)

/-- The scan of a block makes a sequence where an insn clobbers two live registers. -/
theorem Scans.scan (hsc : Scans g s) (hreg : Regular g s) (hi : Inv g s) (h : Turn g s s')
    (hx : s.left ≤ x + 1) (hlt : x < g.blocks) :
    NewSequence (s'.code x) ↔ Pairs (g.code x) (s.out x) := by
  obtain ⟨block, insns, regSet, hleft, hscan, hcode, -⟩ := hreg.turn hi h
  rw [hcode]
  by_cases hb : x = block
  · subst hb
    have hold : ¬NewSequence (s.code x) := not_sequence.mpr (hreg x hleft).1
    rw [Function.update_self, (scanBlock_pairs hscan hold (hi.calls x)).1, hsc.pairs x hold]
  · rw [Function.update_of_ne hb]
    exact hsc.seq x (by omega) hlt

theorem Scans.turn (hsc : Scans g s) (hreg : Regular g s) (hi : Inv g s) (h : Turn g s s') :
    Scans g s' := by
  obtain ⟨block, insns, regSet, hleft, hscan, hcode, hcase⟩ := hreg.turn hi h
  have hle : block ≤ s'.left := by
    obtain ⟨j, -, hle, -, -, hleft', -⟩ | ⟨-, hleft', -⟩ := hcase
    · omega
    · exact hleft'.ge
  constructor
  · intro x hno Y
    rw [hcode] at hno ⊢
    by_cases hb : x = block
    · subst hb
      rw [Function.update_self] at hno ⊢
      have hold : ¬NewSequence (s.code x) := not_sequence.mpr (hreg x hleft).1
      exact ((scanBlock_pairs hscan hold (hi.calls x)).2 hno Y).trans (hsc.pairs x hold Y)
    · rw [Function.update_of_ne hb] at hno ⊢
      exact hsc.pairs x hno Y
  · intro x hx hlt
    rw [hreg.turn_far hi h hx (by omega)]
    exact hsc.scan hreg hi h (by omega) hlt

/-! ### The search and the analysis -/

/-- The blocks that are done owe nothing. -/
theorem Inv.not_owes (hi : Inv g s) (hc : s.left ≤ c) : ¬g.Owes s.out c := by
  rintro ⟨hlt, b, hsucc, hnew⟩
  have hsub := hi.succ c hc hlt b hsucc
  rw [hi.entry c hc hlt] at hsub
  exact hnew hsub

theorem Inv.next (hi : Inv g s) (hleft : s.left = c + 1) (hc : g.Owes s.out c) :
    g.Next s.out c := by
  refine ⟨hc, fun d hd => ?_⟩
  by_contra hlt
  exact hi.not_owes (by omega) hd

theorem left_lt (hi : Inv g s) (hleft : s.left = c + 1) : c < g.blocks := by
  have := hi.left_le
  omega

/-- If the analysis is where the search is, only a sequence of new insns is in its way. -/
theorem Cfg.LastLearns.regular (hlast : g.LastLearns) (hi : Inv g s) (hk : g.Known s.out)
    (hseq : ∀ block, s.left = block + 1 → ∀ i ∈ s.code block, i.isNew = true → i.qimode = false) :
    Regular g s := by
  intro block hleft
  refine ⟨hseq block hleft, fun j hj hle => ?_⟩
  rw [hi.same]
  by_contra hnew
  have hnext := hi.next hleft ⟨left_lt hi hleft, j, .inl (List.mem_of_mem_dropLast hj), hnew⟩
  exact hnew (hlast _ _ j hk hnext hj hle)

/-- The search goes on as the analysis does. -/
theorem Regular.known (hreg : Regular g s) (hi : Inv g s) (hk : g.Known s.out) (h : Turn g s s') :
    g.Known s'.out := by
  obtain ⟨block, insns, regSet, hleft, -, -, hcase⟩ := hreg.turn hi h
  have hlt := left_lt hi hleft
  obtain ⟨j, hj, hle, hnew, -, -, hout⟩ | ⟨hold, -, hout⟩ := hcase
  · exact hout ▸ .back hk (hi.next hleft ⟨hlt, j, .inl hj, hnew⟩) hj hle hnew
  · rw [hout]
    by_cases howes : g.Owes s.out block
    · exact .on hk (hi.next hleft howes) hold
    · have hsame : g.tellAll s.out block = s.out := funext fun b => Cfg.tellAll_eq fun hsucc =>
        not_not.mp fun hnew => howes ⟨hlt, b, hsucc, hnew⟩
      rw [hsame]
      exact hk

/-- In the blocks to come there are no sequences. -/
def Fresh (s : Life R) : Prop := ∀ x, x < s.left → ¬NewSequence (s.code x)

omit [LinearOrder R] in
theorem Fresh.start (g : Cfg R) : Fresh g.start := by
  rintro x - ⟨i, hi, hn, -⟩
  rw [g.original x i hi] at hn
  cases hn

theorem Fresh.turn (hf : Fresh s) (hapart : g.Apart) (hreg : Regular g s) (hi : Inv g s)
    (hsc : Scans g s) (hk : g.Known s.out) (h : Turn g s s') : Fresh s' := by
  obtain ⟨block, insns, regSet, hleft, -, hcode, hcase⟩ := hreg.turn hi h
  have hbelow : ∀ x, x < block → ¬NewSequence (s'.code x) := by
    intro x hx
    rw [hcode, Function.update_of_ne (by omega)]
    exact hf x (by omega)
  intro x hx
  obtain ⟨j, hj, hle, hnew, -, hleft', -⟩ | ⟨-, hleft', -⟩ := hcase
  · rcases Nat.lt_or_ge x block with hxb | hxb
    · exact hbelow x hxb
    · -- the blocks that are scanned again
      have hnext := hi.next hleft ⟨left_lt hi hleft, j, .inl hj, hnew⟩
      rw [hsc.scan hreg hi h (by omega) (by have := refs_lt g hj; omega)]
      exact hapart _ _ j hk hnext hj hle hnew x hxb (by omega)
  · exact hbelow x (by omega)

/-- Under the two conditions every turn is as it should be. -/
theorem Run.regular (hlast : g.LastLearns) (hapart : g.Apart) (hrun : Run g g.start s) :
    Regular g s := by
  have hstate : g.Known s.out ∧ Fresh s ∧ Scans g s := by
    induction hrun with
    | refl => exact ⟨.start, Fresh.start g, Scans.start g⟩
    | tail hrun hturn ih =>
        obtain ⟨hk, hf, hsc⟩ := ih
        have hi := Run.inv hrun
        have hreg := hlast.regular hi hk fun x hleft => not_sequence.mp (hf x (by omega))
        exact ⟨hreg.known hi hk hturn, hf.turn hapart hreg hi hsc hk hturn,
          hsc.turn hreg hi hturn⟩
  exact hlast.regular (Run.inv hrun) hstate.1 fun x hleft =>
    not_sequence.mp (hstate.2.1 x (by omega))

/-- So is a turn in an analysis without an abort, if only the last jumps back learn something. -/
theorem Run.regular_of_clean (hlast : g.LastLearns) (hclean : ∀ s, Run g g.start s → Clean g s)
    (hrun : Run g g.start s) : Regular g s := by
  have hk : g.Known s.out := by
    induction hrun with
    | refl => exact .start
    | tail hrun hturn ih =>
        have hi := Run.inv hrun
        have hreg := hlast.regular hi ih fun x hleft => (hclean _ hrun x hleft).1
        exact hreg.known hi ih hturn
  exact hlast.regular (Run.inv hrun) hk fun x hleft => (hclean _ hrun x hleft).1

section Converse

variable (hreg : ∀ s, Run g g.start s → Regular g s)
include hreg

theorem Run.scans (hrun : Run g g.start s) : Scans g s := by
  induction hrun with
  | refl => exact Scans.start g
  | tail hrun hturn ih => exact ih.turn (hreg _ hrun) (Run.inv hrun) hturn

theorem Run.next (hrun : Run g g.start s) (hleft : s.left ≠ 0) : ∃ s', Turn g s s' :=
  (Run.inv hrun).turns (hreg s hrun).clean hleft

/-- The analysis goes through the blocks that owe nothing to the one where the search is. -/
theorem Run.descend (hrun : Run g g.start s) (hc : g.Next s.out c) :
    ∃ s', Run g g.start s' ∧ s'.left = c + 1 ∧ s'.out = s.out := by
  have hlt : c < s.left := by
    by_contra hge
    exact (Run.inv hrun).not_owes (by omega) hc.1
  obtain ⟨n, hn⟩ := Nat.exists_eq_add_of_lt hlt
  induction n generalizing s with
  | zero => exact ⟨s, hrun, hn, rfl⟩
  | succ n ih =>
      have hi := Run.inv hrun
      obtain ⟨s', hturn⟩ := Run.next hreg hrun (by omega)
      obtain ⟨block, insns, regSet, hleft, -, -, hcase⟩ := (hreg s hrun).turn hi hturn
      have hblock : block < g.blocks := by
        have := hi.left_le
        omega
      have hidle : ∀ b, g.flow.succ b block → g.entry s.out block ⊆ s.out b := by
        intro b hsucc
        by_contra hnew
        have := hc.2 block ⟨hblock, b, hsucc, hnew⟩
        omega
      obtain ⟨j, hj, -, hnew, -⟩ | ⟨-, hleft', hout⟩ := hcase
      · exact absurd (hidle j (.inl hj)) hnew
      · have hsame : s'.out = s.out := by
          rw [hout]
          exact funext fun b => Cfg.tellAll_eq (hidle b)
        obtain ⟨s'', hrun', hleft'', hout'⟩ :=
          ih (hrun.tail hturn) (hsame.symm ▸ hc) (by omega) (by omega)
        exact ⟨s'', hrun', hleft'', hout'.trans hsame⟩

/-- The analysis comes to the block where the search is, and has it tell what is known. -/
theorem Run.arrives (hrun : Run g g.start s) (hc : g.Next s.out c) :
    ∃ s₁ s₂, Run g g.start s₁ ∧ s₁.left = c + 1 ∧ s₁.out = s.out ∧ Turn g s₁ s₂ ∧
      g.Told s.out c s₂ := by
  obtain ⟨s₁, hrun₁, hleft, hout⟩ := Run.descend hreg hrun hc
  obtain ⟨s₂, hturn⟩ := Run.next hreg hrun₁ (by omega)
  obtain ⟨block, insns, regSet, hleft₁, -, -, htold⟩ :=
    (hreg s₁ hrun₁).turn (Run.inv hrun₁) hturn
  obtain rfl : c = block := by omega
  exact ⟨s₁, s₂, hrun₁, hleft, hout, hturn, hout ▸ htold⟩

/-- What is known in the course of the search the analysis finds. -/
theorem Cfg.Known.run (hX : g.Known X) : ∃ s, Run g g.start s ∧ s.out = X := by
  induction hX with
  | start => exact ⟨g.start, .refl, rfl⟩
  | @back X c j _ hc hj hle hnew ih =>
      obtain ⟨s, hrun, rfl⟩ := ih
      obtain ⟨s₁, s₂, hrun₁, -, -, hturn, htold⟩ := Run.arrives hreg hrun hc
      obtain ⟨-, -, -, -, -, -, hout⟩ | ⟨hold, -, -⟩ := htold
      · exact ⟨s₂, hrun₁.tail hturn, hout⟩
      · exact absurd (hold j hj hle) hnew
  | @on X c _ hc hold ih =>
      obtain ⟨s, hrun, rfl⟩ := ih
      obtain ⟨s₁, s₂, hrun₁, -, -, hturn, htold⟩ := Run.arrives hreg hrun hc
      obtain ⟨j, hj, hle, hnew, -⟩ | ⟨-, -, hout⟩ := htold
      · exact absurd (hold j hj hle) hnew
      · exact ⟨s₂, hrun₁.tail hturn, hout⟩

/-- The analysis comes to every block that is left, and until then leaves its insns alone. -/
theorem Run.passes [Fintype R] (hrun : Run g g.start s) (hx : x < s.left) :
    ∃ s', Run g g.start s' ∧ s'.left = x + 1 ∧ s'.code x = s.code x := by
  induction hw : weight g s using Nat.strong_induction_on generalizing s with
  | _ n ih =>
      subst hw
      by_cases hleft : s.left = x + 1
      · exact ⟨s, hrun, hleft, rfl⟩
      · have hi := Run.inv hrun
        obtain ⟨s', hturn⟩ := Run.next hreg hrun (by omega)
        obtain ⟨block, insns, regSet, hblock, -, hcode, hcase⟩ := (hreg s hrun).turn hi hturn
        have hx' : x < s'.left := by
          obtain ⟨j, -, hle, -, -, hleft', -⟩ | ⟨-, hleft', -⟩ := hcase
          · omega
          · omega
        obtain ⟨s'', hrun', hleft', hcode'⟩ :=
          ih _ (weight_turn hi hturn) (hrun.tail hturn) hx' rfl
        refine ⟨s'', hrun', hleft', hcode'.trans ?_⟩
        rw [hcode, Function.update_of_ne (by omega)]

/-- If every turn is as it should be, the graph meets the conditions. -/
theorem lastLearns_of_regular : g.LastLearns := by
  intro X c j hX hc hj hle
  obtain ⟨s, hrun, rfl⟩ := hX.run hreg
  obtain ⟨s₁, -, hrun₁, hleft, hout, -⟩ := Run.arrives hreg hrun hc
  have hsub := (hreg s₁ hrun₁ c hleft).2 j hj hle
  rwa [(Run.inv hrun₁).same, hout] at hsub

theorem apart_of_regular [Fintype R] : g.Apart := by
  intro X c j hX hc hj hle hnew x hcx hxj hp
  obtain ⟨s, hrun, rfl⟩ := hX.run hreg
  obtain ⟨s₁, s₂, hrun₁, hleft, hout, hturn, htold⟩ := Run.arrives hreg hrun hc
  have hseq : NewSequence (s₂.code x) := by
    rw [(Run.scans hreg hrun₁).scan (hreg s₁ hrun₁) (Run.inv hrun₁) hturn (by omega)
      (by have := refs_lt g hj; omega), hout]
    exact hp
  obtain ⟨j', -, -, -, hwhere, hleft₂, -⟩ | ⟨hold, -, -⟩ := htold
  · -- the block with the sequence is scanned again
    obtain rfl := hwhere j hj hle hnew
    obtain ⟨s₃, hrun₃, hleft₃, hcode⟩ :=
      Run.passes hreg (hrun₁.tail hturn) (show x < s₂.left by omega)
    exact not_sequence.mpr (hreg s₃ hrun₃ x hleft₃).1 (hcode ▸ hseq)
  · exact hnew (hold j hj hle)

end Converse

/-- The conditions from the chains of the labels and the insns. -/
theorem lastLearns_and_apart (hback : ∀ c, ∀ j ∈ ((g.labelRefs c).getD []).dropLast, j < c)
    (hclob : ∀ b, ∀ i ∈ g.code b, (i.clobbered \ i.dest).card ≤ 1) : g.LastLearns ∧ g.Apart := by
  refine ⟨fun X c j _ _ hj hle => absurd (hback c j hj) (by omega), ?_⟩
  intro X c j _ _ _ _ _ x _ _ hp
  obtain ⟨i, hi, Y, hcard⟩ := hp.exists_insn
  have hsub : (Y \ i.dest) ∩ i.clobbered ⊆ i.clobbered \ i.dest := by
    intro r hr
    simp only [Finset.mem_inter, Finset.mem_sdiff] at hr ⊢
    exact ⟨hr.2, hr.1.2⟩
  have := Finset.card_le_card hsub
  have := hclob x i hi
  omega

/-- Where only the last jumps back learn something, the analysis finds what it should if and only if
no pair of registers is in its way and nothing is live at the function's start.  The latter it needs
on every graph.  The two conditions on the search hold if and only if no turn of the loop goes on
with another `block` or scans a sequence of its own insns. -/
theorem life_analysis [Fintype R] (g : Cfg R) :
    (g.LastLearns → (g.Analysed ↔
      g.Apart ∧ ∃ into out, g.flow.Solves into out ∧ into 0 = ∅)) ∧
    (g.Analysed → ∃ into out, g.flow.Solves into out ∧ into 0 = ∅) ∧
    (g.LastLearns ∧ g.Apart ↔ ∀ s, Run g g.start s → Regular g s) := by
  refine ⟨fun hlast => ⟨fun h => ?_, fun ⟨hapart, hzero⟩ => ?_⟩, fun h => ?_,
    fun ⟨hlast, hapart⟩ s => Run.regular hlast hapart, fun hreg => ?_⟩
  · obtain ⟨hclean, hzero⟩ := (analysed_iff g).mp h
    exact ⟨apart_of_regular fun s => Run.regular_of_clean hlast hclean, hzero⟩
  · exact (analysed_iff g).mpr ⟨fun s hrun => (Run.regular hlast hapart hrun).clean, hzero⟩
  · exact ((analysed_iff g).mp h).2
  · exact ⟨lastLearns_of_regular hreg, apart_of_regular hreg⟩

end Ttools.T800
