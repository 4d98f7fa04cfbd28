import Ttools.Link.Names
import Ttools.Support.Closure

/-!
# Marking names as wanted

`mark_wanted` (`lit/lit.c`) marks a name and all that it needs, directly or through others.

* `markWanted_spec`: it comes back, has marked what a search of the needs marks and nothing else,
  and keeps `undefined_wanted_count` and the marks of the files right.
-/

namespace Ttools

namespace Linker

/-- `mark_wanted` on a name that is not marked, without the names it needs; `none` is a null
pointer. -/
def mark (l : Linker) (np : NameId) : Option Linker :=
  let l := l.setName np fun name => { name with wanted := true }
  if (l.names np).defined then do
    let ifi ← l.firstSource np
    return l.setIfile ifi fun ifi => { ifi with wanted := true }
  else if (l.names np).special = .no then some (l.count 1)
  else some l

/-- `mark_wanted`.  The depth of the recursion is bounded by the number of names that are not
marked. -/
def markWantedAt : Nat → Linker → NameId → Option Linker
  | 0, _, _ => none
  | depth + 1, l, np =>
      if (l.names np).wanted then some l
      else do
        let l ← l.mark np
        (l.names np).needs.foldlM (fun l need => markWantedAt depth l need) l

/-- `mark_wanted`. -/
def markWanted (l : Linker) (np : NameId) : Option Linker := markWantedAt (l.nnames + 1) l np

/-- The names that are wanted. -/
def Wanted (l : Linker) : Set NameId := {np | (l.names np).wanted = true}

/-- `np` has `need` in its list of needs. -/
def Needs (l : Linker) (np need : NameId) : Prop := need ∈ (l.names np).needs

/-- A name that is counted in `undefined_wanted_count`. -/
def isUndefined (l : Linker) (np : NameId) : Bool :=
  (l.names np).wanted && !(l.names np).defined && (l.names np).special == .no

/-- `undefined_wanted_count` is the number of names that are wanted, not defined and not special. -/
def Counted (l : Linker) : Prop :=
  l.undefinedWantedCount = ((Finset.range l.nnames).filter fun np => l.isUndefined np).card

/-- The first file that defines a wanted name is marked as wanted. -/
def Sourced (l : Linker) : Prop :=
  ∀ np ∈ l.Wanted, ∀ ifi, l.firstSource np = some ifi → (l.ifiles ifi).wanted = true

/-- Every pointer leads to a name or a file that there is, and a defined name has a source. -/
structure Valid (l : Linker) : Prop where
  unmade : ∀ np, l.nnames ≤ np → l.names np = nameAlloc []
  needs_lt : ∀ np need, l.Needs np need → need < l.nnames
  names_lt : ∀ ifi, ∀ np ∈ (l.ifiles ifi).names, np < l.nnames
  source : ∀ np, (l.names np).defined = true ↔ (l.names np).source ≠ []
  source_lt : ∀ np, ∀ ifi ∈ (l.names np).source, ifi < l.nifiles

/-- How many names are not wanted. -/
def unwanted (l : Linker) : Nat :=
  ((Finset.range l.nnames).filter fun np => !(l.names np).wanted).card

/-- Only marks are different: those of names, those of files, and the count that goes with them. -/
structure SameButMarks (l l' : Linker) : Prop where
  names : ∀ np, l'.names np = { l.names np with wanted := (l'.names np).wanted }
  nnames : l'.nnames = l.nnames
  ifiles : ∀ ifi, l'.ifiles ifi = { l.ifiles ifi with wanted := (l'.ifiles ifi).wanted }
  nifiles : l'.nifiles = l.nifiles
  nErrors : l'.nErrors = l.nErrors
  nWarnings : l'.nWarnings = l.nWarnings
  kept : ∀ ifi, (l.ifiles ifi).wanted = true → (l'.ifiles ifi).wanted = true

/-- What marking the names `nps` does. -/
structure Marked (l : Linker) (nps : List NameId) (l' : Linker) : Prop extends
    SameButMarks l l' where
  marks : Support.Marks l.Needs l.Wanted nps l'.Wanted
  counted : l.Counted → l'.Counted
  sourced : l.Sourced → l'.Sourced

variable {l l' l'' : Linker} {np : NameId}

theorem SameButMarks.refl (l : Linker) : SameButMarks l l where
  names := fun _ => rfl
  nnames := rfl
  ifiles := fun _ => rfl
  nifiles := rfl
  nErrors := rfl
  nWarnings := rfl
  kept := fun _ h => h

theorem SameButMarks.trans (h : SameButMarks l l') (h' : SameButMarks l' l'') :
    SameButMarks l l'' where
  names := fun np => by rw [h'.names np, h.names np]
  nnames := h'.nnames.trans h.nnames
  ifiles := fun ifi => by rw [h'.ifiles ifi, h.ifiles ifi]
  nifiles := h'.nifiles.trans h.nifiles
  nErrors := h'.nErrors.trans h.nErrors
  nWarnings := h'.nWarnings.trans h.nWarnings
  kept := fun ifi hw => h'.kept ifi (h.kept ifi hw)

theorem SameButMarks.needs (h : SameButMarks l l') (np : NameId) :
    (l'.names np).needs = (l.names np).needs := by
  rw [h.names np]

theorem SameButMarks.needs_eq (h : SameButMarks l l') : l'.Needs = l.Needs := by
  funext np need
  rw [Needs, h.needs np, Needs]

theorem SameButMarks.valid (h : SameButMarks l l') (hwanted : ∀ np, l.nnames ≤ np →
    (l'.names np).wanted = false) (hl : l.Valid) : l'.Valid where
  unmade := by
    intro np hnp
    rw [h.nnames] at hnp
    rw [h.names np, hwanted np hnp, hl.unmade np hnp]
    rfl
  needs_lt := by
    intro np need hneed
    rw [h.needs_eq] at hneed
    rw [h.nnames]
    exact hl.needs_lt np need hneed
  names_lt := by
    intro ifi np hnp
    rw [h.ifiles ifi] at hnp
    rw [h.nnames]
    exact hl.names_lt ifi np hnp
  source := by
    intro np
    rw [h.names np]
    exact hl.source np
  source_lt := by
    intro np
    rw [h.names np, h.nifiles]
    exact hl.source_lt np

theorem Marked.nil (l : Linker) : Marked l [] l where
  toSameButMarks := .refl l
  marks := .nil _ _
  counted := id
  sourced := id

theorem Marked.append {nps nps' : List NameId} (h : Marked l nps l') (h' : Marked l' nps' l'') :
    Marked l (nps ++ nps') l'' where
  toSameButMarks := h.toSameButMarks.trans h'.toSameButMarks
  marks := h.marks.append (h.needs_eq ▸ h'.marks)
  counted := h'.counted ∘ h.counted
  sourced := h'.sourced ∘ h.sourced

/-- Only names that are needed, and those one begins with, get a mark. -/
theorem Marked.valid {nps : List NameId} (h : Marked l nps l') (hl : l.Valid)
    (hnps : ∀ np ∈ nps, np < l.nnames) : l'.Valid := by
  refine h.toSameButMarks.valid (fun np hnp => ?_) hl
  have hclosed : Support.Closed l.Needs {np | np < l.nnames} :=
    fun np _ need hneed => hl.needs_lt np need hneed
  rw [Bool.eq_false_iff]
  intro hw
  rcases h.marks.least _ hclosed hnps hw with hw | hlt
  · have hblank : (nameAlloc []).wanted = true := hl.unmade np hnp ▸ hw
    cases hblank
  · exact absurd hlt (Nat.not_lt.mpr hnp)

/-! ### One mark -/

theorem mark_isSome (hl : l.Valid) (np : NameId) : ∃ l', l.mark np = some l' := by
  rw [mark]
  simp only [setName_self]
  by_cases hd : (l.names np).defined = true
  · have hsource := (hl.source np).mp hd
    obtain ⟨ifi, hifi⟩ := Option.isSome_iff_exists.mp (List.isSome_head?.mpr hsource)
    rw [if_pos hd, firstSource, setName_self, hifi]
    exact ⟨_, rfl⟩
  · rw [if_neg hd]
    split
    · exact ⟨_, rfl⟩
    · exact ⟨_, rfl⟩

/-- What `mark` does besides setting the mark. -/
theorem mark_cases (h : l.mark np = some l') :
    ∃ l₁, l₁ = l.setName np (fun name => { name with wanted := true }) ∧
      (((l.names np).defined = true ∧ ∃ ifi, l.firstSource np = some ifi ∧
          l' = l₁.setIfile ifi fun ifi => { ifi with wanted := true }) ∨
        ((l.names np).defined = false ∧ (l.names np).special = .no ∧ l' = l₁.count 1) ∨
        ((l.names np).defined = false ∧ (l.names np).special ≠ .no ∧ l' = l₁)) := by
  refine ⟨_, rfl, ?_⟩
  rw [mark] at h
  simp only [setName_self, firstSource] at h
  split at h
  · next hd =>
      obtain ⟨ifi, hifi, hl'⟩ := Option.bind_eq_some_iff.mp h
      exact Or.inl ⟨hd, ifi, hifi, (Option.some.inj hl').symm⟩
  · next hd =>
      rw [Bool.not_eq_true] at hd
      split at h
      · next hs => exact Or.inr (Or.inl ⟨hd, hs, (Option.some.inj h).symm⟩)
      · next hs => exact Or.inr (Or.inr ⟨hd, hs, (Option.some.inj h).symm⟩)

theorem mark_names (h : l.mark np = some l') :
    l'.names = Function.update l.names np { l.names np with wanted := true } := by
  obtain ⟨l₁, rfl, ⟨-, ifi, -, rfl⟩ | ⟨-, -, rfl⟩ | ⟨-, -, rfl⟩⟩ := mark_cases h
  · rfl
  · rfl
  · rfl

theorem mark_same (h : l.mark np = some l') : SameButMarks l l' := by
  have hnames : ∀ np', l'.names np' = { l.names np' with wanted := (l'.names np').wanted } := by
    intro np'
    rw [mark_names h]
    by_cases hnp : np' = np
    · subst hnp
      rw [Function.update_self]
    · rw [Function.update_of_ne hnp]
  obtain ⟨l₁, rfl, ⟨-, ifi, -, rfl⟩ | ⟨-, -, rfl⟩ | ⟨-, -, rfl⟩⟩ := mark_cases h
  · refine ⟨hnames, rfl, fun ifi' => ?_, rfl, rfl, rfl, fun ifi' hw => ?_⟩
    · by_cases heq : ifi' = ifi
      · subst heq
        rw [setIfile_self, setName_ifiles]
      · rw [setIfile_ne _ heq, setName_ifiles]
    · by_cases heq : ifi' = ifi
      · subst heq
        rw [setIfile_self]
      · rw [setIfile_ne _ heq]
        exact hw
  · exact ⟨hnames, rfl, fun _ => rfl, rfl, rfl, rfl, fun _ hw => hw⟩
  · exact ⟨hnames, rfl, fun _ => rfl, rfl, rfl, rfl, fun _ hw => hw⟩

theorem mark_wanted (h : l.mark np = some l') : l'.Wanted = insert np l.Wanted := by
  ext np'
  rw [Set.mem_insert_iff, Wanted, Wanted, Set.mem_ofPred_eq, Set.mem_ofPred_eq, mark_names h]
  by_cases hnp : np' = np
  · subst hnp
    simp
  · simp [hnp]

theorem mark_counted (h : l.mark np = some l') (hlt : np < l.nnames)
    (hw : ¬(l.names np).wanted = true) (hc : l.Counted) : l'.Counted := by
  have hnames := mark_names h
  have hne : ∀ y, y ≠ np → (l.isUndefined y = true ↔ l'.isUndefined y = true) := by
    intro y hy
    rw [isUndefined, isUndefined, hnames, Function.update_of_ne hy]
  have hbefore : ¬l.isUndefined np = true := by
    rw [isUndefined]
    simp [hw]
  have hafter : l'.isUndefined np = (!(l.names np).defined && (l.names np).special == .no) := by
    rw [isUndefined, hnames, Function.update_self]
    rfl
  have hsame : (l.names np).defined = true ∨ (l.names np).special ≠ .no →
      ((Finset.range l.nnames).filter fun y => l'.isUndefined y = true).card =
        ((Finset.range l.nnames).filter fun y => l.isUndefined y = true).card := by
    intro hcond
    refine card_filter_congr fun y => ?_
    by_cases hy : y = np
    · subst hy
      rw [hafter]
      rcases hcond with hcond | hcond <;> simp [hbefore, hcond]
    · exact hne y hy
  rw [Counted] at hc ⊢
  obtain ⟨l₁, rfl, ⟨hd, ifi, -, rfl⟩ | ⟨hd, hs, rfl⟩ | ⟨-, hs, rfl⟩⟩ := mark_cases h
  · exact hc.trans (congrArg _ (hsame (Or.inl hd)).symm)
  · have hone := card_filter_insert hlt hbefore (by rw [hafter, hd, hs]; rfl) hne
    rw [count_undefinedWantedCount, setName_undefinedWantedCount, hc, count_nnames, setName_nnames,
      hone, Nat.cast_add, Nat.cast_one]
  · exact hc.trans (congrArg _ (hsame (Or.inr hs)).symm)

theorem mark_firstSource (h : l.mark np = some l') (np' : NameId) :
    l'.firstSource np' = l.firstSource np' := by
  rw [firstSource, firstSource, (mark_same h).names np']

theorem mark_sourced (hl : l.Valid) (h : l.mark np = some l') (hs : l.Sourced) : l'.Sourced := by
  intro np' hnp' ifi hifi
  rw [mark_firstSource h] at hifi
  rw [mark_wanted h] at hnp'
  rcases hnp' with rfl | hnp'
  · have hd : (l.names np').defined = true := by
      rw [hl.source]
      intro hnil
      rw [firstSource, hnil] at hifi
      cases hifi
    obtain ⟨l₁, rfl, ⟨-, ifi', hifi', rfl⟩ | ⟨hd', -, rfl⟩ | ⟨hd', -, rfl⟩⟩ := mark_cases h
    · obtain rfl : ifi' = ifi := Option.some.inj (hifi'.symm.trans hifi)
      rw [setIfile_self]
    · rw [hd] at hd'
      cases hd'
    · rw [hd] at hd'
      cases hd'
  · exact (mark_same h).kept ifi (hs np' hnp' ifi hifi)

theorem mark_unwanted (h : l.mark np = some l') (hlt : np < l.nnames)
    (hw : ¬(l.names np).wanted = true) : l.unwanted = l'.unwanted + 1 := by
  have hnames := mark_names h
  rw [unwanted, unwanted, (mark_same h).nnames]
  refine card_filter_insert hlt ?_ ?_ fun y hy => ?_
  · rw [hnames, Function.update_self]
    simp
  · simp [hw]
  · rw [hnames, Function.update_of_ne hy]

/-! ### The recursion -/

/-- Names that are marked one after another, each as it should be. -/
theorem foldlM_spec {f : Linker → NameId → Option Linker} {bound : Nat}
    (hf : ∀ l np, l.Valid → np < l.nnames → l.unwanted < bound →
      ∃ l', f l np = some l' ∧ Marked l [np] l' ∧ l'.unwanted ≤ l.unwanted)
    {nps : List NameId} (hl : l.Valid) (hnps : ∀ np ∈ nps, np < l.nnames)
    (hbound : l.unwanted < bound) :
    ∃ l', nps.foldlM f l = some l' ∧ Marked l nps l' ∧ l'.unwanted ≤ l.unwanted := by
  induction nps generalizing l with
  | nil => exact ⟨l, rfl, .nil l, Nat.le_refl _⟩
  | cons np nps ih =>
      have hnp : np < l.nnames := hnps np List.mem_cons_self
      obtain ⟨l₁, h₁, hm₁, hle₁⟩ := hf l np hl hnp hbound
      have hnps₁ : ∀ np' ∈ nps, np' < l₁.nnames := by
        intro np' hnp'
        rw [hm₁.nnames]
        exact hnps np' (List.mem_cons_of_mem np hnp')
      have hl₁ : l₁.Valid := hm₁.valid hl (List.forall_mem_singleton.mpr hnp)
      obtain ⟨l₂, h₂, hm₂, hle₂⟩ := ih hl₁ hnps₁ (Nat.lt_of_le_of_lt hle₁ hbound)
      refine ⟨l₂, ?_, hm₁.append hm₂, hle₂.trans hle₁⟩
      rw [List.foldlM_cons, h₁]
      exact h₂

theorem markWantedAt_spec {depth : Nat} (hl : l.Valid) (hnp : np < l.nnames)
    (hdepth : l.unwanted < depth) :
    ∃ l', markWantedAt depth l np = some l' ∧ Marked l [np] l' ∧ l'.unwanted ≤ l.unwanted := by
  induction depth generalizing l np with
  | zero => cases hdepth
  | succ depth ih =>
      rw [markWantedAt]
      by_cases hw : (l.names np).wanted = true
      · refine ⟨l, if_pos hw, ⟨.refl l, .seen hw, id, id⟩, Nat.le_refl _⟩
      · obtain ⟨l₁, h₁⟩ := mark_isSome hl np
        have hsame := mark_same h₁
        have hw₁ := mark_wanted h₁
        have hunwanted := mark_unwanted h₁ hnp hw
        have hl₁ : l₁.Valid := by
          refine hsame.valid (fun np' hnp' => ?_) hl
          rw [mark_names h₁, Function.update_of_ne (Nat.ne_of_gt (hnp.trans_le hnp')), hl.unmade np' hnp']
          rfl
        have hneeds : ∀ need ∈ (l₁.names np).needs, need < l₁.nnames :=
          fun need hneed => hl₁.needs_lt np need hneed
        obtain ⟨l₂, h₂, hm₂, hle₂⟩ := foldlM_spec
          (fun l np hl hnp hb => ih hl hnp hb) hl₁ hneeds (by omega)
        have hmarks := hm₂.marks
        rw [hw₁, hsame.needs_eq] at hmarks
        refine ⟨l₂, ?_, ⟨hsame.trans hm₂.toSameButMarks, .visit (fun need => ?_) hmarks, ?_, ?_⟩,
          by omega⟩
        · rw [if_neg hw, h₁]
          exact h₂
        · rw [hsame.needs np]
          rfl
        · exact fun hc => hm₂.counted (mark_counted h₁ hnp hw hc)
        · exact fun hs => hm₂.sourced (mark_sourced hl h₁ hs)

/-- `mark_wanted` comes back, and has marked the name and what it needs. -/
theorem markWanted_spec (hl : l.Valid) (hnp : np < l.nnames) :
    ∃ l', l.markWanted np = some l' ∧ Marked l [np] l' := by
  have hle : l.unwanted ≤ l.nnames := by
    have hcard := Finset.card_filter_le (Finset.range l.nnames) fun np => !(l.names np).wanted
    rwa [Finset.card_range] at hcard
  obtain ⟨l', h, hm, -⟩ := markWantedAt_spec hl hnp (Nat.lt_succ_of_le hle)
  exact ⟨l', h, hm⟩

/-! ### Without an invariant -/

/-- A relation between what was before and what is after each step holds of all of them. -/
theorem foldlM_rel {α : Type} {R : Linker → Linker → Prop} (hrefl : ∀ l, R l l)
    (htrans : ∀ {l l' l''}, R l l' → R l' l'' → R l l'') {f : Linker → α → Option Linker}
    (hf : ∀ {l x l'}, f l x = some l' → R l l') {xs : List α} (hfold : xs.foldlM f l = some l') :
    R l l' := by
  induction xs generalizing l with
  | nil =>
      obtain rfl := Option.some.inj hfold
      exact hrefl l
  | cons x xs ih =>
      rw [List.foldlM_cons] at hfold
      obtain ⟨l₁, hx, hfold⟩ := Option.bind_eq_some_iff.mp hfold
      exact htrans (hf hx) (ih hfold)

/-- Whenever `mark_wanted` comes back it has changed nothing but marks. -/
theorem markWantedAt_same {depth : Nat} (hmark : markWantedAt depth l np = some l') :
    SameButMarks l l' := by
  induction depth generalizing l np l' with
  | zero => cases hmark
  | succ depth ih =>
      rw [markWantedAt] at hmark
      split_ifs at hmark with hw
      · obtain rfl := Option.some.inj hmark
        exact .refl l
      · obtain ⟨l₁, h₁, hfold⟩ := Option.bind_eq_some_iff.mp hmark
        exact (mark_same h₁).trans (foldlM_rel .refl .trans (fun hx => ih hx) hfold)

end Linker

end Ttools
