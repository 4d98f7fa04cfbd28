import Mathlib.Data.List.TakeWhile
import Ttools.Link.Nametable

/-!
# What the nametables say

The `NAME` records that have been read, and what `lit` knows of them afterwards.

* `run_recorded`: the names of a file, the files that define a name and its identifier are those
  of the records.
* `firstSource_wanted`: the earliest file that defines a wanted name is marked as wanted.
-/

namespace Ttools

/-- `LIT_NAME_FRAGMENT`. -/
def litNameFragment : Word := 2

/-- A `NAME` record that has been read: the file it is in, and the name it is about. -/
structure Entry where
  ifi : FileId
  ident : List Byte
  flags : Word
  np : NameId
  deriving DecidableEq, Repr

/-- The file marks the name as defined. -/
def Entry.defined (e : Entry) : Bool := e.flags &&& litNameDefined != 0

/-- The file marks the name as a fragment that it defines. -/
def Entry.fragment (e : Entry) : Bool := e.defined && e.flags &&& litNameFragment != 0

/-- The record that an event reads. -/
def Linker.entry (l : Linker) : Event → Option Entry
  | .name ifi ident flags =>
      if ifi < l.nifiles then some ⟨ifi, ident, flags, (l.findName ident).1⟩ else none
  | _ => none

/-- The records of the events, from `l` on. -/
def entriesFrom (l : Linker) : List Event → List Entry
  | [] => []
  | e :: es => (l.entry e).toList ++ ((l.step e).map fun l => entriesFrom l es).getD []

/-- The records of a run of `lit`. -/
def entries (es : List Event) : List Entry := entriesFrom .initial es

/-- The nametable of a file. -/
def nametable (es : List Event) (ifi : FileId) : List Entry :=
  (entries es).filter fun e => e.ifi == ifi

/-- The files are read one after another. -/
def InReadingOrder (es : List Event) : Prop := (entries es).Pairwise fun e e' => e.ifi ≤ e'.ifi

/-- The identifiers in the event are C strings. -/
def Event.IsString : Event → Prop
  | .lookup ident => 0 ∉ ident
  | .hook ident => 0 ∉ ident
  | .name _ ident _ => 0 ∉ ident
  | _ => True

namespace Linker

variable {l l' l'' : Linker} {h : History} {np : NameId} {ifi : FileId} {key : List Byte}
  {read : List Entry}

/-- Every identifier in the table is a C string. -/
def Strings (l : Linker) : Prop := ∀ np, 0 ∉ (l.names np).ident

/-- What `l` knows of the records `read`. -/
structure Recorded (l : Linker) (read : List Entry) : Prop where
  names : ∀ ifi, (l.ifiles ifi).names = (read.filter fun e => e.ifi == ifi).map (·.np)
  source : ∀ np,
    (l.names np).source = (read.filter fun e => e.np == np && e.defined).map (·.ifi)
  ident : ∀ e ∈ read, (l.names e.np).ident = e.ident
  fresh : read.Pairwise fun e e' => e'.ident = [] → e.np ≠ e'.np
  opened : ∀ e ∈ read, e.ifi < l.nifiles
  strings : l.Strings

/-- Nothing is different that the records say. -/
structure Keeps (l l' : Linker) : Prop where
  names : ∀ ifi, (l'.ifiles ifi).names = (l.ifiles ifi).names
  source : ∀ np, (l'.names np).source = (l.names np).source
  ident : ∀ np < l.nnames, (l'.names np).ident = (l.names np).ident
  nnames : l.nnames ≤ l'.nnames
  nifiles : l'.nifiles = l.nifiles
  strings : l.Strings → l'.Strings

theorem Keeps.refl (l : Linker) : Keeps l l where
  names := fun _ => rfl
  source := fun _ => rfl
  ident := fun _ _ => rfl
  nnames := Nat.le_refl _
  nifiles := rfl
  strings := id

theorem Keeps.trans (h : Keeps l l') (h' : Keeps l' l'') : Keeps l l'' where
  names := fun ifi => (h'.names ifi).trans (h.names ifi)
  source := fun np => (h'.source np).trans (h.source np)
  ident := fun np hnp => (h'.ident np (hnp.trans_le h.nnames)).trans (h.ident np hnp)
  nnames := h.nnames.trans h'.nnames
  nifiles := h'.nifiles.trans h.nifiles
  strings := h'.strings ∘ h.strings

theorem Recorded.lt (hr : Recorded l read) (hl : l.Valid) {e : Entry} (he : e ∈ read) :
    e.np < l.nnames := by
  refine hl.names_lt e.ifi e.np ?_
  rw [hr.names]
  exact List.mem_map_of_mem (List.mem_filter.mpr ⟨he, beq_self_eq_true _⟩)

theorem Recorded.keep (hr : Recorded l read) (hl : l.Valid) (hk : Keeps l l') :
    Recorded l' read where
  names := fun ifi => (hk.names ifi).trans (hr.names ifi)
  source := fun np => (hk.source np).trans (hr.source np)
  ident := fun e he => (hk.ident e.np (hr.lt hl he)).trans (hr.ident e he)
  fresh := hr.fresh
  opened := fun e he => (hr.opened e he).trans_eq hk.nifiles.symm
  strings := hk.strings hr.strings

/-! ### Events that read no `NAME` record -/

/-- A field that `f` leaves as it is. -/
theorem setName_same {α : Type} (g : LinkName → α) {f : LinkName → LinkName}
    (hf : ∀ name, g (f name) = g name) (np' : NameId) :
    g ((l.setName np f).names np') = g (l.names np') := by
  by_cases heq : np' = np
  · subst heq
    rw [setName_self]
    exact hf _
  · rw [setName_ne _ heq]

theorem keeps_setName {f : LinkName → LinkName} (hident : ∀ name, (f name).ident = name.ident)
    (hsource : ∀ name, (f name).source = name.source) : Keeps l (l.setName np f) where
  names := fun _ => rfl
  source := setName_same (·.source) hsource
  ident := fun np' _ => setName_same (·.ident) hident np'
  nnames := Nat.le_refl _
  nifiles := rfl
  strings := fun hs np' => by
    rw [setName_same (·.ident) hident np']
    exact hs np'

theorem SameButMarks.keeps (hs : SameButMarks l l') : Keeps l l' where
  names := fun ifi => by rw [hs.ifiles ifi]
  source := fun np => by rw [hs.names np]
  ident := fun np _ => by rw [hs.names np]
  nnames := hs.nnames.ge
  nifiles := hs.nifiles
  strings := fun h np => by
    rw [hs.names np]
    exact h np

theorem keeps_error (l : Linker) : Keeps l l.error :=
  ⟨fun _ => rfl, fun _ => rfl, fun _ _ => rfl, Nat.le_refl _, rfl, id⟩

theorem keeps_addName (hl : l.Valid) (hkey : 0 ∉ key) : Keeps l (l.addName key) := by
  have hself : (l.addName key).names l.nnames = nameAlloc key := Function.update_self ..
  have hne : ∀ np, np ≠ l.nnames → (l.addName key).names np = l.names np :=
    fun np hnp => Function.update_of_ne hnp ..
  refine ⟨fun _ => rfl, fun np => ?_, fun np hnp => ?_, Nat.le_succ _, rfl, fun hs np => ?_⟩
  · by_cases heq : np = l.nnames
    · subst heq
      rw [hself, hl.unmade _ (Nat.le_refl _)]
      rfl
    · rw [hne np heq]
  · rw [hne np (Nat.ne_of_lt hnp)]
  · by_cases heq : np = l.nnames
    · subst heq
      rw [hself]
      exact hkey
    · rw [hne np heq]
      exact hs np

theorem keeps_findName (hl : l.Valid) (hkey : 0 ∉ key) : Keeps l (l.findName key).2 := by
  rcases l.findName_cases key with heq | heq
  · rw [heq]
    exact .refl l
  · rw [heq]
    exact keeps_addName hl hkey

theorem readNeed_keeps {n : Word} (hread : readNeed ifi np l n = some l') : Keeps l l' := by
  have hadd : ∀ need, Keeps l (l.addNeed np need) := by
    intro need
    rcases l.addNeed_eq np need with heq | heq
    · rw [heq]
      exact .refl l
    · rw [heq]
      exact keeps_setName (fun _ => rfl) fun _ => rfl
  rw [readNeed] at hread
  rcases hn : l.ifileName ifi n with _ | need
  · rw [hn] at hread
    obtain rfl := Option.some.inj hread
    exact keeps_error l
  · rw [hn] at hread
    dsimp only at hread
    split_ifs at hread
    · exact (hadd need).trans (markWantedAt_same hread).keeps
    · obtain rfl := Option.some.inj hread
      exact hadd need

theorem readNeeds_keeps {n : Word} {needs : List Word}
    (hread : l.readNeeds ifi n needs = some l') : Keeps l l' := by
  rw [readNeeds] at hread
  rcases hn : l.ifileName ifi n with _ | np
  · rw [hn] at hread
    obtain rfl := Option.some.inj hread
    exact keeps_error l
  · rw [hn] at hread
    exact foldlM_rel .refl .trans (fun hx => readNeed_keeps hx) hread

theorem recorded_addIfile (hr : Recorded l read) (member : Bool) :
    Recorded (l.addIfile member) read where
  names := by
    intro ifi
    by_cases heq : ifi = l.nifiles
    · -- there is no record of the file yet
      have hnone : (read.filter fun e => e.ifi == ifi) = [] := by
        refine List.filter_eq_nil_iff.mpr fun e he hifi => ?_
        have hlt := hr.opened e he
        rw [beq_iff_eq.mp hifi, heq] at hlt
        exact Nat.lt_irrefl _ hlt
      rw [hnone, heq, addIfile]
      simp
    · rw [addIfile]
      simp only [Function.update_of_ne heq]
      exact hr.names ifi
  source := hr.source
  ident := hr.ident
  fresh := hr.fresh
  opened := fun e he => Nat.lt_succ_of_lt (hr.opened e he)
  strings := hr.strings

/-! ### A `NAME` record -/

/-- The name that is looked up has the identifier. -/
theorem findName_ident (hs : l.Strings) (key : List Byte) :
    ((l.findName key).2.names (l.findName key).1).ident = key := by
  rw [findName]
  split
  · next np hfound =>
      split_ifs at hfound
      have hnamed := List.find?_some hfound
      rw [isNamed, Bool.and_eq_true, Bool.and_eq_true, beq_iff_eq, beq_iff_eq, beq_iff_eq] at hnamed
      obtain ⟨⟨-, htake⟩, hlength⟩ := hnamed
      -- there is no zero in the identifier, so all of it is compared
      have hall : (l.names np).ident.takeWhile (· != 0) = (l.names np).ident := by
        refine List.takeWhile_eq_self_iff.mpr fun b hb => ?_
        rw [bne_iff_ne]
        rintro rfl
        exact hs np hb
      rw [hall] at hlength
      rwa [← hlength, List.take_length] at htake
  · show (Function.update l.names l.nnames (nameAlloc key) l.nnames).ident = key
    rw [Function.update_self]
    rfl

theorem findName_nil (l : Linker) : (l.findName []).1 = l.nnames := rfl

theorem define_ifile_names (l : Linker) (np : NameId) (ifi ifi' : FileId) :
    ((l.define np ifi).ifiles ifi').names = (l.ifiles ifi').names := by
  rw [define_ifiles]
  split_ifs
  · by_cases heq : ifi' = ifi
    · subst heq
      rw [Function.update_self]
    · rw [Function.update_of_ne heq]
  · rfl

/-- What a `NAME` record changes, apart from the name that is looked up. -/
theorem addEntry_spec (l₁ : Linker) (ifi : FileId) (np : NameId) (flags : Word) :
    (∀ ifi', ((l₁.addEntry ifi np flags).ifiles ifi').names =
      (l₁.ifiles ifi').names ++ if ifi == ifi' then [np] else []) ∧
    (∀ np', ((l₁.addEntry ifi np flags).names np').source =
      (l₁.names np').source ++
        if np == np' && flags &&& litNameDefined != 0 then [ifi] else []) ∧
    ∀ np', ((l₁.addEntry ifi np flags).names np').ident = (l₁.names np').ident := by
  rw [addEntry]
  generalize hl₂ : (if flags &&& litNameCommon ≠ 0 then
    (l₁.setIfile ifi fun ifi => { ifi with names := ifi.names ++ [np] }).setName np
      fun name => { name with common := true }
    else l₁.setIfile ifi fun ifi => { ifi with names := ifi.names ++ [np] }) = l₂
  have hfiles : ∀ ifi', (l₂.ifiles ifi').names =
      (l₁.ifiles ifi').names ++ if ifi == ifi' then [np] else [] := by
    intro ifi'
    have hset : l₂.ifiles = (l₁.setIfile ifi fun ifi =>
        { ifi with names := ifi.names ++ [np] }).ifiles := by
      rw [← hl₂]
      split_ifs <;> rfl
    rw [hset]
    by_cases heq : ifi' = ifi
    · subst heq
      rw [setIfile_self]
      simp
    · rw [setIfile_ne _ heq]
      simp [Ne.symm heq]
  have hsource : ∀ np', (l₂.names np').source = (l₁.names np').source := by
    intro np'
    rw [← hl₂]
    split_ifs
    · refine setName_same (·.source) ?_ np'
      exact fun _ => rfl
    · rfl
  have hident : ∀ np', (l₂.names np').ident = (l₁.names np').ident := by
    intro np'
    rw [← hl₂]
    split_ifs
    · refine setName_same (·.ident) ?_ np'
      exact fun _ => rfl
    · rfl
  split_ifs with hd
  · -- the file is one more source
    refine ⟨fun ifi' => ?_, fun np' => ?_, fun np' => ?_⟩
    · rw [define_ifile_names]
      exact hfiles ifi'
    · rw [define_names]
      by_cases heq : np' = np
      · subst heq
        rw [Function.update_self, hsource, beq_self_eq_true, Bool.true_and,
          if_pos (bne_iff_ne.mpr hd)]
      · rw [Function.update_of_ne heq, hsource]
        simp [Ne.symm heq]
    · rw [define_names, ← hident]
      by_cases heq : np' = np
      · subst heq
        rw [Function.update_self]
      · rw [Function.update_of_ne heq]
  · rw [not_not] at hd
    refine ⟨hfiles, fun np' => ?_, fun np' => ?_⟩
    · rw [← hsource, addRef, setName_same (·.source) (by exact fun _ => rfl)]
      simp [hd]
    · rw [← hident, addRef, setName_same (·.ident) (by exact fun _ => rfl)]

theorem recorded_readName (hr : Recorded l read) (hi : Inv l h) (hifi : ifi < l.nifiles)
    {ident : List Byte} (hident : 0 ∉ ident) {flags : Word}
    (hread : l.readName ifi ident flags = some l') :
    Recorded l' (read ++ [⟨ifi, ident, flags, (l.findName ident).1⟩]) := by
  have hnifiles := readName_nifiles hread
  obtain ⟨-, rfl⟩ := readName_eq_some.mp hread
  obtain ⟨hnames, hsource, hid⟩ :=
    addEntry_spec (l.findName ident).2 ifi (l.findName ident).1 flags
  have hr₁ := hr.keep hi.valid (keeps_findName hi.valid hident)
  refine ⟨fun ifi' => ?_, fun np => ?_, fun e he => ?_, ?_, fun e he => ?_, fun np => ?_⟩
  · rw [hnames, hr₁.names, List.filter_append, List.map_append, List.filter_singleton]
    dsimp only
    cases ifi == ifi' <;> rfl
  · rw [hsource, hr₁.source, List.filter_append, List.map_append, List.filter_singleton,
      Entry.defined]
    dsimp only
    cases (l.findName ident).1 == np && flags &&& litNameDefined != 0 <;> rfl
  · rw [hid]
    rcases List.mem_append.mp he with he | he
    · exact hr₁.ident e he
    · rw [List.mem_singleton.mp he]
      exact findName_ident hr.strings ident
  · refine List.pairwise_append.mpr ⟨hr.fresh, List.pairwise_singleton _ _, ?_⟩
    intro e he e' he' hnil
    rw [List.mem_singleton.mp he'] at hnil ⊢
    dsimp only at hnil ⊢
    rw [hnil, findName_nil]
    exact Nat.ne_of_lt (hr.lt hi.valid he)
  · rw [hnifiles]
    rcases List.mem_append.mp he with he | he
    · exact hr.opened e he
    · rw [List.mem_singleton.mp he]
      exact hifi
  · rw [hid]
    exact hr₁.strings np

/-! ### Runs -/

theorem Recorded.skip {e : Event} (hr : Recorded l' read) (hnone : l.entry e = none) :
    Recorded l' (read ++ (l.entry e).toList) := by
  rwa [hnone, Option.toList_none, List.append_nil]

theorem recorded_step (hr : Recorded l read) (hi : Inv l h) {e : Event} (he : e.IsString)
    (hstep : l.step e = some l') : Recorded l' (read ++ (l.entry e).toList) := by
  cases e with
  | lookup ident =>
      obtain ⟨found, hfound, rfl⟩ := Option.map_eq_some_iff.mp hstep
      obtain ⟨-, rfl⟩ := tableLookup_eq_some.mp hfound
      refine .skip ?_ rfl
      exact hr.keep hi.valid (keeps_findName hi.valid he)
  | hook ident =>
      obtain ⟨found, hfound, hmark⟩ := Option.bind_eq_some_iff.mp hstep
      obtain ⟨-, rfl⟩ := tableLookup_eq_some.mp hfound
      have hi₁ := inv_findName hi ident
      refine .skip ?_ rfl
      exact (hr.keep hi.valid (keeps_findName hi.valid he)).keep hi₁.valid
        (markWantedAt_same hmark).keeps
  | ifile member =>
      obtain rfl := Option.some.inj hstep
      refine .skip ?_ rfl
      exact recorded_addIfile hr member
  | name ifi ident flags =>
      rw [step] at hstep
      split_ifs at hstep with hifi
      · rw [entry, if_pos hifi]
        exact recorded_readName hr hi hifi he hstep
      · obtain rfl := Option.some.inj hstep
        exact .skip hr (if_neg hifi)
  | needs ifi n needs =>
      refine .skip ?_ rfl
      rw [step] at hstep
      split_ifs at hstep
      · exact hr.keep hi.valid (readNeeds_keeps hstep)
      · obtain rfl := Option.some.inj hstep
        exact hr
  | unexpected =>
      obtain rfl := Option.some.inj hstep
      refine .skip ?_ rfl
      exact hr.keep hi.valid (keeps_error l)

theorem recorded_runFrom {h' : History} {es : List Event} (hr : Recorded l read) (hi : Inv l h)
    (hes : ∀ e ∈ es, e.IsString) (hrun : runFrom (l, h) es = some (l', h')) :
    Recorded l' (read ++ entriesFrom l es) ∧ Inv l' h' := by
  induction es generalizing l h read with
  | nil =>
      obtain ⟨rfl, rfl⟩ := Prod.mk.inj (Option.some.inj hrun)
      rw [entriesFrom, List.append_nil]
      exact ⟨hr, hi⟩
  | cons e es ih =>
      obtain ⟨he, hes⟩ := List.forall_mem_cons.mp hes
      rw [runFrom, List.foldlM_cons] at hrun
      obtain ⟨s, hs, hrun⟩ := Option.bind_eq_some_iff.mp hrun
      obtain ⟨l₁, hstep, rfl⟩ := Option.map_eq_some_iff.mp hs
      have hi₁ := inv_step hi hstep
      rw [entriesFrom, hstep, Option.map_some, Option.getD_some, ← List.append_assoc]
      exact ih (recorded_step hr hi he hstep) hi₁ hes hrun

end Linker

section

variable {es : List Event} {l : Linker} {h : History}

/-- After a run `lit` knows what the records say. -/
theorem run_recorded (hes : ∀ e ∈ es, e.IsString) (hrun : run es = some (l, h)) :
    l.Recorded (entries es) ∧ l.Inv h := by
  have hr : Linker.Recorded .initial [] :=
    { names := fun _ => rfl
      source := fun _ => rfl
      ident := List.forall_mem_nil _
      fresh := .nil
      opened := List.forall_mem_nil _
      strings := fun _ => List.not_mem_nil }
  have hrecorded := Linker.recorded_runFrom hr Linker.inv_initial hes hrun
  rwa [List.nil_append] at hrecorded

/-- The record is of the earliest file that marks its name as defined. -/
def Entry.IsFirst (es : List Event) (e : Entry) : Prop :=
  e ∈ entries es ∧ e.defined = true ∧
    ∀ e' ∈ entries es, e'.np = e.np → e'.defined = true → e.ifi ≤ e'.ifi

/-- The earliest file that defines a name is its first source. -/
theorem firstSource_of_isFirst (hr : l.Recorded (entries es)) (ho : InReadingOrder es) {e : Entry}
    (he : e.IsFirst es) : l.firstSource e.np = some e.ifi := by
  obtain ⟨hmem, hdefined, hfirst⟩ := he
  rw [Linker.firstSource, hr.source]
  have hmem' : e ∈ (entries es).filter fun e' => e'.np == e.np && e'.defined :=
    List.mem_filter.mpr ⟨hmem, by rw [hdefined, beq_self_eq_true, Bool.and_self]⟩
  have hsorted := ho.filter fun e' => e'.np == e.np && e'.defined
  generalize hread : ((entries es).filter fun e' => e'.np == e.np && e'.defined) = read
    at hmem' hsorted
  cases read with
  | nil => cases hmem'
  | cons e₀ read =>
      have he₀ : e₀ ∈ (entries es).filter fun e' => e'.np == e.np && e'.defined := by
        rw [hread]
        exact List.mem_cons_self
      obtain ⟨he₀, hnp⟩ := List.mem_filter.mp he₀
      rw [Bool.and_eq_true, beq_iff_eq] at hnp
      have hle := hfirst e₀ he₀ hnp.1 hnp.2
      have hge : e₀.ifi ≤ e.ifi := by
        rcases List.mem_cons.mp hmem' with rfl | hmem'
        · exact Nat.le_refl _
        · exact (List.pairwise_cons.mp hsorted).1 e hmem'
      rw [List.map_cons, List.head?_cons, Nat.le_antisymm hge hle]

/-- The earliest file that defines a wanted name is marked as wanted. -/
theorem firstSource_wanted (hr : l.Recorded (entries es)) (hi : l.Inv h) (ho : InReadingOrder es)
    {e : Entry} (he : e.IsFirst es) (hw : (l.names e.np).wanted = true) :
    (l.ifiles e.ifi).wanted = true :=
  hi.sourced e.np hw e.ifi (firstSource_of_isFirst hr ho he)

end

end Ttools
