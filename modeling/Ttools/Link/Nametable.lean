import Ttools.Format.Segments
import Ttools.Link.Wanted

/-!
# Reading the nametables

`ifile_read_nametable` (`lit/lit.c`) reads the `NAME` and `NEEDS` records of a file.  Between two
records `main` may look up a name of the command line, mark a hook or open a file; an `Event` is
any of these or one record.

* `run_selects`: after any events whose identifiers have their hash columns in the table, the names
  that are wanted are the least set that has the hooks and is closed under the needs read so far,
  and `undefined_wanted_count` counts those that are not defined.
* `ifileReadNametable_run`: what is done with the bytes of a file are such events.
-/

namespace Ttools

/-- `LIT_NAME`, `LIT_NEEDS`, and the flag bits of a nametable entry. -/
def litName : Word := -3
def litNeeds : Word := -4
def litNameDefined : Word := 1
def litNameCommon : Word := 4

/-- `LIT_AREA_NAMETABLE`, `LIT_AREA_NEEDS`. -/
def litAreaNametable : Word := 0
def litAreaNeeds : Word := 1

namespace Linker

/-- The branch for a name that is defined in this file. -/
def define (l : Linker) (np : NameId) (ifi : FileId) : Linker :=
  let name := l.names np
  let l :=
    if name.defined && !name.common && !(l.ifiles ifi).member then l.warning      -- "redefinition of"
    else l
  let l := l.addSource np ifi
  let l :=
    if name.wanted && !name.defined then
      let l := l.setIfile ifi fun ifi => { ifi with wanted := true }
      if name.special = .no then l.count (-1) else l
    else l
  l.setName np fun name => { name with defined := true }

/-- A `NAME` record of the name `np`. -/
def addEntry (l : Linker) (ifi : FileId) (np : NameId) (n : Word) : Linker :=
  let l := l.setIfile ifi fun ifi => { ifi with names := ifi.names ++ [np] }
  let l :=
    if n &&& litNameCommon ≠ 0 then l.setName np fun name => { name with common := true } else l
  if n &&& litNameDefined ≠ 0 then l.define np ifi else l.addRef np ifi

/-- A `NAME` record; `none` is an access outside of the table of names. -/
def readName (l : Linker) (ifi : FileId) (ident : List Byte) (n : Word) : Option Linker :=
  (l.tableLookup ident).map fun (np, l) => l.addEntry ifi np n

/-- One number in the list of a `NEEDS` record of the name `np`. -/
def readNeed (ifi : FileId) (np : NameId) (l : Linker) (n : Word) : Option Linker :=
  match l.ifileName ifi n with
  | none => some l.error                                  -- "name index outside nametable"
  | some need =>
      let l := l.addNeed np need
      if (l.names np).wanted then l.markWanted need else some l

/-- A `NEEDS` record. -/
def readNeeds (l : Linker) (ifi : FileId) (n : Word) (needs : List Word) : Option Linker :=
  match l.ifileName ifi n with
  | none => some l.error                                  -- "name index outside nametable"
  | some np => needs.foldlM (readNeed ifi np) l

/-- `ifile_add`, `ifile_add_member`. -/
def addIfile (l : Linker) (member : Bool) : Linker :=
  { l with
    ifiles := Function.update l.ifiles l.nifiles { names := [], member := member, wanted := false }
    nifiles := l.nifiles + 1 }

end Linker

/-- What happens during the first pass over the files: `main` looks up a name, marks a hook or
opens a file, and `ifile_read_nametable` reads a record of a file, or reports an error about a
record of another kind. -/
inductive Event where
  | lookup (ident : List Byte)
  | hook (ident : List Byte)
  | ifile (member : Bool)
  | name (ifi : FileId) (ident : List Byte) (flags : Word)
  | needs (ifi : FileId) (n : Word) (needs : List Word)
  | unexpected

/-- An event; nothing is read from a file that has not been opened. -/
def Linker.step (l : Linker) : Event → Option Linker
  | .lookup ident => (l.tableLookup ident).map (·.2)
  | .hook ident => (l.tableLookup ident).bind fun (np, l) => l.markWanted np
  | .ifile member => some (l.addIfile member)
  | .name ifi ident flags => if ifi < l.nifiles then l.readName ifi ident flags else some l
  | .needs ifi n needs => if ifi < l.nifiles then l.readNeeds ifi n needs else some l
  | .unexpected => some l.error

/-- What has been read: the hooks, and of every `NEEDS` record the pairs of names. -/
structure History where
  hooks : List NameId
  needs : List (NameId × NameId)

/-- The pairs of names in a `NEEDS` record. -/
def Linker.needPairs (l : Linker) (ifi : FileId) (n : Word) (needs : List Word) :
    List (NameId × NameId) :=
  match l.ifileName ifi n with
  | none => []
  | some np => (needs.filterMap (l.ifileName ifi)).map fun need => (np, need)

/-- The history after an event, with `l` as it is before it. -/
def History.after (h : History) (l : Linker) : Event → History
  | .hook ident => { h with hooks := (l.findName ident).1 :: h.hooks }
  | .needs ifi n needs =>
      if ifi < l.nifiles then { h with needs := l.needPairs ifi n needs ++ h.needs } else h
  | _ => h

/-- The events of a run. -/
def runFrom (s : Linker × History) (es : List Event) : Option (Linker × History) :=
  es.foldlM (fun s e => (s.1.step e).map fun l => (l, s.2.after s.1 e)) s

/-- A run of `lit`. -/
def run (es : List Event) : Option (Linker × History) := runFrom (Linker.initial, ⟨[], []⟩) es

/-! ### The bytes of a file -/

/-- The list of a `NEEDS` record, up to the number -1.  Every number takes a byte, so the number
of bytes left bounds the rounds. -/
def litInNeeds : Nat → Reader (List Word)
  | 0 => fatal
  | fuel + 1 => do
      let n ← litInNumber
      if n = -1 then return []
      else
        let needs ← litInNeeds fuel
        return n :: needs

/-- The loop of `ifile_read_nametable`. -/
def nametableLoop (ifi : FileId) : Nat → Word → Linker → Reader Linker
  | 0, _, _ => fatal
  | fuel + 1, currentArea, l => do
      let ltag ← litInNumber
      if ltag = litDummy then nametableLoop ifi fuel currentArea l
      else if ltag = litName then do
        let ident ← litInString
        let n ← litInNumber
        let l ← built (l.readName ifi ident n)
        nametableLoop ifi fuel currentArea l
      else if ltag = litNeeds then do
        let n ← litInNumber
        if l.ifileName ifi n = none then           -- the list is not eaten
          nametableLoop ifi fuel currentArea l.error
        else
          let needs ← fun f => litInNeeds (f.bytes.length + 1) f
          let l ← built (l.readNeeds ifi n needs)
          nametableLoop ifi fuel currentArea l
      else if ltag = litMarker then do
        let n ← litInNumber
        let l := if n ≠ currentArea then l.error else l        -- "unexpected area code"
        let _ ← litInNumber                                    -- "Eat the area length"
        if litAreaNeeds.sle currentArea then return l
        else nametableLoop ifi fuel (currentArea + 1) l
      else if ltag = litComment then do
        let _ ← litInString
        nametableLoop ifi fuel currentArea l
      else return l.error                          -- "unexpected tag"

/-- `ifile_read_nametable`. -/
def ifileReadNametable (l : Linker) (ifi : FileId) : Reader Linker := fun f =>
  nametableLoop ifi (f.bytes.length + 1) litAreaNametable l f

namespace Linker

variable {l l' : Linker} {h : History} {np : NameId} {ifi : FileId}

/-- What holds between any two events. -/
structure Inv (l : Linker) (h : History) : Prop where
  valid : l.Valid
  counted : l.Counted
  sourced : l.Sourced
  closure : Support.IsClosure {np | np ∈ h.hooks} l.Needs l.Wanted
  read : ∀ np need, np ≠ need → ((np, need) ∈ h.needs ↔ l.Needs np need)

theorem inv_initial : Inv initial ⟨[], []⟩ where
  valid :=
    { unmade := fun _ _ => rfl
      needs_lt := fun _ _ hneed => absurd hneed List.not_mem_nil
      names_lt := fun _ _ hnp => absurd hnp List.not_mem_nil
      source := fun _ => ⟨fun hd => (by cases hd), fun hne => absurd rfl hne⟩
      source_lt := fun _ _ hifi => absurd hifi List.not_mem_nil }
  counted := rfl
  sourced := fun _ hw => (by cases hw)
  closure := by
    have hwanted : initial.Wanted = ∅ := by
      ext np
      exact ⟨fun hw => (by cases hw), fun hw => (by cases hw)⟩
    have hhooks : {np : NameId | np ∈ ([] : List NameId)} = ∅ := by
      ext np
      exact iff_of_false List.not_mem_nil (Set.notMem_empty np)
    rw [hwanted, hhooks]
    exact Support.isClosure_empty _
  read := fun _ _ _ => iff_of_false List.not_mem_nil List.not_mem_nil

/-! ### Changes that do not matter -/

/-- Apart from the needs, nothing is different that the selection looks at. -/
structure Quiet (l l' : Linker) : Prop where
  names : ∀ np, l'.names np =
    { l.names np with
      common := (l'.names np).common
      refs := (l'.names np).refs
      needs := (l'.names np).needs }
  unmade : ∀ np, l.nnames ≤ np → l'.names np = l.names np
  nnames : l'.nnames = l.nnames
  nifiles : l'.nifiles = l.nifiles
  count : l'.undefinedWantedCount = l.undefinedWantedCount
  kept : ∀ ifi, (l.ifiles ifi).wanted = true → (l'.ifiles ifi).wanted = true
  names_lt : ∀ ifi, ∀ np ∈ (l'.ifiles ifi).names, np ∈ (l.ifiles ifi).names ∨ np < l.nnames

theorem Quiet.refl (l : Linker) : Quiet l l where
  names := fun _ => rfl
  unmade := fun _ _ => rfl
  nnames := rfl
  nifiles := rfl
  count := rfl
  kept := fun _ hw => hw
  names_lt := fun _ _ hnp => Or.inl hnp

theorem Quiet.valid (hq : Quiet l l') (hl : l.Valid)
    (hneeds : ∀ np need, l'.Needs np need → need < l.nnames) : l'.Valid where
  unmade := by
    intro np hnp
    rw [hq.nnames] at hnp
    rw [hq.unmade np hnp, hl.unmade np hnp]
  needs_lt := by
    rw [hq.nnames]
    exact hneeds
  names_lt := by
    intro ifi np hnp
    rw [hq.nnames]
    exact (hq.names_lt ifi np hnp).elim (hl.names_lt ifi np) id
  source := by
    intro np
    rw [hq.names np]
    exact hl.source np
  source_lt := by
    intro np
    rw [hq.names np, hq.nifiles]
    exact hl.source_lt np

theorem Quiet.counted (hq : Quiet l l') (hc : l.Counted) : l'.Counted := by
  have hundefined : ∀ np, l'.isUndefined np = l.isUndefined np := fun np => by
    rw [isUndefined, hq.names np, isUndefined]
  simpa only [Counted, hundefined, hq.count, hq.nnames] using hc

theorem Quiet.wanted (hq : Quiet l l') : l'.Wanted = l.Wanted := by
  ext np
  rw [Wanted, Wanted, Set.mem_ofPred_eq, Set.mem_ofPred_eq, hq.names np]

theorem Quiet.sourced (hq : Quiet l l') (hs : l.Sourced) : l'.Sourced := by
  intro np hw ifi hifi
  rw [hq.wanted] at hw
  rw [firstSource, hq.names np] at hifi
  exact hq.kept ifi (hs np hw ifi hifi)

theorem Quiet.inv (hq : Quiet l l') (hneeds : l'.Needs = l.Needs) (hi : Inv l h) : Inv l' h where
  valid := hq.valid hi.valid (hneeds ▸ hi.valid.needs_lt)
  counted := hq.counted hi.counted
  sourced := hq.sourced hi.sourced
  closure := by
    rw [hneeds, hq.wanted]
    exact hi.closure
  read := by
    rw [hneeds]
    exact hi.read

theorem quiet_setName {f : LinkName → LinkName} (hlt : np < l.nnames)
    (hf : ∀ name, f name =
      { name with common := (f name).common, refs := (f name).refs, needs := (f name).needs }) :
    Quiet l (l.setName np f) where
  names := by
    intro np'
    by_cases heq : np' = np
    · subst heq
      rw [setName_self]
      exact hf _
    · rw [setName_ne _ heq]
  unmade := fun np' hle => setName_ne _ (Nat.ne_of_gt (hlt.trans_le hle))
  nnames := rfl
  nifiles := rfl
  count := rfl
  kept := fun _ hw => hw
  names_lt := fun _ _ hnp => Or.inl hnp

theorem needs_setName {f : LinkName → LinkName} (hf : ∀ name, (f name).needs = name.needs) :
    (l.setName np f).Needs = l.Needs := by
  funext np' need
  by_cases heq : np' = np
  · subst heq
    rw [Needs, setName_self, hf, Needs]
  · rw [Needs, setName_ne _ heq, Needs]

theorem quiet_addIfileName (hlt : np < l.nnames) (ifi : FileId) :
    Quiet l (l.setIfile ifi fun ifi => { ifi with names := ifi.names ++ [np] }) where
  names := fun _ => rfl
  unmade := fun _ _ => rfl
  nnames := rfl
  nifiles := rfl
  count := rfl
  kept := by
    intro ifi' hw
    by_cases heq : ifi' = ifi
    · subst heq
      rwa [setIfile_self]
    · rwa [setIfile_ne _ heq]
  names_lt := by
    intro ifi' np' hnp'
    by_cases heq : ifi' = ifi
    · subst heq
      rw [setIfile_self, List.mem_append, List.mem_singleton] at hnp'
      rcases hnp' with hnp' | rfl
      · exact Or.inl hnp'
      · exact Or.inr hlt
    · rw [setIfile_ne _ heq] at hnp'
      exact Or.inl hnp'

/-! ### The events -/

theorem inv_addName (hi : Inv l h) (key : List Byte) : Inv (l.addName key) h := by
  have hself : (l.addName key).names l.nnames = nameAlloc key := Function.update_self ..
  have hne : ∀ np, np ≠ l.nnames → (l.addName key).names np = l.names np :=
    fun np hnp => Function.update_of_ne hnp ..
  have hblank : l.names l.nnames = nameAlloc [] := hi.valid.unmade _ (Nat.le_refl _)
  have hneeds : (l.addName key).Needs = l.Needs := by
    funext np need
    by_cases hnp : np = l.nnames
    · subst hnp
      rw [Needs, hself, Needs, hblank]
      rfl
    · rw [Needs, hne np hnp, Needs]
  have hwanted : (l.addName key).Wanted = l.Wanted := by
    ext np
    rw [Wanted, Wanted, Set.mem_ofPred_eq, Set.mem_ofPred_eq]
    by_cases hnp : np = l.nnames
    · subst hnp
      rw [hself, hblank]
      rfl
    · rw [hne np hnp]
  have hsource : ∀ np, ((l.addName key).names np).source = (l.names np).source := by
    intro np
    by_cases hnp : np = l.nnames
    · subst hnp
      rw [hself, hblank]
      rfl
    · rw [hne np hnp]
  have hdefined : ∀ np, ((l.addName key).names np).defined = (l.names np).defined := by
    intro np
    by_cases hnp : np = l.nnames
    · subst hnp
      rw [hself, hblank]
      rfl
    · rw [hne np hnp]
  refine ⟨⟨fun np hnp => ?_, fun np need hneed => ?_, fun ifi np hnp => ?_, fun np => ?_,
    fun np => ?_⟩, ?_, fun np hw ifi hifi => ?_, ?_, ?_⟩
  · rw [hne np (Nat.ne_of_gt hnp)]
    exact hi.valid.unmade np (Nat.le_of_succ_le hnp)
  · rw [hneeds] at hneed
    exact Nat.lt_succ_of_lt (hi.valid.needs_lt np need hneed)
  · exact Nat.lt_succ_of_lt (hi.valid.names_lt ifi np hnp)
  · rw [hsource, hdefined]
    exact hi.valid.source np
  · rw [hsource]
    exact hi.valid.source_lt np
  · have hundefined : ∀ np, np < l.nnames → (l.addName key).isUndefined np = l.isUndefined np :=
      fun np hnp => by rw [isUndefined, hne np (Nat.ne_of_lt hnp), isUndefined]
    have hlast : ¬(l.addName key).isUndefined l.nnames = true := by
      rw [isUndefined, hself]
      exact Bool.false_ne_true
    have hcard : ((Finset.range (l.nnames + 1)).filter fun np => (l.addName key).isUndefined np) =
        (Finset.range l.nnames).filter fun np => l.isUndefined np := by
      rw [Finset.range_add_one, Finset.filter_insert, if_neg hlast]
      exact Finset.filter_congr fun np hnp => by rw [hundefined np (Finset.mem_range.mp hnp)]
    have hc := hi.counted
    rw [Counted] at hc ⊢
    exact hc.trans (congrArg (fun s : Finset NameId => (s.card : Int)) hcard.symm)
  · rw [firstSource, hsource] at hifi
    rw [hwanted] at hw
    exact hi.sourced np hw ifi hifi
  · rw [hneeds, hwanted]
    exact hi.closure
  · rw [hneeds]
    exact hi.read

theorem inv_findName (hi : Inv l h) (key : List Byte) : Inv (l.findName key).2 h := by
  rcases l.findName_cases key with heq | heq
  · rw [heq]
    exact hi
  · rw [heq]
    exact inv_addName hi key

theorem inv_addIfile (hi : Inv l h) (member : Bool) : Inv (l.addIfile member) h := by
  have hlast : (l.addIfile member).ifiles l.nifiles =
      { names := [], member := member, wanted := false } := Function.update_self ..
  have hne : ∀ ifi, ifi ≠ l.nifiles → (l.addIfile member).ifiles ifi = l.ifiles ifi :=
    fun ifi hifi => Function.update_of_ne hifi ..
  refine ⟨⟨hi.valid.unmade, hi.valid.needs_lt, fun ifi np hnp => ?_, hi.valid.source,
    fun np ifi hifi => Nat.lt_succ_of_lt (hi.valid.source_lt np ifi hifi)⟩, hi.counted,
    fun np hw ifi hifi => ?_, hi.closure, hi.read⟩
  · by_cases heq : ifi = l.nifiles
    · subst heq
      rw [hlast] at hnp
      cases hnp
    · rw [hne ifi heq] at hnp
      exact hi.valid.names_lt ifi np hnp
  · have hlt : ifi < l.nifiles := hi.valid.source_lt np ifi (List.mem_of_mem_head? hifi)
    rw [hne ifi (Nat.ne_of_lt hlt)]
    exact hi.sourced np hw ifi hifi

/-- Marking a name: the hooks are those before it and the name. -/
theorem inv_markWanted (hi : Inv l h) (hnp : np < l.nnames) :
    ∃ l', l.markWanted np = some l' ∧ Inv l' { h with hooks := np :: h.hooks } := by
  obtain ⟨l', hmark, hm⟩ := markWanted_spec hi.valid hnp
  have hneeds := hm.needs_eq
  refine ⟨l', hmark, ?_, hm.counted hi.counted, hm.sourced hi.sourced, ?_, ?_⟩
  · exact hm.valid hi.valid (List.forall_mem_singleton.mpr hnp)
  · have hhooks : {np' : NameId | np' ∈ np :: h.hooks} = insert np {np' | np' ∈ h.hooks} := by
      ext np'
      exact List.mem_cons
    rw [hneeds, hhooks]
    exact hi.closure.root hm.marks
  · rw [hneeds]
    exact hi.read

theorem define_names (l : Linker) (np : NameId) (ifi : FileId) :
    (l.define np ifi).names = Function.update l.names np
      { l.names np with source := (l.names np).source ++ [ifi], defined := true } := by
  have haddSource : ∀ l₁ : Linker, l₁.names = l.names →
      ((l₁.addSource np ifi).setName np fun name => { name with defined := true }).names =
        Function.update l.names np
          { l.names np with source := (l.names np).source ++ [ifi], defined := true } := by
    intro l₁ hl₁
    rw [setName, addSource, setName_self, setName, Function.update_idem, hl₁]
  rw [define]
  split_ifs <;> exact haddSource _ rfl

theorem define_count (l : Linker) (np : NameId) (ifi : FileId) :
    (l.define np ifi).undefinedWantedCount =
      l.undefinedWantedCount + if l.isUndefined np then -1 else 0 := by
  rw [define, isUndefined]
  cases (l.names np).wanted <;> cases (l.names np).defined <;>
    by_cases hs : (l.names np).special = .no <;> split_ifs <;> simp_all [addSource, warning]

theorem define_ifiles (l : Linker) (np : NameId) (ifi : FileId) :
    (l.define np ifi).ifiles =
      if (l.names np).wanted && !(l.names np).defined then
        Function.update l.ifiles ifi { l.ifiles ifi with wanted := true }
      else l.ifiles := by
  rw [define]
  split_ifs <;> rfl

theorem define_kept (l : Linker) (np : NameId) (ifi : FileId) {ifi' : FileId}
    (hw : (l.ifiles ifi').wanted = true) : ((l.define np ifi).ifiles ifi').wanted = true := by
  rw [define_ifiles]
  split_ifs
  · by_cases heq : ifi' = ifi
    · subst heq
      rw [Function.update_self]
    · rwa [Function.update_of_ne heq]
  · exact hw

theorem define_nifiles (l : Linker) (np : NameId) (ifi : FileId) :
    (l.define np ifi).nifiles = l.nifiles := by
  rw [define]
  split_ifs <;> rfl

theorem inv_define (hi : Inv l h) (hnp : np < l.nnames) (hifi : ifi < l.nifiles) :
    Inv (l.define np ifi) h := by
  have hself : (l.define np ifi).names np =
      { l.names np with source := (l.names np).source ++ [ifi], defined := true } := by
    rw [define_names, Function.update_self]
  have hne : ∀ np', np' ≠ np → (l.define np ifi).names np' = l.names np' := fun np' hnp' => by
    rw [define_names, Function.update_of_ne hnp']
  have hnnames : (l.define np ifi).nnames = l.nnames := by
    rw [define]
    split_ifs <;> rfl
  have hnifiles := l.define_nifiles np ifi
  have hneeds : (l.define np ifi).Needs = l.Needs := by
    funext np' need
    by_cases heq : np' = np
    · subst heq
      rw [Needs, hself, Needs]
    · rw [Needs, hne np' heq, Needs]
  have hwanted : (l.define np ifi).Wanted = l.Wanted := by
    ext np'
    rw [Wanted, Wanted, Set.mem_ofPred_eq, Set.mem_ofPred_eq]
    by_cases heq : np' = np
    · subst heq
      rw [hself]
    · rw [hne np' heq]
  refine ⟨⟨fun np' hnp' => ?_, fun np' need hneed => ?_, fun ifi' np' hnp' => ?_, fun np' => ?_,
    fun np' ifi' hifi' => ?_⟩, ?_, fun np' hw ifi' hifi' => ?_, ?_, ?_⟩
  · rw [hnnames] at hnp'
    rw [hne np' (Nat.ne_of_gt (hnp.trans_le hnp'))]
    exact hi.valid.unmade np' hnp'
  · rw [hneeds] at hneed
    rw [hnnames]
    exact hi.valid.needs_lt np' need hneed
  · rw [hnnames]
    rw [define_ifiles] at hnp'
    split_ifs at hnp'
    · by_cases heq : ifi' = ifi
      · subst heq
        rw [Function.update_self] at hnp'
        exact hi.valid.names_lt ifi' np' hnp'
      · rw [Function.update_of_ne heq] at hnp'
        exact hi.valid.names_lt ifi' np' hnp'
    · exact hi.valid.names_lt ifi' np' hnp'
  · by_cases heq : np' = np
    · subst heq
      rw [hself]
      simp
    · rw [hne np' heq]
      exact hi.valid.source np'
  · rw [hnifiles]
    by_cases heq : np' = np
    · subst heq
      rw [hself, List.mem_append, List.mem_singleton] at hifi'
      rcases hifi' with hifi' | rfl
      · exact hi.valid.source_lt np' ifi' hifi'
      · exact hifi
    · rw [hne np' heq] at hifi'
      exact hi.valid.source_lt np' ifi' hifi'
  · -- the count goes down by one exactly when `np` has been counted
    have hundefined : ∀ np', np' ≠ np →
        ((l.define np ifi).isUndefined np' = true ↔ l.isUndefined np' = true) := by
      intro np' heq
      rw [isUndefined, hne np' heq, isUndefined]
    have hafter : ¬(l.define np ifi).isUndefined np = true := by
      rw [isUndefined, hself]
      simp
    have hc := hi.counted
    rw [Counted] at hc ⊢
    rw [define_count, hc, hnnames]
    by_cases hu : l.isUndefined np = true
    · have hone := card_filter_insert (p := fun y => (l.define np ifi).isUndefined y = true)
        (q := fun y => l.isUndefined y = true) hnp hafter hu fun y hy => hundefined y hy
      rw [if_pos hu, hone, Nat.cast_add, Nat.cast_one, Int.add_neg_cancel_right]
    · rw [if_neg hu, Int.add_zero]
      refine congrArg _ (card_filter_congr fun np' => ?_)
      by_cases heq : np' = np
      · subst heq
        exact iff_of_false hafter hu
      · exact hundefined np' heq
  · rw [hwanted] at hw
    by_cases heq : np' = np
    · subst heq
      rw [firstSource, hself] at hifi'
      rcases hsource : (l.names np').source with _ | ⟨first, others⟩
      · -- the first file that defines the name is this one
        rw [hsource] at hifi'
        obtain rfl : ifi = ifi' := Option.some.inj hifi'
        have hd : (l.names np').defined = false := by
          rw [Bool.eq_false_iff]
          exact fun hd => (hi.valid.source np').mp hd hsource
        rw [Wanted, Set.mem_ofPred_eq] at hw
        rw [define_ifiles, hw, hd]
        simp
      · rw [hsource] at hifi'
        exact define_kept l np' ifi (hi.sourced np' hw ifi' (by rw [firstSource, hsource]; exact hifi'))
    · rw [firstSource, hne np' heq] at hifi'
      exact define_kept l np ifi (hi.sourced np' hw ifi' hifi')
  · rw [hneeds, hwanted]
    exact hi.closure
  · rw [hneeds]
    exact hi.read

theorem findName_nifiles (l : Linker) (key : List Byte) :
    (l.findName key).2.nifiles = l.nifiles := by
  rcases l.findName_cases key with heq | heq
  · rw [heq]
  · rw [heq]
    rfl

theorem inv_addEntry (hi₁ : Inv l h) (hnp : np < l.nnames) (hifi : ifi < l.nifiles) (n : Word) :
    Inv (l.addEntry ifi np n) h := by
  rw [addEntry]
  have hi₂ := (quiet_addIfileName hnp ifi).inv rfl hi₁
  have hset : ∀ l₂, Inv l₂ h → np < l₂.nnames →
      Inv (l₂.setName np fun name => { name with common := true }) h :=
    fun l₂ hl₂ hnp₂ => (quiet_setName hnp₂ fun _ => rfl).inv (needs_setName fun _ => rfl) hl₂
  have hlast : ∀ l₂, Inv l₂ h → np < l₂.nnames → ifi < l₂.nifiles →
      Inv (if n &&& litNameDefined ≠ 0 then l₂.define np ifi else l₂.addRef np ifi) h := by
    intro l₂ hl₂ hnp₂ hifi₂
    split_ifs
    · exact inv_define hl₂ hnp₂ hifi₂
    · exact (quiet_setName hnp₂ fun _ => rfl).inv (needs_setName fun _ => rfl) hl₂
  by_cases hcommon : n &&& litNameCommon ≠ 0
  · rw [if_pos hcommon]
    exact hlast _ (hset _ hi₂ hnp) hnp hifi
  · rw [if_neg hcommon]
    exact hlast _ hi₂ hnp hifi

/-- A record is read where the column of its name is in the table. -/
theorem readName_eq_some {ident : List Byte} {n : Word} : l.readName ifi ident n = some l' ↔
    0 ≤ tableColumn ident ∧ l' = (l.findName ident).2.addEntry ifi (l.findName ident).1 n := by
  rw [readName, Option.map_eq_some_iff]
  constructor
  · rintro ⟨found, hfound, rfl⟩
    obtain ⟨hcolumn, rfl⟩ := tableLookup_eq_some.mp hfound
    exact ⟨hcolumn, rfl⟩
  · rintro ⟨hcolumn, rfl⟩
    exact ⟨_, tableLookup_eq_some.mpr ⟨hcolumn, rfl⟩, rfl⟩

theorem inv_readName (hi : Inv l h) (hifi : ifi < l.nifiles) {ident : List Byte} {n : Word}
    (hread : l.readName ifi ident n = some l') : Inv l' h := by
  obtain ⟨-, rfl⟩ := readName_eq_some.mp hread
  refine inv_addEntry (inv_findName hi ident) (l.findName_lt ident) ?_ n
  rwa [findName_nifiles]

/-! ### Needs -/

theorem addNeed_eq (l : Linker) (np need : NameId) :
    l.addNeed np need = l ∨
      l.addNeed np need = l.setName np fun name => { name with needs := name.needs ++ [need] } := by
  rw [addNeed]
  split_ifs
  · exact Or.inl rfl
  · exact Or.inr rfl

theorem quiet_addNeed (hnp : np < l.nnames) (need : NameId) : Quiet l (l.addNeed np need) := by
  rcases l.addNeed_eq np need with heq | heq
  · rw [heq]
    exact .refl l
  · rw [heq]
    exact quiet_setName hnp fun _ => rfl

theorem addNeed_needs (l : Linker) (np need a b : NameId) :
    (l.addNeed np need).Needs a b ↔ l.Needs a b ∨ (np ≠ need ∧ a = np ∧ b = need) := by
  rw [addNeed]
  split_ifs with hold
  · constructor
    · exact Or.inl
    · rintro (hab | ⟨hne, rfl, rfl⟩)
      · exact hab
      · exact hold.resolve_left hne
  · rw [not_or] at hold
    by_cases heq : a = np
    · subst heq
      rw [Needs, setName_self, List.mem_append, List.mem_singleton, Needs]
      exact or_congr_right ⟨fun hb => ⟨hold.1, rfl, hb⟩, fun hb => hb.2.2⟩
    · rw [Needs, setName_ne _ heq, Needs]
      exact ⟨Or.inl, fun hab => hab.resolve_right fun hb => heq hb.2.1⟩

/-- One pair of a `NEEDS` record. -/
theorem inv_addNeed (hi : Inv l h) (hnp : np < l.nnames) {need : NameId} (hneed : need < l.nnames) :
    ∃ l', (if ((l.addNeed np need).names np).wanted then (l.addNeed np need).markWanted need
        else some (l.addNeed np need)) = some l' ∧
      Inv l' { h with needs := (np, need) :: h.needs } ∧
      l'.nnames = l.nnames ∧ ∀ ifi n, l'.ifileName ifi n = l.ifileName ifi n := by
  have hq := quiet_addNeed hnp need
  have hiff := l.addNeed_needs np need
  have hvalid : (l.addNeed np need).Valid := hq.valid hi.valid fun a b hab => by
    rcases (hiff a b).mp hab with hab | ⟨-, -, rfl⟩
    · exact hi.valid.needs_lt a b hab
    · exact hneed
  have hread : ∀ a b, a ≠ b →
      ((a, b) ∈ (np, need) :: h.needs ↔ (l.addNeed np need).Needs a b) := by
    intro a b hab
    rw [List.mem_cons, Prod.mk.injEq, hi.read a b hab, hiff, or_comm]
    refine or_congr_right ⟨fun ⟨ha, hb⟩ => ⟨?_, ha, hb⟩, And.right⟩
    rw [← ha, ← hb]
    exact hab
  have hnames : ∀ ifi n, (l.addNeed np need).ifileName ifi n = l.ifileName ifi n := by
    intro ifi n
    rcases l.addNeed_eq np need with heq | heq
    · rw [heq]
    · rw [heq]
      rfl
  by_cases hw : (l.names np).wanted = true
  · have hw' : ((l.addNeed np need).names np).wanted = true := by
      rw [hq.names np]
      exact hw
    obtain ⟨l', hmark, hm⟩ := markWanted_spec hvalid (hq.nnames.symm ▸ hneed)
    have hneeds := hm.needs_eq
    have hmarks := hm.marks
    rw [hq.wanted] at hmarks
    refine ⟨l', by rw [if_pos hw', hmark], ⟨?_, ?_, ?_, ?_, ?_⟩, hm.nnames.trans hq.nnames,
      fun ifi n => ?_⟩
    · exact hm.valid hvalid (List.forall_mem_singleton.mpr (hq.nnames.symm ▸ hneed))
    · exact hm.counted (hq.counted hi.counted)
    · exact hm.sourced (hq.sourced hi.sourced)
    · rw [hneeds]
      by_cases hne : np = need
      · -- a name that needs itself: there is nothing left to mark
        have hsame : (l.addNeed np need).Needs = l.Needs := by
          funext a b
          exact propext ((hiff a b).trans (or_iff_left fun hb => hb.1 hne))
        rw [hsame] at hmarks ⊢
        have hclosed := hi.closure.1.2
        have hroots : ∀ a ∈ [need], a ∈ l.Wanted := by
          intro a ha
          rw [List.mem_singleton.mp ha, ← hne]
          exact hw
        rw [hmarks.eq_of_closed hclosed hroots]
        exact hi.closure
      · refine hi.closure.edge_marked (p := np) (q := need) (fun a b => ?_) hw hmarks
        rw [hiff]
        exact or_congr_right (and_iff_right hne)
    · rw [hneeds]
      exact hread
    · rw [← hnames, ifileName, hm.ifiles ifi]
      rfl
  · have hw' : ¬((l.addNeed np need).names np).wanted = true := by
      rw [hq.names np]
      exact hw
    refine ⟨l.addNeed np need, if_neg hw', ⟨hvalid, hq.counted hi.counted, hq.sourced hi.sourced,
      ?_, hread⟩, hq.nnames, hnames⟩
    rw [hq.wanted]
    refine (hi.closure.edge_unmarked (p := np) (q := need) (fun _ _ => Iff.rfl) hw).congr
      fun a b hab => ?_
    rw [hiff]
    refine or_congr_right ⟨fun ⟨ha, hb⟩ => ⟨?_, ha, hb⟩, And.right⟩
    rw [← ha, ← hb]
    exact hab

theorem ifileName_lt (hl : l.Valid) {n : Word} (hn : l.ifileName ifi n = some np) :
    np < l.nnames := by
  rw [ifileName] at hn
  split_ifs at hn
  exact hl.names_lt ifi np (List.mem_of_getElem? hn)

theorem inv_error (hi : Inv l h) : Inv l.error h :=
  Quiet.inv ⟨fun _ => rfl, fun _ _ => rfl, rfl, rfl, rfl, fun _ hw => hw, fun _ _ hnp => Or.inl hnp⟩
    rfl hi

/-- Only what is in the history counts, not in which order it has been read. -/
theorem Inv.congr {needs : List (NameId × NameId)} (hi : Inv l h)
    (hneeds : ∀ p, p ∈ needs ↔ p ∈ h.needs) : Inv l { h with needs := needs } :=
  ⟨hi.valid, hi.counted, hi.sourced, hi.closure,
    fun np need hne => (hneeds _).trans (hi.read np need hne)⟩

theorem inv_readNeeds_list (hi : Inv l h) (hnp : np < l.nnames) (ifi : FileId)
    (needs : List Word) :
    ∃ l', needs.foldlM (readNeed ifi np) l = some l' ∧
      Inv l' { h with
        needs := ((needs.filterMap (l.ifileName ifi)).map fun need => (np, need)) ++ h.needs } := by
  induction needs generalizing l h with
  | nil => exact ⟨l, rfl, hi⟩
  | cons n needs ih =>
      rw [List.foldlM_cons, readNeed]
      rcases hn : l.ifileName ifi n with _ | need
      · obtain ⟨l', hfold, hi'⟩ := ih (inv_error hi) hnp
        exact ⟨l', hfold, by rwa [List.filterMap_cons_none hn]⟩
      · obtain ⟨l₁, hstep, hi₁, hnnames, hnames⟩ := inv_addNeed hi hnp (ifileName_lt hi.valid hn)
        obtain ⟨l', hfold, hi'⟩ := ih hi₁ (hnnames.symm ▸ hnp)
        have hname : l₁.ifileName ifi = l.ifileName ifi := funext (hnames ifi)
        rw [hname] at hi'
        refine ⟨l', ?_, hi'.congr fun p => ?_⟩
        · dsimp only
          rw [hstep]
          exact hfold
        · rw [List.filterMap_cons_some hn, List.map_cons, List.cons_append, List.mem_cons,
            List.mem_append, List.mem_append, List.mem_cons]
          exact or_left_comm

theorem inv_readNeeds (hi : Inv l h) (ifi : FileId) (n : Word) (needs : List Word) :
    ∃ l', l.readNeeds ifi n needs = some l' ∧
      Inv l' { h with needs := l.needPairs ifi n needs ++ h.needs } := by
  rw [readNeeds, needPairs]
  rcases hn : l.ifileName ifi n with _ | np
  · exact ⟨l.error, rfl, inv_error hi⟩
  · exact inv_readNeeds_list hi (ifileName_lt hi.valid hn) ifi needs

/-! ### Runs -/

end Linker

/-- The identifier that an event looks up has its hash column in the table. -/
def Event.InTable : Event → Prop
  | .lookup ident => 0 ≤ Linker.tableColumn ident
  | .hook ident => 0 ≤ Linker.tableColumn ident
  | .name _ ident _ => 0 ≤ Linker.tableColumn ident
  | _ => True

instance (e : Event) : Decidable e.InTable :=
  match e with
  | .lookup ident | .hook ident | .name _ ident _ =>
      inferInstanceAs (Decidable (0 ≤ Linker.tableColumn ident))
  | .ifile _ | .needs .. | .unexpected => .isTrue trivial

namespace Linker

/-- An event that happens keeps the invariant. -/
theorem inv_step (hi : Inv l h) {e : Event} (hstep : l.step e = some l') :
    Inv l' (h.after l e) := by
  cases e with
  | lookup ident =>
      obtain ⟨found, hfound, rfl⟩ := Option.map_eq_some_iff.mp hstep
      obtain ⟨-, rfl⟩ := tableLookup_eq_some.mp hfound
      exact inv_findName hi ident
  | hook ident =>
      obtain ⟨found, hfound, hmark⟩ := Option.bind_eq_some_iff.mp hstep
      obtain ⟨-, rfl⟩ := tableLookup_eq_some.mp hfound
      obtain ⟨l₁, hmark₁, hi₁⟩ := inv_markWanted (inv_findName hi ident) (l.findName_lt ident)
      obtain rfl := Option.some.inj (hmark₁.symm.trans hmark)
      exact hi₁
  | ifile member =>
      obtain rfl := Option.some.inj hstep
      exact inv_addIfile hi member
  | name ifi ident flags =>
      rw [step] at hstep
      split_ifs at hstep with hifi
      · exact inv_readName hi hifi hstep
      · obtain rfl := Option.some.inj hstep
        exact hi
  | unexpected =>
      obtain rfl := Option.some.inj hstep
      exact inv_error hi
  | needs ifi n needs =>
      rw [step] at hstep
      rw [History.after]
      split_ifs at hstep with hifi
      · obtain ⟨l₁, hread, hi₁⟩ := inv_readNeeds hi ifi n needs
        obtain rfl := Option.some.inj (hread.symm.trans hstep)
        rw [if_pos hifi]
        exact hi₁
      · obtain rfl := Option.some.inj hstep
        rw [if_neg hifi]
        exact hi

/-- Every event whose identifier has its column in the table can happen. -/
theorem exists_step (hi : Inv l h) {e : Event} (he : e.InTable) : ∃ l', l.step e = some l' := by
  cases e with
  | lookup ident =>
      exact ⟨_, congrArg (Option.map _) (tableLookup_eq_some.mpr ⟨he, rfl⟩)⟩
  | hook ident =>
      obtain ⟨l', hmark, -⟩ := inv_markWanted (inv_findName hi ident) (l.findName_lt ident)
      refine ⟨l', Option.bind_eq_some_iff.mpr ⟨_, tableLookup_eq_some.mpr ⟨he, rfl⟩, hmark⟩⟩
  | ifile member => exact ⟨_, rfl⟩
  | name ifi ident flags =>
      rw [step]
      split
      · exact ⟨_, readName_eq_some.mpr ⟨he, rfl⟩⟩
      · exact ⟨l, rfl⟩
  | unexpected => exact ⟨_, rfl⟩
  | needs ifi n needs =>
      rw [step]
      split
      · obtain ⟨l', hread, -⟩ := inv_readNeeds hi ifi n needs
        exact ⟨l', hread⟩
      · exact ⟨l, rfl⟩

theorem inv_runFrom {h' : History} (hi : Inv l h) {es : List Event}
    (hrun : runFrom (l, h) es = some (l', h')) : Inv l' h' := by
  induction es generalizing l h with
  | nil =>
      obtain ⟨rfl, rfl⟩ := Prod.mk.inj (Option.some.inj hrun)
      exact hi
  | cons e es ih =>
      rw [runFrom, List.foldlM_cons] at hrun
      obtain ⟨s, hs, hrun⟩ := Option.bind_eq_some_iff.mp hrun
      obtain ⟨l₁, hstep, rfl⟩ := Option.map_eq_some_iff.mp hs
      exact ih (inv_step hi hstep) hrun

theorem exists_runFrom (hi : Inv l h) {es : List Event} (hes : ∀ e ∈ es, e.InTable) :
    ∃ l' h', runFrom (l, h) es = some (l', h') := by
  induction es generalizing l h with
  | nil => exact ⟨l, h, rfl⟩
  | cons e es ih =>
      obtain ⟨he, hes⟩ := List.forall_mem_cons.mp hes
      obtain ⟨l₁, hstep⟩ := exists_step hi he
      obtain ⟨l', h', hrun⟩ := ih (inv_step hi hstep) hes
      refine ⟨l', h', ?_⟩
      rw [runFrom, List.foldlM_cons, hstep]
      exact hrun

end Linker

/-- The names that are wanted are the least set that has the hooks and is closed under the needs
read so far, and `undefined_wanted_count` is the number of those that are neither defined nor
special. -/
structure Linker.Selects (l : Linker) (h : History) : Prop where
  least : IsLeast {S : Set NameId | (∀ np ∈ h.hooks, np ∈ S) ∧ ∀ p ∈ h.needs, p.1 ∈ S → p.2 ∈ S}
    {np | (l.names np).wanted = true}
  count : l.undefinedWantedCount = ((Finset.range l.nnames).filter fun np =>
    (l.names np).wanted ∧ ¬(l.names np).defined ∧ (l.names np).special = .no).card

theorem Linker.Inv.selects {l : Linker} {h : History} (hi : l.Inv h) : l.Selects h := by
  refine ⟨?_, ?_⟩
  · have hclosure : Support.IsClosure _ (fun a b => (a, b) ∈ h.needs) _ :=
      hi.closure.congr fun a b hab => (hi.read a b hab).symm
    have hsets : {S : Set NameId | (∀ np ∈ h.hooks, np ∈ S) ∧ ∀ p ∈ h.needs, p.1 ∈ S → p.2 ∈ S} =
        {S | {np | np ∈ h.hooks} ⊆ S ∧ Support.Closed (fun a b => (a, b) ∈ h.needs) S} := by
      ext S
      refine and_congr Iff.rfl ⟨fun hS a ha b hab => hS (a, b) hab ha, fun hS p hp ha => ?_⟩
      exact hS ha hp
    rw [hsets]
    exact hclosure
  · have hcounted := hi.counted
    rw [Linker.Counted] at hcounted
    rw [hcounted]
    congr 2
    ext np
    simp [Linker.isUndefined, and_assoc]

/-- **Selection**: after any events whose identifiers have their columns in the table, the wanted
names are exactly those that can be reached from the hooks, and the count is exact. -/
theorem run_selects {es : List Event} (hes : ∀ e ∈ es, e.InTable) :
    ∃ l h, run es = some (l, h) ∧ l.Selects h := by
  obtain ⟨l, h, hrun⟩ := Linker.exists_runFrom Linker.inv_initial hes
  exact ⟨l, h, hrun, (Linker.inv_runFrom Linker.inv_initial hrun).selects⟩

/-- The hook `f`, which a file defines and for which it needs `v`. -/
theorem run_selects_hook : ∃ l h,
    run [.hook [0x66], .ifile false, .name 0 [0x66] 1, .name 0 [0x76] 0, .needs 0 0 [1]] =
      some (l, h) ∧ l.Selects h :=
  run_selects (by decide)

/-- A name of the one byte 0xff in the nametable of a file: its column is -1. -/
theorem not_selects_377 : ¬∃ l h,
    run [.hook [0x66], .ifile false, .name 0 [0xff] 1] = some (l, h) ∧ l.Selects h := by
  have hrun : run [.hook [0x66], .ifile false, .name 0 [0xff] 1] = none := by decide
  rintro ⟨l, h, hsome, -⟩
  rw [hrun] at hsome
  cases hsome

/-! ### The bytes and the events -/

theorem Reader.bind_eq_some {α β : Type} {x : Reader α} {g : α → Reader β} {f f' : LitIn} {b : β}
    (h : (x >>= g) f = some (b, f')) : ∃ a f₁, x f = some (a, f₁) ∧ g a f₁ = some (b, f') := by
  rw [Reader.bind_apply] at h
  obtain ⟨⟨a, f₁⟩, hx, hg⟩ := Option.bind_eq_some_iff.mp h
  exact ⟨a, f₁, hx, hg⟩

/-- A record of the file `ifi`. -/
def Event.IsRecord (ifi : FileId) : Event → Prop
  | .name ifi' _ _ => ifi' = ifi
  | .needs ifi' _ _ => ifi' = ifi
  | .unexpected => True
  | _ => False

/-- From `l` on, records of the file `ifi` lead to `l'`. -/
def Linker.ReadsTo (ifi : FileId) (l : Linker) (h : History) (l' : Linker) : Prop :=
  ∃ es h', (∀ e ∈ es, e.IsRecord ifi) ∧ runFrom (l, h) es = some (l', h')

namespace Linker

variable {l l' : Linker} {h : History} {np : NameId} {ifi : FileId}

theorem ReadsTo.refl (ifi : FileId) (l : Linker) (h : History) : ReadsTo ifi l h l :=
  ⟨[], h, List.forall_mem_nil _, rfl⟩

theorem ReadsTo.cons {l₁ : Linker} {e : Event} (he : e.IsRecord ifi) (hstep : l.step e = some l₁)
    (hrest : ∀ h₁, ReadsTo ifi l₁ h₁ l') : ReadsTo ifi l h l' := by
  obtain ⟨es, h', hes, hrun⟩ := hrest (h.after l e)
  refine ⟨e :: es, h', List.forall_mem_cons.mpr ⟨he, hes⟩, ?_⟩
  rw [runFrom, List.foldlM_cons, hstep]
  exact hrun

theorem ReadsTo.name (hifi : ifi < l.nifiles) {l₁ : Linker} {ident : List Byte} {n : Word}
    (hread : l.readName ifi ident n = some l₁)
    (hrest : ∀ h₁, ReadsTo ifi l₁ h₁ l') : ReadsTo ifi l h l' :=
  .cons (e := .name ifi ident n) rfl (by rw [step, if_pos hifi, hread]) hrest

theorem ReadsTo.needs (hifi : ifi < l.nifiles) {l₁ : Linker} {n : Word} {needs : List Word}
    (hread : l.readNeeds ifi n needs = some l₁)
    (hrest : ∀ h₁, ReadsTo ifi l₁ h₁ l') : ReadsTo ifi l h l' :=
  .cons (e := .needs ifi n needs) rfl (by rw [step, if_pos hifi, hread]) hrest

theorem ReadsTo.unexpected (hrest : ∀ h₁, ReadsTo ifi l.error h₁ l') : ReadsTo ifi l h l' :=
  .cons (e := .unexpected) trivial rfl hrest

/-! No record opens a file. -/

theorem readNeed_nifiles {n : Word} (hread : readNeed ifi np l n = some l') :
    l'.nifiles = l.nifiles := by
  have hadd : ∀ need, (l.addNeed np need).nifiles = l.nifiles := fun need => by
    rcases l.addNeed_eq np need with heq | heq
    · rw [heq]
    · rw [heq]
      rfl
  rw [readNeed] at hread
  rcases hn : l.ifileName ifi n with _ | need
  · rw [hn] at hread
    exact (congrArg nifiles (Option.some.inj hread)).symm
  · rw [hn] at hread
    dsimp only at hread
    split_ifs at hread
    · exact (markWantedAt_same hread).nifiles.trans (hadd need)
    · exact (congrArg _ (Option.some.inj hread).symm).trans (hadd need)

theorem readNeeds_nifiles {n : Word} {needs : List Word}
    (hread : l.readNeeds ifi n needs = some l') : l'.nifiles = l.nifiles := by
  rw [readNeeds] at hread
  rcases hn : l.ifileName ifi n with _ | np
  · rw [hn] at hread
    exact (congrArg nifiles (Option.some.inj hread)).symm
  · rw [hn] at hread
    exact foldlM_rel (R := fun l l' => l'.nifiles = l.nifiles) (fun _ => rfl)
      (fun h h' => h'.trans h) (fun hx => readNeed_nifiles hx) hread

theorem addEntry_nifiles (l : Linker) (ifi : FileId) (np : NameId) (n : Word) :
    (l.addEntry ifi np n).nifiles = l.nifiles := by
  rw [addEntry]
  split_ifs
  · exact (define_nifiles ..).trans rfl
  · exact define_nifiles ..
  · rfl
  · rfl

theorem readName_nifiles {ident : List Byte} {n : Word}
    (hread : l.readName ifi ident n = some l') : l'.nifiles = l.nifiles := by
  obtain ⟨-, rfl⟩ := readName_eq_some.mp hread
  rw [addEntry_nifiles, findName_nifiles]

end Linker

/-- What `ifile_read_nametable` does with the bytes of a file is what the records do that it finds
in them. -/
theorem nametableLoop_readsTo {ifi : FileId} {fuel : Nat} {area : Word} {l l' : Linker}
    (h : History) {f f' : LitIn} (hifi : ifi < l.nifiles)
    (hloop : nametableLoop ifi fuel area l f = some (l', f')) : l.ReadsTo ifi h l' := by
  induction fuel generalizing area l h f with
  | zero => cases hloop
  | succ fuel ih =>
      rw [nametableLoop] at hloop
      obtain ⟨ltag, f₁, -, hloop⟩ := Reader.bind_eq_some hloop
      split_ifs at hloop
      · exact ih h hifi hloop
      · -- a `NAME` record
        obtain ⟨ident, f₂, -, hloop⟩ := Reader.bind_eq_some hloop
        obtain ⟨n, f₃, -, hloop⟩ := Reader.bind_eq_some hloop
        obtain ⟨l₁, f₄, hbuilt, hloop⟩ := Reader.bind_eq_some hloop
        obtain ⟨l₂, hread, heq⟩ := Option.map_eq_some_iff.mp hbuilt
        obtain ⟨rfl, -⟩ := Prod.mk.inj heq
        have hifi' := hifi
        rw [← Linker.readName_nifiles hread] at hifi'
        exact .name hifi hread fun h₁ => ih h₁ hifi' hloop
      · -- a `NEEDS` record
        obtain ⟨n, f₂, -, hloop⟩ := Reader.bind_eq_some hloop
        split_ifs at hloop
        · exact .unexpected fun h₁ => ih h₁ hifi hloop
        · obtain ⟨needs, f₃, -, hloop⟩ := Reader.bind_eq_some hloop
          obtain ⟨l₁, f₄, hbuilt, hloop⟩ := Reader.bind_eq_some hloop
          obtain ⟨l₂, hread, heq⟩ := Option.map_eq_some_iff.mp hbuilt
          obtain ⟨rfl, -⟩ := Prod.mk.inj heq
          have hifi' := hifi
          rw [← Linker.readNeeds_nifiles hread] at hifi'
          exact .needs hifi hread fun h₁ => ih h₁ hifi' hloop
      · -- the marker at the end of the second area
        obtain ⟨n, f₂, -, hloop⟩ := Reader.bind_eq_some hloop
        obtain ⟨length, f₃, -, hloop⟩ := Reader.bind_eq_some hloop
        obtain ⟨rfl, -⟩ := Prod.mk.inj (Option.some.inj hloop)
        by_cases hn : n ≠ area
        · rw [if_pos hn]
          exact .unexpected fun h₁ => .refl ifi _ h₁
        · rw [if_neg hn]
          exact .refl ifi l h
      · -- the marker at the end of the first area
        obtain ⟨n, f₂, -, hloop⟩ := Reader.bind_eq_some hloop
        obtain ⟨length, f₃, -, hloop⟩ := Reader.bind_eq_some hloop
        by_cases hn : n ≠ area
        · rw [if_pos hn] at hloop
          exact .unexpected fun h₁ => ih h₁ hifi hloop
        · rw [if_neg hn] at hloop
          exact ih h hifi hloop
      · obtain ⟨comment, f₂, -, hloop⟩ := Reader.bind_eq_some hloop
        exact ih h hifi hloop
      · obtain ⟨rfl, -⟩ := Prod.mk.inj (Option.some.inj hloop)
        exact .unexpected fun h₁ => .refl ifi _ h₁

theorem ifileReadNametable_run {ifi : FileId} {l l' : Linker} (h : History) {f f' : LitIn}
    (hifi : ifi < l.nifiles) (hread : ifileReadNametable l ifi f = some (l', f')) :
    l.ReadsTo ifi h l' :=
  nametableLoop_readsTo h hifi hread

end Ttools
