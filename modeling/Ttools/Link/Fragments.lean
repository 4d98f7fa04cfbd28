import Ttools.Format.Numbering
import Ttools.Link.Records
import Ttools.Support.FirstCome

/-!
# Linking the fragments

The second pass over the files: of those that are wanted `ifile_read_segments` (`lit/lit.c`) reads
the fragments, one file after another, and links the elements of a wanted name into the program.

* `secondPass_links`: the elements of a wanted name are those of the first fragment with that name
  in the files that are read.
* `linkFile_bytes`: on the bytes of a file the reader does what `linkFile` says.
* `wanted_fragments_linked_once`: if the earliest file that defines a wanted name defines it as a
  fragment, its elements are those of that fragment.

Left out are the segments and their points, so the mark on a name `..@@start` that belongs to one:
a `FRAGMENT` record for such a name is an error.  Of the errors those that only compare two
instances of a common fragment, or an opcode or a width with what it may be, are not counted.
-/

namespace Ttools

/-- What the second pass writes into a `struct name`; `hasVal` and `hasElts` say that `val` and
`elts` are not `NULL`. -/
structure FragState where
  fragment : Bool
  hasVal : Bool
  hasElts : Bool
  align : Word
  deriving DecidableEq, Repr

/-- The `SEGMENTS` area of a file, and the numbers of names and elements there. -/
structure Obj where
  ix : Indices
  by_ : ByIndex
  dummy : ElemId
  segments : List Segment

/-- An element that has been linked into the program, with the fragment that it has been read
from: `part` counts the fragments of the file, and `index` is the number of `curfrag`. -/
structure Link where
  ifi : FileId
  part : Nat
  index : Word
  el : Element

/-- The program as it has been linked so far. -/
structure Linking where
  names : NameId → FragState
  links : List Link

/-- Before the second pass; `val` says which names `--defsym` has given a value. -/
def Linking.initial (val : NameId → Bool) : Linking where
  names := fun np => { fragment := false, hasVal := val np, hasElts := false, align := 1 }
  links := []

/-- What the second pass writes. -/
def LitName.state (np : LitName) : FragState where
  fragment := np.fragment
  hasVal := np.hasVal
  hasElts := np.hasElts
  align := np.align

namespace Linker

/-- A name, after the first pass and as far as the second one has got. -/
def litName (l : Linker) (names : NameId → FragState) (np : NameId) : LitName where
  wanted := (l.names np).wanted
  special := (l.names np).special != .no
  common := (l.names np).common
  fragment := (names np).fragment
  hasVal := (names np).hasVal
  hasElts := (names np).hasElts
  align := (names np).align

/-- The names of a file by their numbers; there is nothing outside the nametable. -/
def litNames (l : Linker) (names : NameId → FragState) (ifi : FileId) (n : Word) : LitName :=
  match l.ifileName ifi n with
  | some np => l.litName names np
  | none =>
      { wanted := false
        special := false
        common := false
        fragment := false
        hasVal := false
        hasElts := false
        align := 1 }

end Linker

/-- The number of a fragment's name; the first fragment has the first name. -/
def nameIndex (p : Header × Fragment) : Word := if p.1 = .start then 0 else p.2.index

/-- "default fragment name already used for another fragment", "user fragment may not be named". -/
def SegmentsIn.reports (st : SegmentsIn) (p : Header × Fragment) : Bool :=
  match p.1 with
  | .fragment => (st.names (nameIndex p)).special
  | _ => (st.names (nameIndex p)).wanted && (st.names (nameIndex p)).fragment

/-- The elements that have been linked in between two states. -/
def SegmentsIn.linkedSince (st st' : SegmentsIn) : List Element :=
  (st'.elements.drop st.elements.length).filterMap (·.2)

section

variable (l : Linker) (o : Obj) (ifi : FileId)

/-- One fragment; `none` is a failed assertion or an error. -/
def linkPart (part : Nat) (s : Linking) (st : SegmentsIn) (p : Header × Fragment) :
    Option (Linking × SegmentsIn) := do
  let np ← l.ifileName ifi (nameIndex p)          -- "name index outside nametable"
  let st := { st with names := l.litNames s.names ifi }
  if st.reports p then none
  else
    let (st', goesOn) ← readPart o.ix o.by_ o.dummy st p
    if goesOn then
      some
        ({ names := Function.update s.names np (st'.names (nameIndex p)).state
           links := s.links ++ (st.linkedSince st').map fun el => ⟨ifi, part, st'.curfrag, el⟩ },
          st')
    else none

/-- The fragments of a file, from the one numbered `part` on. -/
def linkParts : Nat → Linking → SegmentsIn → List (Header × Fragment) →
    Option (Linking × SegmentsIn)
  | _, s, st, [] => some (s, st)
  | part, s, st, p :: ps => do
      let (s, st) ← linkPart l o ifi part s st p
      linkParts (part + 1) s st ps

end

/-- `ifile_read_segments`. -/
def linkFile (l : Linker) (obj : FileId → Obj) (s : Linking) (ifi : FileId) : Option Linking :=
  (linkParts l (obj ifi) ifi 0 s (.initial (l.litNames s.names ifi))
    (parts (obj ifi).segments)).map (·.1)

/-- The files that the second pass reads. -/
def Linker.wantedFiles (l : Linker) : List FileId :=
  (List.range l.nifiles).filter fun ifi => (l.ifiles ifi).wanted

/-- The second file pass. -/
def secondPass (l : Linker) (obj : FileId → Obj) (s : Linking) : Option Linking :=
  l.wantedFiles.foldlM (linkFile l obj) s

/-! ### The elements of a fragment -/

section

variable {ix : Indices} {by_ : ByIndex} {dummy : ElemId}

/-- What is linked in for an element record that is not skipped. -/
def Element.linked (ix : Indices) (by_ : ByIndex) (el : Element) : Option Element :=
  if el.isEmpty then none else el.reread ix by_

/-- What reading the elements `els` does to the variables of the reader. -/
structure Reading (ix : Indices) (by_ : ByIndex) (els : List Element) (st st' : SegmentsIn) :
    Prop where
  skipping : st'.skipping = st.skipping
  curfrag : st'.curfrag = st.curfrag
  other : ∀ n, n ≠ st.curfrag → st'.names n = st.names n
  current : st'.names st.curfrag =
    { st.names st.curfrag with hasElts := (st'.names st.curfrag).hasElts }
  skipped : st.skipping = true → st'.names = st.names
  linked : ∃ es, st'.elements = st.elements ++ es ∧
    es.filterMap (·.2) = if st.skipping then [] else els.filterMap (·.linked ix by_)

theorem Reading.nil (st : SegmentsIn) : Reading ix by_ [] st st where
  skipping := rfl
  curfrag := rfl
  other := fun _ _ => rfl
  current := rfl
  skipped := fun _ => rfl
  linked := ⟨[], (List.append_nil _).symm, by rw [List.filterMap_nil, List.filterMap_nil, ite_self]⟩

theorem Reading.append {els els' : List Element} {st st₁ st₂ : SegmentsIn}
    (h : Reading ix by_ els st st₁) (h' : Reading ix by_ els' st₁ st₂) :
    Reading ix by_ (els ++ els') st st₂ where
  skipping := h'.skipping.trans h.skipping
  curfrag := h'.curfrag.trans h.curfrag
  other := fun n hn => (h'.other n (h.curfrag ▸ hn)).trans (h.other n hn)
  current := by
    have hc := h'.current
    rw [h.curfrag] at hc
    rw [hc, h.current]
  skipped := fun hs => (h'.skipped (h.skipping.trans hs)).trans (h.skipped hs)
  linked := by
    obtain ⟨es, he, hlinked⟩ := h.linked
    obtain ⟨es', he', hlinked'⟩ := h'.linked
    refine ⟨es ++ es', by rw [he', he, List.append_assoc], ?_⟩
    rw [List.filterMap_append, hlinked, hlinked', h.skipping, List.filterMap_append]
    cases st.skipping <;> rfl

theorem reading_element {st st' : SegmentsIn} {el : Element}
    (h : readElement ix by_ dummy st el = some st') : Reading ix by_ [el] st st' := by
  rw [readElement] at h
  split_ifs at h with hempty
  · obtain rfl := Option.some.inj h
    have hnone : el.linked ix by_ = none := if_pos hempty
    have hnil : Reading ix by_ [] st st := .nil st
    refine { hnil with linked := ?_ }
    rw [List.filterMap_cons_none hnone]
    exact hnil.linked
  · obtain ⟨r, hr, rfl⟩ := Option.map_eq_some_iff.mp h
    have helements := (st.refer r.exprs).element_elements r
    rw [SegmentsIn.refer_elements, SegmentsIn.refer_skipping] at helements
    rcases Bool.eq_false_or_eq_true st.skipping with hs | hs
    · have heq : (st.refer r.exprs).element r = { st.refer r.exprs with
          elementIndex := (st.refer r.exprs).elementIndex + 1
          elements := ((st.refer r.exprs).element r).elements } := by
        rw [SegmentsIn.element, if_pos (by rw [SegmentsIn.refer_skipping, hs])]
      refine ⟨?_, ?_, fun n _ => ?_, ?_, fun _ => ?_, _, helements, by rw [hs]; rfl⟩
      · rw [heq, ← SegmentsIn.refer_skipping st r.exprs]
      · rw [heq, ← SegmentsIn.refer_curfrag st r.exprs]
      · rw [heq, ← SegmentsIn.refer_names st r.exprs]
      · rw [heq, ← SegmentsIn.refer_names st r.exprs]
      · rw [heq, ← SegmentsIn.refer_names st r.exprs]
    · have hne : ¬st.skipping = true := by
        rw [hs]
        exact Bool.false_ne_true
      have hlinked : el.linked ix by_ = some r := by
        rw [Element.linked, if_neg hempty]
        rwa [SegmentsIn.byIndex, if_neg hne] at hr
      have hnames : ((st.refer r.exprs).element r).names =
          Function.update st.names st.curfrag { st.names st.curfrag with hasElts := true } := by
        rw [SegmentsIn.element, if_neg (by rw [SegmentsIn.refer_skipping]; exact hne)]
        simp only [SegmentsIn.setName, SegmentsIn.refer_names, SegmentsIn.refer_curfrag]
      refine ⟨?_, ?_, fun n hn => ?_, ?_, fun ht => absurd ht hne, _, helements, ?_⟩
      · rw [SegmentsIn.element, if_neg (by rw [SegmentsIn.refer_skipping]; exact hne)]
        exact SegmentsIn.refer_skipping st r.exprs
      · rw [SegmentsIn.element, if_neg (by rw [SegmentsIn.refer_skipping]; exact hne)]
        exact SegmentsIn.refer_curfrag st r.exprs
      · rw [hnames, Function.update_of_ne hn]
      · rw [hnames, Function.update_self]
      · rw [hs, List.filterMap_cons_some hlinked]
        rfl

theorem reading_elements {st st' : SegmentsIn} {els : List (ElemId × Element)}
    (h : readElements ix by_ dummy st els = some st') :
    Reading ix by_ (els.map (·.2)) st st' := by
  induction els generalizing st with
  | nil =>
      obtain rfl := Option.some.inj h
      exact .nil st
  | cons e els ih =>
      rw [readElements] at h
      obtain ⟨st₁, hfirst, hrest⟩ := Option.bind_eq_some_iff.mp h
      exact (reading_element hfirst).append (ih hrest)

/-! ### One fragment -/

/-- Entering a fragment: either it is going to be skipped, or it is the current one now. -/
structure Entered (p : Header × Fragment) (st st' : SegmentsIn) : Prop where
  elements : st'.elements = st.elements
  other : ∀ n, n ≠ nameIndex p → st'.names n = st.names n
  kept : (st'.names (nameIndex p)).wanted = (st.names (nameIndex p)).wanted ∧
    (st'.names (nameIndex p)).special = (st.names (nameIndex p)).special ∧
    (st'.names (nameIndex p)).common = (st.names (nameIndex p)).common
  cases : (st'.skipping = true ∧ st'.names = st.names ∧
      ((st.names (nameIndex p)).wanted = true → (st.names (nameIndex p)).fragment = true)) ∨
    (st'.skipping = false ∧ st'.curfrag = nameIndex p ∧
      (st'.names (nameIndex p)).hasVal = true ∧ (st.names (nameIndex p)).wanted = true ∧
      (st.names (nameIndex p)).hasVal = false)

theorem entered_skipped {p : Header × Fragment} {st st' : SegmentsIn}
    (helements : st'.elements = st.elements) (hnames : st'.names = st.names)
    (hskipping : st'.skipping = true)
    (hw : (st.names (nameIndex p)).wanted = true → (st.names (nameIndex p)).fragment = true) :
    Entered p st st' where
  elements := helements
  other := fun n _ => by rw [hnames]
  kept := by
    rw [hnames]
    exact ⟨rfl, rfl, rfl⟩
  cases := Or.inl ⟨hskipping, hnames, hw⟩

theorem entered_current {p : Header × Fragment} {st st' : SegmentsIn} {n : Word} {np : LitName}
    (hn : nameIndex p = n) (hw : (st.names n).wanted = true) (hval : (st.names n).hasVal = false)
    (heq : st' = { st.setName n np with skipping := false, curfrag := n })
    (hnp : np.hasVal = true ∧ np.wanted = (st.names n).wanted ∧
      np.special = (st.names n).special ∧ np.common = (st.names n).common) :
    Entered p st st' := by
  subst hn heq
  obtain ⟨hval', hkept⟩ := hnp
  have hself : (st.setName (nameIndex p) np).names (nameIndex p) = np := Function.update_self ..
  refine ⟨rfl, fun n hne => Function.update_of_ne hne .., ?_, Or.inr ⟨rfl, rfl, ?_, hw, hval⟩⟩
  · show ((st.setName (nameIndex p) np).names (nameIndex p)).wanted = _ ∧ _
    rwa [hself]
  · show ((st.setName (nameIndex p) np).names (nameIndex p)).hasVal = true
    rwa [hself]

theorem enter_entered {p : Header × Fragment} {st st' : SegmentsIn} (h : st.enter p = some st') :
    Entered p st st' := by
  obtain ⟨header, frag⟩ := p
  cases header with
  | start =>
      rw [SegmentsIn.enter, SegmentsIn.enterStart] at h
      dsimp only at h
      split_ifs at h with helts hw hfrag hval
      · obtain rfl := Option.some.inj h
        exact entered_skipped rfl rfl rfl fun _ => hfrag
      · obtain rfl := Option.some.inj h
        exact entered_current rfl hw (Bool.eq_false_iff.mpr hval) rfl ⟨rfl, rfl, rfl, rfl⟩
      · obtain rfl := Option.some.inj h
        exact entered_skipped rfl rfl rfl fun hwanted => absurd hwanted hw
  | segment ident =>
      rw [SegmentsIn.enter, SegmentsIn.enterSegment] at h
      dsimp only at h
      split_ifs at h with helts hw hval
      · obtain rfl := Option.some.inj h
        exact entered_current rfl hw (Bool.eq_false_iff.mpr hval) rfl ⟨rfl, rfl, rfl, rfl⟩
      · obtain rfl := Option.some.inj h
        exact entered_skipped rfl rfl rfl fun hwanted => absurd hwanted hw
  | fragment =>
      rw [SegmentsIn.enter, SegmentsIn.enterFragment] at h
      dsimp only at h
      split_ifs at h with hw hfrag hval
      · obtain rfl := Option.some.inj h
        exact entered_skipped rfl rfl rfl fun _ => hfrag
      · obtain rfl := Option.some.inj h
        rw [Bool.or_eq_true, not_or] at hval
        exact entered_current rfl hw (Bool.eq_false_iff.mpr hval.2) rfl ⟨rfl, rfl, rfl, rfl⟩
      · obtain rfl := Option.some.inj h
        exact entered_skipped rfl rfl rfl fun hwanted => absurd hwanted hw

theorem linkedSince_append {st st' : SegmentsIn} {es : List (Nat × Option Element)}
    (h : st'.elements = st.elements ++ es) : st.linkedSince st' = es.filterMap (·.2) := by
  rw [SegmentsIn.linkedSince, h, List.drop_left]

/-- What reading a fragment does, when the reader goes on after it. -/
structure PartRead (ix : Indices) (by_ : ByIndex) (p : Header × Fragment) (st st' : SegmentsIn) :
    Prop where
  other : ∀ n, n ≠ nameIndex p → st'.names n = st.names n
  kept : (st'.names (nameIndex p)).wanted = (st.names (nameIndex p)).wanted ∧
    (st'.names (nameIndex p)).special = (st.names (nameIndex p)).special ∧
    (st'.names (nameIndex p)).common = (st.names (nameIndex p)).common
  grows : ∃ es, st'.elements = st.elements ++ es
  cases : (st.linkedSince st' = [] ∧ st'.names = st.names ∧
      ((st.names (nameIndex p)).wanted = true → (st.names (nameIndex p)).fragment = true)) ∨
    (st.linkedSince st' = p.2.elts.filterMap (fun e => e.2.linked ix by_) ∧
      st'.curfrag = nameIndex p ∧ (st'.names (nameIndex p)).hasVal = true ∧
      (st.names (nameIndex p)).wanted = true ∧ (st.names (nameIndex p)).hasVal = false)

theorem readAgain_read {p : Header × Fragment} {st st' : SegmentsIn} (hp : p.1 = .fragment)
    (hagain : st.again p.2.index = true)
    (h : readAgain ix by_ dummy p.2.index st p.2.elts = some (st', true)) :
    PartRead ix by_ p st st' := by
  have hindex : nameIndex p = p.2.index := by
    rw [nameIndex, hp]
    rfl
  have hfrag : (st.names p.2.index).fragment = true := by
    rw [SegmentsIn.again, Bool.and_eq_true] at hagain
    exact hagain.2
  obtain ⟨es, helements, hnone, hnames⟩ : ∃ es, st'.elements = st.elements ++ es ∧
      es.filterMap (·.2) = [] ∧ st'.names = st.names := by
    rcases helts : p.2.elts with _ | ⟨⟨el, elt⟩, els⟩
    · rw [helts] at h
      cases h
    · rw [helts, readAgain] at h
      split at h
      · obtain ⟨r, -, h⟩ := Option.bind_eq_some_iff.mp h
        split_ifs at h
        obtain ⟨rfl, -⟩ := Prod.mk.inj (Option.some.inj h)
        exact ⟨_, by rw [SegmentsIn.count, SegmentsIn.refer_elements], rfl,
          SegmentsIn.refer_names st r.exprs⟩
      · cases h
  refine ⟨fun n _ => by rw [hnames], ?_, ⟨es, helements⟩, Or.inl ⟨?_, hnames, fun _ => ?_⟩⟩
  · rw [hnames]
    exact ⟨rfl, rfl, rfl⟩
  · rw [linkedSince_append helements, hnone]
  · rw [hindex]
    exact hfrag

theorem readPart_read {p : Header × Fragment} {st st' : SegmentsIn}
    (h : readPart ix by_ dummy st p = some (st', true)) : PartRead ix by_ p st st' := by
  rw [readPart] at h
  split_ifs at h with hagain
  · exact readAgain_read hagain.1 hagain.2 h
  · obtain ⟨st₁, henter, h⟩ := Option.bind_eq_some_iff.mp h
    obtain ⟨st₂, hread, heq⟩ := Option.map_eq_some_iff.mp h
    obtain ⟨rfl, -⟩ := Prod.mk.inj heq
    have he := enter_entered henter
    have hr := reading_elements hread
    obtain ⟨es, helements, hlinked⟩ := hr.linked
    rw [he.elements] at helements
    rcases he.cases with ⟨hs, hnames, hw⟩ | ⟨hs, hcur, hval', hw, hval⟩
    · -- the fragment is skipped
      have hsame : st₂.names = st.names := (hr.skipped hs).trans hnames
      refine ⟨fun n _ => by rw [hsame], ?_, ⟨es, helements⟩, Or.inl ⟨?_, hsame, hw⟩⟩
      · rw [hsame]
        exact ⟨rfl, rfl, rfl⟩
      · rw [linkedSince_append helements, hlinked, hs, if_pos rfl]
    · have hcurrent := hr.current
      rw [hcur] at hcurrent
      refine ⟨fun n hn => ?_, ?_, ⟨es, helements⟩, Or.inr ⟨?_, hr.curfrag.trans hcur, ?_, hw, hval⟩⟩
      · rw [hr.other n (hcur ▸ hn), he.other n hn]
      · rw [hcurrent]
        exact he.kept
      · rw [linkedSince_append helements, hlinked, hs, List.filterMap_map]
        rfl
      · rw [hcurrent]
        exact hval'

end

/-! ### The fragments of all files -/

/-- A fragment that the second pass comes to. -/
structure Visit where
  ifi : FileId
  part : Nat
  p : Header × Fragment

section

variable {l : Linker} {obj : FileId → Obj} {s s' : Linking} {np : NameId}

/-- What is linked in for a fragment that is not skipped. -/
def Visit.links (obj : FileId → Obj) (x : Visit) : List Link :=
  (x.p.2.elts.filterMap fun e => e.2.linked (obj x.ifi).ix (obj x.ifi).by_).map fun el =>
    ⟨x.ifi, x.part, nameIndex x.p, el⟩

/-- The fragment has the name `np`. -/
def Visit.isOf (l : Linker) (np : NameId) (x : Visit) : Bool :=
  l.ifileName x.ifi (nameIndex x.p) == some np

/-- The element belongs to the name `np`. -/
def Link.isOf (l : Linker) (np : NameId) (k : Link) : Bool := l.ifileName k.ifi k.index == some np

/-- The fragments of a file, from the one numbered `part` on. -/
def visitsFrom (ifi : FileId) (part : Nat) (ps : List (Header × Fragment)) : List Visit :=
  (ps.zipIdx part).map fun p => ⟨ifi, p.2, p.1⟩

/-- The fragments that the second pass comes to, one after another. -/
def visits (l : Linker) (obj : FileId → Obj) : List Visit :=
  l.wantedFiles.flatMap fun ifi => visitsFrom ifi 0 (parts (obj ifi).segments)

/-- One of them is read. -/
def LinkStep (l : Linker) (obj : FileId → Obj) (s : Linking) (x : Visit) (s' : Linking) : Prop :=
  ∃ st st', linkPart l (obj x.ifi) x.ifi x.part s st x.p = some (s', st')

theorem linkParts_runs {o : Obj} {ifi : FileId} (ho : o = obj ifi) {ps : List (Header × Fragment)}
    {part : Nat} {st st' : SegmentsIn} (h : linkParts l o ifi part s st ps = some (s', st')) :
    Support.Runs (LinkStep l obj) s (visitsFrom ifi part ps) s' := by
  subst ho
  induction ps generalizing part s st with
  | nil =>
      obtain ⟨rfl, -⟩ := Prod.mk.inj (Option.some.inj h)
      exact .nil s
  | cons p ps ih =>
      obtain ⟨⟨s₁, st₁⟩, hfirst, hrest⟩ := Option.bind_eq_some_iff.mp h
      exact .cons ⟨st, st₁, hfirst⟩ (ih hrest)

theorem secondPass_runs (h : secondPass l obj s = some s') :
    Support.Runs (LinkStep l obj) s (visits l obj) s' := by
  rw [secondPass] at h
  rw [visits]
  generalize l.wantedFiles = files at h ⊢
  induction files generalizing s with
  | nil =>
      obtain rfl := Option.some.inj h
      exact .nil s
  | cons ifi files ih =>
      rw [List.foldlM_cons] at h
      obtain ⟨s₁, hfile, hrest⟩ := Option.bind_eq_some_iff.mp h
      obtain ⟨⟨s₂, st⟩, hparts, rfl⟩ := Option.map_eq_some_iff.mp hfile
      rw [List.flatMap_cons]
      exact (linkParts_runs rfl hparts).append (ih hrest)

/-- What reading one fragment does to the program. -/
theorem linkStep_cases {x : Visit} (h : LinkStep l obj s x s') :
    ∃ np, l.ifileName x.ifi (nameIndex x.p) = some np ∧
      (∀ np', np' ≠ np → s'.names np' = s.names np') ∧
      ((s'.links = s.links ∧ s'.names np = s.names np ∧
          ((l.names np).wanted = true → (s.names np).fragment = true)) ∨
        (s'.links = s.links ++ x.links obj ∧ (s'.names np).hasVal = true ∧
          (l.names np).wanted = true ∧ (s.names np).hasVal = false)) := by
  obtain ⟨st, st', h⟩ := h
  rw [linkPart] at h
  obtain ⟨np, hnp, h⟩ := Option.bind_eq_some_iff.mp h
  have hname : l.litNames s.names x.ifi (nameIndex x.p) = l.litName s.names np := by
    rw [Linker.litNames, hnp]
  dsimp only at h
  split_ifs at h with hreports
  obtain ⟨⟨st₁, goesOn⟩, hread, h⟩ := Option.bind_eq_some_iff.mp h
  dsimp only at h
  split_ifs at h with hgoes
  subst hgoes
  obtain ⟨rfl, -⟩ := Prod.mk.inj (Option.some.inj h)
  refine ⟨np, hnp, fun np' hne => Function.update_of_ne hne .., ?_⟩
  have hcases := (readPart_read hread).cases
  dsimp only at hcases
  rw [hname] at hcases
  rcases hcases with ⟨hlinked, hnames, hw⟩ | ⟨hlinked, hcur, hval', hw, hval⟩
  · refine Or.inl ⟨?_, ?_, hw⟩
    · dsimp only
      rw [hlinked, List.map_nil, List.append_nil]
    · dsimp only
      rw [Function.update_self, hnames, hname]
      rfl
  · refine Or.inr ⟨?_, ?_, hw, hval⟩
    · dsimp only
      rw [hlinked, hcur]
      rfl
    · dsimp only
      rw [Function.update_self]
      exact hval'

theorem links_isOf {x : Visit} (hx : l.ifileName x.ifi (nameIndex x.p) = some np) (np' : NameId) :
    (x.links obj).filter (·.isOf l np') = if np = np' then x.links obj else [] := by
  have hall : ∀ k ∈ x.links obj, k.isOf l np' = decide (np = np') := by
    intro k hk
    obtain ⟨el, -, rfl⟩ := List.mem_map.mp hk
    rw [Link.isOf, hx]
    simp [beq_eq_decide]
  split_ifs with heq
  · refine List.filter_eq_self.mpr fun k hk => ?_
    rw [hall k hk, decide_eq_true heq]
  · refine List.filter_eq_nil_iff.mpr fun k hk => ?_
    rw [hall k hk, decide_eq_false heq]
    exact Bool.false_ne_true

/-- The fragments with the name `np`: the first is linked in, and the others are skipped. -/
theorem linkStep_firstCome (hw : (l.names np).wanted = true) :
    Support.FirstCome (LinkStep l obj) (Visit.isOf l np) (Visit.links obj)
      (fun s => s.links.filter (·.isOf l np)) (fun s => (s.names np).fragment = false)
      (fun s => (s.names np).hasVal = true) where
  other := by
    intro s x s' hstep hx
    obtain ⟨np', hnp', hother, hcases⟩ := linkStep_cases hstep
    have hne : np' ≠ np := by
      rintro rfl
      rw [Visit.isOf, hnp', beq_self_eq_true] at hx
      cases hx
    rw [hother np hne.symm]
    refine ⟨?_, id, id⟩
    rcases hcases with ⟨hlinks, -⟩ | ⟨hlinks, -⟩
    · rw [hlinks]
    · rw [hlinks, List.filter_append, links_isOf hnp', if_neg hne, List.append_nil]
  first := by
    intro s x s' hstep hx hs
    obtain ⟨np', hnp', -, hcases⟩ := linkStep_cases hstep
    rw [Visit.isOf, hnp', beq_iff_eq, Option.some.injEq] at hx
    subst hx
    rcases hcases with ⟨-, -, hfrag⟩ | ⟨hlinks, hval, -⟩
    · rw [hfrag hw] at hs
      cases hs
    · refine ⟨?_, hval⟩
      rw [hlinks, List.filter_append, links_isOf hnp', if_pos rfl]
  again := by
    intro s x s' hstep hx hs
    obtain ⟨np', hnp', -, hcases⟩ := linkStep_cases hstep
    rw [Visit.isOf, hnp', beq_iff_eq, Option.some.injEq] at hx
    subst hx
    rcases hcases with ⟨hlinks, hsame, -⟩ | ⟨-, -, -, hval⟩
    · refine ⟨by rw [hlinks], ?_⟩
      rw [hsame]
      exact hs
    · rw [hs] at hval
      cases hval

/-- The elements of a wanted name are those of the first fragment with that name in the files that
are read. -/
theorem secondPass_links (hw : (l.names np).wanted = true)
    (hs : (s.names np).fragment = false) (h : secondPass l obj s = some s') :
    s'.links.filter (·.isOf l np) = s.links.filter (·.isOf l np) ++
      (((visits l obj).find? (·.isOf l np)).map (·.links obj)).getD [] :=
  (linkStep_firstCome hw).run (secondPass_runs h) hs

/-- Every element that has been linked in is one of the fragment that it says. -/
theorem secondPass_mem {k : Link} (h : secondPass l obj s = some s') (hk : k ∈ s'.links) :
    k ∈ s.links ∨ ∃ x ∈ visits l obj, k ∈ x.links obj := by
  refine (secondPass_runs h).invariant
    (I := fun s' => ∀ k ∈ s'.links, k ∈ s.links ∨ ∃ x ∈ visits l obj, k ∈ x.links obj)
    ?_ (fun k hk => Or.inl hk) k hk
  intro s₁ x hx s₂ hstep hs₁ k hk
  obtain ⟨-, -, -, ⟨hlinks, -⟩ | ⟨hlinks, -⟩⟩ := linkStep_cases hstep
  · rw [hlinks] at hk
    exact hs₁ k hk
  · rw [hlinks] at hk
    rcases List.mem_append.mp hk with hk | hk
    · exact hs₁ k hk
    · exact Or.inr ⟨x, hx, hk⟩

end

/-! ### The bytes of a file -/

section

variable {l : Linker} {obj : FileId → Obj} {s s' : Linking} {ifi : FileId} {st st' : SegmentsIn}

theorem ifileName_inj (hnodup : (l.ifiles ifi).names.Nodup) {n m : Word} {np : NameId}
    (hn : l.ifileName ifi n = some np) (hm : l.ifileName ifi m = some np) : n = m := by
  rw [Linker.ifileName] at hn hm
  split_ifs at hn hm
  have hlt : n.toNat < (l.ifiles ifi).names.length := (List.getElem?_eq_some_iff.mp hn).1
  exact BitVec.eq_of_toNat_eq ((List.getElem?_inj hlt hnodup).mp (hn.trans hm.symm))

/-- In a file without a name that is there twice, what the program knows of the names is what the
reader of the file knows. -/
theorem linkPart_readPart {o : Obj} {part : Nat} {p : Header × Fragment}
    (hnodup : (l.ifiles ifi).names.Nodup) (hst : st.names = l.litNames s.names ifi)
    (h : linkPart l o ifi part s st p = some (s', st')) :
    readPart o.ix o.by_ o.dummy st p = some (st', true) ∧
      st'.names = l.litNames s'.names ifi ∧
      s'.links.map (·.el) = s.links.map (·.el) ++ st.linkedSince st' := by
  have hsame : ({ st with names := l.litNames s.names ifi } : SegmentsIn) = st := by rw [← hst]
  rw [linkPart] at h
  obtain ⟨np, hnp, h⟩ := Option.bind_eq_some_iff.mp h
  dsimp only at h
  rw [hsame] at h
  split_ifs at h with hreports
  obtain ⟨⟨st₁, goesOn⟩, hread, h⟩ := Option.bind_eq_some_iff.mp h
  dsimp only at h
  split_ifs at h with hgoes
  subst hgoes
  obtain ⟨rfl, rfl⟩ := Prod.mk.inj (Option.some.inj h)
  have hr := readPart_read hread
  refine ⟨hread, ?_, ?_⟩
  · funext n
    by_cases hn : n = nameIndex p
    · subst hn
      obtain ⟨hwanted, hspecial, hcommon⟩ := hr.kept
      rw [hst, Linker.litNames, hnp] at hwanted hspecial hcommon
      rw [Linker.litNames, hnp]
      dsimp only at hwanted hspecial hcommon ⊢
      rw [Linker.litName, Function.update_self]
      rw [Linker.litName] at hwanted hspecial hcommon
      dsimp only at hwanted hspecial hcommon
      rw [← hwanted, ← hspecial, ← hcommon]
      rfl
    · rw [hr.other n hn, hst, Linker.litNames, Linker.litNames]
      rcases hn' : l.ifileName ifi n with _ | np'
      · rfl
      · have hne : np' ≠ np := by
          rintro rfl
          exact hn (ifileName_inj hnodup hn' hnp)
        dsimp only
        rw [Linker.litName, Linker.litName, Function.update_of_ne hne]
  · dsimp only
    rw [List.map_append, List.map_map]
    exact congrArg _ (List.map_id _)

theorem linkParts_readParts {o : Obj} {ps : List (Header × Fragment)} {part : Nat}
    (hnodup : (l.ifiles ifi).names.Nodup) (hst : st.names = l.litNames s.names ifi)
    (h : linkParts l o ifi part s st ps = some (s', st')) :
    readParts o.ix o.by_ o.dummy st ps = some st' ∧ st'.names = l.litNames s'.names ifi ∧
      ∃ es, st'.elements = st.elements ++ es ∧
        s'.links.map (·.el) = s.links.map (·.el) ++ es.filterMap (·.2) := by
  induction ps generalizing part s st with
  | nil =>
      obtain ⟨rfl, rfl⟩ := Prod.mk.inj (Option.some.inj h)
      exact ⟨rfl, hst, [], (List.append_nil _).symm, (List.append_nil _).symm⟩
  | cons p ps ih =>
      obtain ⟨⟨s₁, st₁⟩, hfirst, hrest⟩ := Option.bind_eq_some_iff.mp h
      obtain ⟨hread, hst₁, hlinks⟩ := linkPart_readPart hnodup hst hfirst
      obtain ⟨hreads, hst', es', helements', hlinks'⟩ := ih hst₁ hrest
      obtain ⟨es, helements⟩ := (readPart_read hread).grows
      refine ⟨?_, hst', es ++ es', ?_, ?_⟩
      · rw [readParts, hread]
        exact hreads
      · rw [helements', helements, List.append_assoc]
      · rw [hlinks', hlinks, linkedSince_append helements, List.filterMap_append, List.append_assoc]

/-- **The second pass on bytes**: `ifile_read_segments` leaves the names as `linkFile` does, and
has put the same elements into the program. -/
theorem linkFile_bytes {nnames : Word} {seg : Segment} {segments : List Segment}
    (hseg : (obj ifi).segments = seg :: segments) (hnodup : (l.ifiles ifi).names.Nodup)
    (hnn : nnames.slt 1 = false) (hp : ∀ p ∈ parts (seg :: segments), PartFits nnames p)
    {out : List Byte} (hout : passOutputSegments (obj ifi).ix (seg :: segments) = some out)
    (h : linkFile l obj s ifi = some s') (rest : List Byte) (k : Nat) :
    ∃ st f, ifileReadSegments (obj ifi).by_ (obj ifi).dummy nnames (l.litNames s.names ifi)
        ⟨out ++ rest, k⟩ = some (st, f) ∧
      st.names = l.litNames s'.names ifi ∧
      s'.links.map (·.el) = s.links.map (·.el) ++ st.elements.filterMap (·.2) := by
  obtain ⟨⟨s₁, st⟩, hparts, rfl⟩ := Option.map_eq_some_iff.mp h
  rw [hseg] at hparts
  obtain ⟨hreads, hnames, es, helements, hlinks⟩ := linkParts_readParts hnodup rfl hparts
  obtain ⟨f, hf⟩ := ifileReadSegments_readParts (obj ifi).by_ (obj ifi).dummy nnames hnn hp hout
    (l.litNames s.names ifi) rest k
  refine ⟨st, f, ?_, hnames, ?_⟩
  · rw [hf, hreads]
    rfl
  · have hes : st.elements = es := helements
    rw [hes]
    exact hlinks

end

/-! ### The first definer -/

section

variable {es : List Event} {obj : FileId → Obj} {l : Linker} {h : History}

/-- The `NAME` record with the number `n` of a file. -/
def recordAt (es : List Event) (ifi : FileId) (n : Word) : Option Entry :=
  if n.slt 0 then none else (nametable es ifi)[n.toNat]?

theorem ifileName_recordAt (hr : l.Recorded (entries es)) (ifi : FileId) (n : Word) :
    l.ifileName ifi n = (recordAt es ifi n).map (·.np) := by
  rw [Linker.ifileName, recordAt, hr.names]
  split_ifs
  · rfl
  · exact List.getElem?_map

/-- The files are as `ast` writes them: the identifiers are C strings, every fragment has a name
that the nametable marks as a fragment defined here, and every such name has a fragment. -/
structure Written (es : List Event) (obj : FileId → Obj) : Prop where
  strings : ∀ e ∈ es, e.IsString
  marked : ∀ ifi, ∀ p ∈ parts (obj ifi).segments,
    ∃ e, recordAt es ifi (nameIndex p) = some e ∧ e.fragment = true
  started : ∀ e ∈ entries es, e.fragment = true →
    ∃ p ∈ parts (obj e.ifi).segments, recordAt es e.ifi (nameIndex p) = some e

theorem Entry.fragment_defined {e : Entry} (he : e.fragment = true) : e.defined = true := by
  rw [Entry.fragment, Bool.and_eq_true] at he
  exact he.1

theorem recordAt_mem {ifi : FileId} {n : Word} {e : Entry} (he : recordAt es ifi n = some e) :
    e ∈ entries es ∧ e.ifi = ifi := by
  rw [recordAt] at he
  split_ifs at he
  obtain ⟨hmem, hifi⟩ := List.mem_filter.mp (List.mem_of_getElem? he)
  exact ⟨hmem, beq_iff_eq.mp hifi⟩

theorem mem_visits {x : Visit} : x ∈ visits l obj ↔
    x.ifi ∈ l.wantedFiles ∧ (parts (obj x.ifi).segments)[x.part]? = some x.p := by
  rw [visits, List.mem_flatMap]
  constructor
  · rintro ⟨ifi, hifi, hx⟩
    obtain ⟨⟨p, part⟩, hp, rfl⟩ := List.mem_map.mp hx
    exact ⟨hifi, List.mk_mem_zipIdx_iff_getElem?.mp hp⟩
  · rintro ⟨hifi, hx⟩
    exact ⟨x.ifi, hifi, List.mem_map.mpr ⟨(x.p, x.part), List.mk_mem_zipIdx_iff_getElem?.mpr hx, rfl⟩⟩

/-- The files are visited in their order. -/
theorem visits_sorted (l : Linker) (obj : FileId → Obj) :
    (visits l obj).Pairwise fun x y => x.ifi ≤ y.ifi := by
  have hfile : ∀ ifi, ∀ x ∈ visitsFrom ifi 0 (parts (obj ifi).segments), x.ifi = ifi := by
    intro ifi x hx
    obtain ⟨p, -, rfl⟩ := List.mem_map.mp hx
    rfl
  refine List.pairwise_flatMap.mpr ⟨fun ifi _ => ?_, ?_⟩
  · refine List.pairwise_of_forall_mem_list fun x hx y hy => ?_
    rw [hfile ifi x hx, hfile ifi y hy]
  · refine (List.pairwise_lt_range.filter _).imp ?_
    intro ifi ifi' hlt x hx y hy
    rw [hfile ifi x hx, hfile ifi' y hy]
    exact Nat.le_of_lt hlt

/-- The file of the first fragment with a name is not after that of any other. -/
theorem find_visits_le {np : NameId} {x y : Visit}
    (hx : (visits l obj).find? (·.isOf l np) = some x) (hy : y ∈ visits l obj)
    (hynp : y.isOf l np = true) : x.ifi ≤ y.ifi := by
  obtain ⟨-, before, after, hvisits, hbefore⟩ := List.find?_eq_some_iff_append.mp hx
  have hsorted := visits_sorted l obj
  rw [hvisits] at hy hsorted
  rcases List.mem_append.mp hy with hy | hy
  · have hnot := hbefore y hy
    rw [hynp] at hnot
    cases hnot
  · rcases List.mem_cons.mp hy with rfl | hy
    · exact Nat.le_refl _
    · exact (List.pairwise_cons.mp (List.pairwise_append.mp hsorted).2.1).1 y hy

/-- **Every wanted fragment is linked once, from its first definer**: if the earliest file that
marks a wanted name as defined marks it as a fragment, that file is read, all elements of the name
are those of one fragment there, and no other fragment with the name gives any. -/
theorem wanted_fragments_linked_once {val : NameId → Bool} {s : Linking}
    (hrun : run es = some (l, h)) (horder : InReadingOrder es) (hwritten : Written es obj)
    (hpass : secondPass l obj (.initial val) = some s) {e : Entry} (hfirst : e.IsFirst es)
    (hfragment : e.fragment = true) (hwanted : (l.names e.np).wanted = true) :
    e.ifi ∈ l.wantedFiles ∧
      ∃ part p, (parts (obj e.ifi).segments)[part]? = some p ∧
        l.ifileName e.ifi (nameIndex p) = some e.np ∧
        s.links.filter (·.isOf l e.np) = Visit.links obj ⟨e.ifi, part, p⟩ ∧
        ∀ k ∈ s.links, ∀ p', (parts (obj k.ifi).segments)[k.part]? = some p' →
          l.ifileName k.ifi (nameIndex p') = some e.np → k.ifi = e.ifi ∧ k.part = part := by
  obtain ⟨hr, hi⟩ := run_recorded hwritten.strings hrun
  have hopened : e.ifi < l.nifiles := hr.opened e hfirst.1
  have hvisited : e.ifi ∈ l.wantedFiles :=
    List.mem_filter.mpr ⟨List.mem_range.mpr hopened, firstSource_wanted hr hi horder hfirst hwanted⟩
  -- the fragment in the file of the first definer is one that the pass comes to
  obtain ⟨p₀, hp₀, hrecord₀⟩ := hwritten.started e hfirst.1 hfragment
  obtain ⟨part₀, hpart₀⟩ := List.getElem?_of_mem hp₀
  have hmem₀ : (⟨e.ifi, part₀, p₀⟩ : Visit) ∈ visits l obj := mem_visits.mpr ⟨hvisited, hpart₀⟩
  have hname₀ : (⟨e.ifi, part₀, p₀⟩ : Visit).isOf l e.np = true := by
    rw [Visit.isOf, ifileName_recordAt hr, hrecord₀]
    exact beq_self_eq_true _
  obtain ⟨x, hx⟩ := Option.isSome_iff_exists.mp (List.find?_isSome.mpr ⟨_, hmem₀, hname₀⟩)
  have hxmem := mem_visits.mp (List.mem_of_find?_eq_some hx)
  have hxof := List.find?_some hx
  rw [Visit.isOf, beq_iff_eq] at hxof
  -- no file before that one has a fragment with the name
  have hle : x.ifi ≤ e.ifi := find_visits_le hx hmem₀ hname₀
  have hge : e.ifi ≤ x.ifi := by
    obtain ⟨e', hrecord, hfragment'⟩ := hwritten.marked x.ifi x.p (List.mem_of_getElem? hxmem.2)
    obtain ⟨hmem', hifi'⟩ := recordAt_mem hrecord
    have hname := hxof
    rw [ifileName_recordAt hr, hrecord] at hname
    rw [← hifi']
    exact hfirst.2.2 e' hmem' (Option.some.inj hname) (Entry.fragment_defined hfragment')
  obtain ⟨ifi, part, p⟩ := x
  obtain rfl : ifi = e.ifi := Nat.le_antisymm hle hge
  have hlinks := secondPass_links hwanted rfl hpass
  rw [hx] at hlinks
  have hfilter : s.links.filter (·.isOf l e.np) = Visit.links obj ⟨e.ifi, part, p⟩ := hlinks
  refine ⟨hvisited, part, p, hxmem.2, hxof, hfilter, fun k hk p' hp' hname => ?_⟩
  obtain hk' | ⟨y, hy, hky⟩ := secondPass_mem hpass hk
  · cases hk'
  · obtain ⟨el, -, rfl⟩ := List.mem_map.mp hky
    have hyp := (mem_visits.mp hy).2
    obtain rfl : y.p = p' := Option.some.inj (hyp.symm.trans hp')
    have hmine : (⟨y.ifi, y.part, nameIndex y.p, el⟩ : Link) ∈
        s.links.filter (·.isOf l e.np) := by
      refine List.mem_filter.mpr ⟨hk, ?_⟩
      rw [Link.isOf, hname]
      exact beq_self_eq_true _
    rw [hfilter] at hmine
    obtain ⟨el', -, heq⟩ := List.mem_map.mp hmine
    obtain ⟨hifi, hpart, -⟩ := Link.mk.inj heq
    exact ⟨hifi.symm, hpart.symm⟩

end

/-! ### A value first, a fragment later -/

/-- The first file says `x = 5`; the second has a fragment `x` and a fragment `y`, which needs its
default fragment.  Both names are wanted. -/
def valueFirst : List Event :=
  [.ifile false, .ifile false, .hook (identBytes "x"), .hook (identBytes "y"),
    .name 0 [] 3, .name 0 (identBytes "x") 1,
    .name 1 [] 3, .name 1 (identBytes "x") 3, .name 1 (identBytes "y") 3, .needs 1 2 [0]]

/-- The `SEGMENTS` areas of the two files. -/
def valueFirstObj : FileId → Obj := fun ifi =>
  { ix := .ofSegments []
    by_ := .inOrder
    dummy := 100
    segments :=
      if ifi = 0 then [⟨[], ⟨0, 1, []⟩, []⟩]
      else if ifi = 1 then
        [⟨[], ⟨0, 1, [(0, ⟨.const 1, .block [5]⟩)]⟩,
          [⟨1, 4, [(1, ⟨.const 1, .block [7]⟩)]⟩, ⟨2, 4, [(2, ⟨.const 1, .block [9]⟩)]⟩]⟩]
      else [] }

theorem valueFirst_written : Written valueFirst valueFirstObj where
  strings := by
    simp [valueFirst, Event.IsString, identBytes]
  marked := by
    intro ifi p hp
    rcases ifi with _ | _ | ifi
    · obtain rfl : p = (.start, ⟨0, 1, []⟩) := List.mem_singleton.mp hp
      exact ⟨⟨0, [], 3, 2⟩, by decide, by decide⟩
    · rcases hp with _ | ⟨_, _ | ⟨_, _ | ⟨_, hp⟩⟩⟩
      · exact ⟨⟨1, [], 3, 3⟩, by decide, by decide⟩
      · exact ⟨⟨1, [120], 3, 0⟩, by decide, by decide⟩
      · exact ⟨⟨1, [121], 3, 1⟩, by decide, by decide⟩
      · cases hp
    · cases hp
  started := by decide

/-- What is linked in of a file: for every element the name and where it comes from. -/
def linkedFrom (es : List Event) (obj : FileId → Obj) (np : NameId) :
    Option (List (FileId × Nat)) := do
  let (l, _) ← run es
  let s ← secondPass l obj (.initial fun _ => false)
  return (s.links.filter (·.isOf l np)).map fun k => (k.ifi, k.part)

theorem wanted_fragments_linked_once_y : ∃ l h s, run valueFirst = some (l, h) ∧
    secondPass l valueFirstObj (.initial fun _ => false) = some s ∧
    ∃ part p, (parts (valueFirstObj 1).segments)[part]? = some p ∧
      s.links.filter (·.isOf l 1) = Visit.links valueFirstObj ⟨1, part, p⟩ := by
  have hrun := (Option.some_get (show (run valueFirst).isSome = true by decide)).symm
  have hpass := (Option.some_get (show (secondPass
    ((run valueFirst).get (by decide)).1 valueFirstObj (.initial fun _ => false)).isSome = true
      by decide)).symm
  obtain ⟨-, part, p, hp, -, hlinks, -⟩ := wanted_fragments_linked_once hrun
    (show (entries valueFirst).Pairwise fun e e' => e.ifi ≤ e'.ifi by decide) valueFirst_written
    hpass (show Entry.IsFirst valueFirst ⟨1, identBytes "y", 3, 1⟩ from
      ⟨by decide, by decide, by decide⟩) (by decide) (by decide)
  exact ⟨_, _, _, hrun, hpass, part, p, hp, hlinks⟩

/-- The earliest file that marks `x` as defined is the first, and its element comes from the
second; the element of a default fragment comes from no `FRAGMENT` record. -/
theorem valueFirst_linked :
    InReadingOrder valueFirst ∧ Written valueFirst valueFirstObj ∧
      (⟨0, identBytes "x", 1, 0⟩ : Entry).IsFirst valueFirst ∧
      ⟨1, identBytes "x", 3, 0⟩ ∈ entries valueFirst ∧
      (run valueFirst).map (fun r => (r.1.wantedFiles, (r.1.names 0).wanted, r.1.nErrors,
        r.1.undefinedWantedCount)) = some ([0, 1], true, 0, 0) ∧
      linkedFrom valueFirst valueFirstObj 0 = some [(1, 1)] ∧
      ⟨1, [], 3, 3⟩ ∈ entries valueFirst ∧
      (parts (valueFirstObj 1).segments)[0]?.map (·.1) = some .start ∧
      linkedFrom valueFirst valueFirstObj 3 = some [(1, 0)] :=
  ⟨show (entries valueFirst).Pairwise fun e e' => e.ifi ≤ e'.ifi by decide, valueFirst_written,
    ⟨by decide, by decide, by decide⟩, by decide, by decide, by decide, by decide, by decide,
    by decide⟩

end Ttools
