import Mathlib.Data.Finset.Filter
import Mathlib.Data.Finset.Card
import Ttools.Expr.Syntax
import Ttools.Link.Table

/-!
# The names of a link

`struct name` and `struct ifile` (`lit/lit.c`), as far as the first pass over the files reads and
writes them, and the table of names (`shared/misc.c`).  `Linker` is what `lit` knows between two
records; a name and a file are referred to by their index, in the order in which they are made.

* `tableLookup_eq_some`: a lookup goes on where the hash column is not negative.
* `findName_lt`: the name looked up is in the table.
* `findName_cases`: apart from that the table is the same, or has one new name.

Of a file that has been opened its stream, positions and elements are left out, and so are the
values of the names.
-/

namespace Ttools

/-- A `struct ifile *`. -/
abbrev FileId := Nat

/-- `np->special`: a name that the linker defines itself. -/
inductive Special where
  | no | start | size | blocksize
  deriving DecidableEq, Repr

/-- `struct name`.  `source` and `refs` are the files that define it and that refer to it. -/
structure LinkName where
  ident : List Byte
  needs : List NameId
  source : List FileId
  refs : List FileId
  defined : Bool
  common : Bool
  wanted : Bool
  special : Special
  deriving DecidableEq, Repr

/-- `struct ifile`; `member` is `lo != 0`. -/
structure Ifile where
  names : List NameId
  member : Bool
  wanted : Bool
  deriving DecidableEq, Repr

/-- The characters of an identifier. -/
def identBytes (s : String) : List Byte := s.toList.map fun c => BitVec.ofNat 8 c.toNat

/-- `name_alloc`: the identifier tells a special name. -/
def nameAlloc (id : List Byte) : LinkName where
  ident := id
  needs := []
  source := []
  refs := []
  defined := false
  common := false
  wanted := false
  special :=
    if identBytes "@@start" <:+ id then .start
    else if identBytes "@@size" <:+ id then .size
    else if identBytes "@@blocksize" <:+ id then .blocksize
    else .no

/-- What `lit` has when it reads the files: `general_names`, `ifiles`, `undefined_wanted_count`,
and how many errors and warnings there were. -/
structure Linker where
  names : NameId → LinkName
  nnames : Nat
  ifiles : FileId → Ifile
  nifiles : Nat
  undefinedWantedCount : Int
  nErrors : Nat
  nWarnings : Nat

namespace Linker

/-- Before the command line is looked at. -/
def initial : Linker where
  names := fun _ => nameAlloc []
  nnames := 0
  ifiles := fun _ => { names := [], member := false, wanted := false }
  nifiles := 0
  undefinedWantedCount := 0
  nErrors := 0
  nWarnings := 0

/-- The name `np` is changed. -/
def setName (l : Linker) (np : NameId) (f : LinkName → LinkName) : Linker :=
  { l with names := Function.update l.names np (f (l.names np)) }

/-- The file `ifi` is changed. -/
def setIfile (l : Linker) (ifi : FileId) (f : Ifile → Ifile) : Linker :=
  { l with ifiles := Function.update l.ifiles ifi (f (l.ifiles ifi)) }

/-- `undefined_wanted_count` is changed. -/
def count (l : Linker) (n : Int) : Linker :=
  { l with undefinedWantedCount := l.undefinedWantedCount + n }

/-- `error ()`. -/
def error (l : Linker) : Linker := { l with nErrors := l.nErrors + 1 }

/-- `warning ()`. -/
def warning (l : Linker) : Linker := { l with nWarnings := l.nWarnings + 1 }

/-- A new name, as `table_lookup` and `table_add_noname` make it. -/
def addName (l : Linker) (key : List Byte) : Linker :=
  { l with
    names := Function.update l.names l.nnames (nameAlloc key)
    nnames := l.nnames + 1 }

/-- The hash column of a key in `general_names`, a table of 4096 columns, on a host where plain
`char` has a sign. -/
def tableColumn (key : List Byte) : Int := NameTable.keyColumn true 4096 key

/-- `memcmp (key, ident, keylen) == 0 && strlen (ident) == keylen`, in the column of the key. -/
def isNamed (ident key : List Byte) : Bool :=
  tableColumn ident == tableColumn key && ident.take key.length == key &&
    (ident.takeWhile (· != 0)).length == key.length

/-- `table_lookup` behind the choice of a column: the empty key always makes a new name. -/
def findName (l : Linker) (key : List Byte) : NameId × Linker :=
  match if key = [] then none
    else (List.range l.nnames).find? fun np => isNamed (l.names np).ident key with
  | some np => (np, l)
  | none => (l.nnames, l.addName key)

/-- `table_lookup`; `none` is an access outside of `top`. -/
def tableLookup (l : Linker) (key : List Byte) : Option (NameId × Linker) :=
  if tableColumn key < 0 then none else some (l.findName key)

/-- `add_need`. -/
def addNeed (l : Linker) (np need : NameId) : Linker :=
  if np = need ∨ need ∈ (l.names np).needs then l
  else l.setName np fun name => { name with needs := name.needs ++ [need] }

/-- `add_source`. -/
def addSource (l : Linker) (np : NameId) (ifi : FileId) : Linker :=
  l.setName np fun name => { name with source := name.source ++ [ifi] }

/-- `add_ref`. -/
def addRef (l : Linker) (np : NameId) (ifi : FileId) : Linker :=
  l.setName np fun name => { name with refs := name.refs ++ [ifi] }

/-- `first_source`; `none` is a null pointer. -/
def firstSource (l : Linker) (np : NameId) : Option FileId := (l.names np).source.head?

/-- `ifi->names[n]`; `none` when `n` is outside the nametable. -/
def ifileName (l : Linker) (ifi : FileId) (n : Word) : Option NameId :=
  if n.slt 0 then none else (l.ifiles ifi).names[n.toNat]?

/-! ### What the parts of a linker are after a change -/

variable {l : Linker} {np np' : NameId} {ifi : FileId}

@[simp] theorem setName_self (f : LinkName → LinkName) : (l.setName np f).names np = f (l.names np) :=
  Function.update_self ..

theorem setName_ne (f : LinkName → LinkName) (h : np' ≠ np) : (l.setName np f).names np' = l.names np' :=
  Function.update_of_ne h ..

@[simp] theorem setName_nnames (f : LinkName → LinkName) : (l.setName np f).nnames = l.nnames := rfl
@[simp] theorem setName_ifiles (f : LinkName → LinkName) : (l.setName np f).ifiles = l.ifiles := rfl
@[simp] theorem setName_undefinedWantedCount (f : LinkName → LinkName) :
    (l.setName np f).undefinedWantedCount = l.undefinedWantedCount := rfl

@[simp] theorem setIfile_self (f : Ifile → Ifile) :
    (l.setIfile ifi f).ifiles ifi = f (l.ifiles ifi) :=
  Function.update_self ..

theorem setIfile_ne {ifi' : FileId} (f : Ifile → Ifile) (h : ifi' ≠ ifi) :
    (l.setIfile ifi f).ifiles ifi' = l.ifiles ifi' :=
  Function.update_of_ne h ..

@[simp] theorem setIfile_names (f : Ifile → Ifile) : (l.setIfile ifi f).names = l.names := rfl
@[simp] theorem setIfile_nnames (f : Ifile → Ifile) : (l.setIfile ifi f).nnames = l.nnames := rfl
@[simp] theorem setIfile_undefinedWantedCount (f : Ifile → Ifile) :
    (l.setIfile ifi f).undefinedWantedCount = l.undefinedWantedCount := rfl

@[simp] theorem count_names (n : Int) : (l.count n).names = l.names := rfl
@[simp] theorem count_nnames (n : Int) : (l.count n).nnames = l.nnames := rfl
@[simp] theorem count_ifiles (n : Int) : (l.count n).ifiles = l.ifiles := rfl
@[simp] theorem count_undefinedWantedCount (n : Int) :
    (l.count n).undefinedWantedCount = l.undefinedWantedCount + n := rfl

/-- A key whose column is in the table is looked for. -/
theorem tableLookup_eq_some {key : List Byte} {found : NameId × Linker} :
    l.tableLookup key = some found ↔ 0 ≤ tableColumn key ∧ found = l.findName key := by
  rw [tableLookup]
  split
  · next h => exact iff_of_false (by simp) fun hle => absurd hle.1 (Int.not_le.mpr h)
  · next h =>
      rw [Option.some_inj, eq_comm]
      exact (and_iff_right (Int.not_lt.mp h)).symm

/-- The name that is looked up is in the table afterwards. -/
theorem findName_lt (l : Linker) (key : List Byte) :
    (l.findName key).1 < (l.findName key).2.nnames := by
  rw [findName]
  split
  · next np h =>
      split at h
      · cases h
      · exact List.mem_range.mp (List.mem_of_find?_eq_some h)
  · exact Nat.lt_succ_self l.nnames

/-- A lookup either changes nothing or makes one new name. -/
theorem findName_cases (l : Linker) (key : List Byte) :
    (l.findName key).2 = l ∨ l.findName key = (l.nnames, l.addName key) := by
  rw [findName]
  split
  · exact Or.inl rfl
  · exact Or.inr rfl

end Linker

/-! ### Counting names -/

theorem card_filter_insert {p q : NameId → Prop} [DecidablePred p] [DecidablePred q] {n x : Nat}
    (hx : x < n) (hp : ¬p x) (hq : q x) (hpq : ∀ y, y ≠ x → (p y ↔ q y)) :
    ((Finset.range n).filter q).card = ((Finset.range n).filter p).card + 1 := by
  have hins : (Finset.range n).filter q = insert x ((Finset.range n).filter p) := by
    ext y
    rw [Finset.mem_filter, Finset.mem_insert, Finset.mem_filter, Finset.mem_range]
    by_cases hy : y = x
    · simp [hy, hx, hq]
    · simp [hy, hpq y hy]
  rw [hins, Finset.card_insert_of_notMem (by simp [hp])]

theorem card_filter_congr {p q : NameId → Prop} [DecidablePred p] [DecidablePred q] {n : Nat}
    (hpq : ∀ y, p y ↔ q y) :
    ((Finset.range n).filter q).card = ((Finset.range n).filter p).card := by
  rw [Finset.filter_congr fun y _ => hpq y]

end Ttools
