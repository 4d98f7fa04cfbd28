import Mathlib.Data.List.DropRight
import Ttools.Link.Names
import Ttools.Support.Machine

/-!
# Scanning an archive

`ifile_open_archive` (`lit/lit.c`) looks at the headers of an archive and makes an `ifile` of every
member.  The file is its bytes, and a `long` has 64 bits, so that the ten characters of a size
never overflow it.

* `members_spec`: where the members of an archive are, whatever reads it.
* `scan_iff`: the scan ends with one `ifile` for every ordinary member exactly when no header that
  the members lead to is a symbol table, has a size that is negative, or says that more bytes
  follow than there are.

The formatted texts of the errors are left out.
-/

namespace Ttools

/-! ### Headers -/

/-- `struct ar_hdr` of `<ar.h>`, without the fields that nothing looks at. -/
structure ArHdr where
  arName : List Byte
  arSize : List Byte
  arFmag : List Byte
  deriving DecidableEq, Repr

/-- `fread (&header, sizeof (header), 1, stream)` at an offset. -/
def readHeader (file : List Byte) (pos : Nat) : Option ArHdr :=
  if pos + 60 ≤ file.length then
    some
      { arName := (file.drop pos).take 16
        arSize := (file.drop (pos + 48)).take 10
        arFmag := (file.drop (pos + 58)).take 2 }
  else none

/-- `ARFMAG`. -/
def arfmag : List Byte := [0x60, 0x0a]

/-- `isspace`. -/
def isSpace (c : Byte) : Bool := c == 0x20 || (0x09 ≤ c.toNat && c.toNat ≤ 0x0d)

/-- `isdigit`. -/
def isDigit (c : Byte) : Bool := 0x30 ≤ c.toNat && c.toNat ≤ 0x39

/-- The number that digits stand for. -/
def digitsValue (ds : List Byte) : Nat := ds.foldl (fun n d => 10 * n + (d.toNat - 0x30)) 0

/-- `strtol (s, &p, 10)`: the value, and how far `p` is from `s`.  What follows `s` in memory is
neither a space nor a digit. -/
def strtol (s : List Byte) : Int × Nat :=
  let blanks := s.takeWhile isSpace
  let s' := s.drop blanks.length
  let sign := (s'.take 1).filter fun c => c == 0x2b || c == 0x2d
  let digits := (s'.drop sign.length).takeWhile isDigit
  if digits = [] then (0, 0)
  else
    (if sign = [0x2d] then -(digitsValue digits : Int) else digitsValue digits,
      blanks.length + sign.length + digits.length)

/-- The size in a header; `none` is "junk in ar_size". -/
def ArHdr.size (h : ArHdr) : Option Int :=
  let (sz, p) := strtol h.arSize
  if h.arSize[p]? ≠ some 0x20 ∧ p ≠ 10 then none else some sz

/-- The name in a header, without the spaces at its end, as a C string. -/
def ArHdr.fname (h : ArHdr) : List Byte :=
  (h.arName.rdropWhile (· == 0x20)).takeWhile (· != 0)

/-- A `/`. -/
def slash : Byte := 0x2f

/-- The name of the long name table. -/
def tableName : List Byte := [slash, slash]

/-- The name of the symbol table. -/
def symbolName : List Byte := [slash]

/-- `/NNNN`: the number, and whether there is nothing after it. -/
def reference (fname : List Byte) : Option (Nat × Bool) :=
  match fname with
  | c :: d :: ds =>
      if c = slash ∧ isDigit d = true then
        let digits := (d :: ds).takeWhile isDigit
        some (digitsValue digits % 2 ^ 32, digits.length = (d :: ds).length)
      else none
  | _ => none

/-! ### The scan -/

/-- What `ifile_add_member` is told. -/
structure Member where
  lo : Int
  hi : Int
  name : List Byte
  deriving DecidableEq, Repr

/-- The variables of `ifile_open_archive`. -/
structure Scan where
  pos : Nat
  longNameTable : Option (List Byte)
  members : List Member

/-- How the scan ends; `crash` is a table for which no memory has been allocated. -/
inductive ScanStop where
  | ended | error | fatal | crash
  deriving DecidableEq, Repr

/-- The newlines in the long name table become zeros, up to a zero that is there. -/
def zeroNewlines : List Byte → List Byte
  | [] => []
  | c :: cs => if c = 0x0a then 0 :: zeroNewlines cs else if c = 0 then 0 :: cs else c :: zeroNewlines cs

/-- The string at an offset of the long name table. -/
def stringAt (table : List Byte) (offset : Nat) : List Byte := (table.drop offset).takeWhile (· != 0)

/-- What is before the last `/`. -/
def stripSlash (fname : List Byte) : List Byte :=
  if slash ∈ fname then (fname.rdropWhile (· != slash)).dropLast else fname

/-- The long name table, of the size `sz`. -/
def scanTable (file : List Byte) (st : Scan) (sz : Int) : Scan ⊕ (ScanStop × List Member) :=
  if st.longNameTable.isSome then .inr (.error, st.members)
  else if sz = -1 then .inr (.crash, st.members)           -- `xmalloc (0)`
  else if sz ≤ 0 then .inr (.fatal, st.members)            -- no memory, or nothing to read
  else if st.pos + 60 + sz.toNat ≤ file.length then
    .inl
      { st with
        pos := st.pos + 60 + sz.toNat + sz.toNat % 2
        longNameTable := some (zeroNewlines ((file.drop (st.pos + 60)).take sz.toNat)) }
  else .inr (.fatal, st.members)

/-- A member with the name `fname`, and `fseek` over it. -/
def scanMember (st : Scan) (fname : List Byte) (sz : Int) : Scan ⊕ (ScanStop × List Member) :=
  let startpos : Int := st.pos + 60
  let members := st.members ++ [⟨startpos, startpos + sz, stripSlash fname⟩]
  let pos := startpos + (sz + 1) / 2 * 2                   -- `(sz+1)&~1`
  if pos < 0 then .inr (.fatal, members)
  else .inl { st with pos := pos.toNat, members := members }

/-- The size of the long name table. -/
def Scan.tableSize (st : Scan) : Nat := ((st.longNameTable.map List.length).getD 0)

/-- One round of the loop of `ifile_open_archive`. -/
def scanStep (file : List Byte) (st : Scan) : Scan ⊕ (ScanStop × List Member) :=
  match readHeader file st.pos with
  | none => .inr (.ended, st.members)
  | some h =>
      if h.arFmag ≠ arfmag then .inr (.error, st.members)
      else
        match h.size with
        | none => .inr (.error, st.members)
        | some sz =>
            if h.fname = tableName then scanTable file st sz
            else
              match reference h.fname with
              | none => scanMember st h.fname sz
              | some (offset, whole) =>
                  if !whole then .inr (.error, st.members)
                  else if st.tableSize % 2 ^ 32 ≤ offset then .inr (.error, st.members)
                  else scanMember st (stringAt (st.longNameTable.getD []) offset) sz

/-- `ifile_open_archive`, with `SARMAG` bytes read. -/
def openArchive (file : List Byte) (stop : ScanStop) (members : List Member) : Prop :=
  Support.Ends (scanStep file) ⟨8, none, []⟩ (stop, members)

/-! ### The format -/

/-- A header and the number of bytes that belong to it, all of which are there. -/
def sizedHeader (file : List Byte) (pos : Nat) : Option (ArHdr × Nat) := do
  let h ← readHeader file pos
  let sz ← h.size
  if h.arFmag = arfmag ∧ 0 ≤ sz ∧ pos + 60 + sz.toNat ≤ file.length then some (h, sz.toNat) else none

/-- The name is a reference to the long name table, of the size `table`, that leads nowhere. -/
def dangling (table : Option Nat) (fname : List Byte) : Bool :=
  match reference fname with
  | none => false
  | some (offset, whole) => !whole || decide (table.getD 0 % 2 ^ 32 ≤ offset)

/-- What is at an offset of an archive in which the long name table has so far had the size
`table`. -/
structure Item where
  table : Option Nat
  size : Nat
  ordinary : Bool

/-- A long name table, a symbol table or an ordinary member. -/
def itemAt (file : List Byte) (table : Option Nat) (pos : Nat) : Option Item := do
  let (h, n) ← sizedHeader file pos
  if h.fname = tableName then
    if table = none ∧ 0 < n then some ⟨some n, n, false⟩ else none
  else if h.fname = symbolName then some ⟨table, n, false⟩
  else if dangling table h.fname then none
  else some ⟨table, n, true⟩

/-- Where the item after one at `pos` begins. -/
def Item.next (i : Item) (pos : Nat) : Nat := pos + 60 + i.size + i.size % 2

/-- From an offset on, the archive has the ordinary members `ms`, given by the offsets and lengths
of their bytes; at `stop` there is no item. -/
inductive Members (file : List Byte) : Option Nat → Nat → List (Nat × Nat) → Nat → Prop
  | nil {table pos} (hitem : itemAt file table pos = none) : Members file table pos [] pos
  | special {table pos i ms stop} (hitem : itemAt file table pos = some i)
      (hordinary : i.ordinary = false) (hrest : Members file i.table (i.next pos) ms stop) :
      Members file table pos ms stop
  | ordinary {table pos i ms stop} (hitem : itemAt file table pos = some i)
      (hordinary : i.ordinary = true) (hrest : Members file i.table (i.next pos) ms stop) :
      Members file table pos ((pos + 60, i.size) :: ms) stop

/-- The items from the beginning of the archive lead to this offset. -/
inductive Reached (file : List Byte) : Option Nat → Nat → Prop
  | first : Reached file none 8
  | next {table pos i} (hreached : Reached file table pos)
      (hitem : itemAt file table pos = some i) : Reached file i.table (i.next pos)

/-- Exactly one `ifile` for every ordinary member, in their order. -/
structure OnePerMember (file : List Byte) (members : List Member) : Prop where
  exact : ∃ ms stop, Members file none 8 ms stop ∧
    members.map (fun m => (m.lo, m.hi)) = ms.map fun m => ((m.1 : Int), (m.1 + m.2 : Int))
  inside : ∀ m ∈ members, 0 ≤ m.lo ∧ m.lo ≤ m.hi ∧ m.hi ≤ file.length
  apart : members.Pairwise fun m m' => m.hi ≤ m'.lo
  sized : ∀ m ∈ members, ∃ h, readHeader file (m.lo.toNat - 60) = some h ∧ h.size = some (m.hi - m.lo)

/-- A header that says something the scan does not expect: it is a symbol table or has a size that
is negative or too large, or it is a long name table of the size -1. -/
def Trouble (file : List Byte) (table : Option Nat) (pos : Nat) : Prop :=
  ∃ h sz, readHeader file pos = some h ∧ h.arFmag = arfmag ∧ h.size = some sz ∧
    if h.fname = tableName then table = none ∧ sz = -1
    else dangling table h.fname = false ∧
      (h.fname = symbolName ∨ sz < 0 ∨ (file.length : Int) < pos + 60 + sz)

/-! ### The members of an archive -/

section

variable {file : List Byte} {table : Option Nat} {pos stop : Nat} {ms : List (Nat × Nat)} {i : Item}

theorem sizedHeader_eq {h : ArHdr} {n : Nat} (hs : sizedHeader file pos = some (h, n)) :
    readHeader file pos = some h ∧ h.arFmag = arfmag ∧ h.size = some (n : Int) ∧
      pos + 60 + n ≤ file.length := by
  obtain ⟨h', hread, hs⟩ := Option.bind_eq_some_iff.mp hs
  obtain ⟨sz, hsize, hs⟩ := Option.bind_eq_some_iff.mp hs
  split_ifs at hs with hfits
  obtain ⟨rfl, rfl⟩ := Prod.mk.inj (Option.some.inj hs)
  obtain ⟨hfmag, hnonneg, hfits⟩ := hfits
  exact ⟨hread, hfmag, by rw [hsize, Int.toNat_of_nonneg hnonneg], hfits⟩

theorem itemAt_sized (hi : itemAt file table pos = some i) :
    ∃ h, sizedHeader file pos = some (h, i.size) := by
  obtain ⟨⟨h, n⟩, hs, hi⟩ := Option.bind_eq_some_iff.mp hi
  dsimp only at hi
  split_ifs at hi <;> obtain rfl := Option.some.inj hi <;> exact ⟨h, hs⟩

/-- An item takes at least the bytes of a header. -/
theorem itemAt_next (hi : itemAt file table pos = some i) :
    pos + 60 ≤ i.next pos ∧ pos + 60 + i.size ≤ file.length := by
  obtain ⟨h, hs⟩ := itemAt_sized hi
  refine ⟨?_, (sizedHeader_eq hs).2.2.2⟩
  rw [Item.next, Nat.add_assoc (pos + 60)]
  exact Nat.le_add_right _ _

/-- The members are inside the archive, one after another, and as long as their headers say. -/
theorem members_spec (hm : Members file table pos ms stop) :
    (∀ m ∈ ms, pos + 60 ≤ m.1 ∧ m.1 + m.2 ≤ file.length ∧
      ∃ h, readHeader file (m.1 - 60) = some h ∧ h.size = some (m.2 : Int)) ∧
    ms.Pairwise fun m m' => m.1 + m.2 ≤ m'.1 := by
  induction hm with
  | nil hitem => exact ⟨List.forall_mem_nil _, .nil⟩
  | @special table pos i ms stop hitem hordinary hrest ih =>
      have hnext := (itemAt_next hitem).1
      refine ⟨fun m hm => ?_, ih.2⟩
      obtain ⟨hle, hrest⟩ := ih.1 m hm
      exact ⟨(Nat.add_le_add_right (Nat.le_of_add_right_le hnext) 60).trans hle, hrest⟩
  | @ordinary table pos i ms stop hitem hordinary hrest ih =>
      obtain ⟨hnext, hfits⟩ := itemAt_next hitem
      obtain ⟨h, hs⟩ := itemAt_sized hitem
      obtain ⟨hread, -, hsize, -⟩ := sizedHeader_eq hs
      refine ⟨List.forall_mem_cons.mpr ⟨⟨Nat.le_refl _, hfits, h, hread, hsize⟩, fun m hm => ?_⟩,
        List.pairwise_cons.mpr ⟨fun m hm => ?_, ih.2⟩⟩
      · obtain ⟨hle, hrest⟩ := ih.1 m hm
        exact ⟨(Nat.add_le_add_right (Nat.le_of_add_right_le hnext) 60).trans hle, hrest⟩
      · have hle := (ih.1 m hm).1
        rw [Item.next] at hle
        dsimp only
        omega

end

/-! ### One round -/

section

variable {file : List Byte} {st st' : Scan} {h : ArHdr} {sz : Int}

theorem length_zeroNewlines (cs : List Byte) : (zeroNewlines cs).length = cs.length := by
  induction cs with
  | nil => rfl
  | cons c cs ih =>
      rw [zeroNewlines]
      split_ifs
      · rw [List.length_cons, ih, List.length_cons]
      · rfl
      · rw [List.length_cons, ih, List.length_cons]

/-- The size of the long name table that has been read. -/
def Scan.table (st : Scan) : Option Nat := st.longNameTable.map List.length

/-- The name that a member gets, with its `/`. -/
def Scan.nameOf (st : Scan) (fname : List Byte) : List Byte :=
  match reference fname with
  | none => fname
  | some (offset, _) => stringAt (st.longNameTable.getD []) offset

/-- What is done about a header, by its name. -/
theorem scanStep_header (hread : readHeader file st.pos = some h) (hfmag : h.arFmag = arfmag)
    (hsize : h.size = some sz) :
    scanStep file st =
      if h.fname = tableName then scanTable file st sz
      else if dangling st.table h.fname = true then .inr (.error, st.members)
      else scanMember st (st.nameOf h.fname) sz := by
  have hsame : st.tableSize = st.table.getD 0 := rfl
  rw [scanStep, hread]
  dsimp only
  rw [if_neg (not_not.mpr hfmag), hsize]
  split_ifs with hname hdangling
  · rfl
  · rw [dangling] at hdangling
    rcases hr : reference h.fname with _ | ⟨offset, whole⟩
    · rw [hr] at hdangling
      cases hdangling
    · rw [hr] at hdangling
      dsimp only at hdangling ⊢
      rw [hsame]
      cases whole with
      | false => rfl
      | true =>
          have hle : st.table.getD 0 % 2 ^ 32 ≤ offset := by simpa using hdangling
          rw [if_neg (by simp), if_pos hle]
  · rw [dangling] at hdangling
    rw [Scan.nameOf]
    rcases hr : reference h.fname with _ | ⟨offset, whole⟩
    · rfl
    · rw [hr] at hdangling
      dsimp only at hdangling ⊢
      rw [hsame]
      cases whole with
      | false => exact absurd rfl hdangling
      | true =>
          have hlt : ¬st.table.getD 0 % 2 ^ 32 ≤ offset := by simpa using hdangling
          rw [if_neg (by simp), if_neg hlt]

theorem scanMember_inl (fname : List Byte) (hsz : 0 ≤ sz) :
    scanMember st fname sz = .inl
      { st with
        pos := st.pos + 60 + sz.toNat + sz.toNat % 2
        members := st.members ++ [⟨st.pos + 60, st.pos + 60 + sz, stripSlash fname⟩] } := by
  obtain ⟨n, rfl⟩ := Int.eq_ofNat_of_zero_le hsz
  have hpos : (st.pos : Int) + 60 + ((n : Int) + 1) / 2 * 2 =
      ((st.pos + 60 + n + n % 2 : Nat) : Int) := by
    omega
  rw [scanMember, hpos, if_neg (by omega), Int.toNat_natCast, Int.toNat_natCast]

/-- The members there are after a round. -/
def scanned : Scan ⊕ (ScanStop × List Member) → List Member := Sum.elim Scan.members Prod.snd

/-- A member is added in any case. -/
theorem scanned_scanMember (st : Scan) (fname : List Byte) (sz : Int) :
    scanned (scanMember st fname sz) =
      st.members ++ [⟨st.pos + 60, st.pos + 60 + sz, stripSlash fname⟩] := by
  rw [scanMember]
  split_ifs <;> rfl

theorem scanned_scanTable (st : Scan) (sz : Int) : scanned (scanTable file st sz) = st.members := by
  rw [scanTable]
  split_ifs <;> rfl

/-- What has been added stays. -/
theorem scanStep_mono (st : Scan) : st.members <+: scanned (scanStep file st) := by
  rcases hread : readHeader file st.pos with _ | h
  · rw [scanStep, hread]
    exact List.prefix_refl _
  · by_cases hfmag : h.arFmag = arfmag
    · rcases hsize : h.size with _ | sz
      · rw [scanStep, hread]
        dsimp only
        rw [if_neg (not_not.mpr hfmag), hsize]
        exact List.prefix_refl _
      · rw [scanStep_header hread hfmag hsize]
        split_ifs
        · rw [scanned_scanTable]
        · exact List.prefix_refl _
        · rw [scanned_scanMember]
          exact List.prefix_append _ _
    · rw [scanStep, hread]
      dsimp only
      rw [if_pos hfmag]
      exact List.prefix_refl _

theorem ends_mono {r : ScanStop × List Member} (hends : Support.Ends (scanStep file) st r) :
    scanned (scanStep file st) <+: r.2 := by
  have hrule : ∀ st, Support.Ends (scanStep file) st r → st.members <+: r.2 := by
    intro st hends
    refine hends.rule (I := fun st' => st.members <+: st'.members)
      (Q := fun r => st.members <+: r.2) (fun st' hst' st'' hstep => ?_)
      (fun st' hst' r hstep => ?_) (List.prefix_refl _)
    · have hmono : st'.members <+: scanned (scanStep file st') := scanStep_mono st'
      rw [hstep] at hmono
      exact hst'.trans hmono
    · have hmono : st'.members <+: scanned (scanStep file st') := scanStep_mono st'
      rw [hstep] at hmono
      exact hst'.trans hmono
  rcases hstep : scanStep file st with st' | r'
  · exact hrule st' ((Support.ends_step hstep).mp hends)
  · rw [(Support.ends_done hstep).mp hends]
    exact List.prefix_refl _

/-- The scan goes over an item that is no symbol table. -/
theorem scanStep_item {table : Option Nat} {i : Item} (htable : st.table = table)
    (hi : itemAt file table st.pos = some i) (hno : ¬Trouble file table st.pos) :
    ∃ st', scanStep file st = .inl st' ∧ st'.pos = i.next st.pos ∧ st'.table = i.table ∧
      st'.members.map (fun m => (m.lo, m.hi)) = st.members.map (fun m => (m.lo, m.hi)) ++
        if i.ordinary then [((st.pos + 60 : Int), (st.pos + 60 + i.size : Int))] else [] := by
  subst htable
  obtain ⟨⟨h, n⟩, hs, hi⟩ := Option.bind_eq_some_iff.mp hi
  obtain ⟨hread, hfmag, hsize, hfits⟩ := sizedHeader_eq hs
  dsimp only at hi
  rw [scanStep_header hread hfmag hsize]
  split_ifs at hi with hname htable hsymbol hdangling
  · -- the long name table
    obtain rfl := Option.some.inj hi
    obtain ⟨hnone, hpos⟩ := htable
    have hfirst : st.longNameTable = none := Option.map_eq_none_iff.mp hnone
    rw [if_pos hname, scanTable, hfirst]
    rw [if_neg (by simp), if_neg (by omega), if_neg (by omega), Int.toNat_natCast, if_pos hfits]
    refine ⟨_, rfl, rfl, ?_, (List.append_nil _).symm⟩
    show some (zeroNewlines ((file.drop (st.pos + 60)).take n)).length = some n
    rw [length_zeroNewlines, List.length_take, List.length_drop, Nat.min_eq_left (by omega)]
  · -- a symbol table
    refine absurd ⟨h, n, hread, hfmag, hsize, ?_⟩ hno
    rw [if_neg hname, hsymbol]
    exact ⟨rfl, Or.inl rfl⟩
  · obtain rfl := Option.some.inj hi
    rw [if_neg hname, if_neg hdangling, scanMember_inl _ (Int.natCast_nonneg n), Int.toNat_natCast]
    refine ⟨_, rfl, rfl, rfl, ?_⟩
    rw [List.map_append]
    simp

/-- Where there is no item the scan stops. -/
theorem scanStep_stop {table : Option Nat} (htable : st.table = table)
    (hi : itemAt file table st.pos = none) (hno : ¬Trouble file table st.pos) :
    ∃ stop, scanStep file st = .inr (stop, st.members) ∧ stop ≠ .crash := by
  subst htable
  rcases hread : readHeader file st.pos with _ | h
  · exact ⟨.ended, by rw [scanStep, hread], by decide⟩
  · by_cases hfmag : h.arFmag = arfmag
    · rcases hsize : h.size with _ | sz
      · refine ⟨.error, ?_, by decide⟩
        rw [scanStep, hread]
        dsimp only
        rw [if_neg (not_not.mpr hfmag), hsize]
      · rw [scanStep_header hread hfmag hsize]
        have hsized : 0 ≤ sz → st.pos + 60 + sz.toNat ≤ file.length →
            sizedHeader file st.pos = some (h, sz.toNat) := by
          intro hnonneg hfits
          rw [sizedHeader, hread, Option.bind_eq_bind, Option.bind_some, hsize,
            Option.bind_eq_bind, Option.bind_some, if_pos ⟨hfmag, hnonneg, hfits⟩]
        have hno' : ¬if h.fname = tableName then st.table = none ∧ sz = -1
            else dangling st.table h.fname = false ∧
              (h.fname = symbolName ∨ sz < 0 ∨ (file.length : Int) < st.pos + 60 + sz) :=
          fun htrouble => hno ⟨h, sz, hread, hfmag, hsize, htrouble⟩
        split_ifs at hno' ⊢ with hname hdangling
        · -- a long name table that cannot be read in
          rw [scanTable]
          split_ifs with hsecond hcrash hempty hfits
          · exact ⟨.error, rfl, by decide⟩
          · refine absurd ⟨?_, hcrash⟩ hno'
            rw [Bool.not_eq_true, Option.isSome_eq_false_iff, Option.isNone_iff_eq_none] at hsecond
            rw [Scan.table, hsecond]
            rfl
          · exact ⟨.fatal, rfl, by decide⟩
          · refine absurd hi ?_
            have hnone : st.table = none := by
              rw [Bool.not_eq_true, Option.isSome_eq_false_iff, Option.isNone_iff_eq_none] at hsecond
              rw [Scan.table, hsecond]
              rfl
            rw [itemAt, hsized (by omega) hfits, Option.bind_eq_bind, Option.bind_some]
            dsimp only
            rw [if_pos hname, if_pos ⟨hnone, by omega⟩]
            exact Option.some_ne_none _
          · exact ⟨.fatal, rfl, by decide⟩
        · exact ⟨.error, rfl, by decide⟩
        · -- an ordinary member would be an item
          rw [Bool.not_eq_true] at hdangling
          have hgood : ¬(h.fname = symbolName ∨ sz < 0 ∨
              (file.length : Int) < st.pos + 60 + sz) := fun hbad => hno' ⟨hdangling, hbad⟩
          rw [not_or, not_or] at hgood
          obtain ⟨hsymbol, hnonneg, hfits⟩ := hgood
          refine absurd hi ?_
          rw [itemAt, hsized (by omega) (by omega), Option.bind_eq_bind, Option.bind_some]
          dsimp only
          rw [if_neg hname, if_neg hsymbol, hdangling, if_neg Bool.false_ne_true]
          exact Option.some_ne_none _
    · refine ⟨.error, ?_, by decide⟩
      rw [scanStep, hread]
      dsimp only
      rw [if_pos hfmag]

/-- Where there is trouble the scan crashes, or adds an `ifile` that is no ordinary member. -/
theorem scanStep_trouble {table : Option Nat} (htable : st.table = table)
    (ht : Trouble file table st.pos) :
    (∃ ms, scanStep file st = .inr (.crash, ms)) ∨
      ∃ m : Member, scanned (scanStep file st) = st.members ++ [m] ∧ m.lo = st.pos + 60 ∧
        ∀ i, itemAt file table st.pos = some i → i.ordinary = false := by
  subst htable
  obtain ⟨h, sz, hread, hfmag, hsize, hbad⟩ := ht
  rw [scanStep_header hread hfmag hsize]
  split_ifs at hbad ⊢ with hname hdangling
  · obtain ⟨hnone, rfl⟩ := hbad
    have hfirst : st.longNameTable = none := Option.map_eq_none_iff.mp hnone
    refine Or.inl ⟨st.members, ?_⟩
    rw [scanTable, hfirst]
    rfl
  · rw [hbad.1] at hdangling
    cases hdangling
  · refine Or.inr ⟨_, scanned_scanMember st _ sz, rfl, fun i hi => ?_⟩
    obtain ⟨⟨h', n⟩, hs, hi⟩ := Option.bind_eq_some_iff.mp hi
    obtain ⟨hread', -, hsize', hfits⟩ := sizedHeader_eq hs
    obtain rfl : h = h' := Option.some.inj (hread.symm.trans hread')
    obtain rfl : sz = n := Option.some.inj (hsize.symm.trans hsize')
    dsimp only at hi
    rcases hbad.2 with hsymbol | hneg | hlong
    · rw [if_neg hname, if_pos hsymbol] at hi
      obtain rfl := Option.some.inj hi
      rfl
    · omega
    · omega

end

/-! ### The whole scan -/

section

variable {file : List Byte} {table : Option Nat} {st : Scan} {stop : ScanStop}
  {members : List Member}

/-- The range of bytes of a member. -/
def Member.range (m : Member) : Int × Int := (m.lo, m.hi)

/-- The range of bytes that an offset and a length stand for. -/
def rangeOf (m : Nat × Nat) : Int × Int := (m.1, m.1 + m.2)

/-- The scan goes from `st`, where the archive goes on with the members `ms`, to its end, and adds
one `ifile` for each. -/
def ScansFrom (file : List Byte) (table : Option Nat) (st : Scan) : Prop :=
  ∃ stop members, Support.Ends (scanStep file) st (stop, members) ∧ stop ≠ .crash ∧
    ∃ ms e, Members file table st.pos ms e ∧
      members.map Member.range = st.members.map Member.range ++ ms.map rangeOf

theorem scansFrom_of_reached (hno : ∀ table pos, Reached file table pos → ¬Trouble file table pos)
    (htable : st.table = table) (hreached : Reached file table st.pos) :
    ScansFrom file table st := by
  induction hn : file.length - st.pos using Nat.strongRecOn generalizing st table with
  | ind n ih =>
      rcases hi : itemAt file table st.pos with _ | i
      · obtain ⟨stop, hstep, hstop⟩ := scanStep_stop htable hi (hno _ _ hreached)
        exact ⟨stop, st.members, .done hstep, hstop, [], st.pos, .nil hi, (List.append_nil _).symm⟩
      · obtain ⟨st', hstep, hpos, htable', hmembers⟩ := scanStep_item htable hi (hno _ _ hreached)
        obtain ⟨hnext, hfits⟩ := itemAt_next hi
        have hreached' := hreached.next hi
        rw [← hpos] at hreached' hnext
        obtain ⟨stop, members, hends, hstop, ms, e, hms, hranges⟩ :=
          ih _ (by omega) htable' hreached' rfl
        rw [hpos] at hms
        have hmap : st'.members.map Member.range = _ := hmembers
        rw [hmap] at hranges
        refine ⟨stop, members, .next hstep hends, hstop, ?_⟩
        cases hordinary : i.ordinary with
        | false =>
            rw [hordinary, if_neg Bool.false_ne_true, List.append_nil] at hranges
            exact ⟨ms, e, .special hi hordinary hms, hranges⟩
        | true =>
            rw [hordinary, if_pos rfl, List.append_assoc] at hranges
            exact ⟨_, e, .ordinary hi hordinary hms, hranges⟩

/-- A scan that does what it should meets no trouble, and goes on like that. -/
theorem ScansFrom.not_trouble (hs : ScansFrom file table st) (htable : st.table = table) :
    ¬Trouble file table st.pos := by
  intro ht
  obtain ⟨stop, members, hends, hstop, ms, e, hms, hranges⟩ := hs
  rcases scanStep_trouble htable ht with ⟨ms', hcrash⟩ | ⟨m, hscanned, hlo, hordinary⟩
  · exact hstop (Prod.mk.inj ((Support.ends_done hcrash).mp hends)).1
  · -- the member added is none of those the archive goes on with
    have hprefix := ends_mono hends
    rw [hscanned] at hprefix
    obtain ⟨rest, hrest⟩ := hprefix
    dsimp only at hrest
    rw [← hrest, List.append_assoc, List.map_append] at hranges
    have hfirst : (m :: rest).map Member.range = ms.map rangeOf := List.append_cancel_left hranges
    cases hms with
    | nil hi => cases hfirst
    | ordinary hi hord hrest' =>
        rw [hordinary _ hi] at hord
        cases hord
    | @special _ _ i _ _ hi hord hrest' =>
        have hspec := (members_spec hrest').1
        cases ms with
        | nil => cases hfirst
        | cons m' ms =>
            have hle := (hspec m' List.mem_cons_self).1
            have hnext := (itemAt_next hi).1
            have heq : m.lo = (m'.1 : Int) := congrArg Prod.fst (List.cons.inj hfirst).1
            omega

theorem ScansFrom.next {i : Item} (hs : ScansFrom file table st) (htable : st.table = table)
    (hi : itemAt file table st.pos = some i) :
    ∃ st', st'.table = i.table ∧ st'.pos = i.next st.pos ∧ ScansFrom file i.table st' := by
  obtain ⟨st', hstep, hpos, htable', hmembers⟩ := scanStep_item htable hi (hs.not_trouble htable)
  obtain ⟨stop, members, hends, hstop, ms, e, hms, hranges⟩ := hs
  have hmap : st'.members.map Member.range = _ := hmembers
  refine ⟨st', htable', hpos, stop, members, (Support.ends_step hstep).mp hends, hstop, ?_⟩
  rw [hpos, hmap]
  cases hms with
  | nil hnone =>
      rw [hi] at hnone
      cases hnone
  | special hi' hord hrest =>
      obtain rfl := Option.some.inj (hi.symm.trans hi')
      refine ⟨_, e, hrest, ?_⟩
      rw [hord, if_neg Bool.false_ne_true, List.append_nil]
      exact hranges
  | ordinary hi' hord hrest =>
      obtain rfl := Option.some.inj (hi.symm.trans hi')
      refine ⟨_, e, hrest, ?_⟩
      rw [hord, if_pos rfl, List.append_assoc]
      exact hranges

theorem onePerMember_of_members {ms : List (Nat × Nat)} {e : Nat}
    (hms : Members file none 8 ms e) (hranges : members.map Member.range = ms.map rangeOf) :
    OnePerMember file members := by
  obtain ⟨hspec, hapart⟩ := members_spec hms
  have hmem : ∀ m ∈ members, ∃ m' ∈ ms, m.lo = m'.1 ∧ m.hi = m'.1 + m'.2 := by
    intro m hm
    have hrange := List.mem_map_of_mem (f := Member.range) hm
    rw [hranges] at hrange
    obtain ⟨m', hm', heq⟩ := List.mem_map.mp hrange
    obtain ⟨hlo, hhi⟩ := Prod.mk.inj heq
    exact ⟨m', hm', hlo.symm, hhi.symm⟩
  refine ⟨⟨ms, e, hms, hranges⟩, fun m hm => ?_, ?_, fun m hm => ?_⟩
  · obtain ⟨m', hm', hlo, hhi⟩ := hmem m hm
    have hfits := (hspec m' hm').2.1
    omega
  · have hmap : (members.map Member.range).Pairwise fun r r' => r.2 ≤ r'.1 := by
      rw [hranges, List.pairwise_map]
      refine hapart.imp fun {m m'} h => ?_
      show (m.1 + m.2 : Int) ≤ m'.1
      exact_mod_cast h
    exact List.pairwise_map.mp hmap
  · obtain ⟨m', hm', hlo, hhi⟩ := hmem m hm
    obtain ⟨-, -, h, hread, hsize⟩ := hspec m' hm'
    refine ⟨h, ?_, ?_⟩
    · rw [hlo, Int.toNat_natCast]
      exact hread
    · rw [hsize, hlo, hhi, add_sub_cancel_left]

/-- **An archive is scanned right** exactly when no header that its items lead to is a symbol
table, has a negative size, or says that more bytes follow than there are. -/
theorem scan_iff (file : List Byte) :
    (∃ stop members, openArchive file stop members ∧ stop ≠ .crash ∧ OnePerMember file members) ↔
      ∀ table pos, Reached file table pos → ¬Trouble file table pos := by
  constructor
  · rintro ⟨stop, members, hends, hstop, hone⟩
    obtain ⟨ms, e, hms, hranges⟩ := hone.exact
    have hfirst : ScansFrom file none ⟨8, none, []⟩ :=
      ⟨stop, members, hends, hstop, ms, e, hms, hranges⟩
    intro table pos hreached
    have hall : ∃ st : Scan, st.table = table ∧ st.pos = pos ∧ ScansFrom file table st := by
      induction hreached with
      | first => exact ⟨_, rfl, rfl, hfirst⟩
      | next hreached hi ih =>
          obtain ⟨st, htable, rfl, hs⟩ := ih
          exact hs.next htable hi
    obtain ⟨st, htable, rfl, hs⟩ := hall
    exact hs.not_trouble htable
  · intro hno
    have hfirst : ScansFrom file none ⟨8, none, []⟩ := scansFrom_of_reached hno rfl .first
    obtain ⟨stop, members, hends, hstop, ms, e, hms, hranges⟩ := hfirst
    exact ⟨stop, members, hends, hstop, onePerMember_of_members hms hranges⟩

end

/-! ### A negative size -/

/-- `!<arch>`, and the header of a member `a.o/` whose size is `-60`. -/
def minusSixty : List Byte :=
  identBytes "!<arch>\na.o/            0           0     0     644     -60       `\n"

/-- `fseek` leads back to the header, again and again. -/
theorem minusSixty_endless : ¬∃ stop members, openArchive minusSixty stop members := by
  rintro ⟨stop, members, hends⟩
  have hread : ∃ h, readHeader minusSixty 8 = some h ∧ h.arFmag = arfmag ∧ h.size = some (-60) ∧
      h.fname = identBytes "a.o/" := ⟨_, rfl, by decide, by decide, by decide⟩
  obtain ⟨h, hread, hfmag, hsize, hname⟩ := hread
  refine Support.not_ends (I := fun st : Scan => st.pos = 8) (fun st hpos => ?_) rfl ⟨_, hends⟩
  rw [scanStep_header (hpos ▸ hread) hfmag hsize, hname, if_neg (by decide),
    if_neg (by rw [dangling, show reference (identBytes "a.o/") = none by decide]; simp),
    scanMember, hpos]
  exact ⟨_, rfl, rfl⟩

end Ttools
