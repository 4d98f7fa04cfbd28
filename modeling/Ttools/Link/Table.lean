import Mathlib.Data.List.TakeWhile
import Ttools.Format.Number

/-!
# The hash table of names

`table_lookup`, `table_add_noname` and `table_walk` (`shared/misc.c`).  The column of a key is the
sum of its characters modulo the number of columns; a column holds nothing, one name, or a vector
of names.  Names without an identifier are kept apart.

* `Inv`: every name is in its column, once, and no two names have one key.
* `lookup_spec`: a lookup keeps this, and finds the name of the key or makes it.
* `map_iff`: the table is a map from keys to names exactly where no key has a negative column.
-/

namespace Ttools.NameTable

/-- A pointer to a name, by the order of their allocation. -/
abbrev NameRef := Nat

/-- What `top` and `hassublevel` say of a column. -/
inductive Column where
  | unopened
  | single (np : NameRef)
  | sublevel (v : List NameRef)
  deriving DecidableEq, Repr

/-- `struct table`, and `ident` of the names that have been allocated. -/
structure Table where
  ncolumns : Nat
  top : List Column
  nonames : List NameRef
  idents : List (List Byte)
  deriving DecidableEq, Repr

/-- `table_init`. -/
def tableInit (ncolumns : Nat) : Table := ⟨ncolumns, List.replicate ncolumns .unopened, [], []⟩

/-- A character as an `int`; `sgn` says whether plain `char` has a sign on the host. -/
def charValue (sgn : Bool) (b : Byte) : Word := if sgn then b.signExtend 32 else b.zeroExtend 32

/-- The sum, from the last character on. -/
def keySum (sgn : Bool) (key : List Byte) : Word :=
  key.foldr (fun b sum => sum + charValue sgn b) 0

/-- `sum % t->ncolumns`, which has the sign of `sum`. -/
def keyColumn (sgn : Bool) (ncolumns : Nat) (key : List Byte) : Int :=
  (keySum sgn key).toInt.tmod ncolumns

/-- The test for the key: `memcmp`, which stops at the zero that ends `ident`, and `strlen`. -/
def sameKey (key ident : List Byte) : Bool :=
  key == (ident ++ [0]).take key.length && (ident.takeWhile (· ≠ 0)).length == key.length

namespace Table

/-- The identifier of a name. -/
def ident (t : Table) (np : NameRef) : List Byte := t.idents[np]?.getD []

/-- `name_alloc`, with what is made of the new name. -/
def alloc (t : Table) (key : List Byte) : Table := { t with idents := t.idents ++ [key] }

/-- `table_add_noname`. -/
def addNoname (t : Table) : NameRef × Table :=
  let np := t.idents.length
  (np, { t.alloc [] with nonames := t.nonames ++ [np] })

/-- `table_lookup`; `none` is an access outside of `top`. -/
def lookup (sgn : Bool) (t : Table) (key : List Byte) : Option (NameRef × Table) :=
  if key = [] then some t.addNoname
  else
    let column := keyColumn sgn t.ncolumns key
    if column < 0 then none
    else
      let new := t.idents.length
      match t.top[column.toNat]? with
      | none => none
      | some (.sublevel v) =>
          match v.find? fun np => sameKey key (t.ident np) with
          | some np => some (np, t)
          | none =>
              some (new, { t.alloc key with
                top := t.top.set column.toNat (.sublevel (v ++ [new])) })
      | some (.single np) =>
          if sameKey key (t.ident np) then some (np, t)
          else some (new, { t.alloc key with
            top := t.top.set column.toNat (.sublevel [np, new]) })
      | some .unopened =>
          some (new, { t.alloc key with top := t.top.set column.toNat (.single new) })

end Table

def Column.names : Column → List NameRef
  | .unopened => []
  | .single np => [np]
  | .sublevel v => v

/-- The calls of `fcn`, up to the first that does not return zero. -/
def walkNames {α : Type} (fcn : NameRef → Option α) : List NameRef → Option α × List NameRef
  | [] => (none, [])
  | np :: nps =>
      match fcn np with
      | some ret => (some ret, [np])
      | none => ((walkNames fcn nps).1, np :: (walkNames fcn nps).2)

namespace Table

/-- The names as `table_walk` goes: those without an identifier from the last on, and the columns
from the last on. -/
def order (t : Table) : List NameRef :=
  t.nonames.reverse ++ t.top.reverse.flatMap Column.names

/-- `table_walk`: what it returns, and the names that `fcn` has been called with. -/
def walk {α : Type} (t : Table) (fcn : NameRef → Option α) : Option α × List NameRef :=
  walkNames fcn t.order

/-- A sequence of lookups. -/
def lookups (sgn : Bool) (t : Table) : List (List Byte) → Option (List NameRef × Table)
  | [] => some ([], t)
  | key :: keys => do
      let (np, t) ← t.lookup sgn key
      let (nps, t) ← t.lookups sgn keys
      some (np :: nps, t)

end Table

/-! ### Keys -/

theorem takeWhile_of_nul_free {key : List Byte} (h : (0 : Byte) ∉ key) :
    key.takeWhile (· ≠ 0) = key := by
  rw [List.takeWhile_eq_self_iff]
  intro b hb
  exact decide_eq_true fun h0 => h (h0 ▸ hb)

theorem sameKey_iff {key ident : List Byte} (hkey : (0 : Byte) ∉ key) (hident : (0 : Byte) ∉ ident) :
    sameKey key ident = true ↔ ident = key := by
  rw [sameKey, Bool.and_eq_true, beq_iff_eq, beq_iff_eq, takeWhile_of_nul_free hident]
  constructor
  · rintro ⟨hcmp, hlen⟩
    rw [← hlen, List.take_left] at hcmp
    exact hcmp.symm
  · rintro rfl
    exact ⟨by rw [List.take_left], rfl⟩

/-- The remainder is negative only for a sum that is negative and not a multiple. -/
theorem keyColumn_nonneg_iff {sgn : Bool} {ncolumns : Nat} {key : List Byte} :
    0 ≤ keyColumn sgn ncolumns key ↔
      0 ≤ (keySum sgn key).toInt ∨ (ncolumns : Int) ∣ (keySum sgn key).toInt := by
  unfold keyColumn
  rw [← Int.sign_nonneg_iff, Int.sign_tmod]
  split
  · next hdvd => exact iff_of_true le_rfl (.inr hdvd)
  · next hdvd => simp [hdvd]

theorem keyColumn_lt {sgn : Bool} {ncolumns : Nat} (h : 0 < ncolumns) (key : List Byte) :
    keyColumn sgn ncolumns key < ncolumns :=
  Int.tmod_lt_of_pos _ (by exact_mod_cast h)

/-! ### What the table keeps -/

section

variable {sgn : Bool} {t : Table} {key : List Byte}

/-- The key has a column of the table. -/
def InRange (sgn : Bool) (ncolumns : Nat) (key : List Byte) : Prop :=
  0 ≤ keyColumn sgn ncolumns key ∧ keyColumn sgn ncolumns key < ncolumns

/-- Every name is where its key is looked up, once, and the keys tell the names apart. -/
structure Inv (sgn : Bool) (t : Table) : Prop where
  opened : t.top.length = t.ncolumns
  once : t.order.Perm (List.range t.idents.length)
  placed : ∀ (c : Nat) (col : Column), t.top[c]? = some col → ∀ np ∈ col.names,
    t.ident np ≠ [] ∧ keyColumn sgn t.ncolumns (t.ident np) = c
  apart : ∀ np ∈ t.nonames, t.ident np = []
  distinct : ∀ np np', np < t.idents.length → np' < t.idents.length →
    t.ident np = t.ident np' → t.ident np ≠ [] → np = np'
  nulFree : ∀ ident ∈ t.idents, (0 : Byte) ∉ ident

theorem inv_tableInit (sgn : Bool) (ncolumns : Nat) : Inv sgn (tableInit ncolumns) := by
  have hcol : ∀ (c : Nat) (col : Column),
      (tableInit ncolumns).top[c]? = some col → col = .unopened := by
    intro c col hc
    exact List.eq_of_mem_replicate (List.mem_of_getElem? hc)
  have horder : (tableInit ncolumns).order = [] := by
    simp only [Table.order, tableInit, List.reverse_nil, List.nil_append, List.reverse_replicate]
    refine List.flatMap_eq_nil_iff.mpr fun col hmem => ?_
    rw [List.eq_of_mem_replicate hmem, Column.names]
  refine ⟨List.length_replicate, by rw [horder]; rfl, fun c col hc np hnp => ?_, ?_, ?_, ?_⟩
  · rw [hcol c col hc] at hnp
    cases hnp
  · rintro np ⟨⟩
  · rintro np np' ⟨⟩
  · rintro ident ⟨⟩

/-- The identifiers that there are stay. -/
theorem ident_alloc {np : NameRef} (h : np < t.idents.length) (key : List Byte) :
    (t.alloc key).ident np = t.ident np := by
  rw [Table.ident, Table.ident, Table.alloc, List.getElem?_append_left h]

theorem ident_alloc_new (t : Table) (key : List Byte) : (t.alloc key).ident t.idents.length = key := by
  rw [Table.ident, Table.alloc, List.getElem?_concat_length, Option.getD_some]

theorem mem_order {np : NameRef} :
    np ∈ t.order ↔
      np ∈ t.nonames ∨ ∃ (c : Nat) (col : Column), t.top[c]? = some col ∧ np ∈ col.names := by
  simp only [Table.order, List.mem_append, List.mem_reverse, List.mem_flatMap]
  refine or_congr_right ⟨?_, ?_⟩
  · rintro ⟨col, hcol, hnp⟩
    obtain ⟨c, hc⟩ := List.mem_iff_getElem?.mp hcol
    exact ⟨c, col, hc, hnp⟩
  · rintro ⟨c, col, hc, hnp⟩
    exact ⟨col, List.mem_of_getElem? hc, hnp⟩

theorem Inv.lt (h : Inv sgn t) {np : NameRef} (hnp : np ∈ t.order) : np < t.idents.length :=
  List.mem_range.mp (h.once.mem_iff.mp hnp)

/-- A name with this key is found in the column of the key. -/
theorem Inv.found (h : Inv sgn t) (hkey : key ≠ []) {np : NameRef} (hnp : np < t.idents.length)
    (hident : t.ident np = key) {c : Nat} (hc : keyColumn sgn t.ncolumns key = c) {col : Column}
    (hcol : t.top[c]? = some col) : np ∈ col.names := by
  have hmem : np ∈ t.order := h.once.mem_iff.mpr (List.mem_range.mpr hnp)
  obtain hno | ⟨c', col', hcol', hnp'⟩ := mem_order.mp hmem
  · rw [h.apart np hno] at hident
    exact absurd hident.symm hkey
  · have hplaced := (h.placed c' col' hcol' np hnp').2
    rw [hident, hc] at hplaced
    obtain rfl : c = c' := by exact_mod_cast hplaced
    obtain rfl := Option.some.inj (hcol.symm.trans hcol')
    exact hnp'

theorem order_perm (t : Table) : t.order.Perm (t.nonames ++ t.top.flatMap Column.names) :=
  (List.reverse_perm t.nonames).append ((List.reverse_perm t.top).flatMap_right _)

/-- One column more or less full. -/
theorem flatMap_set {top : List Column} {c : Nat} {col col' : Column} {np : NameRef}
    (hcol : top[c]? = some col) (hnames : col'.names.Perm (col.names ++ [np])) :
    ((top.set c col').flatMap Column.names).Perm (top.flatMap Column.names ++ [np]) := by
  induction top generalizing c with
  | nil => cases hcol
  | cons d top ih =>
      cases c with
      | zero =>
          obtain rfl := Option.some.inj hcol
          rw [List.set_cons_zero, List.flatMap_cons, List.flatMap_cons, List.append_assoc]
          refine (hnames.append_right _).trans ?_
          rw [List.append_assoc]
          exact List.perm_append_comm.append_left _
      | succ c =>
          rw [List.set_cons_succ, List.flatMap_cons, List.flatMap_cons, List.append_assoc]
          exact (ih hcol).append_left _

/-- A new name is put into the column of its key. -/
theorem Inv.place (h : Inv sgn t) (hkey : key ≠ []) (hnul : (0 : Byte) ∉ key) {c : Nat}
    (hc : keyColumn sgn t.ncolumns key = c) {col col' : Column} (hcol : t.top[c]? = some col)
    (hnames : col'.names = col.names ++ [t.idents.length])
    (hnew : ∀ np < t.idents.length, t.ident np ≠ key) :
    Inv sgn { t.alloc key with top := t.top.set c col' } := by
  have hlt : ∀ np, np ∈ col.names → np < t.idents.length := fun np hnp =>
    h.lt (mem_order.mpr (.inr ⟨c, col, hcol, hnp⟩))
  have hident : ∀ np, Table.ident { t.alloc key with top := t.top.set c col' } np =
      (t.alloc key).ident np := fun _ => rfl
  have hold : ∀ np < t.idents.length, (t.alloc key).ident np = t.ident np :=
    fun np hnp => ident_alloc hnp key
  have hself := ident_alloc_new t key
  have hlen : (t.alloc key).idents.length = t.idents.length + 1 := by simp [Table.alloc]
  refine ⟨?_, ?_, fun d col'' hd np hnp => ?_, fun np hnp => ?_, fun np np' hnp hnp' heq hne => ?_,
    ?_⟩
  · exact (List.length_set ..).trans h.opened
  · change List.Perm _ (List.range (t.alloc key).idents.length)
    rw [hlen, List.range_succ]
    refine (order_perm _).trans ?_
    refine ((flatMap_set hcol (.of_eq hnames)).append_left t.nonames).trans ?_
    rw [← List.append_assoc]
    exact ((order_perm t).symm.trans h.once).append_right _
  · rw [hident]
    change (t.top.set c col')[d]? = some col'' at hd
    by_cases hdc : c = d
    · subst hdc
      rw [List.getElem?_set_self (List.getElem?_eq_some_iff.mp hcol).1] at hd
      obtain rfl := Option.some.inj hd
      rw [hnames, List.mem_append, List.mem_singleton] at hnp
      rcases hnp with hnp | rfl
      · rw [hold np (hlt np hnp)]
        exact h.placed c col hcol np hnp
      · rw [hself]
        exact ⟨hkey, hc⟩
    · rw [List.getElem?_set_ne hdc] at hd
      rw [hold np (h.lt (mem_order.mpr (.inr ⟨d, col'', hd, hnp⟩)))]
      exact h.placed d col'' hd np hnp
  · rw [hident, hold np (h.lt (mem_order.mpr (.inl hnp)))]
    exact h.apart np hnp
  · rw [hident, hident] at heq
    rw [hident] at hne
    change np < (t.alloc key).idents.length at hnp
    change np' < (t.alloc key).idents.length at hnp'
    rw [hlen] at hnp hnp'
    rcases Nat.lt_succ_iff_lt_or_eq.mp hnp with hnp | rfl
    · rw [hold np hnp] at heq hne
      rcases Nat.lt_succ_iff_lt_or_eq.mp hnp' with hnp' | rfl
      · rw [hold np' hnp'] at heq
        exact h.distinct np np' hnp hnp' heq hne
      · rw [hself] at heq
        exact absurd heq (hnew np hnp)
    · rw [hself] at heq
      rcases Nat.lt_succ_iff_lt_or_eq.mp hnp' with hnp' | rfl
      · rw [hold np' hnp'] at heq
        exact absurd heq.symm (hnew np' hnp')
      · rfl
  · exact List.forall_mem_append.mpr ⟨h.nulFree, List.forall_mem_singleton.mpr hnul⟩

/-- A new name without an identifier. -/
theorem Inv.addNoname (h : Inv sgn t) : Inv sgn t.addNoname.2 := by
  have hident : ∀ np, t.addNoname.2.ident np = (t.alloc []).ident np := fun _ => rfl
  have hold : ∀ np < t.idents.length, (t.alloc []).ident np = t.ident np :=
    fun np hnp => ident_alloc hnp []
  have hself := ident_alloc_new t []
  have hlen : t.addNoname.2.idents.length = t.idents.length + 1 := by
    simp [Table.addNoname, Table.alloc]
  have hlast : ∀ np, np < t.addNoname.2.idents.length → (t.alloc []).ident np ≠ [] →
      np < t.idents.length := by
    intro np hnp hne
    rw [hlen] at hnp
    refine (Nat.lt_succ_iff_lt_or_eq.mp hnp).resolve_right ?_
    rintro rfl
    exact hne hself
  refine ⟨h.opened, ?_, fun c col hcol np hnp => ?_, fun np hnp => ?_,
    fun np np' hnp hnp' heq hne => ?_, ?_⟩
  · rw [hlen, List.range_succ]
    change List.Perm ((t.nonames ++ [t.idents.length]).reverse ++ _) _
    rw [List.reverse_concat, List.cons_append]
    exact (List.perm_append_singleton _ _).symm.trans (h.once.append_right _)
  · rw [hident, hold np (h.lt (mem_order.mpr (.inr ⟨c, col, hcol, hnp⟩)))]
    exact h.placed c col hcol np hnp
  · rw [hident]
    rcases List.mem_append.mp hnp with hnp | hnp
    · rw [hold np (h.lt (mem_order.mpr (.inl hnp)))]
      exact h.apart np hnp
    · rw [List.mem_singleton.mp hnp, hself]
  · rw [hident] at hne heq
    rw [hident] at heq
    have hlt := hlast np hnp hne
    have hlt' := hlast np' hnp' (heq ▸ hne)
    rw [hold np hlt] at heq hne
    rw [hold np' hlt'] at heq
    exact h.distinct np np' hlt hlt' heq hne
  · exact List.forall_mem_append.mpr ⟨h.nulFree, List.forall_mem_singleton.mpr (by simp)⟩

/-! ### Lookups -/

/-- What a lookup of `key` gives. -/
structure Looked (sgn : Bool) (t : Table) (key : List Byte) (np : NameRef) (t' : Table) : Prop where
  inv : Inv sgn t'
  ncolumns : t'.ncolumns = t.ncolumns
  grown : t.idents <+: t'.idents
  allocated : np < t'.idents.length
  ident : t'.ident np = key
  fresh : key = [] → np = t.idents.length

/-- The name that is found, or a new one. -/
theorem looked_found (h : Inv sgn t) (hkey : key ≠ []) {np : NameRef} (hnp : np ∈ t.order)
    (hident : t.ident np = key) : Looked sgn t key np t :=
  ⟨h, rfl, List.prefix_rfl, h.lt hnp, hident, fun h => absurd h hkey⟩

theorem looked_new (h : Inv sgn t) (hkey : key ≠ []) (hnul : (0 : Byte) ∉ key) {c : Nat}
    (hc : keyColumn sgn t.ncolumns key = c) {col col' : Column} (hcol : t.top[c]? = some col)
    (hnames : col'.names = col.names ++ [t.idents.length])
    (hnew : ∀ np ∈ col.names, t.ident np ≠ key) :
    Looked sgn t key t.idents.length { t.alloc key with top := t.top.set c col' } := by
  refine ⟨h.place hkey hnul hc hcol hnames fun np hnp hident => ?_, rfl, List.prefix_append .., ?_,
    ident_alloc_new t key, fun h => absurd h hkey⟩
  · exact hnew np (h.found hkey hnp hident hc hcol) hident
  · simp [Table.alloc]

/-- A lookup finds the name of its key, or makes it. -/
theorem lookup_spec (h : Inv sgn t) (hnul : (0 : Byte) ∉ key)
    (hrange : key ≠ [] → InRange sgn t.ncolumns key) :
    ∃ np t', t.lookup sgn key = some (np, t') ∧ Looked sgn t key np t' := by
  by_cases hkey : key = []
  · subst hkey
    refine ⟨t.idents.length, t.addNoname.2, ?_, h.addNoname, rfl, List.prefix_append .., ?_,
      ident_alloc_new t [], fun _ => rfl⟩
    · rw [Table.lookup, if_pos rfl]
      rfl
    · simp [Table.addNoname, Table.alloc]
  · obtain ⟨hlo, hhi⟩ := hrange hkey
    obtain ⟨c, hc⟩ := Int.eq_ofNat_of_zero_le hlo
    have hlt : c < t.top.length := by rw [h.opened]; omega
    obtain ⟨col, hcol⟩ : ∃ col, t.top[c]? = some col := ⟨_, List.getElem?_eq_getElem hlt⟩
    have horder : ∀ np ∈ col.names, np ∈ t.order := fun np hnp =>
      mem_order.mpr (.inr ⟨c, col, hcol, hnp⟩)
    have hsame : ∀ np ∈ col.names, (sameKey key (t.ident np) = true ↔ t.ident np = key) := by
      intro np hnp
      refine sameKey_iff hnul (h.nulFree _ ?_)
      rw [Table.ident, List.getElem?_eq_getElem (h.lt (horder np hnp))]
      exact List.getElem_mem _
    rw [Table.lookup, if_neg hkey]
    simp only [hc, Int.toNat_natCast, if_neg (Int.not_lt.mpr (Int.natCast_nonneg c)), hcol]
    cases col with
    | unopened =>
        exact ⟨_, _, rfl, looked_new h hkey hnul hc hcol rfl (by rintro np ⟨⟩)⟩
    | single np =>
        have hmem : np ∈ (Column.single np).names := List.mem_singleton_self np
        dsimp only
        split
        · next hfound =>
            exact ⟨_, _, rfl, looked_found h hkey (horder np hmem) ((hsame np hmem).mp hfound)⟩
        · next hfound =>
            refine ⟨_, _, rfl, looked_new h hkey hnul hc hcol rfl fun np' hnp' hident => ?_⟩
            rw [List.mem_singleton.mp hnp'] at hident
            exact hfound ((hsame np hmem).mpr hident)
    | sublevel v =>
        dsimp only
        rcases hfind : v.find? (fun np => sameKey key (t.ident np)) with _ | np
        · refine ⟨_, _, rfl, looked_new h hkey hnul hc hcol rfl fun np hnp hident => ?_⟩
          exact List.find?_eq_none.mp hfind np hnp ((hsame np hnp).mpr hident)
        · have hmem : np ∈ (Column.sublevel v).names := List.mem_of_find?_eq_some hfind
          have hfound := List.find?_some hfind
          exact ⟨_, _, rfl, looked_found h hkey (horder np hmem) ((hsame np hmem).mp hfound)⟩

theorem ident_of_isPrefix {t' : Table} (h : t.idents <+: t'.idents) {np : NameRef}
    (hnp : np < t.idents.length) : t'.ident np = t.ident np := by
  obtain ⟨rest, hrest⟩ := h
  rw [Table.ident, Table.ident, ← hrest, List.getElem?_append_left hnp]

/-- A name is returned again for its key, which is not empty. -/
def SameName (a b : List Byte × NameRef) : Prop := a.2 = b.2 ↔ a.1 = b.1 ∧ a.1 ≠ []

/-- What a sequence of lookups gives. -/
structure LookedUp (sgn : Bool) (t : Table) (keys : List (List Byte)) (nps : List NameRef)
    (t' : Table) : Prop where
  inv : Inv sgn t'
  grown : t.idents <+: t'.idents
  results : List.Forall₂ (fun key np => np < t'.idents.length ∧ t'.ident np = key ∧
    (key = [] → t.idents.length ≤ np)) keys nps
  same : (keys.zip nps).Pairwise SameName

theorem LookedUp.nil (h : Inv sgn t) : LookedUp sgn t [] [] t :=
  ⟨h, List.prefix_rfl, .nil, .nil⟩

theorem LookedUp.cons {t₁ t₂ : Table} {keys : List (List Byte)} {np : NameRef} {nps : List NameRef}
    (h : Looked sgn t key np t₁) (hs : LookedUp sgn t₁ keys nps t₂) :
    LookedUp sgn t (key :: keys) (np :: nps) t₂ := by
  have hlen := h.grown.length_le
  have hlen' := hs.grown.length_le
  have hident : t₂.ident np = key := by
    rw [ident_of_isPrefix hs.grown h.allocated]
    exact h.ident
  refine ⟨hs.inv, h.grown.trans hs.grown, .cons ⟨h.allocated.trans_le hlen', hident, ?_⟩ ?_,
    .cons (fun b hb => ?_) hs.same⟩
  · intro hempty
    exact (h.fresh hempty).ge
  · exact hs.results.imp fun key' np' ⟨hlt, hid, hfresh⟩ =>
      ⟨hlt, hid, fun hempty => hlen.trans (hfresh hempty)⟩
  · obtain ⟨hlt, hid, hfresh⟩ := (List.forall₂_iff_zip.mp hs.results).2 hb
    constructor
    · intro heq
      change np = b.2 at heq
      have hkeys : key = b.1 := by rw [← hident, heq, hid]
      refine ⟨hkeys, fun hempty => ?_⟩
      -- the name of another lookup without a key is a later one
      have hlater := hfresh (hkeys ▸ hempty)
      rw [← heq] at hlater
      exact absurd h.allocated (not_lt.mpr hlater)
    · rintro ⟨hkeys, hne⟩
      refine hs.inv.distinct np b.2 (h.allocated.trans_le hlen') hlt ?_ ?_
      · rw [hident, hid]
        exact hkeys
      · rw [hident]
        exact hne

theorem lookups_spec {keys : List (List Byte)} (h : Inv sgn t)
    (hnul : ∀ key ∈ keys, (0 : Byte) ∉ key)
    (hrange : ∀ key ∈ keys, key ≠ [] → InRange sgn t.ncolumns key) :
    ∃ nps t', t.lookups sgn keys = some (nps, t') ∧ LookedUp sgn t keys nps t' := by
  induction keys generalizing t with
  | nil => exact ⟨_, _, rfl, .nil h⟩
  | cons key keys ih =>
      obtain ⟨hkey, hnul⟩ := List.forall_mem_cons.mp hnul
      obtain ⟨hkey', hrange⟩ := List.forall_mem_cons.mp hrange
      obtain ⟨np, t₁, hlook, hl⟩ := lookup_spec h hkey hkey'
      rw [← hl.ncolumns] at hrange
      obtain ⟨nps, t₂, hlooks, hls⟩ := ih hl.inv hnul hrange
      refine ⟨np :: nps, t₂, ?_, .cons hl hls⟩
      rw [Table.lookups, hlook]
      simp only [Option.bind_eq_bind, Option.bind_some]
      rw [hlooks]
      rfl

end

/-! ### The table is a map -/

theorem walkNames_none {α : Type} {fcn : NameRef → Option α} (h : ∀ np, fcn np = none)
    (nps : List NameRef) : walkNames fcn nps = (none, nps) := by
  induction nps with
  | nil => rfl
  | cons np nps ih => simp only [walkNames, h, ih]

/-- What is expected of a table of so many columns after the lookups of these keys. -/
structure IsMap (sgn : Bool) (ncolumns : Nat) (keys : List (List Byte)) : Prop where
  columns : ∀ key ∈ keys, key ≠ [] → InRange sgn ncolumns key
  names : ∃ nps t, (tableInit ncolumns).lookups sgn keys = some (nps, t) ∧
    nps.length = keys.length ∧ (keys.zip nps).Pairwise SameName ∧
    ∀ {α : Type} (fcn : NameRef → Option α), (∀ np, fcn np = none) →
      (t.walk fcn).2.Perm (List.range t.idents.length)

/-- **The name table is a map** exactly if no key has a sum that is negative and not a multiple of
the number of columns. -/
theorem map_iff {sgn : Bool} {ncolumns : Nat} (hn : 0 < ncolumns) {keys : List (List Byte)}
    (hnul : ∀ key ∈ keys, (0 : Byte) ∉ key) :
    IsMap sgn ncolumns keys ↔ ∀ key ∈ keys,
      0 ≤ (keySum sgn key).toInt ∨ (ncolumns : Int) ∣ (keySum sgn key).toInt := by
  constructor
  · intro h key hkey
    rw [← keyColumn_nonneg_iff]
    by_cases hempty : key = []
    · subst hempty
      exact Int.tmod_nonneg _ le_rfl
    · exact (h.columns key hkey hempty).1
  · intro h
    have hrange : ∀ key ∈ keys, key ≠ [] → InRange sgn ncolumns key := fun key hkey _ =>
      ⟨keyColumn_nonneg_iff.mpr (h key hkey), keyColumn_lt hn key⟩
    obtain ⟨nps, t, hrun, hl⟩ := lookups_spec (inv_tableInit sgn ncolumns) hnul hrange
    refine ⟨hrange, nps, t, hrun, hl.results.length_eq.symm, hl.same, fun fcn hfcn => ?_⟩
    rw [Table.walk, walkNames_none hfcn]
    exact hl.inv.once

/-- Three lookups, the last of the key of the first. -/
theorem map_iff_again : IsMap true 16 [[0x61], [], [0x61]] ↔ ∀ key ∈ [[(0x61 : Byte)], [], [0x61]],
    0 ≤ (keySum true key).toInt ∨ ((16 : Nat) : Int) ∣ (keySum true key).toInt :=
  map_iff (by decide) (by simp)

/-- Where `char` has a sign, the key `"\377"` has the column -1. -/
theorem not_map_377 : keyColumn true 1024 [0xff] = -1 ∧ ¬IsMap true 1024 [[0xff]] := by
  have hcolumn : keyColumn true 1024 [0xff] = -1 := by decide
  refine ⟨hcolumn, fun h => ?_⟩
  have hlo := (h.columns [0xff] (by simp) (by simp)).1
  rw [hcolumn] at hlo
  omega

end Ttools.NameTable
