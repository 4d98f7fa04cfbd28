import Mathlib.Data.List.Infix
import Ttools.Expr.Syntax

/-!
# Booting over the link

`oserver/oserver.c`: one process writes the boot files to the link, its child copies to `stdout`
what the transputer writes to the link.  Either of them ends the other when it exits.  `Server` is
what there is between two of their system calls, and a run is any sequence of these, of whatever the
transputer writes and of signals; `write` and `read` come back with as many bytes as the driver
likes.

* `Shows.parse`: what is shown determines the bytes, also as a hexadecimal dump.
* `stepParent_takes`: what a step of the parent does to what is left to be sent.
* `run_delivers`: what has arrived, on both sides, after any run.

The options, the messages and the reset of the link are left out; so is a signal that a process gets
in the middle of a call of the library, `exit` among them, which could write its buffer twice.
-/

namespace Ttools.Oserver

/-! ### What is shown -/

/-- A character of the output. -/
def char (c : Char) : Byte := BitVec.ofNat 8 c.toNat

/-- A digit of `%02x`. -/
def hexDigit (n : BitVec 4) : Byte :=
  if n < 10 then char '0' + n.setWidth 8 else char 'a' + (n.setWidth 8 - 10)

/-- The two digits of a byte. -/
def hexDigits (b : Byte) : List (BitVec 4) := [b.extractLsb' 4 4, b.extractLsb' 0 4]

/-- What follows the byte `i`. -/
def separator (i : Nat) : Byte :=
  if i % 16 = 7 then char '-' else if i % 16 = 15 then char '\n' else char ' '

/-- The loop of `reader` with `hexdump`, from the byte `i` on. -/
def dumpFrom (i : Nat) : List Byte → List Byte
  | [] => [char '\n']
  | b :: bs => (hexDigits b).map hexDigit ++ separator i :: dumpFrom (i + 1) bs

/-- What `reader` shows of the bytes of one `read`. -/
def shown (hexdump : Bool) (bs : List Byte) : List Byte :=
  if bs = [] then [] else if hexdump then dumpFrom 0 bs else bs

/-- The value of a digit. -/
def digitValue (c : Byte) : Option (BitVec 4) :=
  if char '0' ≤ c ∧ c ≤ char '9' then some ((c - char '0').setWidth 4)
  else if char 'a' ≤ c ∧ c ≤ char 'f' then some ((c - char 'a' + 10).setWidth 4)
  else none

/-- Every two digits are a byte. -/
def pairUp : List (BitVec 4) → List Byte
  | h :: l :: ds => (h ++ l) :: pairUp ds
  | _ => []

/-- What somebody who sees the output knows of the bytes. -/
def parse (hexdump : Bool) (out : List Byte) : List Byte :=
  if hexdump then pairUp (out.filterMap digitValue) else out

/-! ### The two processes -/

/-- An argument: a file, which is `none` if it cannot be opened, or `-`. -/
inductive BootFile where
  | named (content : Option (List Byte))
  | dash
  deriving DecidableEq, Repr

/-- Where the parent is: in front of the loop over the files, of the loop around `fread`, of the
loop around `write`, or asleep. -/
inductive Parent where
  | opening (files : List BootFile)
  | reading (files : List BootFile)
  | writing (buf : List Byte) (files : List BootFile)
  | sleeping
  | exited
  deriving DecidableEq, Repr

/-- A signal that ends a process: one of those that `graceful_exit` is installed for, or another. -/
inductive Signal where
  | sighup | sigint | sigterm | other
  deriving DecidableEq, Repr

/-- `graceful_exit` is called. -/
def Signal.caught : Signal → Bool
  | .sighup | .sigint | .sigterm => true
  | .other => false

/-- Both processes, and what is between them and the transputer.  `killsChild` and `killsParent` say
what has been registered with `atexit`, which is lost when a process is killed, `childTerm` and
`parentTerm` that a `SIGTERM` has been sent. -/
structure Server where
  parent : Parent
  childExited : Bool
  stdin : List Byte
  sent : List Byte
  written : List Byte
  toRead : List Byte
  stdout : List Byte
  killsChild : Bool
  killsParent : Bool
  childTerm : Bool
  parentTerm : Bool
  deriving DecidableEq, Repr

/-- After the `fork`. -/
def Server.forked (stdin : List Byte) (files : List BootFile) : Server where
  parent := .opening files
  childExited := false
  stdin := stdin
  sent := []
  written := []
  toRead := []
  stdout := []
  killsChild := false
  killsParent := false
  childTerm := false
  parentTerm := false

/-- `exit` in the parent, with `kill_child`. -/
def Server.exitParent (s : Server) : Server :=
  { s with parent := .exited, childTerm := s.childTerm || s.killsChild }

/-- `exit` in the child, with `kill_parent`: the parent of an orphan is `init`. -/
def Server.exitChild (s : Server) : Server :=
  { s with
    childExited := true
    parentTerm := s.parentTerm || (s.killsParent && s.parent != .exited) }

/-- The parent is killed by a signal, and calls nothing. -/
def Server.killParent (s : Server) : Server := { s with parent := .exited, killsChild := false }

/-- The child is killed by a signal, and calls nothing. -/
def Server.killChild (s : Server) : Server := { s with childExited := true, killsParent := false }

/-- What may happen next. -/
inductive Event where
  | atexitParent
  | openNext
  /-- `fread` returns `n`. -/
  | fread (n : Nat)
  /-- `fread` returns 0 because of an error. -/
  | freadFails
  | write (k : Nat)
  | writeFails
  | signalParent (sig : Signal)
  | atexitChild
  | read (k : Nat)
  | readFails
  /-- Of what is shown of `k` bytes only `j` are written: `stdout` fails. -/
  | outputFails (k j : Nat)
  | signalChild (sig : Signal)
  /-- The transputer writes to the link. -/
  | output (bs : List Byte)
  deriving DecidableEq, Repr

/-- The loop over the files: the next one is opened. -/
def Server.openNext (s : Server) : List BootFile → Server
  | [] => { s with parent := .sleeping }
  | .named none :: _ => s.exitParent
  | .named (some content) :: files => { s with parent := .reading files, stdin := content }
  | .dash :: files => { s with parent := .reading files }

/-- `fread` fills the buffer with `n` bytes. -/
def Server.fread (s : Server) (files : List BootFile) (n : Nat) : Server :=
  { s with parent := .writing (s.stdin.take n) files, stdin := s.stdin.drop n }

/-- `write` takes `k` bytes of the buffer. -/
def Server.write (s : Server) (buf : List Byte) (files : List BootFile) (k : Nat) : Server :=
  { s with
    parent := if k = buf.length then .reading files else .writing (buf.drop k) files
    sent := s.sent ++ buf.take k }

/-- A step of the parent. -/
def Server.stepParent (bufsiz : Nat) (s : Server) (e : Event) : Option Server :=
  match s.parent, e with
  | .exited, _ => none
  | _, .signalParent sig => some (if sig.caught then s.exitParent else s.killParent)
  | .opening _, .atexitParent => if s.killsChild then none else some { s with killsChild := true }
  | .opening files, .openNext => if s.killsChild then some (s.openNext files) else none
  | .reading files, .fread n =>
      if n = 0 then if s.stdin = [] then some { s with parent := .opening files } else none
      else if n ≤ bufsiz ∧ n ≤ s.stdin.length then some (s.fread files n) else none
  | .reading files, .freadFails => some { s with parent := .opening files }
  | .writing buf files, .write k =>
      if k ≤ buf.length then some (s.write buf files k) else none
  | .writing _ _, .writeFails => some s.exitParent
  | _, _ => none

/-- A step of the child. -/
def Server.stepChild (bufsiz : Nat) (hexdump : Bool) (s : Server) (e : Event) : Option Server :=
  match e with
  | .signalChild sig =>
      if s.childExited then none else some (if sig.caught then s.exitChild else s.killChild)
  | .atexitChild =>
      if s.childExited || s.killsParent then none else some { s with killsParent := true }
  | .read k =>
      if s.childExited = false ∧ s.killsParent = true ∧ k ≤ bufsiz ∧ k ≤ s.toRead.length then
        some { s with
          toRead := s.toRead.drop k
          stdout := s.stdout ++ shown hexdump (s.toRead.take k) }
      else none
  | .readFails =>
      if s.childExited = false ∧ s.killsParent = true then some s.exitChild else none
  | .outputFails k j =>
      if s.childExited = false ∧ s.killsParent = true ∧ k ≤ bufsiz ∧ k ≤ s.toRead.length then
        some { s with
          toRead := s.toRead.drop k
          stdout := s.stdout ++ (shown hexdump (s.toRead.take k)).take j }.exitChild
      else none
  | _ => none

/-- One event. -/
def Server.step (bufsiz : Nat) (hexdump : Bool) (s : Server) (e : Event) : Option Server :=
  match e with
  | .output bs => some { s with written := s.written ++ bs, toRead := s.toRead ++ bs }
  | .atexitChild | .read _ | .readFails | .outputFails _ _ | .signalChild _ =>
      s.stepChild bufsiz hexdump e
  | _ => s.stepParent bufsiz e

/-- One event after the other. -/
def run (bufsiz : Nat) (hexdump : Bool) (s : Server) (es : List Event) : Option Server :=
  es.foldlM (Server.step bufsiz hexdump) s

/-! ### Reading the output -/

section

variable {hexdump : Bool} {bs out : List Byte}

theorem digitValue_hexDigit (n : BitVec 4) : digitValue (hexDigit n) = some n := by
  revert n
  decide

theorem digitValue_separator (i : Nat) : digitValue (separator i) = none := by
  rw [separator]
  split_ifs <;> rfl

theorem hexDigits_append (b : Byte) : b.extractLsb' 4 4 ++ b.extractLsb' 0 4 = b :=
  BitVec.extractLsb'_append_extractLsb'

theorem filterMap_dumpFrom (i : Nat) (bs : List Byte) :
    (dumpFrom i bs).filterMap digitValue = bs.flatMap hexDigits := by
  induction bs generalizing i with
  | nil => rfl
  | cons b bs ih =>
      rw [dumpFrom, List.filterMap_append, List.filterMap_cons_none (digitValue_separator i), ih,
        List.filterMap_map, List.flatMap_cons]
      congr 1
      exact (List.filterMap_congr fun n _ => digitValue_hexDigit n).trans List.filterMap_some

theorem pairUp_append (bs : List Byte) (ds : List (BitVec 4)) :
    pairUp (bs.flatMap hexDigits ++ ds) = bs ++ pairUp ds := by
  induction bs with
  | nil => rfl
  | cons b bs ih =>
      show (_ ++ _) :: pairUp (bs.flatMap hexDigits ++ ds) = _
      rw [ih, hexDigits_append]
      rfl

theorem pairUp_mono {ds ds' : List (BitVec 4)} (h : ds <+: ds') : pairUp ds <+: pairUp ds' := by
  induction ds using pairUp.induct generalizing ds' with
  | case1 d d' ds ih =>
      obtain ⟨rest, rfl⟩ := h
      exact List.cons_prefix_cons.mpr ⟨rfl, ih (List.prefix_append ds rest)⟩
  | case2 ds hds =>
      rw [pairUp]
      · exact List.nil_prefix
      · exact hds

/-- The output shows these bytes. -/
def Shows (hexdump : Bool) (out bs : List Byte) : Prop :=
  if hexdump then out.filterMap digitValue = bs.flatMap hexDigits else out = bs

theorem shows_shown (hexdump : Bool) (bs : List Byte) : Shows hexdump (shown hexdump bs) bs := by
  rw [Shows, shown]
  cases hexdump with
  | false => simp
  | true =>
      rw [if_pos rfl, if_pos rfl]
      split
      · rename_i hbs
        rw [hbs]
        rfl
      · exact filterMap_dumpFrom 0 bs

theorem Shows.append {out' bs' : List Byte} (h : Shows hexdump out bs)
    (h' : Shows hexdump out' bs') : Shows hexdump (out ++ out') (bs ++ bs') := by
  rw [Shows] at *
  split_ifs at *
  · rw [List.filterMap_append, h, h', List.flatMap_append]
  · rw [h, h']

/-- **What is shown determines the bytes**, also over several calls of `read`. -/
theorem Shows.parse (h : Shows hexdump out bs) : parse hexdump out = bs := by
  rw [Shows] at h
  rw [Oserver.parse]
  split_ifs at *
  · rw [h, ← List.append_nil (bs.flatMap hexDigits), pairUp_append]
    exact List.append_nil bs
  · exact h

/-- Output that is cut off shows fewer bytes. -/
theorem Shows.parse_take (h : Shows hexdump out bs) (bs' : List Byte) (j : Nat) :
    Oserver.parse hexdump (out ++ (shown hexdump bs').take j) <+: bs ++ bs' := by
  have hall := (h.append (shows_shown hexdump bs')).parse
  have hcut : out ++ (shown hexdump bs').take j <+: out ++ shown hexdump bs' :=
    (List.prefix_append_right_inj out).mpr (List.take_prefix j _)
  rw [← hall, Oserver.parse, Oserver.parse]
  split
  · exact pairUp_mono (hcut.filterMap digitValue)
  · exact hcut

end

/-! ### What the parent sends -/

/-- What the boot files are, with what there is to be read from `stdin`: a later `-` gives no more
of it. -/
def bootImage (stdin : List Byte) : List BootFile → List Byte
  | [] => []
  | .named none :: _ => []
  | .named (some content) :: files => content ++ bootImage [] files
  | .dash :: files => stdin ++ bootImage [] files

/-- What is left to be sent. -/
def Server.left (s : Server) : List Byte :=
  match s.parent with
  | .opening files => bootImage s.stdin files
  | .reading files => s.stdin ++ bootImage [] files
  | .writing buf files => buf ++ (s.stdin ++ bootImage [] files)
  | .sleeping | .exited => []

/-- An event that takes the parent further. -/
def Event.boots : Event → Bool
  | .atexitParent | .openNext | .fread _ | .freadFails => true
  | .write k => k != 0
  | _ => false

/-- How many of them the files take, at most. -/
def bootSteps (stdin : List Byte) : List BootFile → Nat
  | [] => 1
  | .named none :: _ => 1
  | .named (some content) :: files => 2 * content.length + 2 + bootSteps [] files
  | .dash :: files => 2 * stdin.length + 2 + bootSteps [] files

/-- How many there can be from here on. -/
def Server.rank (s : Server) : Nat :=
  match s.parent with
  | .opening files => bootSteps s.stdin files + (!s.killsChild).toNat
  | .reading files =>
      2 * s.stdin.length + 1 + bootSteps [] files + (!s.killsChild).toNat
  | .writing buf files =>
      buf.length + (2 * s.stdin.length + 1 + bootSteps [] files) + (!s.killsChild).toNat
  | .sleeping | .exited => 0

/-- An unread rest of `stdin` is skipped, or read later. -/
theorem bootImage_sublist (stdin : List Byte) (files : List BootFile) :
    List.Sublist (bootImage stdin files) (stdin ++ bootImage [] files) := by
  match files with
  | [] => exact List.nil_sublist _
  | .named none :: files => exact List.nil_sublist _
  | .named (some content) :: files => exact List.sublist_append_right _ _
  | .dash :: files => exact List.Sublist.refl _

theorem bootSteps_le (stdin : List Byte) (files : List BootFile) :
    bootSteps stdin files ≤ 2 * stdin.length + bootSteps [] files := by
  match files with
  | [] => exact Nat.le_add_left _ _
  | .named none :: files => exact Nat.le_add_left _ _
  | .named (some content) :: files => exact Nat.le_add_left _ _
  | .dash :: files =>
      simp only [bootSteps, List.length_nil]
      omega

/-- What is the same after a step of the parent. -/
structure ChildSame (s s' : Server) : Prop where
  childExited : s'.childExited = s.childExited
  written : s'.written = s.written
  toRead : s'.toRead = s.toRead
  stdout : s'.stdout = s.stdout
  killsParent : s'.killsParent = s.killsParent
  parentTerm : s'.parentTerm = s.parentTerm

/-- What is the same after a step of the child. -/
structure ParentSame (s s' : Server) : Prop where
  parent : s'.parent = s.parent
  stdin : s'.stdin = s.stdin
  sent : s'.sent = s.sent
  killsChild : s'.killsChild = s.killsChild
  childTerm : s'.childTerm = s.childTerm

/-- A parent that goes on. -/
structure Goes (e : Event) (s s' : Server) : Prop where
  alive : s'.parent ≠ .exited
  childTerm : s'.childTerm = s.childTerm
  sent : s.sent <+: s'.sent
  left : s'.sent ++ s'.left = s.sent ++ s.left ∨
    e = .freadFails ∧ s'.sent = s.sent ∧ List.Sublist s'.left s.left
  rank : s'.rank + (if e.boots then 1 else 0) ≤ s.rank
  full : ∀ buf files, s'.parent = .writing buf files → buf ≠ []

/-- A step of the parent: it exits, or goes on. -/
def Takes (e : Event) (s s' : Server) : Prop :=
  ChildSame s s' ∧
    ((s' = s.exitParent ∨ s' = s.killParent) ∧ (e.boots = true → 0 < s.rank) ∨ Goes e s s')

section

variable {bufsiz : Nat} {hexdump : Bool} {s s' : Server} {e : Event} {files : List BootFile}
  {buf : List Byte} {n k : Nat}

theorem takes_exit (h : e.boots = false) : Takes e s s.exitParent :=
  ⟨⟨rfl, rfl, rfl, rfl, rfl, rfl⟩, .inl ⟨.inl rfl, fun hboots => by
    rw [h] at hboots
    cases hboots⟩⟩

theorem takes_signal (sig : Signal) :
    Takes (.signalParent sig) s (if sig.caught then s.exitParent else s.killParent) := by
  split
  · exact takes_exit rfl
  · exact ⟨⟨rfl, rfl, rfl, rfl, rfl, rfl⟩, .inl ⟨.inr rfl, nofun⟩⟩

theorem takes_atexit (hp : s.parent = .opening files) (hkills : s.killsChild = false) :
    Takes .atexitParent s { s with killsChild := true } := by
  refine ⟨⟨rfl, rfl, rfl, rfl, rfl, rfl⟩, .inr ⟨?_, rfl, List.prefix_rfl, .inl rfl, ?_, ?_⟩⟩
  · rw [hp]
    nofun
  · simp [Server.rank, Event.boots, hp, hkills]
  · rw [hp]
    nofun

theorem takes_openNext (hp : s.parent = .opening files) : Takes .openNext s (s.openNext files) := by
  match files, hp with
  | [], hp =>
      refine ⟨⟨rfl, rfl, rfl, rfl, rfl, rfl⟩, .inr ⟨nofun, rfl, List.prefix_rfl, .inl ?_, ?_,
        nofun⟩⟩
      · simp only [Server.left, Server.openNext, hp, bootImage]
      · simp only [Server.rank, Server.openNext, hp, bootSteps, Event.boots, if_true]
        omega
  | .named none :: files, hp =>
      refine ⟨⟨rfl, rfl, rfl, rfl, rfl, rfl⟩, .inl ⟨.inl rfl, fun _ => ?_⟩⟩
      simp only [Server.rank, hp, bootSteps]
      omega
  | .named (some content) :: files, hp =>
      refine ⟨⟨rfl, rfl, rfl, rfl, rfl, rfl⟩, .inr ⟨nofun, rfl, List.prefix_rfl, .inl ?_, ?_,
        nofun⟩⟩
      · simp only [Server.left, Server.openNext, hp, bootImage]
      · simp only [Server.rank, Server.openNext, hp, bootSteps, Event.boots, if_true]
        omega
  | .dash :: files, hp =>
      refine ⟨⟨rfl, rfl, rfl, rfl, rfl, rfl⟩, .inr ⟨nofun, rfl, List.prefix_rfl, .inl ?_, ?_,
        nofun⟩⟩
      · simp only [Server.left, Server.openNext, hp, bootImage]
      · simp only [Server.rank, Server.openNext, hp, bootSteps, Event.boots, if_true]
        omega

theorem takes_fread (hp : s.parent = .reading files) (hn : n ≠ 0) (hle : n ≤ s.stdin.length) :
    Takes (.fread n) s (s.fread files n) := by
  refine ⟨⟨rfl, rfl, rfl, rfl, rfl, rfl⟩, .inr ⟨nofun, rfl, List.prefix_rfl, .inl ?_, ?_, ?_⟩⟩
  · simp only [Server.left, Server.fread, hp]
    rw [← List.append_assoc (s.stdin.take n), List.take_append_drop]
  · simp only [Server.rank, Server.fread, hp, Event.boots, if_true, List.length_take,
      List.length_drop]
    omega
  · intro buf files' hbuf hnil
    obtain ⟨rfl, -⟩ := Parent.writing.inj hbuf
    rcases List.take_eq_nil_iff.mp hnil with hzero | hempty
    · exact hn hzero
    · rw [hempty, List.length_nil] at hle
      exact hn (Nat.le_zero.mp hle)

theorem takes_endOfFile (hp : s.parent = .reading files) (hnil : s.stdin = []) :
    Takes (.fread 0) s { s with parent := .opening files } := by
  refine ⟨⟨rfl, rfl, rfl, rfl, rfl, rfl⟩, .inr ⟨nofun, rfl, List.prefix_rfl, .inl ?_, ?_, nofun⟩⟩
  · simp only [Server.left, hp, hnil, List.nil_append]
  · simp only [Server.rank, hp, hnil, Event.boots, if_true, List.length_nil]
    omega

theorem takes_freadFails (hp : s.parent = .reading files) :
    Takes .freadFails s { s with parent := .opening files } := by
  refine ⟨⟨rfl, rfl, rfl, rfl, rfl, rfl⟩, .inr ⟨nofun, rfl, List.prefix_rfl,
    .inr ⟨rfl, rfl, ?_⟩, ?_, nofun⟩⟩
  · simp only [Server.left, hp]
    exact bootImage_sublist s.stdin files
  · have hle := bootSteps_le s.stdin files
    simp only [Server.rank, hp, Event.boots, if_true]
    omega

theorem takes_write (hp : s.parent = .writing buf files) (hk : k ≤ buf.length) :
    Takes (.write k) s (s.write buf files k) := by
  have hboots : (if (Event.write k).boots then 1 else 0) ≤ k := by
    simp only [Event.boots, bne_iff_ne]
    split <;> omega
  refine ⟨⟨rfl, rfl, rfl, rfl, rfl, rfl⟩, .inr ?_⟩
  by_cases heq : k = buf.length
  · refine ⟨?_, rfl, List.prefix_append _ _, .inl ?_, ?_, ?_⟩
    · simp only [Server.write, if_pos heq]
      nofun
    · simp only [Server.left, Server.write, if_pos heq, hp]
      rw [heq, List.take_length, List.append_assoc]
    · simp only [Server.rank, Server.write, if_pos heq, hp]
      omega
    · simp only [Server.write, if_pos heq]
      nofun
  · refine ⟨?_, rfl, List.prefix_append _ _, .inl ?_, ?_, ?_⟩
    · simp only [Server.write, if_neg heq]
      nofun
    · simp only [Server.left, Server.write, if_neg heq, hp, List.append_assoc]
      rw [← List.append_assoc (buf.take k), List.take_append_drop]
    · simp only [Server.rank, Server.write, if_neg heq, hp, List.length_drop]
      omega
    · intro buf' files' hbuf hnil
      simp only [Server.write, if_neg heq] at hbuf
      obtain ⟨rfl, -⟩ := Parent.writing.inj hbuf
      exact heq (Nat.le_antisymm hk (List.drop_eq_nil_iff.mp hnil))

/-- **A step of the parent**: it exits, or goes on. -/
theorem stepParent_takes (h : s.stepParent bufsiz e = some s') :
    s.parent ≠ .exited ∧ Takes e s s' := by
  rw [Server.stepParent.eq_def] at h
  split at h
  · cases h
  · rename_i halive
    obtain rfl := Option.some.inj h
    exact ⟨halive, takes_signal _⟩
  · rename_i hp
    split at h
    · cases h
    · rename_i hkills
      obtain rfl := Option.some.inj h
      exact ⟨by rw [hp]; nofun, takes_atexit hp (Bool.eq_false_iff.mpr hkills)⟩
  · rename_i hp
    split at h
    · obtain rfl := Option.some.inj h
      exact ⟨by rw [hp]; nofun, takes_openNext hp⟩
    · cases h
  · rename_i hp
    split at h
    · split at h
      · rename_i hn hnil
        obtain rfl := Option.some.inj h
        exact ⟨by rw [hp]; nofun, hn ▸ takes_endOfFile hp hnil⟩
      · cases h
    · split at h
      · rename_i hn hle
        obtain rfl := Option.some.inj h
        exact ⟨by rw [hp]; nofun, takes_fread hp hn hle.2⟩
      · cases h
  · rename_i hp
    obtain rfl := Option.some.inj h
    exact ⟨by rw [hp]; nofun, takes_freadFails hp⟩
  · rename_i hp
    split at h
    · rename_i hk
      obtain rfl := Option.some.inj h
      exact ⟨by rw [hp]; nofun, takes_write hp hk⟩
    · cases h
  · rename_i hp
    obtain rfl := Option.some.inj h
    exact ⟨by rw [hp]; nofun, takes_exit rfl⟩
  · cases h

/-! ### Every step -/

/-- What has been shown, and who has been told to exit. -/
structure Inv (hexdump : Bool) (s : Server) : Prop where
  seen : parse hexdump s.stdout <+: s.written
  all : s.childExited = false → ∃ bs, Shows hexdump s.stdout bs ∧ bs ++ s.toRead = s.written
  child : s.parent = .exited → s.killsChild = true → s.childExited = true ∨ s.childTerm = true
  parent : s.childExited = true → s.killsParent = true → s.parent = .exited ∨ s.parentTerm = true
  full : ∀ buf files, s.parent = .writing buf files → buf ≠ []

theorem Inv.exitParent (h : Inv hexdump s) : Inv hexdump s.exitParent where
  seen := h.seen
  all := h.all
  child _ hkills := .inr (by rw [Server.exitParent, show s.killsChild = true from hkills,
    Bool.or_true])
  parent _ _ := .inl rfl
  full := nofun

theorem Inv.killParent (h : Inv hexdump s) : Inv hexdump s.killParent where
  seen := h.seen
  all := h.all
  child _ := nofun
  parent _ _ := .inl rfl
  full := nofun

theorem Inv.killChild (h : Inv hexdump s) : Inv hexdump s.killChild where
  seen := h.seen
  all := nofun
  child _ _ := .inl rfl
  parent _ := nofun
  full := h.full

theorem Inv.exitChild (h : Inv hexdump s) : Inv hexdump s.exitChild where
  seen := h.seen
  all := nofun
  child _ _ := .inl rfl
  parent _ hkills := by
    by_cases hparent : s.parent = .exited
    · exact .inl hparent
    · refine .inr ?_
      rw [Server.exitChild, show s.killsParent = true from hkills, Bool.true_and,
        bne_iff_ne.mpr hparent, Bool.or_true]
  full := h.full

theorem Inv.stepParent (h : Inv hexdump s) (hstep : s.stepParent bufsiz e = some s') :
    Inv hexdump s' := by
  obtain ⟨-, hsame, ⟨rfl | rfl, -⟩ | hgoes⟩ := stepParent_takes hstep
  · exact h.exitParent
  · exact h.killParent
  · refine ⟨?_, ?_, fun hexited => absurd hexited hgoes.alive, ?_, hgoes.full⟩
    · rw [hsame.stdout, hsame.written]
      exact h.seen
    · rw [hsame.childExited, hsame.stdout, hsame.written, hsame.toRead]
      exact h.all
    · rw [hsame.childExited, hsame.killsParent, hsame.parentTerm]
      intro hexited hkills
      have halive := (stepParent_takes hstep).1
      exact .inr ((h.parent hexited hkills).resolve_left halive)

/-- Bytes are read, and some of what is shown of them is written. -/
theorem Inv.read (h : Inv hexdump s) (halive : s.childExited = false) (k j : Nat) :
    parse hexdump (s.stdout ++ (shown hexdump (s.toRead.take k)).take j) <+: s.written ∧
      ∃ bs, Shows hexdump (s.stdout ++ shown hexdump (s.toRead.take k)) bs ∧
        bs ++ s.toRead.drop k = s.written := by
  obtain ⟨bs, hshows, hall⟩ := h.all halive
  refine ⟨(hshows.parse_take _ j).trans ?_, _, hshows.append (shows_shown hexdump _), ?_⟩
  · rw [← hall, List.prefix_append_right_inj]
    exact List.take_prefix k _
  · rw [List.append_assoc, List.take_append_drop, hall]

theorem Inv.stepChild (h : Inv hexdump s) (hstep : s.stepChild bufsiz hexdump e = some s') :
    Inv hexdump s' ∧ ParentSame s s' := by
  have hexit : ∀ s : Server, ParentSame s s.exitChild := fun s => ⟨rfl, rfl, rfl, rfl, rfl⟩
  rw [Server.stepChild.eq_def] at hstep
  split at hstep
  · split at hstep
    · cases hstep
    · obtain rfl := Option.some.inj hstep
      split
      · exact ⟨h.exitChild, hexit s⟩
      · exact ⟨h.killChild, ⟨rfl, rfl, rfl, rfl, rfl⟩⟩
  · -- `atexit`
    split at hstep
    · cases hstep
    · rename_i hnot
      obtain rfl := Option.some.inj hstep
      rw [Bool.or_eq_true, not_or, Bool.not_eq_true, Bool.not_eq_true] at hnot
      refine ⟨⟨h.seen, h.all, h.child, fun hexited => ?_, h.full⟩, ⟨rfl, rfl, rfl, rfl, rfl⟩⟩
      cases hnot.1.symm.trans hexited
  · -- `read`
    rename_i k
    split at hstep
    · rename_i hread
      obtain rfl := Option.some.inj hstep
      obtain ⟨-, bs, hshows, hall⟩ := h.read hread.1 k 0
      refine ⟨⟨?_, fun _ => ⟨bs, hshows, hall⟩, h.child, h.parent, h.full⟩,
        ⟨rfl, rfl, rfl, rfl, rfl⟩⟩
      show parse hexdump (s.stdout ++ shown hexdump (s.toRead.take k)) <+: s.written
      rw [hshows.parse, ← hall]
      exact List.prefix_append bs _
    · cases hstep
  · split at hstep
    · obtain rfl := Option.some.inj hstep
      exact ⟨h.exitChild, hexit s⟩
    · cases hstep
  · -- the output is cut off
    rename_i k j
    split at hstep
    · rename_i hread
      obtain rfl := Option.some.inj hstep
      obtain ⟨hseen, -⟩ := h.read hread.1 k j
      have hexited := h.exitChild
      exact ⟨⟨hseen, nofun, hexited.child, hexited.parent, hexited.full⟩,
        ⟨rfl, rfl, rfl, rfl, rfl⟩⟩
    · cases hstep
  · cases hstep

theorem Inv.output (h : Inv hexdump s) (bs : List Byte) :
    Inv hexdump { s with written := s.written ++ bs, toRead := s.toRead ++ bs } where
  seen := h.seen.trans (List.prefix_append _ bs)
  all halive := by
    obtain ⟨bs', hshows, hall⟩ := h.all halive
    refine ⟨bs', hshows, ?_⟩
    show bs' ++ (s.toRead ++ bs) = s.written ++ bs
    rw [← List.append_assoc, hall]
  child := h.child
  parent := h.parent
  full := h.full

/-- A parent that neither sleeps nor has exited is not stuck. -/
theorem Inv.goes_on (h : Inv hexdump s) (hbufsiz : 0 < bufsiz) (hsleeps : s.parent ≠ .sleeping)
    (halive : s.parent ≠ .exited) :
    ∃ e : Event, e.boots = true ∧ (s.step bufsiz hexdump e).isSome = true := by
  match hp : s.parent with
  | .opening files =>
      cases hkills : s.killsChild
      · exact ⟨.atexitParent, rfl, by simp [Server.step, Server.stepParent, hp, hkills]⟩
      · exact ⟨.openNext, rfl, by simp [Server.step, Server.stepParent, hp, hkills]⟩
  | .reading files =>
      match hstdin : s.stdin with
      | [] => exact ⟨.fread 0, rfl, by simp [Server.step, Server.stepParent, hp, hstdin]⟩
      | b :: bs =>
          refine ⟨.fread 1, rfl, ?_⟩
          simp [Server.step, Server.stepParent, hp, hstdin, Nat.one_le_iff_ne_zero.mpr hbufsiz.ne']
  | .writing buf files =>
      have hfull : 1 ≤ buf.length := List.length_pos_iff.mpr (h.full buf files hp)
      exact ⟨.write 1, rfl, by simp [Server.step, Server.stepParent, hp, hfull]⟩
  | .sleeping => exact absurd hp hsleeps
  | .exited => exact absurd hp halive

/-- What has been sent of `image`; `whole` says that no error has left out a part. -/
structure Sending (image : List Byte) (whole : Prop) (s : Server) : Prop where
  sent : List.Sublist s.sent image
  left : s.parent ≠ .exited → List.Sublist (s.sent ++ s.left) image
  sentWhole : whole → s.sent <+: image
  leftWhole : whole → s.parent ≠ .exited → s.sent ++ s.left = image

variable {image : List Byte} {whole : Prop}

theorem Sending.same (h : Sending image whole s) (hs : ParentSame s s') :
    Sending image whole s' := by
  have hleft : s'.left = s.left := by
    rw [Server.left, Server.left, hs.parent, hs.stdin]
  refine ⟨?_, ?_, ?_, ?_⟩ <;> rw [hs.sent] <;> try rw [hs.parent, hleft]
  · exact h.sent
  · exact h.left
  · exact h.sentWhole
  · exact h.leftWhole

theorem Sending.stepParent (h : Sending image whole s)
    (hstep : s.stepParent bufsiz e = some s') :
    Sending image (whole ∧ e ≠ .freadFails) s' := by
  obtain ⟨halive, hsame, ⟨rfl | rfl, -⟩ | hgoes⟩ := stepParent_takes hstep
  · exact ⟨h.sent, fun hexited => absurd rfl hexited, fun hw => h.sentWhole hw.1,
      fun _ hexited => absurd rfl hexited⟩
  · exact ⟨h.sent, fun hexited => absurd rfl hexited, fun hw => h.sentWhole hw.1,
      fun _ hexited => absurd rfl hexited⟩
  · rcases hgoes.left with hleft | ⟨rfl, hsent, hleft⟩
    · have hwhole : ∀ hw : whole ∧ e ≠ .freadFails, s'.sent ++ s'.left = image := fun hw =>
        hleft.trans (h.leftWhole hw.1 halive)
      refine ⟨(List.sublist_append_left _ _).trans (hleft ▸ h.left halive),
        fun _ => hleft ▸ h.left halive, fun hw => ?_, fun hw _ => hwhole hw⟩
      exact hwhole hw ▸ List.prefix_append _ _
    · refine ⟨hsent ▸ h.sent, fun _ => ?_, fun hw => absurd rfl hw.2, fun hw => absurd rfl hw.2⟩
      rw [hsent]
      exact (hleft.append_left s.sent).trans (h.left halive)

end

section

variable {bufsiz : Nat} {hexdump : Bool} {image : List Byte} {whole : Prop} {s s' : Server}

/-- **Every step** keeps what has been said of both processes. -/
theorem step_spec {e : Event} (hi : Inv hexdump s) (h : Sending image whole s)
    (hstep : s.step bufsiz hexdump e = some s') :
    Inv hexdump s' ∧ Sending image (whole ∧ e ≠ .freadFails) s' ∧
      s'.rank + (if e.boots then 1 else 0) ≤ s.rank := by
  have hother : e ≠ .freadFails → e.boots = false → ParentSame s s' →
      Sending image (whole ∧ e ≠ .freadFails) s' ∧
        s'.rank + (if e.boots then 1 else 0) ≤ s.rank := by
    intro he hboots hsame
    obtain ⟨hsent, hleft, hsentWhole, hleftWhole⟩ := h.same hsame
    refine ⟨⟨hsent, hleft, fun hw => hsentWhole hw.1, fun hw => hleftWhole hw.1⟩, ?_⟩
    rw [hboots, Server.rank, Server.rank, hsame.parent, hsame.stdin, hsame.killsChild]
    exact le_rfl
  have hparent : s.stepParent bufsiz e = some s' → Inv hexdump s' ∧
      Sending image (whole ∧ e ≠ .freadFails) s' ∧
        s'.rank + (if e.boots then 1 else 0) ≤ s.rank := by
    intro hstep
    refine ⟨hi.stepParent hstep, h.stepParent hstep, ?_⟩
    obtain ⟨-, -, ⟨hexit, hrank⟩ | hgoes⟩ := stepParent_takes hstep
    · have hzero : s'.rank = 0 := by
        rcases hexit with rfl | rfl <;> rfl
      rw [hzero]
      split
      · rename_i hboots
        exact (Nat.zero_add 1).trans_le (hrank hboots)
      · exact Nat.zero_le _
    · exact hgoes.rank
  have hchild : s.stepChild bufsiz hexdump e = some s' → e ≠ .freadFails → e.boots = false →
      Inv hexdump s' ∧ Sending image (whole ∧ e ≠ .freadFails) s' ∧
        s'.rank + (if e.boots then 1 else 0) ≤ s.rank := fun hstep he hboots =>
    ⟨(hi.stepChild hstep).1, hother he hboots (hi.stepChild hstep).2⟩
  cases e with
  | output bs =>
      obtain rfl := Option.some.inj hstep
      exact ⟨hi.output bs, hother nofun rfl ⟨rfl, rfl, rfl, rfl, rfl⟩⟩
  | atexitChild | read _ | readFails | outputFails _ _ | signalChild _ => exact hchild hstep nofun rfl
  | _ => exact hparent hstep

theorem run_spec {es : List Event} (hi : Inv hexdump s) (h : Sending image whole s)
    (hrun : run bufsiz hexdump s es = some s') :
    Inv hexdump s' ∧ Sending image (whole ∧ .freadFails ∉ es) s' ∧
      s'.rank + es.countP Event.boots ≤ s.rank := by
  induction es generalizing s whole with
  | nil =>
      obtain rfl := Option.some.inj hrun
      exact ⟨hi, ⟨h.sent, h.left, fun hw => h.sentWhole hw.1, fun hw => h.leftWhole hw.1⟩, le_rfl⟩
  | cons e es ih =>
      rw [run, List.foldlM_cons] at hrun
      obtain ⟨s₁, hstep, hrun⟩ := Option.bind_eq_some_iff.mp hrun
      obtain ⟨hi₁, h₁, hrank₁⟩ := step_spec hi h hstep
      obtain ⟨hi', h', hrank'⟩ := ih hi₁ h₁ hrun
      have hwhole : whole ∧ .freadFails ∉ e :: es →
          (whole ∧ e ≠ .freadFails) ∧ .freadFails ∉ es := fun hw => by
        rw [List.mem_cons, not_or] at hw
        exact ⟨⟨hw.1, Ne.symm hw.2.1⟩, hw.2.2⟩
      refine ⟨hi', ⟨h'.sent, h'.left, fun hw => h'.sentWhole (hwhole hw), fun hw =>
        h'.leftWhole (hwhole hw)⟩, ?_⟩
      rw [List.countP_cons]
      omega

/-- **What has arrived**, after any run of the two processes.  The transputer has got bytes of the
boot files in their order, none twice; all of them, once the parent sleeps, unless a file could not
be read; this takes a bounded number of steps, not counting writes that time out, and a parent that
is not killed can always take the next one.  What has been shown is the beginning of what the
transputer has written, and while the child runs only the bytes that are still in the link are
missing.  A process that exits, also by `graceful_exit`, has told the other one to, if it has come to
its `atexit`; one that is killed by another signal has not. -/
theorem run_delivers {stdin : List Byte} {files : List BootFile} {es : List Event}
    (hbufsiz : 0 < bufsiz) (hrun : run bufsiz hexdump (.forked stdin files) es = some s) :
    List.Sublist s.sent (bootImage stdin files) ∧
      (.freadFails ∉ es → s.sent <+: bootImage stdin files ∧
        (s.parent = .sleeping → s.sent = bootImage stdin files)) ∧
      es.countP Event.boots ≤ bootSteps stdin files + 1 ∧
      (s.parent ≠ .sleeping → s.parent ≠ .exited →
        ∃ e : Event, e.boots = true ∧ (s.step bufsiz hexdump e).isSome = true) ∧
      parse hexdump s.stdout <+: s.written ∧
      (s.childExited = false → parse hexdump s.stdout ++ s.toRead = s.written) ∧
      (s.parent = .exited → s.killsChild = true → s.childExited = true ∨ s.childTerm = true) ∧
      (s.childExited = true → s.killsParent = true → s.parent = .exited ∨ s.parentTerm = true) := by
  have hi : Inv hexdump (Server.forked stdin files) := by
    refine ⟨?_, fun _ => ⟨[], ?_, rfl⟩, nofun, nofun, nofun⟩
    · cases hexdump <;> exact List.prefix_rfl
    · cases hexdump <;> rfl
  have h : Sending (bootImage stdin files) True (Server.forked stdin files) :=
    ⟨List.nil_sublist _, fun _ => List.Sublist.refl _, fun _ => List.nil_prefix, fun _ _ => rfl⟩
  obtain ⟨hi', h', hrank⟩ := run_spec hi h hrun
  refine ⟨h'.sent, fun hes => ⟨h'.sentWhole ⟨trivial, hes⟩, fun hsleeps => ?_⟩,
    (Nat.le_add_left _ _).trans hrank, hi'.goes_on hbufsiz, hi'.seen, fun halive => ?_, hi'.child,
    hi'.parent⟩
  · have hleft := h'.leftWhole ⟨trivial, hes⟩ (by rw [hsleeps]; nofun)
    rw [Server.left, hsleeps] at hleft
    exact (List.append_nil _).symm.trans hleft
  · obtain ⟨bs, hshows, hall⟩ := hi'.all halive
    rw [hshows.parse, hall]

/-- Three bytes are sent, the first two of them before the driver times out; the transputer answers
with one. -/
def threeBytes : List Event :=
  [.atexitParent, .openNext, .fread 3, .write 2, .write 0, .output [9], .atexitChild, .read 1,
    .write 1, .fread 0, .openNext]

theorem run_delivers_three : ∃ s,
    run 512 true (.forked [] [.named (some [1, 2, 3])]) threeBytes = some s ∧
      s.sent = [1, 2, 3] ∧ parse true s.stdout ++ s.toRead = [9] := by
  obtain ⟨s, hrun, hsleeps, halive, hwritten⟩ : ∃ s, run 512 true
      (.forked [] [.named (some [1, 2, 3])]) threeBytes = some s ∧ s.parent = .sleeping ∧
        s.childExited = false ∧ s.written = [9] := ⟨_, rfl, rfl, rfl, rfl⟩
  obtain ⟨-, hsent, -, -, -, hshown, -⟩ := run_delivers (by decide) hrun
  exact ⟨s, hrun, (hsent (by decide)).2 hsleeps, (hshown halive).trans hwritten⟩

end

end Ttools.Oserver
