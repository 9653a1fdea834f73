import NeOs.Dynamic.Slots
import NeOs.Library.Comparator
import NeOs.Library.Traced
import NeOs.Utils.ConcatPath

/-! `bin/ls.c`: reading a directory, laying it out in columns, and the recursion through its
subdirectories. The vectors of the program are `Slots`; what lies outside the program (the
directory streams, the terminal, `qsort`) is a `System`. Output and calls of `opendir` are events
of the run. A division by zero, an index out of range and the use of a pointer into a block that
has been replaced are faults. -/
namespace NeOs
open Library
namespace Ls

/-- `SORT`. -/
inductive SortMode
  | none
  | name
  | width
  deriving Repr, DecidableEq

structure Flags where
  showHidden : Bool
  reverse : Bool
  sort : SortMode
  color : Bool
  list : Bool
  recursive : Bool
  deriving Repr, DecidableEq

/-- The flags that `main` starts from. -/
def defaultFlags : Flags :=
  { showHidden := false, reverse := false, sort := .name, color := true, list := false,
    recursive := false }

def dtUnknown : UInt8 := 0
def dtDir : UInt8 := 4
def dtLnk : UInt8 := 10

/-- What `readdir` returns. The name is a NUL-terminated string in a field of 256 bytes. -/
structure Dirent where
  dName : List UInt8
  dType : UInt8
  dIno : UInt64
  no_nul : 0 ∉ dName
  name_le : dName.length ≤ 255
  deriving Repr, DecidableEq

/-- A `char *` held in `dirs`: an argument or a literal, or an address that `dynamic_get` computed
in one version of `names`. -/
inductive CharPtr
  | string (s : List UInt8)
  | slot (version idx : ℕ)
  deriving Repr, DecidableEq

inductive Event
  | opendir (path : List UInt8)
  | put (bytes : List UInt8)
  deriving Repr, DecidableEq

inductive Fault
  | divByZero
  | outOfBounds
  | danglingPointer
  | outOfFuel
  deriving Repr, DecidableEq

abbrev Exec := Traced Event Fault

structure System where
  /-- The entries of the directory stream, in the order of `readdir`; `none` if `opendir` fails. -/
  opendir : List UInt8 → Option (List Dirent)
  /-- `ws_col` of the terminal. -/
  wsCol : ℕ
  qsort : Sorter ℕ
  /-- The byte in front of the empty string that `main` passes as a path. -/
  stray : UInt8

def getStdoutWidth (sys : System) : ℕ := sys.wsCol

def put (bytes : List UInt8) : Exec Unit := Traced.emit (.put bytes)

/-- Unsigned division. -/
def udiv (a b : ℕ) : Exec ℕ := if b=0 then Traced.fail .divByZero else pure (a/b)

/-- Unsigned remainder. -/
def umod (a b : ℕ) : Exec ℕ := if b=0 then Traced.fail .divByZero else pure (a%b)

/-- Read element `i` of an array. -/
def index {α : Type} (xs : List α) (i : ℕ) : Exec α :=
  match xs[i]? with
  | some a => pure a
  | none => Traced.fail .outOfBounds

section Compare

def reverseOrder (a b : ℕ) : ℤ := if a ≤ b then (if a < b then 1 else 0) else -1

/-- `dynamic_get(name, idx)`, as a string. -/
def nameAt (names : Slots (List UInt8)) (idx : ℕ) : List UInt8 := names.elems.getD idx []

def compareNames (names : Slots (List UInt8)) (polarity : ℤ) (a b : ℕ) : ℤ :=
  strcmp (nameAt names a) (nameAt names b)*polarity

def compareLenghts (names : Slots (List UInt8)) (polarity : ℤ) (a b : ℕ) : ℤ :=
  let lenA := (nameAt names a).length
  let lenB := (nameAt names b).length
  if lenA=lenB then strcmp (nameAt names a) (nameAt names b)*polarity
  else (if lenA ≥ lenB then (if lenA > lenB then 1 else 0) else -1)*polarity

/-- Sort the first `count` entries of `map`. -/
def sort (qsort : Sorter ℕ) (flags : Flags) (names : Slots (List UInt8)) (map : List ℕ)
    (count : ℕ) : List ℕ :=
  let polarity : ℤ := if flags.reverse then -1 else 1
  let sortBy (cmp : ℕ → ℕ → ℤ) := qsort.sort cmp (map.take count)++map.drop count
  match flags.sort with
  | .name => sortBy (compareNames names polarity)
  | .none => if flags.reverse then sortBy reverseOrder else map
  | .width => sortBy (compareLenghts names polarity)

end Compare

section ReadDir

/-- The local variables that `read_dir` fills. -/
structure Locals where
  maxSize : ℕ
  names : Slots (List UInt8)
  types : Slots UInt8
  ino : Slots UInt64
  dirs : Slots CharPtr
  i : ℕ
  deriving Repr, DecidableEq

def noEntries : Locals :=
  { maxSize := 0, names := Slots.new 0, types := Slots.new 0, ino := Slots.new 0,
    dirs := Slots.new 0, i := 0 }

def visible (flags : Flags) (entry : Dirent) : Bool :=
  charAt entry.dName 0≠dot ∨ flags.showHidden=true

/-- The subdirectories that a recursive listing descends into. -/
def descends (entry : Dirent) : Bool := entry.dType=dtDir ∧ charAt entry.dName 0≠dot

/-- One round of the loop over the directory stream. The pointer for `dirs` is taken from `names`
as it is after the insertion. -/
def readEntry (flags : Flags) (s : Locals) (entry : Dirent) : Locals :=
  if visible flags entry then
    let size := min entry.dName.length 255
    let names := s.names.insert entry.dName
    { maxSize := max s.maxSize size
      names := names
      types := s.types.insert entry.dType
      ino := s.ino.insert entry.dIno
      dirs := if descends entry then s.dirs.insert (.slot names.version s.i) else s.dirs
      i := s.i+1 }
  else s

/-- `none` stands for the result `-1` of a directory that cannot be opened. -/
def readDir (sys : System) (path : List UInt8) (flags : Flags) : Exec (Option Locals) := do
  Traced.emit (.opendir path)
  match sys.opendir path with
  | none => pure none
  | some entries => pure (some (entries.foldl (readEntry flags) noEntries))

end ReadDir

section PrintDir

/-- Fill the grid up with empty names of unknown type. Each name is copied as 256 bytes from the
literal `""`, which has one; that the bytes behind it can be read is assumed, and they are not used. -/
def pad (l : Locals) (size : ℕ) : Locals :=
  (List.range (size-l.names.length)).foldl
    (fun l _ => { l with names := l.names.insert [], types := l.types.insert dtUnknown }) l

/-- The width of each column: the longest of the names at the positions `i` with the same
`i / rows`. -/
def columnSizes (names : Slots (List UInt8)) (map : List ℕ) (colums rows : ℕ) : Exec (List ℕ) :=
  (List.range map.length).foldlM (fun sizes i => do
    let idx ← udiv i rows
    let m ← index map i
    let name ← index names.elems m
    let old ← index sizes idx
    pure (sizes.set idx (max old name.length))) (List.replicate colums 0)

/-- The colour escape of an entry type. -/
def escapeOf (dType : UInt8) : List UInt8 :=
  if dType=dtDir then text "\x1b[0;34m"
  else if dType=dtLnk then text "\x1b[0;96m"
  else text "\x1b[0m"

/-- `printf("%-*s", width, s)`. -/
def padRight (width : ℕ) (s : List UInt8) : List UInt8 := s++List.replicate (width-s.length) 32

/-- Print cell `i` of the grid, counted row by row; the entries stand column by column. -/
def printCell (l : Locals) (map sizes : List ℕ) (colums rows i : ℕ) : Exec Unit := do
  let col ← umod i colums
  let row ← udiv i colums
  let m ← index map (rows*col+row)
  let dType ← index l.types.elems m
  put (escapeOf dType)
  let size ← index sizes col
  let name ← index l.names.elems m
  put (padRight (size+2) name)
  if col=colums-1 then put (text "\n") else pure ()

/-- Everything `print_dir` does between reading the directory and recursing. The result is its
local variables at that point. -/
def listDir (sys : System) (flags : Flags) (l : Locals) : Exec Locals := do
  let count := l.names.length
  let width := getStdoutWidth sys
  let colums := width/(l.maxSize+2)
  let rows ← udiv (count+colums-1) colums
  let size := colums*rows
  let l := pad l size
  let directorySize := l.names.length
  let map := sort sys.qsort flags l.names (List.range directorySize) count
  let sizes ← columnSizes l.names map colums rows
  forM (List.range directorySize) (printCell l map sizes colums rows)
  put (text "\x1b[0m")
  if directorySize≠colums then put (text "\n") else pure ()
  pure l

/-- The call `ls(path, dirs, flags)`; the vector `names` is the one that slots in `dirs` point
into. -/
abbrev LsCall := List UInt8 → Slots (List UInt8) → Slots CharPtr → Flags → Exec ℤ

/-- `print_dir` up to its call of `ls`; `none` if it returns `0` without one. `names` and `types`
come from `dynamic` with a positive element size and are never NULL, and `read_dir` returns nothing
but `0` and `-1`. -/
def beforeLs (sys : System) (path : List UInt8) (flags : Flags) : Exec (Option Locals) := do
  match ← readDir sys path flags with
  | none => pure none
  | some l =>
    if l.names.length=0 then pure none
    else do
      let l ← listDir sys flags l
      if flags.recursive=true ∧ l.dirs.length > 0 then pure (some l) else pure none

def printDir (sys : System) (ls : LsCall) (path : List UInt8) (flags : Flags) : Exec ℤ := do
  match ← beforeLs sys path flags with
  | none => pure 0
  | some l => do
    let err ← ls path l.names l.dirs flags
    if err≠0 then pure (err*10) else pure 0

end PrintDir

section Recursion

/-- Read the string that a pointer in `dirs` designates. -/
def deref (names : Slots (List UInt8)) : CharPtr → Exec (List UInt8)
  | .string s => pure s
  | .slot version idx =>
    if version=names.version then index names.elems idx else Traced.fail .danglingPointer

def lsList (_path : List UInt8) (_dirs : Slots CharPtr) (_flags : Flags) : ℤ := 69

/-- `printf("%ld", n)`. -/
def decimal (n : ℕ) : List UInt8 := (Nat.toDigits 10 n).map fun c => UInt8.ofNat c.toNat

/-- The loop of `ls` over several directories. -/
def lsEach (sys : System) (print : List UInt8 → Exec ℤ) (path : List UInt8)
    (names : Slots (List UInt8)) : List CharPtr → Exec ℤ
  | [] => pure 0
  | p::ps => do
    let name ← deref names p
    let fullPath := concatPath sys.stray path name
    put (fullPath++text ":\n")
    let err ← print fullPath
    if err≠0 then pure err
    else do
      put (text "\n")
      lsEach sys print path names ps

/-- Without operands the working directory is listed. -/
def withDefault (dirs : Slots CharPtr) : Slots CharPtr :=
  if dirs.length=0 then dirs.insert (.string (text ".")) else dirs

/-- The body of `ls`, with `print` for its calls of `print_dir`. -/
def lsBody (sys : System) (print : List UInt8 → Exec ℤ) (path : List UInt8)
    (names : Slots (List UInt8)) (dirs : Slots CharPtr) (flags : Flags) : Exec ℤ :=
  if flags.list=true then pure (lsList path dirs flags)
  else do
    let dirs := withDefault dirs
    put (text "count = "++decimal dirs.length++text "\n")
    match dirs.elems with
    | [p] => do
      let name ← deref names p
      let err ← print (concatPath sys.stray path name)
      if err≠0 then pure err else pure 0
    | ps => lsEach sys print path names ps

/-- `ls` and `print_dir` call each other; the recursion is cut off at depth `fuel`. -/
def ls (sys : System) : ℕ → LsCall
  | 0 => fun _ _ _ _ => Traced.fail .outOfFuel
  | fuel+1 => fun path names dirs flags =>
    lsBody sys (fun fullPath => printDir sys (ls sys fuel) fullPath flags) path names dirs flags

/-- The call `ls("", paths, flags)` of `main`, for the given operands. -/
def lsMain (sys : System) (fuel : ℕ) (operands : List (List UInt8)) (flags : Flags) : Exec ℤ :=
  ls sys fuel [] (Slots.new 0) ((operands.map CharPtr.string).foldl Slots.insert (Slots.new 0)) flags

end Recursion

end Ls
end NeOs
