import NeOs.Library.Blocks
import NeOs.Library.Stateful
import NeOs.Ls.Options

/-! `bin/ls.c` with its memory: every block that it allocates, moves, uses and releases, and its
directory streams. A pointer in `dirs` is an address in a block. The use of a block that is not
allocated is a flaw. What `ls` does besides is done by the functions of the model without memory. -/
namespace NeOs
open Library Stateful
namespace Ls

/-- The heap, the number of open directory streams, and the most there have been at one time. -/
structure Memory where
  blocks : Blocks
  streams : ℕ
  peak : ℕ

namespace Memory

/-- The memory when `main` is entered. -/
def fresh : Memory := ⟨.empty,0,0⟩

/-- What goes wrong: a fault that there is without the memory as well, or the use of what is not
allocated or open. -/
inductive Flaw
  | fault (e : Fault)
  | notLive
  | notOpen
  | danglingRead
  deriving Repr, DecidableEq

/-- A pointer that dangles in the model without memory leads into a block that is not allocated. -/
def flaw : Fault → Flaw
  | .danglingPointer => .danglingRead
  | e => .fault e

abbrev Prog := Stateful Memory Event Flaw

section Heap

def malloc (size : ℕ) : Prog ℕ := fun m =>
  (Traced.done [] m.blocks.next,{ m with blocks := m.blocks.alloc size })

/-- The block is used. -/
def touch (b : ℕ) : Prog Unit := fun m =>
  if m.blocks.IsLive b then update id m else fail .notLive m

def free (b : ℕ) : Prog Unit := fun m =>
  if m.blocks.IsLive b then update (fun m => { m with blocks := m.blocks.release b }) m
  else fail .notLive m

/-- `realloc` gives a new block. -/
def realloc (b size : ℕ) : Prog ℕ := do
  free b
  malloc size

def openStream : Prog Unit :=
  update fun m => { m with streams := m.streams+1, peak := max m.peak (m.streams+1) }

def closedir : Prog Unit := fun m =>
  if m.streams=0 then fail .notOpen m else update (fun m => { m with streams := m.streams-1 }) m

end Heap

section Vectors
variable {α : Type}

/-- A `DYNAMIC *`: the block, and what it holds. -/
structure Vec (α : Type) where
  block : ℕ
  elementSize : ℕ
  slots : Slots α

def dynamic (elementSize initialCapacity : ℕ) : Prog (Vec α) := do
  let b ← malloc (sizeofDynamic+initialCount initialCapacity*elementSize)
  pure ⟨b,elementSize,Slots.new initialCapacity⟩

/-- `dynamic_insert`, with `dynamic_grow`. -/
def dynamicInsert (v : Vec α) (a : α) : Prog (Vec α) := do
  if v.slots.length=v.slots.capacity then
    let b ← realloc v.block (sizeofDynamic+v.slots.capacity*2*v.elementSize)
    pure ⟨b,v.elementSize,v.slots.insert a⟩
  else
    touch v.block
    pure { v with slots := v.slots.insert a }

def dynamicFree (v : Vec α) : Prog Unit := free v.block

end Vectors

section ReadDir

/-- A `char *` held in `dirs`: an argument or a literal, or the address of an element of a block. -/
inductive Ptr
  | string (s : List UInt8)
  | inBlock (block idx : ℕ)

structure Locals where
  maxSize : ℕ
  names : Vec (List UInt8)
  types : Vec UInt8
  ino : Vec UInt64
  dirs : Vec Ptr
  i : ℕ

def readEntry (flags : Flags) (l : Locals) (entry : Dirent) : Prog Locals := do
  if visible flags entry then
    let size := min entry.dName.length 255
    let names ← dynamicInsert l.names entry.dName
    let types ← dynamicInsert l.types entry.dType
    let ino ← dynamicInsert l.ino entry.dIno
    let dirs ← (if descends entry then dynamicInsert l.dirs (.inBlock names.block l.i)
      else pure l.dirs)
    pure ⟨max l.maxSize size,names,types,ino,dirs,l.i+1⟩
  else pure l

def readDir (sys : System) (path : List UInt8) (flags : Flags) : Prog (Option Locals) := do
  lift flaw (Traced.emit (.opendir path))
  match sys.opendir path with
  | none => pure none
  | some entries => do
    openStream
    let names ← dynamic 256 0
    let types ← dynamic 1 0
    let ino ← dynamic 8 0
    let dirs ← dynamic 8 0
    let l ← entries.foldlM (readEntry flags) ⟨0,names,types,ino,dirs,0⟩
    closedir
    pure (some l)

end ReadDir

section PrintDir

def pad (l : Locals) (size : ℕ) : Prog Locals :=
  (List.range (size-l.names.slots.length)).foldlM (fun l _ => do
    let names ← dynamicInsert l.names []
    let types ← dynamicInsert l.types dtUnknown
    pure { l with names := names, types := types }) l

/-- The local variables without the addresses. The references of `dirs` are not looked at. -/
def Locals.plain (l : Locals) : Ls.Locals :=
  ⟨l.maxSize,l.names.slots,l.types.slots,l.ino.slots,Slots.new 0,l.i⟩

/-- The result has the local variables and the block `sizes`. The block `map` is not used again. -/
def listDir (sys : System) (flags : Flags) (l : Locals) : Prog (Locals × ℕ) := do
  let count := l.names.slots.length
  let width := getStdoutWidth sys
  let colums := width/(l.maxSize+2)
  let rows ← lift flaw (udiv (count+colums-1) colums)
  let size := colums*rows
  let l ← pad l size
  let directorySize := l.names.slots.length
  let mapBlock ← malloc (directorySize*8)
  touch l.names.block
  let map := sort sys.qsort flags l.names.slots (List.range directorySize) count
  let sizesBlock ← malloc (colums*8)
  let sizes ← lift flaw (columnSizes l.names.slots map colums rows)
  touch mapBlock
  touch l.types.block
  lift flaw (forM (List.range directorySize) (printCell l.plain map sizes colums rows))
  lift flaw (put (text "\x1b[0m"))
  if directorySize≠colums then lift flaw (put (text "\n")) else pure ()
  pure (l,sizesBlock)

/-- The call `ls(path, dirs, flags)`; `names` is what the blocks hold that `dirs` points into. -/
abbrev LsCall := List UInt8 → Slots (List UInt8) → Vec Ptr → Flags → Prog ℤ

def printDir (sys : System) (ls : LsCall) (path : List UInt8) (flags : Flags) : Prog ℤ := do
  match ← readDir sys path flags with
  | none => pure 0
  | some l =>
    if l.names.slots.length=0 then do
      dynamicFree l.types
      dynamicFree l.ino
      dynamicFree l.names
      dynamicFree l.dirs
      pure 0
    else do
      let (l,sizes) ← listDir sys flags l
      free sizes
      dynamicFree l.types
      dynamicFree l.ino
      let err ← (if flags.recursive=true ∧ l.dirs.slots.length > 0 then
        ls path l.names.slots l.dirs flags else pure 0)
      if err≠0 then pure (err*10)
      else do
        dynamicFree l.names
        dynamicFree l.dirs
        pure 0

end PrintDir

section Recursion

/-- Read the string that a pointer in `dirs` designates. -/
def deref (names : Slots (List UInt8)) : Ptr → Prog (List UInt8)
  | .string s => pure s
  | .inBlock b idx => fun m =>
    if m.blocks.IsLive b then lift flaw (index names.elems idx) m else fail .danglingRead m

/-- `concat_path`: the string and the block it is in. -/
def concatPath (sys : System) (s1 s2 : List UInt8) (buf : Option ℕ) : Prog (ℕ × List UInt8) := do
  let b ← match buf with
    | none => malloc (s1.length+s2.length+2)
    | some b => realloc b (s1.length+s2.length+2)
  pure (b,NeOs.concatPath sys.stray s1 s2)

/-- The loop of `ls` over several directories, and the `free` behind it. -/
def lsEach (sys : System) (print : List UInt8 → Prog ℤ) (path : List UInt8)
    (names : Slots (List UInt8)) (dirs : ℕ) : List Ptr → Option ℕ → Prog ℤ
  | [],none => pure 0
  | [],some fullPath => do
    free fullPath
    pure 0
  | p::ps,buf => do
    touch dirs
    let name ← deref names p
    let (b,fullPath) ← concatPath sys path name buf
    lift flaw (put (fullPath++text ":\n"))
    let err ← print fullPath
    if err≠0 then pure err
    else do
      lift flaw (put (text "\n"))
      lsEach sys print path names dirs ps (some b)

def withDefault (dirs : Vec Ptr) : Prog (Vec Ptr) :=
  if dirs.slots.length=0 then dynamicInsert dirs (.string (text ".")) else pure dirs

def lsBody (sys : System) (print : List UInt8 → Prog ℤ) (path : List UInt8)
    (names : Slots (List UInt8)) (dirs : Vec Ptr) (flags : Flags) : Prog ℤ :=
  if flags.list=true then pure 69
  else do
    let dirs ← withDefault dirs
    lift flaw (put (text "count = "++decimal dirs.slots.length++text "\n"))
    match dirs.slots.elems with
    | [p] => do
      touch dirs.block
      let name ← deref names p
      let (b,fullPath) ← concatPath sys path name none
      let err ← print fullPath
      if err≠0 then pure err
      else do
        free b
        pure 0
    | ps => lsEach sys print path names dirs.block ps none

def ls (sys : System) : ℕ → LsCall
  | 0 => fun _ _ _ _ => lift flaw (Traced.fail .outOfFuel)
  | fuel+1 => fun path names dirs flags =>
    lsBody sys (fun fullPath => printDir sys (ls sys fuel) fullPath flags) path names dirs flags

end Recursion

section Main

/-- The loop of `main` over the arguments; `none` stands for the return of `7`. -/
def parseArguments (flags : Flags) (paths : Vec Ptr) :
    List (List UInt8) → Prog (Option (Flags × Vec Ptr))
  | [] => pure (some (flags,paths))
  | str::args =>
    if charAt str 0=dash then
      match parseOption flags str with
      | none => pure none
      | some flags => parseArguments flags paths args
    else do
      let paths ← dynamicInsert paths (.string str)
      parseArguments flags paths args

def main (sys : System) (fuel : ℕ) (argv : List (List UInt8)) : Prog ℤ := do
  let paths ← dynamic 8 0
  match ← parseArguments defaultFlags paths argv.tail with
  | none => pure 7
  | some (flags,paths) => do
    lift flaw (put (text "\x1b[?25l"))
    let err ← ls sys fuel [] (Slots.new 0) paths flags
    if err≠0 then lift flaw (put (text "ERROR: "++decimalInt err++text "\n")) else pure ()
    lift flaw (put (text "\x1b[?25h"))
    dynamicFree paths
    pure err

end Main

end Memory
end Ls
end NeOs
