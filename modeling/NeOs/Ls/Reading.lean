import NeOs.Ls.Model

/-! What `read_dir` leaves in the local variables of `print_dir`, and what the padding adds. Both are
functions of the visible entries in the order of `readdir`. -/
namespace NeOs
open Library Library.Doubling
namespace Ls

/-- The length of the longest name. -/
def longest : List Dirent → ℕ
  | [] => 0
  | e::es => max e.dName.length (longest es)

theorem longest_le_iff {es : List Dirent} {n : ℕ} :
    longest es ≤ n ↔ ∀ e ∈ es, e.dName.length ≤ n := by
  induction es with
  | nil => simp [longest]
  | cons e es ih => simp [longest,ih]

theorem longest_append_singleton (es : List Dirent) (e : Dirent) :
    longest (es++[e])=max (longest es) e.dName.length := by
  induction es with
  | nil => simp [longest]
  | cons a es ih => rw [List.cons_append,longest,ih,longest,max_assoc]

theorem longest_perm {es es' : List Dirent} (h : es.Perm es') : longest es=longest es' := by
  apply eq_of_forall_ge_iff
  intro n
  simp only [longest_le_iff,h.mem_iff]

/-- The entries that are listed. -/
def visibleEntries (flags : Flags) (entries : List Dirent) : List Dirent := entries.filter (visible flags)

/-- The references for `dirs`: each has the version that `names` had once its own entry was in. -/
def references (vis : List Dirent) : List CharPtr :=
  (vis.zipIdx.filter fun p => descends p.1).map fun p =>
    .slot (doublings dynamicDefaultCapacity (p.2+1)) p.2

theorem references_append_singleton (vis : List Dirent) (e : Dirent) :
    references (vis++[e])=references vis++
      if descends e then [.slot (doublings dynamicDefaultCapacity (vis.length+1)) vis.length]
      else [] := by
  rw [references,List.zipIdx_append,List.filter_append,List.map_append]
  cases hd : descends e <;> simp [references,hd]

/-- The local variables once the visible entries `vis` have been read. -/
def collected (vis : List Dirent) : Locals :=
  { maxSize := longest vis
    names := Slots.filled dynamicDefaultCapacity (vis.map Dirent.dName)
    types := Slots.filled dynamicDefaultCapacity (vis.map Dirent.dType)
    ino := Slots.filled dynamicDefaultCapacity (vis.map Dirent.dIno)
    dirs := Slots.filled dynamicDefaultCapacity (references vis)
    i := vis.length }

theorem noEntries_eq : noEntries=collected [] := by
  simp only [noEntries,Slots.new_eq_filled]
  rfl

/-- One round reads one entry. -/
theorem readEntry_collected (flags : Flags) (vis : List Dirent) (e : Dirent) :
    readEntry flags (collected vis) e=
      collected (vis++if visible flags e then [e] else []) := by
  cases hv : visible flags e with
  | false => simp [readEntry,hv]
  | true =>
    have hsize : min e.dName.length 255=e.dName.length := min_eq_left e.name_le
    simp only [readEntry,hv,if_true,collected,Slots.insert_filled,hsize,longest_append_singleton,
      references_append_singleton,List.map_append,List.map_singleton,List.length_append,
      List.length_singleton,Slots.filled_version,List.length_map]
    cases descends e <;> simp

/-- The loop of `read_dir` collects the visible entries. -/
theorem foldl_readEntry (flags : Flags) (vis entries : List Dirent) :
    entries.foldl (readEntry flags) (collected vis)=
      collected (vis++visibleEntries flags entries) := by
  induction entries generalizing vis with
  | nil => simp [visibleEntries]
  | cons e entries ih =>
    rw [List.foldl_cons,readEntry_collected,ih,List.append_assoc]
    cases hv : visible flags e <;> simp [visibleEntries,hv]

/-- `read_dir` on a directory that can be opened. -/
theorem readDir_opened {sys : System} {path : List UInt8} {entries : List Dirent}
    (h : sys.opendir path=some entries) (flags : Flags) :
    readDir sys path flags=
      Traced.done [.opendir path] (some (collected (visibleEntries flags entries))) := by
  simp only [readDir,h,noEntries_eq,foldl_readEntry]
  rfl

theorem readDir_unopenable {sys : System} {path : List UInt8} (h : sys.opendir path=none)
    (flags : Flags) : readDir sys path flags=Traced.done [.opendir path] none := by
  simp only [readDir,h]
  rfl

section Padding

/-- The local variables once the grid has been filled up to `size` cells. -/
def padded (vis : List Dirent) (size : ℕ) : Locals :=
  { collected vis with
    names := Slots.filled dynamicDefaultCapacity
      (vis.map Dirent.dName++List.replicate (size-vis.length) [])
    types := Slots.filled dynamicDefaultCapacity
      (vis.map Dirent.dType++List.replicate (size-vis.length) dtUnknown) }

theorem pad_collected (vis : List Dirent) (size : ℕ) : pad (collected vis) size=padded vis size := by
  have hloop : ∀ k, (List.range k).foldl (fun l _ =>
      { l with names := l.names.insert [], types := l.types.insert dtUnknown }) (collected vis)=
        padded vis (vis.length+k) := by
    intro k
    induction k with
    | zero => simp [padded,collected]
    | succ k ih =>
      rw [List.range_succ,List.foldl_append,ih]
      simp [padded,List.replicate_succ']
  rw [pad,hloop]
  simp [padded,collected]

/-- What a cell of the grid shows: an entry, or padding with an empty name and no type. -/
def cellName (cell : Option Dirent) : List UInt8 := cell.elim [] Dirent.dName

def cellType (cell : Option Dirent) : UInt8 := cell.elim dtUnknown Dirent.dType

variable {vis : List Dirent} {size : ℕ}

@[simp] theorem padded_dirs :
    (padded vis size).dirs=Slots.filled dynamicDefaultCapacity (references vis) := rfl

@[simp] theorem padded_names_length (h : vis.length ≤ size) :
    (padded vis size).names.length=size := by
  simp [padded,h]

theorem getElem?_padding {α : Type} (f : Dirent → α) (a : α) (h : vis.length ≤ size) {m : ℕ}
    (hm : m < size) :
    (vis.map f++List.replicate (size-vis.length) a)[m]?=some (vis[m]?.elim a f) := by
  by_cases hv : m < vis.length
  · simp [List.getElem?_append_left,hv]
  · rw [List.getElem?_append_right (by simp; omega),List.length_map,
      List.getElem?_replicate_of_lt (by omega),List.getElem?_eq_none (l := vis) (by omega)]
    rfl

theorem padded_names_getElem? (h : vis.length ≤ size) {m : ℕ} (hm : m < size) :
    (padded vis size).names.elems[m]?=some (cellName vis[m]?) :=
  getElem?_padding Dirent.dName [] h hm

theorem padded_types_getElem? (h : vis.length ≤ size) {m : ℕ} (hm : m < size) :
    (padded vis size).types.elems[m]?=some (cellType vis[m]?) :=
  getElem?_padding Dirent.dType dtUnknown h hm

theorem nameAt_padded (vis : List Dirent) (size i : ℕ) (h : i < vis.length) :
    nameAt (padded vis size).names i=vis[i].dName := by
  simp [nameAt,padded,List.getD,List.getElem?_append_left,h]

end Padding

end Ls
end NeOs
