import NeOs.Library.Grid
import NeOs.Ls.Reading
import NeOs.Ls.Sorting

/-! The grid that `print_dir` prints. The listing is a function of the entries in the order in which
they are shown and of the width of the terminal; no index of the program runs out of range. -/
namespace NeOs
open Library Library.Grid
namespace Ls

section Layout

/-- The number of columns for names of the given entries. -/
def colums (width : ℕ) (es : List Dirent) : ℕ := width/(longest es+2)

def rows (width : ℕ) (es : List Dirent) : ℕ := (es.length+colums width es-1)/colums width es

/-- The number of cells. -/
def gridSize (width : ℕ) (es : List Dirent) : ℕ := colums width es*rows width es

theorem colums_perm (width : ℕ) {es es' : List Dirent} (h : es.Perm es') :
    colums width es=colums width es' := by
  rw [colums,colums,longest_perm h]

theorem rows_perm (width : ℕ) {es es' : List Dirent} (h : es.Perm es') :
    rows width es=rows width es' := by
  rw [rows,rows,colums_perm width h,h.length_eq]

theorem gridSize_perm (width : ℕ) {es es' : List Dirent} (h : es.Perm es') :
    gridSize width es=gridSize width es' := by
  rw [gridSize,gridSize,colums_perm width h,rows_perm width h]

variable {width : ℕ} {es : List Dirent}

/-- There is a column exactly when the longest name fits. -/
theorem colums_pos_iff : 1 ≤ colums width es ↔ longest es+2 ≤ width :=
  Nat.one_le_div_iff (by omega)

theorem rows_pos (hw : longest es+2 ≤ width) (hes : es≠[]) : 1 ≤ rows width es :=
  one_le_ceilDiv (colums_pos_iff.mpr hw) (List.length_pos_iff.mpr hes)

theorem length_le_gridSize (hw : longest es+2 ≤ width) : es.length ≤ gridSize width es :=
  le_ceilDiv_mul (colums_pos_iff.mpr hw)

end Layout

/-- The entry or the padding in row `r` and column `c` of a grid filled column by column. -/
def cellAt (rows : ℕ) (shown : List Dirent) (r c : ℕ) : Option Dirent := shown[rows*c+r]?

/-- The length of the longest name in a column. -/
def columnSize (rows : ℕ) (shown : List Dirent) (c : ℕ) : ℕ :=
  (Finset.range rows).sup fun r => (cellName (cellAt rows shown r c)).length

def cellEvents (size : ℕ) (cell : Option Dirent) : List Event :=
  [.put (escapeOf (cellType cell)),.put (padRight (size+2) (cellName cell))]

/-- Row by row, each cell behind the colour escape of its type. -/
def gridEvents (colums rows : ℕ) (shown : List Dirent) : List Event :=
  (List.range rows).flatMap fun r =>
    ((List.range colums).flatMap fun c =>
      cellEvents (columnSize rows shown c) (cellAt rows shown r c))++[.put (text "\n")]

/-- Everything that is printed for one directory. -/
def listing (width : ℕ) (shown : List Dirent) : List Event :=
  gridEvents (colums width shown) (rows width shown) shown++[.put (text "\x1b[0m")]++
    if gridSize width shown≠colums width shown then [.put (text "\n")] else []

section Loops
variable {α : Type} {xs : List α} {i : ℕ} {a : α}

theorem index_events {α : Type} (xs : List α) (i : ℕ) : (index xs i).events=[] := by
  unfold index
  cases xs[i]? <;> rfl

theorem index_done (h : xs[i]?=some a) : index xs i=Traced.done [] a := by
  rw [index,h]
  rfl

theorem udiv_done {b : ℕ} (h : 1 ≤ b) (a : ℕ) : udiv a b=Traced.done [] (a/b) :=
  if_neg (by omega)

theorem umod_done {b : ℕ} (h : 1 ≤ b) (a : ℕ) : umod a b=Traced.done [] (a%b) :=
  if_neg (by omega)

variable {vis shown : List Dirent} {map : List ℕ} {m n : ℕ} (hsize : vis.length ≤ n*m)
  (hperm : map.Perm (List.range (n*m)))
  (hcells : map.map (fun i => vis[i]?)=(List.range (n*m)).map fun i => shown[i]?)
include hsize hperm hcells

/-- Through the map, position `k` of the grid leads to the entry shown there. -/
theorem mapped_cell {k : ℕ} (hk : k < n*m) :
    ∃ j, map[k]?=some j ∧ (padded vis (n*m)).names.elems[j]?=some (cellName shown[k]?) ∧
      (padded vis (n*m)).types.elems[j]?=some (cellType shown[k]?) := by
  have hlen : k < map.length := by
    rw [hperm.length_eq,List.length_range]
    exact hk
  have hj : map[k] < n*m := List.mem_range.mp (hperm.mem_iff.mp (List.getElem_mem hlen))
  have hcell : vis[map[k]]?=shown[k]? := by
    have h := congrArg (fun l : List (Option Dirent) => l[k]?) hcells
    simpa [List.getElem?_eq_getElem hlen,hk] using h
  refine ⟨map[k],List.getElem?_eq_getElem hlen,?_,?_⟩
  · rw [padded_names_getElem? hsize hj,hcell]
  · rw [padded_types_getElem? hsize hj,hcell]

/-- The loop over `sizes` computes the width of every column. -/
theorem columnSizes_done (hm : 1 ≤ m) :
    columnSizes (padded vis (n*m)).names map n m=
      Traced.done [] ((List.range n).map (columnSize m shown)) := by
  have hfinal : (List.range n).map (columnMax (fun k => (cellName shown[k]?).length) m (n*m))=
      (List.range n).map (columnSize m shown) := by
    apply List.map_congr_left
    intro c hc
    exact columnMax_eq _ (List.mem_range.mp hc)
  have hinit : List.replicate n 0=
      (List.range n).map (columnMax (fun k => (cellName shown[k]?).length) m 0) := by
    rw [eq_comm,List.eq_replicate_iff]
    refine ⟨by simp,?_⟩
    intro b hb
    obtain ⟨c,-,rfl⟩ := List.mem_map.mp hb
    rfl
  rw [columnSizes,hperm.length_eq,List.length_range,hinit,← hfinal]
  apply Traced.foldlM_range_done
    (s := fun k => (List.range n).map (columnMax (fun k => (cellName shown[k]?).length) m k))
  intro k hk
  obtain ⟨j,hj,hname,-⟩ := mapped_cell hsize hperm hcells hk
  have hc : k/m < n := Nat.div_lt_of_lt_mul (by rwa [Nat.mul_comm])
  have hold : ((List.range n).map
      (columnMax (fun k => (cellName shown[k]?).length) m k))[k/m]?=
        some (columnMax (fun k => (cellName shown[k]?).length) m k (k/m)) := by
    simp [hc]
  rw [udiv_done hm,Traced.done_nil_bind,index_done hj,Traced.done_nil_bind,index_done hname,
    Traced.done_nil_bind,index_done hold,Traced.done_nil_bind,set_columnMax]
  rfl

/-- One round of the print loop prints one cell of the grid. -/
theorem printCell_done {r c : ℕ} (hr : r < m) (hc : c < n) :
    printCell (padded vis (n*m)) map ((List.range n).map (columnSize m shown)) n m (r*n+c)=
      Traced.done (cellEvents (columnSize m shown c) (cellAt m shown r c)++
        if c=n-1 then [.put (text "\n")] else []) () := by
  have hk : m*c+r < n*m := by
    rw [Nat.mul_comm m c]
    exact cell_lt hc hr
  obtain ⟨j,hj,hname,htype⟩ := mapped_cell hsize hperm hcells hk
  have hsz : ((List.range n).map (columnSize m shown))[c]?=some (columnSize m shown c) := by
    simp [hc]
  rw [printCell,umod_done (by omega),Traced.done_nil_bind,udiv_done (by omega),
    Traced.done_nil_bind,mod_of_cell hc,div_of_cell hc,index_done hj,Traced.done_nil_bind,
    index_done htype,Traced.done_nil_bind]
  split_ifs <;> simp [index_done hsz,index_done hname,put,Traced.emit,Traced.pure_eq] <;> rfl

/-- The print loop prints the grid. -/
theorem forM_printCell (hn : 1 ≤ n) :
    forM (List.range (n*m))
      (printCell (padded vis (n*m)) map ((List.range n).map (columnSize m shown)) n m)=
        Traced.done (gridEvents n m shown) () := by
  have hround : ∀ i ∈ List.range (n*m),
      printCell (padded vis (n*m)) map ((List.range n).map (columnSize m shown)) n m i=
        Traced.done (cellEvents (columnSize m shown (i%n)) (cellAt m shown (i/n) (i%n))++
          if i%n=n-1 then [.put (text "\n")] else []) () := by
    intro i hi
    have hrow : i/n < m := Nat.div_lt_of_lt_mul (List.mem_range.mp hi)
    have h := printCell_done hsize hperm hcells hrow (Nat.mod_lt i hn)
    rwa [Nat.mul_comm (i/n),Nat.div_add_mod] at h
  rw [Traced.forM_done hround,Nat.mul_comm n m,flatMap_range_mul,gridEvents]
  congr 1
  apply List.flatMap_congr
  intro r _
  rw [← flatMap_range_last _ _ hn]
  apply List.flatMap_congr
  intro c hc
  have hc := List.mem_range.mp hc
  rw [mod_of_cell hc,div_of_cell hc]

end Loops

section Shown
variable (sys : System) (flags : Flags) (vis : List Dirent)

/-- The entries in the order in which `print_dir` shows them. -/
def shownEntries : List Dirent :=
  ordered sys.qsort flags (padded vis (gridSize sys.wsCol vis)).names vis

theorem shownEntries_perm : (shownEntries sys flags vis).Perm vis :=
  ordered_perm (nameAt_padded vis _) _ _

variable {vis} in
theorem shownEntries_order (hd : (vis.map Dirent.dName).Nodup) :
    InChosenOrder flags vis (shownEntries sys flags vis) :=
  (sorted_indices (nameAt_padded vis _) _ _).2 hd

end Shown

section ListDir
variable (sys : System) (flags : Flags) {vis : List Dirent}

/-- The array `sizes` of `print_dir` on a terminal that holds the longest name. -/
theorem columnSizes_shown (hvis : vis≠[]) (hw : longest vis+2 ≤ sys.wsCol) :
    columnSizes (padded vis (gridSize sys.wsCol vis)).names
      (sort sys.qsort flags (padded vis (gridSize sys.wsCol vis)).names
        (List.range (gridSize sys.wsCol vis)) vis.length)
      (colums sys.wsCol vis) (rows sys.wsCol vis)=
      Traced.done [] ((List.range (colums sys.wsCol vis)).map
        (columnSize (rows sys.wsCol vis) (shownEntries sys flags vis))) := by
  have hsize := length_le_gridSize hw
  obtain ⟨hperm,hcells⟩ :=
    sort_spec (nameAt_padded vis (gridSize sys.wsCol vis)) sys.qsort flags hsize
  exact columnSizes_done hsize hperm hcells (rows_pos hw hvis)

/-- On such a terminal `print_dir` prints the listing of the entries as they are shown. -/
theorem listDir_done (hvis : vis≠[]) (hw : longest vis+2 ≤ sys.wsCol) :
    listDir sys flags (collected vis)=
      Traced.done (listing sys.wsCol (shownEntries sys flags vis))
        (padded vis (gridSize sys.wsCol vis)) := by
  have hcol := colums_pos_iff.mpr hw
  have hsize := length_le_gridSize hw
  have hshown := shownEntries_perm sys flags vis
  obtain ⟨hperm,hcells⟩ :=
    sort_spec (nameAt_padded vis (gridSize sys.wsCol vis)) sys.qsort flags hsize
  have hcount : (collected vis).names.length=vis.length := by simp [collected]
  have hcolums : getStdoutWidth sys/((collected vis).maxSize+2)=colums sys.wsCol vis := rfl
  have hrows : udiv (vis.length+colums sys.wsCol vis-1) (colums sys.wsCol vis)=
      Traced.done [] (rows sys.wsCol vis) := udiv_done hcol _
  have hgrid : colums sys.wsCol vis*rows sys.wsCol vis=gridSize sys.wsCol vis := rfl
  have hdir : (padded vis (gridSize sys.wsCol vis)).names.length=gridSize sys.wsCol vis :=
    padded_names_length hsize
  have hsizes := columnSizes_shown sys flags hvis hw
  have hprint := @forM_printCell vis (shownEntries sys flags vis) _ _ _ hsize hperm hcells hcol
  rw [hgrid] at hprint
  simp only [listDir,hcount,hcolums,hrows,Traced.done_nil_bind,hgrid,pad_collected,hdir,
    hsizes,hprint]
  simp only [listing,gridSize_perm _ hshown,colums_perm _ hshown,rows_perm _ hshown,
    List.append_assoc]
  refine Traced.done_bind_done (Traced.done_bind_done ?_)
  split_ifs
  · rfl
  · rfl

end ListDir

section PrintDir
variable {sys : System} {path : List UInt8} {flags : Flags} {entries : List Dirent}

theorem beforeLs_unopenable (hopen : sys.opendir path=none) :
    beforeLs sys path flags=Traced.done [.opendir path] none := by
  rw [beforeLs,readDir_unopenable hopen]
  rfl

/-- Nothing is printed for a directory without visible entries. -/
theorem beforeLs_empty (hopen : sys.opendir path=some entries)
    (hvis : visibleEntries flags entries=[]) :
    beforeLs sys path flags=Traced.done [.opendir path] none := by
  rw [beforeLs,readDir_opened hopen,hvis]
  rfl

/-- A terminal too narrow for the longest name has no column to divide by. -/
theorem beforeLs_narrow (hopen : sys.opendir path=some entries)
    (hvis : visibleEntries flags entries≠[])
    (hw : sys.wsCol < longest (visibleEntries flags entries)+2) :
    beforeLs sys path flags=⟨[.opendir path],.error .divByZero⟩ := by
  have hcount : (collected (visibleEntries flags entries)).names.length≠0 := by
    simpa [collected] using hvis
  have hcolums : getStdoutWidth sys/((collected (visibleEntries flags entries)).maxSize+2)=0 :=
    Nat.div_eq_of_lt hw
  rw [beforeLs,readDir_opened hopen,Traced.done_bind]
  simp only [if_neg hcount,listDir,hcolums]
  rfl

/-- `print_dir` up to the recursion, on a directory with visible entries. -/
theorem beforeLs_listed (hopen : sys.opendir path=some entries)
    (hvis : visibleEntries flags entries≠[])
    (hw : longest (visibleEntries flags entries)+2 ≤ sys.wsCol) :
    beforeLs sys path flags=Traced.done
      (.opendir path::listing sys.wsCol (shownEntries sys flags (visibleEntries flags entries)))
      (if flags.recursive=true ∧ (references (visibleEntries flags entries)).length > 0 then
        some (padded (visibleEntries flags entries)
          (gridSize sys.wsCol (visibleEntries flags entries)))
      else none) := by
  have hcount : (collected (visibleEntries flags entries)).names.length≠0 := by
    simpa [collected] using hvis
  rw [beforeLs,readDir_opened hopen,← List.singleton_append]
  apply Traced.done_bind_done
  simp only [if_neg hcount,listDir_done sys flags hvis hw]
  apply Traced.done_bind_pure
  by_cases hrec : flags.recursive=true ∧ (references (visibleEntries flags entries)).length > 0
  · rw [if_pos hrec]
    exact if_pos hrec
  · rw [if_neg hrec]
    exact if_neg hrec

/-- Without recursion `print_dir` prints the listing and returns `0`. -/
theorem printDir_listed (ls : LsCall) (hr : flags.recursive=false)
    (hopen : sys.opendir path=some entries) (hvis : visibleEntries flags entries≠[])
    (hw : longest (visibleEntries flags entries)+2 ≤ sys.wsCol) :
    printDir sys ls path flags=Traced.done
      (.opendir path::listing sys.wsCol (shownEntries sys flags (visibleEntries flags entries)))
      0 := by
  have hno : ¬(flags.recursive=true ∧ (references (visibleEntries flags entries)).length > 0) := by
    simp [hr]
  rw [printDir,beforeLs_listed hopen hvis hw,if_neg hno]
  exact Traced.done_bind_pure rfl

end PrintDir

section Cells
variable {shown : List Dirent} {m n : ℕ}

/-- Column by column the grid holds the entries as they are shown, then padding. -/
theorem cells_by_column (hsize : shown.length ≤ n*m) :
    ((List.range n).flatMap fun c => (List.range m).map fun r => cellAt m shown r c)=
      shown.map some++List.replicate (n*m-shown.length) none := by
  have hcells : ((List.range n).flatMap fun c => (List.range m).map fun r => cellAt m shown r c)=
      (List.range (n*m)).map fun i => shown[i]? := by
    rw [range_mul_columns,List.map_flatMap]
    simp only [List.map_map]
    rfl
  rw [hcells,map_getElem?_range hsize]

/-- Distinct entries stand in exactly one cell each. -/
theorem unique_cell (hm : 1 ≤ m) (hsize : shown.length ≤ n*m) (hd : shown.Nodup) {e : Dirent}
    (he : e ∈ shown) : ∃! p : ℕ × ℕ, (p.1 < m ∧ p.2 < n) ∧ cellAt m shown p.1 p.2=some e := by
  obtain ⟨k,hk,hke⟩ := List.getElem_of_mem he
  refine ⟨(k%m,k/m),⟨⟨Nat.mod_lt k hm,?_⟩,?_⟩,?_⟩
  · exact Nat.div_lt_of_lt_mul (by rw [Nat.mul_comm]; omega)
  · change shown[m*(k/m)+k%m]?=some e
    rw [Nat.div_add_mod,List.getElem?_eq_getElem hk,hke]
  · rintro ⟨r,c⟩ ⟨⟨hr,hc⟩,hcell⟩
    obtain ⟨hi,hie⟩ := List.getElem?_eq_some_iff.mp hcell
    have hpos : m*c+r=k := hd.getElem_inj_iff.mp (hie.trans hke.symm)
    rw [← hpos,Nat.mul_comm,mod_of_cell hr,div_of_cell hr]

end Cells

theorem visible_iff (flags : Flags) (entry : Dirent) :
    visible flags entry=true ↔ entry.dName.head?≠some 46 ∨ flags.showHidden=true := by
  cases h : entry.dName <;> simp [visible,h,charAt,dot]

/-- The listing of a directory. The run ends with `0`, so that every index was in range. It prints
the grid row by row: each cell is the escape of the type of its entry, then its name and blanks up
to the length of the longest name of its column and two more. The grid holds every visible entry in
one cell, and column by column it holds the visible entries in the chosen order and then nothing but
padding. -/
theorem printDir_lists (sys : System) (ls : LsCall) (path : List UInt8) (flags : Flags)
    (entries vis : List Dirent) (hr : flags.recursive=false) (hopen : sys.opendir path=some entries)
    (hfilter : vis=entries.filter fun e => e.dName.head?≠some 46 ∨ flags.showHidden=true)
    (hvis : vis≠[]) (hd : (vis.map Dirent.dName).Nodup) (hw : longest vis+2 ≤ sys.wsCol) :
    let m := rows sys.wsCol vis
    let n := colums sys.wsCol vis
    ∃ shown, InChosenOrder flags vis shown ∧
      (let name := fun r c => (cellAt m shown r c).elim [] Dirent.dName
      let type := fun r c => (cellAt m shown r c).elim 0 Dirent.dType
      let size := fun c => (Finset.range m).sup fun r => (name r c).length
      printDir sys ls path flags=Traced.done
        (.opendir path::((List.range m).flatMap fun r =>
          ((List.range n).flatMap fun c =>
            [.put (if type r c=4 then [27,91,48,59,51,52,109]
                else if type r c=10 then [27,91,48,59,57,54,109]
                else [27,91,48,109]),
              .put (name r c++List.replicate (size c+2-(name r c).length) 32)])++
            [.put [10]])++[.put [27,91,48,109]]++if n*m≠n then [.put [10]] else []) 0) ∧
      (∀ e ∈ vis, ∃! p : ℕ × ℕ, (p.1 < m ∧ p.2 < n) ∧ cellAt m shown p.1 p.2=some e) ∧
      ((List.range n).flatMap fun c => (List.range m).map fun r => cellAt m shown r c)=
        shown.map some++List.replicate (n*m-shown.length) none := by
  intro m n
  obtain rfl : vis=visibleEntries flags entries := by
    rw [hfilter,visibleEntries]
    apply List.filter_congr
    intro e _
    exact Bool.eq_iff_iff.mpr (by simp [visible_iff])
  set shown := shownEntries sys flags (visibleEntries flags entries) with hdef
  have hshown : shown.Perm (visibleEntries flags entries) := shownEntries_perm _ _ _
  have hprint := printDir_listed ls hr hopen hvis hw
  have hsize : shown.length ≤ n*m := by
    rw [hshown.length_eq]
    exact length_le_gridSize hw
  have hnodup : shown.Nodup := hshown.nodup_iff.mpr hd.of_map
  refine ⟨shown,shownEntries_order sys flags hd,?_,?_,cells_by_column hsize⟩
  · intro name type size
    rw [hprint,← hdef,listing,gridSize_perm _ hshown,colums_perm _ hshown,rows_perm _ hshown]
    rfl
  · intro e he
    exact unique_cell (rows_pos hw hvis) hsize hnodup (hshown.mem_iff.mpr he)

/-- A directory with a hidden entry, and a system that has no other one. -/
def sampleDir : List Dirent :=
  [⟨text "bb",8,11,by decide,by decide⟩,⟨text ".c",8,12,by decide,by decide⟩,
    ⟨text "a",dtDir,13,by decide,by decide⟩]

def terminal (width : ℕ) (entries : List Dirent) : System :=
  { opendir := fun path => if path=text "d" then some entries else none
    wsCol := width
    qsort := Sorter.insertion
    stray := 0 }

/-- Blue `a`, plain `bb`, and a cell of padding. -/
theorem printDir_lists_sample :
    printDir (terminal 13 sampleDir) (fun _ _ _ _ => pure 0) (text "d") defaultFlags=
      Traced.done [.opendir [100],.put [27,91,48,59,51,52,109],.put [97,32,32],.put [27,91,48,109],
        .put [98,98,32,32],.put [27,91,48,109],.put [32,32],.put [10],.put [27,91,48,109]] 0 := by
  obtain ⟨shown,horder,hprint,-⟩ := printDir_lists (terminal 13 sampleDir) (fun _ _ _ _ => pure 0)
    (text "d") defaultFlags sampleDir (visibleEntries defaultFlags sampleDir) rfl rfl rfl
    (by decide) (by decide) (by decide)
  have hsorted : InChosenOrder defaultFlags (visibleEntries defaultFlags sampleDir)
      (visibleEntries defaultFlags sampleDir).reverse :=
    ⟨List.reverse_perm _,List.pairwise_pair.mpr (show strcmp [97] [98,98] < 0 by decide)⟩
  obtain rfl := InChosenOrder.unique (by decide) (List.Perm.refl _) horder hsorted
  exact hprint

/-- The bytes that a run writes. -/
def written {α : Type} (x : Exec α) : List UInt8 :=
  x.events.flatMap fun
    | .put bytes => bytes
    | .opendir _ => []

/-- In the sorted modes the order of `readdir` does not show. -/
theorem printDir_order_irrelevant (sys sys' : System) (ls ls' : LsCall) (path : List UInt8)
    (flags : Flags) (entries entries' : List Dirent) (hr : flags.recursive=false)
    (hs : flags.sort≠.none) (hwidth : sys.wsCol=sys'.wsCol) (hopen : sys.opendir path=some entries)
    (hopen' : sys'.opendir path=some entries') (hperm : entries.Perm entries')
    (hd : (entries.map Dirent.dName).Nodup)
    (hw : longest (visibleEntries flags entries)+2 ≤ sys.wsCol) :
    written (printDir sys ls path flags)=written (printDir sys' ls' path flags) ∧
      (printDir sys ls path flags).result=.ok 0 ∧ (printDir sys' ls' path flags).result=.ok 0 := by
  have hp : (visibleEntries flags entries).Perm (visibleEntries flags entries') := hperm.filter _
  by_cases hvis : visibleEntries flags entries=[]
  · have hvis' : visibleEntries flags entries'=[] := by
      rw [hvis] at hp
      exact hp.symm.eq_nil
    rw [printDir,printDir,beforeLs_empty hopen hvis,beforeLs_empty hopen' hvis']
    exact ⟨rfl,rfl,rfl⟩
  · have hvis' : visibleEntries flags entries'≠[] := by
      intro h
      rw [h] at hp
      exact hvis hp.eq_nil
    have hd1 : ((visibleEntries flags entries).map Dirent.dName).Nodup :=
      (List.filter_sublist.map _).nodup hd
    have hd2 := (hp.map Dirent.dName).nodup_iff.mp hd1
    have hw' := hw
    rw [longest_perm hp,hwidth] at hw'
    have hsame := InChosenOrder.unique hs hp (shownEntries_order sys flags hd1)
      (shownEntries_order sys' flags hd2)
    rw [printDir_listed ls hr hopen hvis hw,printDir_listed ls' hr hopen' hvis' hw',hsame,hwidth]
    exact ⟨rfl,rfl,rfl⟩

theorem printDir_order_irrelevant_sample :
    written (printDir (terminal 9 sampleDir) (fun _ _ _ _ => pure 0) (text "d") defaultFlags)=
      written (printDir (terminal 9 sampleDir.reverse) (fun _ _ _ _ => pure 0) (text "d")
        defaultFlags) :=
  (printDir_order_irrelevant (terminal 9 sampleDir) (terminal 9 sampleDir.reverse) _ _ (text "d")
    defaultFlags sampleDir sampleDir.reverse rfl (by decide) rfl rfl rfl
    (List.reverse_perm sampleDir).symm (by decide) (by decide)).1

/-- What the layout needs: columns and rows to divide by, and a cell for every entry. -/
structure LayoutDefined (sys : System) (path : List UInt8) (flags : Flags)
    (vis : List Dirent) : Prop where
  colums_pos : 1 ≤ colums sys.wsCol vis
  rows_pos : 1 ≤ rows sys.wsCol vis
  no_fault : (beforeLs sys path flags).result≠.error .divByZero
  fits : vis.length ≤ colums sys.wsCol vis*rows sys.wsCol vis

/-- The layout is defined exactly on terminals that hold the longest name and two blanks. -/
theorem layoutDefined_iff (sys : System) (path : List UInt8) (flags : Flags)
    (entries : List Dirent) (hopen : sys.opendir path=some entries)
    (hvis : visibleEntries flags entries≠[]) :
    LayoutDefined sys path flags (visibleEntries flags entries) ↔
      longest (visibleEntries flags entries)+2 ≤ sys.wsCol := by
  constructor
  · intro h
    by_contra hw
    apply h.no_fault
    rw [beforeLs_narrow hopen hvis (by omega)]
  · intro hw
    refine ⟨colums_pos_iff.mpr hw,Ls.rows_pos hw hvis,?_,length_le_gridSize hw⟩
    rw [beforeLs_listed hopen hvis hw]
    intro h
    cases h

/-- On a terminal of width `0` one name is enough to divide by zero. -/
theorem layout_zero_width_fails :
    (visibleEntries defaultFlags sampleDir≠[]) ∧
      ¬LayoutDefined (terminal 0 sampleDir) (text "d") defaultFlags
        (visibleEntries defaultFlags sampleDir) ∧
      (beforeLs (terminal 0 sampleDir) (text "d") defaultFlags).result=.error .divByZero := by
  refine ⟨by decide,?_,by rfl⟩
  intro h
  exact h.no_fault rfl

theorem layoutDefined_at_five :
    LayoutDefined (terminal 5 sampleDir) (text "d") defaultFlags
      (visibleEntries defaultFlags sampleDir) :=
  (layoutDefined_iff (terminal 5 sampleDir) (text "d") defaultFlags sampleDir rfl
    (by decide)).mpr (by decide)

end Ls
end NeOs
