import NeOs.Ls.Listing

/-! The grid as it stands on the terminal: the reverse flag is a mirror image of the map, names stay
inside their columns, and rows are equally wide and fit. -/
namespace NeOs
open Library
namespace Ls

section Mirror

/-- The vectors of `print_dir` when `sort` is called. -/
def sortInput (flags : Flags) (entries : List Dirent) (size : ℕ) : Locals :=
  pad (entries.foldl (readEntry flags) noEntries) size

theorem sortInput_eq (flags : Flags) (entries : List Dirent) (size : ℕ) :
    sortInput flags entries size=padded (visibleEntries flags entries) size := by
  rw [sortInput,noEntries_eq,foldl_readEntry,List.nil_append,pad_collected]

/-- For every sort mode the reverse flag turns the part of the map that stands for the entries
round, and leaves the padding where it is. -/
theorem sort_reverse_mirror (qsort : Sorter ℕ) (flags : Flags) (entries : List Dirent) (size : ℕ)
    (hd : ((visibleEntries flags entries).map Dirent.dName).Nodup) :
    let count := (entries.foldl (readEntry flags) noEntries).names.length
    let names := (sortInput flags entries size).names
    let forward := sort qsort { flags with reverse := false } names (List.range names.length) count
    let backward := sort qsort { flags with reverse := true } names (List.range names.length) count
    backward.take count=(forward.take count).reverse ∧
      (forward.take count).Perm (List.range count) ∧
      (backward.take count).Perm (List.range count) ∧
      forward.drop count=(List.range names.length).drop count ∧
      backward.drop count=(List.range names.length).drop count := by
  have hcount : (entries.foldl (readEntry flags) noEntries).names.length=
      (visibleEntries flags entries).length := by
    rw [noEntries_eq,foldl_readEntry,List.nil_append]
    simp [collected]
  rw [hcount,sortInput_eq]
  set vis := visibleEntries flags entries
  set names := (padded vis size).names with hnames_eq
  have hlen : vis.length ≤ names.length := by simp [hnames_eq,padded]
  have hnames : ∀ i (h : i < vis.length), nameAt names i=vis[i].dName := nameAt_padded vis size
  have hsplit : ∀ fl : Flags, sort qsort fl names (List.range names.length) vis.length=
      sort qsort fl names (List.range vis.length) vis.length++
        (List.range names.length).drop vis.length := by
    intro fl
    rw [range_split hlen,sort_append,List.drop_left' List.length_range]
  have hfore := (sorted_indices hnames qsort { flags with reverse := false }).1
  have hback := (sorted_indices hnames qsort { flags with reverse := true }).1
  have hflen := hfore.length_eq.trans List.length_range
  have hblen := hback.length_eq.trans List.length_range
  intro count names' forward backward
  simp only [count,names',forward,backward,hsplit,List.take_left' hflen,List.take_left' hblen,
    List.drop_left' hflen,List.drop_left' hblen]
  exact ⟨sort_reverse hnames qsort flags hd,hfore,hback,trivial,trivial⟩

theorem sort_reverse_mirror_sample :
    let names := (sortInput defaultFlags sampleDir 4).names
    (sort Sorter.insertion { defaultFlags with reverse := true } names (List.range 4) 2).take 2=
      ((sort Sorter.insertion { defaultFlags with reverse := false } names (List.range 4) 2).take
        2).reverse :=
  (sort_reverse_mirror Sorter.insertion defaultFlags sampleDir 4 (by decide)).1

end Mirror

section Rows
variable {sizes : List ℕ} {shown : List Dirent} {m n : ℕ}

/-- Output that takes no room in a row: the colour escapes and the newline. -/
def markup : List (List UInt8) :=
  [text "\n",text "\x1b[0;34m",text "\x1b[0;96m",text "\x1b[0m"]

/-- The bytes of the output without the markup. -/
def plain (es : List Event) : List UInt8 :=
  es.flatMap fun
    | .put bytes => if bytes ∈ markup then [] else bytes
    | .opendir _ => []

theorem plain_append (es es' : List Event) : plain (es++es')=plain es++plain es' :=
  List.flatMap_append

theorem escapeOf_mem_markup (dType : UInt8) : escapeOf dType ∈ markup := by
  unfold escapeOf
  split_ifs <;> simp [markup]

/-- A name in its column ends in blanks, so it is not taken for markup. -/
theorem padRight_not_markup {size : ℕ} {name : List UInt8} (h : name.length ≤ size) :
    padRight (size+2) name ∉ markup := by
  have hlast : (padRight (size+2) name).getLast?=some 32 := by
    obtain ⟨k,hk⟩ := Nat.exists_eq_add_of_lt (show 0 < size+2-name.length by omega)
    rw [padRight,hk,Nat.zero_add,List.replicate_succ',← List.append_assoc,List.getLast?_concat]
  have hmarkup : ∀ bytes ∈ markup, bytes.getLast?≠some 32 := by decide
  exact fun hmem => hmarkup _ hmem hlast

theorem padRight_length {size : ℕ} {name : List UInt8} (h : name.length ≤ size) :
    (padRight (size+2) name).length=size+2 := by
  simp only [padRight,List.length_append,List.length_replicate]
  omega

theorem plain_cellEvents_length {size : ℕ} {cell : Option Dirent}
    (h : (cellName cell).length ≤ size) : (plain (cellEvents size cell)).length=size+2 := by
  simp [plain,cellEvents,escapeOf_mem_markup,padRight_not_markup h,padRight_length h]

/-- Row `r` of a grid with the given column widths. -/
def rowEvents (sizes : List ℕ) (m : ℕ) (shown : List Dirent) (r : ℕ) : List Event :=
  (List.range sizes.length).flatMap fun c => cellEvents (sizes.getD c 0) (cellAt m shown r c)

/-- A row in which every name fits its column is as wide as all the columns together. -/
theorem plain_rowEvents_length {r : ℕ}
    (h : ∀ c < sizes.length, (cellName (cellAt m shown r c)).length ≤ sizes.getD c 0) :
    (plain (rowEvents sizes m shown r)).length=(sizes.map (·+2)).sum := by
  have hcells : ∀ k ≤ sizes.length, (plain ((List.range k).flatMap fun c =>
      cellEvents (sizes.getD c 0) (cellAt m shown r c))).length=
        ((sizes.take k).map (·+2)).sum := by
    intro k hk
    induction k with
    | zero => rfl
    | succ k ih =>
      rw [List.range_succ,List.flatMap_append,plain_append,List.length_append,ih (by omega),
        List.flatMap_singleton,plain_cellEvents_length (h k hk),
        List.take_succ_eq_append_getElem hk,List.map_append,List.sum_append]
      simp [List.getElem?_eq_getElem hk]
  rw [rowEvents,hcells _ le_rfl,List.take_length]

theorem cellName_le_columnSize {r : ℕ} (hr : r < m) (c : ℕ) :
    (cellName (cellAt m shown r c)).length ≤ columnSize m shown c :=
  Finset.le_sup (f := fun r => (cellName (cellAt m shown r c)).length) (Finset.mem_range.mpr hr)

theorem columnSize_le_longest (m : ℕ) (shown : List Dirent) (c : ℕ) :
    columnSize m shown c ≤ longest shown := by
  apply Finset.sup_le
  intro r _
  cases hcell : cellAt m shown r c with
  | none => simp [cellName]
  | some e => exact longest_le_iff.mp le_rfl e (List.mem_of_getElem? hcell)

theorem getD_columnSizes (m : ℕ) (shown : List Dirent) {n c : ℕ} (hc : c < n) :
    ((List.range n).map (columnSize m shown)).getD c 0=columnSize m shown c := by
  simp [List.getD,hc]

theorem rowEvents_columnSizes (n m : ℕ) (shown : List Dirent) (r : ℕ) :
    rowEvents ((List.range n).map (columnSize m shown)) m shown r=
      (List.range n).flatMap fun c => cellEvents (columnSize m shown c) (cellAt m shown r c) := by
  rw [rowEvents,List.length_map,List.length_range]
  apply List.flatMap_congr
  intro c hc
  rw [getD_columnSizes m shown (List.mem_range.mp hc)]

/-- All columns together are not wider than the terminal. -/
theorem sum_columnSizes_le (width : ℕ) (m : ℕ) (shown : List Dirent) :
    (((List.range (colums width shown)).map (columnSize m shown)).map (·+2)).sum ≤ width := by
  have hle : (((List.range (colums width shown)).map (columnSize m shown)).map (·+2)).sum ≤
      colums width shown*(longest shown+2) := by
    have hcol : ∀ x ∈ ((List.range (colums width shown)).map (columnSize m shown)).map (·+2),
        x ≤ longest shown+2 := by
      intro x hx
      simp only [List.map_map,List.mem_map,Function.comp_apply] at hx
      obtain ⟨c,-,rfl⟩ := hx
      exact Nat.add_le_add_right (columnSize_le_longest m shown c) 2
    simpa using List.sum_le_card_nsmul _ _ hcol
  exact hle.trans (Nat.div_mul_le_self width (longest shown+2))

/-- The columns of a listing line up. With `sizes` as the program computes them, the listing
consists of rows, each followed by a newline; a row holds for each column a colour escape, the name
in that cell, which fits, and blanks up to two more than the size of the column; and all rows are
equally wide, not wider than the terminal. -/
theorem columns_line_up (sys : System) (path : List UInt8) (flags : Flags) (entries : List Dirent)
    (hopen : sys.opendir path=some entries) (hvis : visibleEntries flags entries≠[])
    (hw : longest (visibleEntries flags entries)+2 ≤ sys.wsCol) :
    let vis := visibleEntries flags entries
    let n := colums sys.wsCol vis
    let m := rows sys.wsCol vis
    let names := (padded vis (n*m)).names
    let shown := shownEntries sys flags vis
    ∃ sizes, sizes.length=n ∧ shown.Perm vis ∧
      columnSizes names (sort sys.qsort flags names (List.range (n*m)) vis.length) n m=
        Traced.done [] sizes ∧
      (beforeLs sys path flags).events=
        .opendir path::((List.range m).flatMap fun r => rowEvents sizes m shown r++[.put (text "\n")])++
          [.put (text "\x1b[0m")]++(if n*m≠n then [.put (text "\n")] else []) ∧
      (∀ r, rowEvents sizes m shown r=(List.range n).flatMap fun c =>
        [.put (escapeOf (cellType (cellAt m shown r c))),
          .put (cellName (cellAt m shown r c)++
            List.replicate (sizes.getD c 0+2-(cellName (cellAt m shown r c)).length) 32)]) ∧
      (∀ r < m, ∀ c < n, (cellName (cellAt m shown r c)).length ≤ sizes.getD c 0) ∧
      (∀ r < m, (plain (rowEvents sizes m shown r)).length=(sizes.map (·+2)).sum) ∧
      (sizes.map (·+2)).sum ≤ sys.wsCol := by
  intro vis n m names shown
  have hshown : shown.Perm vis := shownEntries_perm sys flags vis
  have hfits : ∀ r < m, ∀ c < n, (cellName (cellAt m shown r c)).length ≤
      ((List.range n).map (columnSize m shown)).getD c 0 := by
    intro r hr c hc
    rw [getD_columnSizes m shown hc]
    exact cellName_le_columnSize hr c
  refine ⟨(List.range n).map (columnSize m shown),by simp,hshown,columnSizes_shown sys flags hvis hw,
    ?_,?_,hfits,?_,?_⟩
  · rw [beforeLs_listed hopen hvis hw]
    change .opendir path::listing sys.wsCol shown=_
    rw [listing,gridSize_perm _ hshown,colums_perm _ hshown,rows_perm _ hshown]
    simp only [rowEvents_columnSizes]
    rfl
  · intro r
    rw [rowEvents,List.length_map,List.length_range]
    rfl
  · intro r hr
    exact plain_rowEvents_length fun c hc => hfits r hr c (by simpa using hc)
  · have hle := sum_columnSizes_le sys.wsCol m shown
    rwa [colums_perm _ hshown] at hle

theorem columns_line_up_sample :
    ∃ sizes : List ℕ, sizes.length=2 ∧
      ∀ r < 1, (plain (rowEvents sizes 1 (shownEntries (terminal 9 sampleDir) defaultFlags
        (visibleEntries defaultFlags sampleDir)) r)).length=(sizes.map (·+2)).sum := by
  obtain ⟨sizes,hlen,-,-,-,-,-,hrows,-⟩ := columns_line_up (terminal 9 sampleDir) (text "d")
    defaultFlags sampleDir rfl (by decide) (by decide)
  exact ⟨sizes,hlen,hrows⟩

end Rows

end Ls
end NeOs
