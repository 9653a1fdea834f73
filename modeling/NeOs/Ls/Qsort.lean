import NeOs.Libc.InBytes.Qsort
import NeOs.Ls.Options

/-! `ls` with the `qsort_r` it is linked to. In directories without two entries of one name the
listing does not depend on the sorting function, and so not on the memory that `qsort_r` finds. -/
namespace NeOs
open Library
namespace Ls

/-- No directory has two entries of one name. -/
def DistinctNames (sys : System) : Prop :=
  ∀ path entries, sys.opendir path=some entries → (entries.map Dirent.dName).Nodup

theorem InChosenOrder.eq {flags : Flags} {entries shown shown' : List Dirent}
    (h : InChosenOrder flags entries shown) (h' : InChosenOrder flags entries shown') :
    shown=shown' := by
  by_cases hs : flags.sort=.none
  · unfold InChosenOrder at h h'
    rw [hs] at h h'
    exact h.trans h'.symm
  · exact h.unique hs (.refl _) h'

/-- Two systems that differ at most in their sorting functions. -/
structure SameButQsort (sys sys' : System) : Prop where
  opendir : sys'.opendir=sys.opendir
  wsCol : sys'.wsCol=sys.wsCol
  stray : sys'.stray=sys.stray

theorem shownEntries_qsort (sys sys' : System) (flags : Flags) {vis : List Dirent} (hd : (vis.map Dirent.dName).Nodup) :
    shownEntries sys' flags vis=shownEntries sys flags vis :=
  (shownEntries_order sys' flags hd).eq (shownEntries_order sys flags hd)

section Sorters
variable {sys sys' : System} (hs : SameButQsort sys sys')
include hs

theorem beforeLs_qsort (hd : DistinctNames sys) (path : List UInt8) (flags : Flags) :
    beforeLs sys' path flags=beforeLs sys path flags := by
  cases hopen : sys.opendir path with
  | none => rw [beforeLs_unopenable hopen,beforeLs_unopenable (hs.opendir ▸ hopen)]
  | some entries =>
    have hopen' : sys'.opendir path=some entries := hs.opendir ▸ hopen
    by_cases hvis : visibleEntries flags entries=[]
    · rw [beforeLs_empty hopen hvis,beforeLs_empty hopen' hvis]
    · rcases Nat.lt_or_ge sys.wsCol (longest (visibleEntries flags entries)+2) with hw | hw
      · rw [beforeLs_narrow hopen hvis hw,beforeLs_narrow hopen' hvis (hs.wsCol ▸ hw)]
      · have hd' : ((visibleEntries flags entries).map Dirent.dName).Nodup :=
          (List.filter_sublist.map _).nodup (hd path entries hopen)
        rw [beforeLs_listed hopen hvis hw,beforeLs_listed hopen' hvis (hs.wsCol.symm ▸ hw),
          shownEntries_qsort sys sys' flags hd',hs.wsCol]

theorem lsEach_qsort (print : List UInt8 → Exec ℤ) (path : List UInt8)
    (names : Slots (List UInt8)) (ps : List CharPtr) :
    lsEach sys' print path names ps=lsEach sys print path names ps := by
  induction ps with
  | nil => rfl
  | cons p ps ih => simp only [lsEach,ih,hs.stray]

theorem lsBody_qsort (print : List UInt8 → Exec ℤ) (path : List UInt8)
    (names : Slots (List UInt8)) (dirs : Slots CharPtr) (flags : Flags) :
    lsBody sys' print path names dirs flags=lsBody sys print path names dirs flags := by
  simp only [lsBody,lsEach_qsort hs,hs.stray]

theorem ls_qsort (hd : DistinctNames sys) (fuel : ℕ) : ls sys' fuel=ls sys fuel := by
  induction fuel with
  | zero => rfl
  | succ fuel ih =>
    funext path names dirs flags
    simp only [ls,ih,printDir,beforeLs_qsort hs hd,lsBody_qsort hs]

/-- A whole run of `ls` is the same with any two sorting functions. -/
theorem main_qsort (hd : DistinctNames sys) (fuel : ℕ) (argv : List (List UInt8)) :
    main sys' fuel argv=main sys fuel argv := by
  unfold main listParsed
  rw [ls_qsort hs hd]

end Sorters

/-- `ls` with the `qsort_r` of the C library does what it does with any sorting function, whether
or not `qsort_r` finds memory for a buffer. It may find it in some of its calls and not in others,
depending on the comparison and the elements. -/
theorem main_memory_irrelevant {sys : System} (hd : DistinctNames sys)
    (calls : ∀ (_ : ℕ → ℕ → ℤ) (map : List ℕ), Libc.Call map.length 8) (Q : Sorter ℕ) (fuel : ℕ) (argv : List (List UInt8)) :
    main { sys with qsort := Libc.sorter 8 calls } fuel argv=main { sys with qsort := Q } fuel argv := by
  have hs : SameButQsort { sys with qsort := Q } { sys with qsort := Libc.sorter 8 calls } :=
    ⟨rfl,rfl,rfl⟩
  exact main_qsort hs hd fuel argv

theorem main_memory_irrelevant_sample :
    main { terminal 9 sampleDir with
        qsort := Libc.sorter 8 fun _ map => Libc.Call.noMemory map.length (by decide) } 2 [text "ls",text "d"]=
      main { terminal 9 sampleDir with qsort := Sorter.insertion } 2 [text "ls",text "d"] := by
  apply @main_memory_irrelevant (terminal 9 sampleDir)
  intro path entries h
  simp only [terminal,Option.ite_none_right_eq_some] at h
  rw [← Option.some.inj h.2]
  decide

/-- The same when the vector `map` is sorted in memory, on the bytes of its numbers. -/
theorem main_bytes_irrelevant {sys : System} (hd : DistinctNames sys)
    (calls : ∀ (_ : ℕ → ℕ → ℤ) (map : List ℕ), Libc.InBytes.Storable map →
      Libc.InBytes.Call map.length 8 × Libc.InBytes.Memory)
    (Q : Sorter ℕ) (fuel : ℕ) (argv : List (List UInt8)) :
    main { sys with qsort := Libc.InBytes.sorter calls } fuel argv=
      main { sys with qsort := Q } fuel argv := by
  have hs : SameButQsort { sys with qsort := Q }
      { sys with qsort := Libc.InBytes.sorter calls } := ⟨rfl,rfl,rfl⟩
  exact main_qsort hs hd fuel argv

end Ls
end NeOs
