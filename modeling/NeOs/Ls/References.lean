import NeOs.Ls.Listing

/-! The references that `read_dir` keeps in `dirs` while `names` grows. A reference is good as long as
no doubling of `names` lies between its own entry and the end of the padding. -/
namespace NeOs
open Library Library.Doubling
namespace Ls

/-- The pointer is into the present block of `names`, at the name of the entry. -/
def Designates (names : Slots (List UInt8)) (p : CharPtr) (e : Dirent) : Prop :=
  ∃ idx, p=.slot names.version idx ∧ names.elems[idx]?=some e.dName

/-- No doubling of `names` comes after a subdirectory has been read: there is no bound
`32 * 2^j` between its own position and the size of the grid. -/
def Steady (width : ℕ) (vis : List Dirent) : Prop :=
  ∀ i e, vis[i]?=some e → descends e=true →
    ¬Crossed dynamicDefaultCapacity (i+1) (gridSize width vis)

/-- A grid within the first block of `names` is harmless. -/
theorem steady_of_gridSize_le {width : ℕ} {vis : List Dirent}
    (h : gridSize width vis ≤ dynamicDefaultCapacity) : Steady width vis := by
  rintro i e - - ⟨j,-,hj⟩
  have hpow : 1 ≤ 2^j := Nat.one_le_two_pow
  have := Nat.mul_le_mul_left dynamicDefaultCapacity hpow
  omega

theorem filter_descends_eq (vis : List Dirent) :
    vis.filter descends=(vis.zipIdx.filter fun p => descends p.1).map Prod.fst := by
  conv_lhs => rw [← List.zipIdx_map_fst 0 vis,List.filter_map]
  rfl

theorem references_length (vis : List Dirent) :
    (references vis).length=(vis.filter descends).length := by
  rw [filter_descends_eq,references,List.length_map,List.length_map]

theorem mem_references {vis : List Dirent} {i : ℕ} {e : Dirent} (h : vis[i]?=some e)
    (hd : descends e=true) : .slot (doublings dynamicDefaultCapacity (i+1)) i ∈ references vis :=
  List.mem_map.mpr ⟨(e,i),List.mem_filter.mpr ⟨List.mk_mem_zipIdx_iff_getElem?.mpr h,hd⟩,rfl⟩

/-- The reference of the entry at position `i` survives exactly when no doubling comes after it. -/
theorem designates_iff {vis : List Dirent} {size i : ℕ} (hsize : vis.length ≤ size) {e : Dirent}
    (h : vis[i]?=some e) :
    Designates (padded vis size).names (.slot (doublings dynamicDefaultCapacity (i+1)) i) e ↔
      ¬Crossed dynamicDefaultCapacity (i+1) size := by
  obtain ⟨hi,-⟩ := List.getElem?_eq_some_iff.mp h
  have hversion : (padded vis size).names.version=doublings dynamicDefaultCapacity size := by
    simp [padded,hsize]
  rw [← doublings_eq_iff (by decide) (by omega : i+1 ≤ size)]
  constructor
  · rintro ⟨idx,hp,-⟩
    rw [hversion] at hp
    exact (CharPtr.slot.injEq _ _ _ _ ▸ hp).1
  · intro hd
    refine ⟨i,by rw [hversion,hd],?_⟩
    rw [padded_names_getElem? hsize (by omega),h]
    rfl

theorem designate_iff {vis : List Dirent} {size : ℕ} (hsize : vis.length ≤ size) :
    List.Forall₂ (Designates (padded vis size).names) (references vis) (vis.filter descends) ↔
      ∀ i e, vis[i]?=some e → descends e=true → ¬Crossed dynamicDefaultCapacity (i+1) size := by
  rw [filter_descends_eq,references,List.forall₂_map_left_iff,List.forall₂_map_right_iff,
    List.forall₂_same]
  constructor
  · intro h i e he hd
    have hmem : (e,i) ∈ vis.zipIdx.filter fun p => descends p.1 :=
      List.mem_filter.mpr ⟨List.mk_mem_zipIdx_iff_getElem?.mpr he,hd⟩
    exact (designates_iff hsize he).mp (h _ hmem)
  · rintro h ⟨e,i⟩ hp
    obtain ⟨hmem,hd⟩ := List.mem_filter.mp hp
    have he := List.mk_mem_zipIdx_iff_getElem?.mp hmem
    exact (designates_iff hsize he).mpr (h i e he hd)

/-- Whenever `print_dir` comes to call `ls`, every reference in `dirs` designates the name that it
was taken from. -/
def ReferencesCurrent (sys : System) (path : List UInt8) (flags : Flags)
    (entries : List Dirent) : Prop :=
  ∀ l, (beforeLs sys path flags).result=.ok (some l) →
    List.Forall₂ (Designates l.names) l.dirs.elems
      ((visibleEntries flags entries).filter descends)

/-- What `print_dir` hands to `ls`. -/
theorem beforeLs_call_iff {sys : System} {path : List UInt8} {flags : Flags}
    {entries : List Dirent} (hrec : flags.recursive=true) (hopen : sys.opendir path=some entries)
    (hw : longest (visibleEntries flags entries)+2 ≤ sys.wsCol) (l : Locals) :
    (beforeLs sys path flags).result=.ok (some l) ↔
      (visibleEntries flags entries).filter descends≠[] ∧
        l=padded (visibleEntries flags entries)
          (gridSize sys.wsCol (visibleEntries flags entries)) := by
  by_cases hvis : visibleEntries flags entries=[]
  · rw [beforeLs_empty hopen hvis,hvis]
    simp [Traced.done]
  · rw [beforeLs_listed hopen hvis hw,Traced.done,references_length]
    by_cases hdirs : (visibleEntries flags entries).filter descends=[]
    · simp [hdirs]
    · have hpos := List.length_pos_iff.mpr hdirs
      rw [if_pos ⟨hrec,hpos⟩]
      simp only [Except.ok.injEq,Option.some.injEq,ne_eq,hdirs,not_false_eq_true,true_and]
      exact eq_comm

/-- The references are current exactly when the directory is steady. -/
theorem referencesCurrent_iff (sys : System) (path : List UInt8) (flags : Flags)
    (entries : List Dirent) (hrec : flags.recursive=true) (hopen : sys.opendir path=some entries)
    (hw : longest (visibleEntries flags entries)+2 ≤ sys.wsCol) :
    ReferencesCurrent sys path flags entries ↔
      Steady sys.wsCol (visibleEntries flags entries) := by
  have hsize := length_le_gridSize hw
  have hdesignate := designate_iff hsize
  constructor
  · intro h i e he hd
    have hdirs : (visibleEntries flags entries).filter descends≠[] :=
      List.ne_nil_of_mem (List.mem_filter.mpr ⟨List.mem_of_getElem? he,hd⟩)
    exact hdesignate.mp (h _ ((beforeLs_call_iff hrec hopen hw _).mpr ⟨hdirs,rfl⟩)) i e he hd
  · intro h l hl
    obtain ⟨-,rfl⟩ := (beforeLs_call_iff hrec hopen hw l).mp hl
    exact hdesignate.mpr h

/-- The flags of a recursive listing. -/
def recursiveFlags : Flags := { defaultFlags with recursive := true }

theorem referencesCurrent_sample :
    ReferencesCurrent (terminal 9 sampleDir) (text "d") recursiveFlags sampleDir :=
  (referencesCurrent_iff (terminal 9 sampleDir) (text "d") recursiveFlags sampleDir rfl rfl
    (by decide)).mpr (steady_of_gridSize_le (by decide))

/-- The entry of a subdirectory, and a directory with nothing else in it. -/
def subdirEntry : Dirent := ⟨text "s",dtDir,21,by decide,by decide⟩

def oneSubdir : List Dirent := [subdirEntry]

/-- A terminal of 160 columns has room for 53 cells of three bytes: the padding moves `names` away
from the reference of the only entry. -/
theorem references_stale_after_padding :
    longest (visibleEntries recursiveFlags oneSubdir)+2 ≤ (terminal 160 oneSubdir).wsCol ∧
      ¬ReferencesCurrent (terminal 160 oneSubdir) (text "d") recursiveFlags oneSubdir := by
  have hw : longest (visibleEntries recursiveFlags oneSubdir)+2 ≤ (terminal 160 oneSubdir).wsCol := by
    decide
  refine ⟨hw,fun h => ?_⟩
  have hcall := h _ ((beforeLs_call_iff rfl rfl hw _).mpr ⟨by decide,rfl⟩)
  rw [padded_dirs,Slots.filled_elems,designate_iff (length_le_gridSize hw)] at hcall
  exact hcall 0 _ rfl (by decide) ⟨0,by decide,by decide⟩

end Ls
end NeOs
