import NeOs.Ls.References
import NeOs.Ls.Tree

/-! Everything that a recursive listing emits. While the references on its way are current, the
output of `ls` and `print_dir` is a function of the tree: each directory is listed, followed by what
`ls` emits for the subdirectories it goes into. -/
namespace NeOs
open Library
namespace Ls

section Output

/-- The line that `ls` begins with. -/
def countLine (n : ℕ) : Event := .put (text "count = "++decimal n++text "\n")

def heading (path : List UInt8) : Event := .put (path++text ":\n")

/-- One of several directories, given by its path and by what `print_dir` emits for it. -/
def headed (t : List UInt8 × List Event) : List Event := heading t.1::(t.2++[.put (text "\n")])

/-- What `ls` emits. A single directory has no heading. -/
def lsOutput : List (List UInt8 × List Event) → List Event
  | [] => []
  | [t] => countLine 1::t.2
  | t::u::ts => countLine (ts.length+2)::(t::u::ts).flatMap headed

variable {sys : System} {print : List UInt8 → Exec ℤ} {path : List UInt8}
  {names : Slots (List UInt8)} {T : List UInt8 → List Event}

/-- The loop over several directories, if every pointer and every listing is in order. -/
theorem lsEach_done {ps : List CharPtr} {strs : List (List UInt8)}
    (hd : List.Forall₂ (fun p s => deref names p=Traced.done [] s) ps strs)
    (hp : ∀ s ∈ strs, print (concatPath sys.stray path s)=Traced.done (T s) 0) :
    lsEach sys print path names ps=
      Traced.done ((strs.map fun s => (concatPath sys.stray path s,T s)).flatMap headed) 0 := by
  induction hd with
  | nil => rfl
  | @cons p s ps strs hp0 _ ih =>
    have hrest := ih fun t ht => hp t (by simp [ht])
    rw [lsEach,hp0,Traced.done_nil_bind,List.map_cons,List.flatMap_cons,headed,
      List.cons_append,← List.singleton_append,List.append_assoc]
    apply Traced.done_bind_done
    rw [hp s (by simp)]
    apply Traced.done_bind_done
    exact Traced.done_bind_done hrest

theorem withDefault_ne_nil (dirs : Slots CharPtr) : (withDefault dirs).elems≠[] := by
  unfold withDefault
  split_ifs with h
  · unfold Slots.insert
    split_ifs <;> simp
  · exact fun h0 => h (List.length_eq_zero_iff.mpr h0)

variable (sys print path T) in
/-- `ls`, if every pointer and every listing is in order. -/
theorem lsBody_done {flags : Flags} {dirs : Slots CharPtr} {strs : List (List UInt8)}
    (hlist : flags.list=false)
    (hd : List.Forall₂ (fun p s => deref names p=Traced.done [] s) (withDefault dirs).elems strs)
    (hp : ∀ s ∈ strs, print (concatPath sys.stray path s)=Traced.done (T s) 0) :
    lsBody sys print path names dirs flags=
      Traced.done (lsOutput (strs.map fun s => (concatPath sys.stray path s,T s))) 0 := by
  have hno : ¬flags.list=true := by simp [hlist]
  have hne := withDefault_ne_nil dirs
  have hlen : (withDefault dirs).length=(withDefault dirs).elems.length := rfl
  rw [lsBody,if_neg hno]
  simp only [hlen]
  generalize (withDefault dirs).elems=ps at hd hne
  match ps,strs,hd with
  | [],_,_ => exact absurd rfl hne
  | [p],[s],.cons hp0 .nil =>
    apply Traced.done_bind_done
    change (deref names p >>= _)=_
    rw [hp0,Traced.done_nil_bind,hp s (by simp)]
    exact Traced.done_bind_pure rfl
  | p::q::ps,s::t::strs,hd =>
    have hcount : (p::q::ps).length=(strs.map fun s => (concatPath sys.stray path s,T s)).length+2 := by
      rw [hd.length_eq]
      simp
    rw [hcount]
    exact Traced.done_bind_done (lsEach_done hd hp)

end Output

section References

theorem deref_of_designates {names : Slots (List UInt8)} {p : CharPtr} {e : Dirent}
    (h : Designates names p e) : deref names p=Traced.done [] e.dName := by
  obtain ⟨idx,rfl,he⟩ := h
  rw [deref,if_pos rfl]
  exact index_done he

/-- The entries that the recursion descends into are visible under all flags. -/
theorem filter_descends_visible (flags : Flags) (entries : List Dirent) :
    (visibleEntries flags entries).filter descends=entries.filter descends := by
  rw [visibleEntries,List.filter_filter]
  apply List.filter_congr
  intro e _
  have himp : descends e=true → visible flags e=true := by
    simp only [descends,visible,decide_eq_true_eq]
    exact fun h => Or.inl h.2
  cases hd : descends e with
  | false => rfl
  | true => rw [himp hd,Bool.and_self]

variable (width : ℕ) (flags : Flags)

/-- The terminal is wide enough for the names that a directory shows. -/
def Fits (c : Contents) : Prop := longest (visibleEntries flags c.entries)+2 ≤ width

/-- The references into a directory stay current. -/
def Calm (c : Contents) : Prop := Steady width (visibleEntries flags c.entries)

/-- The terminal holds what the directory shows, if anything, and the references into it stay
current. -/
structure Regular (c : Contents) : Prop where
  fits : visibleEntries flags c.entries≠[] → Fits width flags c
  calm : Calm width flags c

variable {width flags}

/-- A directory whose grid stays within the first block of `names`. -/
theorem Regular.of_small {c : Contents} (hfit : longest (visibleEntries flags c.entries)+2 ≤ width)
    (hsize : gridSize width (visibleEntries flags c.entries) ≤ dynamicDefaultCapacity) :
    Regular width flags c :=
  ⟨fun _ => hfit,steady_of_gridSize_le hsize⟩

variable (flags) in
theorem references_length_eq (c : Contents) :
    (references (visibleEntries flags c.entries)).length=c.listed.length := by
  rw [references_length,filter_descends_visible,c.filter_descends_entries,List.length_map]

theorem references_ne_nil {c : Contents} (hc : c.listed≠[]) :
    references (visibleEntries flags c.entries)≠[] := by
  rw [← List.length_pos_iff,references_length_eq flags]
  exact List.length_pos_iff.mpr hc

variable (flags) in
theorem visibleEntries_ne_nil {c : Contents} (hc : c.listed≠[]) :
    visibleEntries flags c.entries≠[] := by
  intro hnil
  have hrefs : references (visibleEntries flags c.entries)=[] := by
    rw [hnil]
    rfl
  exact references_ne_nil hc hrefs

theorem withDefault_filled {ps : List CharPtr} (hps : ps≠[]) (n : ℕ) :
    withDefault (Slots.filled n ps)=Slots.filled n ps :=
  if_neg (by simpa using hps)

/-- The pointers of a regular directory read the names of its listed subdirectories. -/
theorem deref_references {c : Contents} (hreg : Regular width flags c) (hc : c.listed≠[]) :
    List.Forall₂ (fun p s =>
      deref (padded (visibleEntries flags c.entries)
        (gridSize width (visibleEntries flags c.entries))).names p=Traced.done [] s)
      (references (visibleEntries flags c.entries)) (c.listed.map fun s => s.1.name) := by
  have hfit := hreg.fits (visibleEntries_ne_nil flags hc)
  have hd := (designate_iff (length_le_gridSize hfit)).mpr hreg.calm
  rw [filter_descends_visible,c.filter_descends_entries,List.forall₂_map_right_iff] at hd
  rw [List.forall₂_map_right_iff]
  exact hd.imp fun _ _ h => deref_of_designates h

end References

section Tree
variable (sys : System) (flags : Flags)

/-- What `print_dir` emits before it calls `ls`. -/
def ownEvents (path : List UInt8) : List Event := (beforeLs sys path flags).events

theorem listing_puts (width : ℕ) (shown : List Dirent) :
    ∀ ev ∈ listing width shown, ∃ bytes, ev=.put bytes := by
  intro ev hev
  simp only [listing,gridEvents,cellEvents,List.mem_append,List.mem_flatMap,List.mem_cons,
    List.not_mem_nil,or_false] at hev
  rcases hev with (⟨_,_,⟨_,_,h | h⟩ | h⟩ | h) | h
  · exact ⟨_,h⟩
  · exact ⟨_,h⟩
  · exact ⟨_,h⟩
  · exact ⟨_,h⟩
  · split_ifs at h
    · exact ⟨_,by simpa using h⟩
    · cases h

/-- `print_dir` opens the directory first, and emits nothing but output after that. -/
theorem ownEvents_eq (path : List UInt8) :
    ∃ tail, ownEvents sys flags path=.opendir path::tail ∧ ∀ ev ∈ tail, ∃ bytes, ev=.put bytes := by
  cases hopen : sys.opendir path with
  | none => exact ⟨[],by rw [ownEvents,beforeLs_unopenable hopen]; rfl,by simp⟩
  | some entries =>
    by_cases hvis : visibleEntries flags entries=[]
    · exact ⟨[],by rw [ownEvents,beforeLs_empty hopen hvis]; rfl,by simp⟩
    · by_cases hw : longest (visibleEntries flags entries)+2 ≤ sys.wsCol
      · exact ⟨_,by rw [ownEvents,beforeLs_listed hopen hvis hw]; rfl,listing_puts _ _⟩
      · exact ⟨[],by rw [ownEvents,beforeLs_narrow hopen hvis (by omega)],by simp⟩

/-- The subdirectories that a traversal goes into: the path of each, and what `print_dir` emits for
it. -/
def Contents.traces : Contents → List UInt8 → List (List UInt8 × List Event)
  | nil,_ => []
  | other _ _ rest,path => rest.traces path
  | locked d rest,path =>
    (if d.hidden then [] else
      [(concatPath sys.stray path d.name,ownEvents sys flags (concatPath sys.stray path d.name))])++
      rest.traces path
  | subdir d sub rest,path =>
    (if d.hidden then [] else
      [(concatPath sys.stray path d.name,ownEvents sys flags (concatPath sys.stray path d.name)++
        lsOutput (sub.traces (concatPath sys.stray path d.name)))])++
      rest.traces path

theorem Contents.traces_eq (c : Contents) (path : List UInt8) :
    c.traces sys flags path=c.listed.map fun s =>
      (concatPath sys.stray path s.1.name,
        ownEvents sys flags (concatPath sys.stray path s.1.name)++
          lsOutput (s.2.elim [] fun sub =>
            sub.traces sys flags (concatPath sys.stray path s.1.name))) := by
  induction c with
  | nil => rfl
  | other e h rest ih => exact ih
  | locked d rest ih => cases hh : d.hidden <;> simp [traces,listed,subdirs,hh,ih,lsOutput]
  | subdir d sub rest _ ih => cases hh : d.hidden <;> simp [traces,listed,subdirs,hh,ih]

end Tree

section Run
variable (fs : FileSystem) (width : ℕ) (qsort : Sorter ℕ) (stray : UInt8) (flags : Flags)

/-- What `print_dir` emits on a path of the file system. -/
def FileSystem.trace (path : List UInt8) : List Event :=
  ownEvents (fs.system width qsort stray) flags path++
    lsOutput ((fs.lookup path).elim [] fun c =>
      c.traces (fs.system width qsort stray) flags path)

theorem trace_unopenable {path : List UInt8} (h : fs.lookup path=none) :
    fs.trace width qsort stray flags path=[.opendir path] := by
  have hopen : (fs.system width qsort stray).opendir path=none := by
    simp [FileSystem.system,h]
  rw [FileSystem.trace,h,ownEvents,beforeLs_unopenable hopen]
  rfl

/-- A directory, then the traces of the subdirectories that the traversal goes into. -/
theorem trace_eq {path : List UInt8} {c : Contents} (h : fs.lookup path=some c) :
    fs.trace width qsort stray flags path=ownEvents (fs.system width qsort stray) flags path++
      lsOutput ((c.listed.map fun s => s.1.name).map fun n =>
        (concatPath stray path n,fs.trace width qsort stray flags (concatPath stray path n))) := by
  rw [FileSystem.trace,h,Option.elim_some,c.traces_eq,List.map_map]
  congr 2
  apply List.map_congr_left
  rintro ⟨d,s⟩ hs
  have hlookup := fs.lookup_concatPath stray h (List.mem_filter.mp hs).1
  simp only [Function.comp_apply,FileSystem.trace,hlookup]
  rfl

theorem printDir_unopenable (ls : LsCall) {path : List UInt8} (h : fs.lookup path=none) :
    printDir (fs.system width qsort stray) ls path flags=
      Traced.done (fs.trace width qsort stray flags path) 0 := by
  have hopen : (fs.system width qsort stray).opendir path=none := by
    simp [FileSystem.system,h]
  rw [printDir,beforeLs_unopenable hopen,trace_unopenable fs width qsort stray flags h]
  exact Traced.done_bind_pure rfl

variable {fs width flags}

section Directory
variable {path : List UInt8} {c : Contents} (h : fs.lookup path=some c)
  (hreg : Regular width flags c)
include h hreg

/-- A directory without subdirectories to go into is listed, and `ls` is not called. -/
theorem beforeLs_leaf (hc : c.listed=[]) :
    beforeLs (fs.system width qsort stray) path flags=
      Traced.done (ownEvents (fs.system width qsort stray) flags path) none := by
  have hopen : (fs.system width qsort stray).opendir path=some c.entries := by
    simp [FileSystem.system,h]
  by_cases hvis : visibleEntries flags c.entries=[]
  · rw [ownEvents,beforeLs_empty hopen hvis]
    rfl
  · have hbefore := beforeLs_listed hopen hvis (hreg.fits hvis)
    rw [if_neg (by simp [references_length_eq,hc])] at hbefore
    rw [ownEvents,hbefore]
    rfl

/-- Otherwise `ls` is called with the references to them. -/
theorem beforeLs_inner (hrec : flags.recursive=true) (hc : c.listed≠[]) :
    beforeLs (fs.system width qsort stray) path flags=
      Traced.done (ownEvents (fs.system width qsort stray) flags path)
        (some (padded (visibleEntries flags c.entries)
          (gridSize width (visibleEntries flags c.entries)))) := by
  have hopen : (fs.system width qsort stray).opendir path=some c.entries := by
    simp [FileSystem.system,h]
  have hpos : (references (visibleEntries flags c.entries)).length > 0 :=
    List.length_pos_iff.mpr (references_ne_nil hc)
  have hvis := visibleEntries_ne_nil flags hc
  have hbefore := beforeLs_listed hopen hvis (hreg.fits hvis)
  rw [if_pos ⟨hrec,hpos⟩] at hbefore
  rw [ownEvents,hbefore]
  rfl

end Directory

/-- One level of the recursion: if the listed subdirectories of a regular directory emit their traces
with some fuel, then so does the directory with one more. -/
theorem printDir_step (hrec : flags.recursive=true) (hlist : flags.list=false) {c : Contents}
    (hreg : Regular width flags c) {path : List UInt8} (h : fs.lookup path=some c) {fuel : ℕ}
    (hsubs : ∀ n ∈ c.listed.map fun s => s.1.name,
      printDir (fs.system width qsort stray) (ls (fs.system width qsort stray) fuel)
        (concatPath stray path n) flags=
          Traced.done (fs.trace width qsort stray flags (concatPath stray path n)) 0) :
    printDir (fs.system width qsort stray) (ls (fs.system width qsort stray) (fuel+1)) path flags=
      Traced.done (fs.trace width qsort stray flags path) 0 := by
  rw [trace_eq fs width qsort stray flags h]
  by_cases hc : c.listed=[]
  · rw [printDir,beforeLs_leaf qsort stray h hreg hc,hc]
    exact Traced.done_bind_done rfl
  · have hd := deref_references hreg hc
    rw [← Slots.filled_elems dynamicDefaultCapacity (references _),
      ← withDefault_filled (references_ne_nil hc),← padded_dirs] at hd
    have hls := lsBody_done (fs.system width qsort stray)
      (fun fullPath => printDir _ (ls _ fuel) fullPath flags) path
      (fun n => fs.trace width qsort stray flags (concatPath stray path n)) hlist hd hsubs
    rw [printDir,beforeLs_inner qsort stray h hreg hrec hc]
    apply Traced.done_bind_done
    simp only [ls]
    rw [hls]
    exact Traced.done_bind_pure rfl

/-- With enough fuel a tree of regular directories emits its trace. -/
theorem printDir_trace (hrec : flags.recursive=true) (hlist : flags.list=false) (c : Contents) :
    c.Deep (Regular width flags) → ∀ path, fs.lookup path=some c →
      ∀ᶠ fuel in Filter.atTop, printDir (fs.system width qsort stray)
        (ls (fs.system width qsort stray) fuel) path flags=
          Traced.done (fs.trace width qsort stray flags path) 0 := by
  induction c using Contents.listed_induction with
  | h c ih =>
    rintro ⟨_,hreg,hregs⟩ path h
    have hsubs : ∀ᶠ fuel in Filter.atTop, ∀ n ∈ {n | n ∈ c.listed.map fun s => s.1.name},
        printDir (fs.system width qsort stray) (ls (fs.system width qsort stray) fuel)
          (concatPath stray path n) flags=
            Traced.done (fs.trace width qsort stray flags (concatPath stray path n)) 0 := by
      rw [Filter.eventually_all_finite (List.finite_toSet _)]
      intro n hn
      obtain ⟨⟨d,s⟩,hs,rfl⟩ := List.mem_map.mp hn
      have hlookup := fs.lookup_concatPath stray h (List.mem_filter.mp hs).1
      cases s with
      | none =>
        exact Filter.Eventually.of_forall fun fuel =>
          printDir_unopenable fs width qsort stray flags _ hlookup
      | some sub => exact ih d sub hs (hregs d sub hs) _ hlookup
    obtain ⟨N,hN⟩ := Filter.eventually_atTop.mp hsubs
    refine Filter.eventually_atTop.mpr ⟨N+1,fun fuel hfuel => ?_⟩
    obtain ⟨fuel,rfl⟩ := Nat.exists_eq_add_of_le' (by omega : 1 ≤ fuel)
    exact printDir_step qsort stray hrec hlist hreg h (hN fuel (by omega))

/-- The operands; an empty list stands for the working directory. -/
def operandsOrDot (operands : List (List UInt8)) : List (List UInt8) :=
  if operands=[] then [text "."] else operands

theorem withDefault_operands (operands : List (List UInt8)) :
    (withDefault ((operands.map CharPtr.string).foldl Slots.insert (Slots.new 0))).elems=
      (operandsOrDot operands).map CharPtr.string := by
  rw [Slots.new_eq_filled,Slots.foldl_insert_filled,List.nil_append,operandsOrDot]
  split_ifs with h
  · rw [h]
    rfl
  · rw [withDefault_filled (by simpa using h),Slots.filled_elems]

/-- The operands are read as they are. -/
theorem deref_operands (names : Slots (List UInt8)) (operands : List (List UInt8)) :
    List.Forall₂ (fun p s => deref names p=Traced.done [] s)
      (withDefault ((operands.map CharPtr.string).foldl Slots.insert (Slots.new 0))).elems
      (operandsOrDot operands) := by
  rw [withDefault_operands,List.forall₂_map_left_iff,List.forall₂_same]
  intro p _
  rfl

/-- The operands of `main` are printed one after the other. -/
theorem lsMain_trace (hrec : flags.recursive=true) (hlist : flags.list=false)
    {operands : List (List UInt8)}
    (hreg : ∀ p ∈ operandsOrDot operands, ∀ c, fs.lookup p=some c →
      c.Deep (Regular width flags)) :
    ∃ depth, ∀ fuel ≥ depth,
      lsMain (fs.system width qsort stray) (fuel+1) operands flags=
        Traced.done (lsOutput ((operandsOrDot operands).map fun p =>
          (p,fs.trace width qsort stray flags p))) 0 ∧
      ∀ p ∈ operandsOrDot operands,
        printDir (fs.system width qsort stray) (ls (fs.system width qsort stray) fuel) p flags=
          Traced.done (fs.trace width qsort stray flags p) 0 := by
  have hops : ∀ᶠ fuel in Filter.atTop, ∀ p ∈ {p | p ∈ operandsOrDot operands},
      printDir (fs.system width qsort stray) (ls (fs.system width qsort stray) fuel) p flags=
        Traced.done (fs.trace width qsort stray flags p) 0 := by
    rw [Filter.eventually_all_finite (List.finite_toSet _)]
    intro p hp
    cases hc : fs.lookup p with
    | none =>
      exact Filter.Eventually.of_forall fun fuel =>
        printDir_unopenable fs width qsort stray flags _ hc
    | some c => exact printDir_trace qsort stray hrec hlist c (hreg p hp c hc) p hc
  obtain ⟨depth,hdepth⟩ := Filter.eventually_atTop.mp hops
  refine ⟨depth,fun fuel hfuel => ⟨?_,hdepth fuel hfuel⟩⟩
  simp only [lsMain,ls]
  have hls := lsBody_done (fs.system width qsort stray)
    (fun fullPath => printDir _ (ls _ fuel) fullPath flags) []
    (fun p => fs.trace width qsort stray flags p) hlist (deref_operands (Slots.new 0) operands)
    (fun p hp => by rw [concatPath_nil]; exact hdepth fuel hfuel p hp)
  simpa only [concatPath_nil] using hls

end Run

end Ls
end NeOs
