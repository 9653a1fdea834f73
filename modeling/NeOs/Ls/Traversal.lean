import NeOs.Ls.Trace

/-! The recursion of `ls` and `print_dir` over a tree of directories. It opens the directories in
pre-order exactly when all the references on its way are current. -/
namespace NeOs
open Library
namespace Ls

/-- The components of the paths handed to `opendir`. -/
def opened (events : List Event) : List (List (List UInt8)) :=
  events.filterMap fun
    | .opendir path => some (comps path)
    | .put _ => none

@[simp] theorem opened_nil : opened []=[] := rfl

@[simp] theorem opened_append (es es' : List Event) : opened (es++es')=opened es++opened es' :=
  List.filterMap_append

@[simp] theorem opened_put (bytes : List UInt8) (es : List Event) :
    opened (.put bytes::es)=opened es := rfl

@[simp] theorem opened_opendir (path : List UInt8) (es : List Event) :
    opened (.opendir path::es)=comps path::opened es := rfl

theorem opened_of_puts {es : List Event} (h : ∀ ev ∈ es, ∃ bytes, ev=.put bytes) : opened es=[] := by
  rw [opened,List.filterMap_eq_nil_iff]
  intro ev hev
  obtain ⟨bytes,rfl⟩ := h ev hev
  rfl

@[simp] theorem opened_ownEvents (sys : System) (flags : Flags) (path : List UInt8) :
    opened (ownEvents sys flags path)=[comps path] := by
  obtain ⟨tail,heq,hputs⟩ := ownEvents_eq sys flags path
  rw [heq,opened_opendir,opened_of_puts hputs]

@[simp] theorem opened_headed (t : List UInt8 × List Event) : opened (headed t)=opened t.2 := by
  simp [headed,heading]

theorem opened_flatMap {α : Type} (l : List α) (f : α → List Event) :
    opened (l.flatMap f)=l.flatMap fun a => opened (f a) := List.filterMap_flatMap

/-- `ls` opens what its calls of `print_dir` open. -/
theorem opened_lsOutput (ts : List (List UInt8 × List Event)) :
    opened (lsOutput ts)=ts.flatMap fun t => opened t.2 := by
  match ts with
  | [] => rfl
  | [t] => simp [lsOutput,countLine]
  | t::u::ts => simp [lsOutput,countLine,opened_flatMap]

/-- The run returns `0` and opens these directories. -/
def Opens (x : Exec ℤ) (dirs : List (List (List UInt8))) : Prop :=
  ∃ es, x=Traced.done es 0 ∧ opened es=dirs

section Loop
variable {sys : System} {print : List UInt8 → Exec ℤ} {path : List UInt8}
  {names : Slots (List UInt8)}

/-- A call that is followed by a test of its result ends well only with `0`. -/
theorem err_eq_zero {err e : ℤ} {x : Exec ℤ} (he : e=0 → err=0)
    (h : (if err≠0 then pure e else x).result=.ok 0) : err=0 ∧ x.result=.ok 0 := by
  by_cases hne : err≠0
  · rw [if_pos hne] at h
    exact absurd (he (Except.ok.inj h)) hne
  · rw [if_neg hne] at h
    exact ⟨not_not.mp hne,h⟩

/-- The loop ends well only if every pointer and every listing is in order. -/
theorem lsEach_ok {ps : List CharPtr} (h : (lsEach sys print path names ps).result=.ok 0) :
    ∀ p ∈ ps, ∃ s, (deref names p).result=.ok s ∧
      (print (concatPath sys.stray path s)).result=.ok 0 := by
  induction ps with
  | nil => simp
  | cons p ps ih =>
    obtain ⟨s,hs,h,-⟩ := Traced.bind_ok h
    obtain ⟨_,-,h,-⟩ := Traced.bind_ok h
    obtain ⟨err,herr,h,-⟩ := Traced.bind_ok h
    obtain ⟨rfl,h⟩ := err_eq_zero id h
    obtain ⟨_,-,h,-⟩ := Traced.bind_ok h
    intro q hq
    rcases List.mem_cons.mp hq with rfl | hq
    · exact ⟨s,hs,herr⟩
    · exact ih h q hq

theorem lsBody_ok {flags : Flags} {dirs : Slots CharPtr} (hlist : flags.list=false)
    (h : (lsBody sys print path names dirs flags).result=.ok 0) :
    ∀ p ∈ (withDefault dirs).elems, ∃ s, (deref names p).result=.ok s ∧
      (print (concatPath sys.stray path s)).result=.ok 0 := by
  have hno : ¬flags.list=true := by simp [hlist]
  rw [lsBody,if_neg hno] at h
  obtain ⟨_,-,h,-⟩ := Traced.bind_ok h
  generalize (withDefault dirs).elems=ps at h
  rcases ps with _ | ⟨p,_ | ⟨q,ps⟩⟩
  · simp
  · obtain ⟨s,hs,h,-⟩ := Traced.bind_ok h
    obtain ⟨err,herr,h,-⟩ := Traced.bind_ok h
    obtain ⟨rfl,-⟩ := err_eq_zero id h
    intro q hq
    rw [List.mem_singleton.mp hq]
    exact ⟨s,hs,herr⟩
  · exact lsEach_ok h

end Loop

theorem designates_of_deref {names : Slots (List UInt8)} {version idx : ℕ} {s : List UInt8}
    {e : Dirent} (h : (deref names (.slot version idx)).result=.ok s)
    (he : names.elems[idx]?=some e.dName) : Designates names (.slot version idx) e := by
  refine ⟨idx,?_,he⟩
  by_contra hne
  rw [deref,if_neg fun hv => hne (by rw [hv])] at h
  cases h

section Tree
variable (fs : FileSystem) (width : ℕ) (qsort : Sorter ℕ) (stray : UInt8) (flags : Flags)

/-- A traversal is the directory itself, then the traversals of its listed subdirectories. -/
theorem traversal_eq {path : List UInt8} {c : Contents} (h : fs.lookup path=some c) :
    fs.traversal path=comps path::
      (c.listed.map fun s => s.1.name).flatMap fun n => fs.traversal (concatPath stray path n) := by
  rw [FileSystem.traversal,h,Option.elim_some,c.visits_eq,List.map_flatMap,List.flatMap_map]
  congr 1
  apply List.flatMap_congr
  rintro ⟨d,s⟩ hs
  have hlookup := fs.lookup_concatPath stray h (List.mem_filter.mp hs).1
  rw [FileSystem.traversal,hlookup,comps_concatPath,d.comps_name]
  simp

/-- The trace opens the directories in pre-order. -/
theorem opened_trace (path : List UInt8) :
    opened (fs.trace width qsort stray flags path)=fs.traversal path := by
  induction path using fs.path_induction stray with
  | unopenable path h =>
    rw [trace_unopenable fs width qsort stray flags h,FileSystem.traversal,h]
    rfl
  | openable path c h ih =>
    rw [trace_eq fs width qsort stray flags h,traversal_eq fs stray h,opened_append,
      opened_ownEvents,opened_lsOutput,List.flatMap_map,List.singleton_append]
    congr 1
    apply List.flatMap_congr
    intro n hn
    obtain ⟨⟨d,s⟩,hs,rfl⟩ := List.mem_map.mp hn
    exact ih d s hs

variable {fs width flags}

/-- A directory all of whose pointers can be read is calm. -/
theorem calm_of_deref {c : Contents} (hfit : Fits width flags c)
    (hd : ∀ p ∈ references (visibleEntries flags c.entries), ∃ s,
      (deref (padded (visibleEntries flags c.entries)
        (gridSize width (visibleEntries flags c.entries))).names p).result=.ok s) :
    Calm width flags c := by
  intro i e he hdesc
  obtain ⟨s,hs⟩ := hd _ (mem_references he hdesc)
  have hsize := length_le_gridSize hfit
  have hi := (List.getElem?_eq_some_iff.mp he).1
  rw [← designates_iff hsize he]
  apply designates_of_deref hs
  rw [padded_names_getElem? hsize (by omega),he]
  rfl

/-- One level of the recursion: if `print_dir` returns `0`, then all the pointers that it handed on
could be read, and the directories that they lead to returned `0` too. -/
theorem printDir_ok_step (hrec : flags.recursive=true) (hlist : flags.list=false) {c : Contents}
    (hvis : visibleEntries flags c.entries≠[]) {path : List UInt8}
    (h : fs.lookup path=some c) {fuel : ℕ}
    (hok : (printDir (fs.system width qsort stray) (ls (fs.system width qsort stray) fuel) path
      flags).result=.ok 0) :
    Fits width flags c ∧ ∃ fuel', ∀ p ∈ references (visibleEntries flags c.entries), ∃ s,
      (deref (padded (visibleEntries flags c.entries)
        (gridSize width (visibleEntries flags c.entries))).names p).result=.ok s ∧
      (printDir (fs.system width qsort stray) (ls (fs.system width qsort stray) fuel')
        (concatPath stray path s) flags).result=.ok 0 := by
  have hopen : (fs.system width qsort stray).opendir path=some c.entries := by
    simp [FileSystem.system,h]
  have hfit : Fits width flags c := by
    by_contra hno
    rw [printDir,beforeLs_narrow hopen hvis (Nat.lt_of_not_le hno)] at hok
    cases hok
  refine ⟨hfit,?_⟩
  rw [printDir,beforeLs_listed hopen hvis hfit] at hok
  by_cases hc : c.listed=[]
  · refine ⟨0,fun p hp => ?_⟩
    have hrefs := references_length_eq flags c
    rw [hc] at hrefs
    rw [List.length_eq_zero_iff.mp hrefs] at hp
    cases hp
  · rw [if_pos ⟨hrec,List.length_pos_iff.mpr (references_ne_nil hc)⟩] at hok
    obtain ⟨l,hl,hok,-⟩ := Traced.bind_ok hok
    obtain rfl := Except.ok.inj hl
    obtain ⟨err,herr,hok,-⟩ := Traced.bind_ok hok
    obtain ⟨rfl,-⟩ := err_eq_zero (e := err*10) (by omega) hok
    cases fuel with
    | zero => cases herr
    | succ fuel =>
      simp only [ls] at herr
      have hall := lsBody_ok hlist herr
      rw [padded_dirs,withDefault_filled (references_ne_nil hc),Slots.filled_elems] at hall
      exact ⟨fuel,hall⟩

/-- Conversely, if a traversal ends well, then all the directories on its way are regular. -/
theorem regular_of_ok (hrec : flags.recursive=true) (hlist : flags.list=false) (c : Contents) :
    ∀ path fuel, fs.lookup path=some c →
      (printDir (fs.system width qsort stray) (ls (fs.system width qsort stray) fuel) path
        flags).result=.ok 0 → c.Deep (Regular width flags) := by
  induction c using Contents.listed_induction with
  | h c ih =>
    intro path fuel h hok
    by_cases hvis : visibleEntries flags c.entries=[]
    · refine ⟨c,⟨fun hne => absurd hvis hne,?_⟩,fun d sub hs => ?_⟩
      · intro i e he
        rw [hvis] at he
        cases he
      · exact absurd hvis (visibleEntries_ne_nil flags (List.ne_nil_of_mem hs))
    · obtain ⟨hfit,fuel',hall⟩ := printDir_ok_step qsort stray hrec hlist hvis h hok
      have hcalm : Calm width flags c :=
        calm_of_deref hfit fun p hp => (hall p hp).imp fun _ h => h.1
      refine ⟨c,⟨fun _ => hfit,hcalm⟩,fun d sub hs => ?_⟩
      have hmem : d.entry ∈ (visibleEntries flags c.entries).filter descends := by
        rw [filter_descends_visible,c.filter_descends_entries]
        exact List.mem_map.mpr ⟨_,hs,rfl⟩
      obtain ⟨hshow,hdesc⟩ := List.mem_filter.mp hmem
      obtain ⟨i,he⟩ := List.mem_iff_getElem?.mp hshow
      obtain ⟨s,hderef,hprint⟩ := hall _ (mem_references he hdesc)
      have hread := deref_of_designates
        ((designates_iff (length_le_gridSize hfit) he).mpr (hcalm i d.entry he hdesc))
      rw [hread] at hderef
      obtain rfl := Except.ok.inj hderef
      exact ih d sub hs _ fuel' (fs.lookup_concatPath stray h (List.mem_filter.mp hs).1) hprint

section Main

/-- For all sufficiently large depths of the recursion the call from `main` returns `0`, and the
paths it opens are the traversals of the operands one after the other. -/
def TraversesInPreorder (fs : FileSystem) (width : ℕ) (qsort : Sorter ℕ) (stray : UInt8)
    (flags : Flags) (operands : List (List UInt8)) : Prop :=
  ∃ depth, ∀ fuel ≥ depth, Opens (lsMain (fs.system width qsort stray) fuel operands flags)
    ((operandsOrDot operands).flatMap fs.traversal)

/-- If the call from `main` returns `0`, then so does `print_dir` on every operand. -/
theorem printDir_operand_ok {sys : System} (hlist : flags.list=false) {fuel : ℕ}
    {operands : List (List UInt8)} (h : (lsMain sys (fuel+1) operands flags).result=.ok 0) :
    ∀ p ∈ operandsOrDot operands, (printDir sys (ls sys fuel) p flags).result=.ok 0 := by
  simp only [lsMain,ls] at h
  intro p hp
  have hmem : CharPtr.string p ∈
      (withDefault ((operands.map CharPtr.string).foldl Slots.insert (Slots.new 0))).elems := by
    rw [withDefault_operands]
    exact List.mem_map_of_mem hp
  obtain ⟨s,hs,hprint⟩ := lsBody_ok hlist h _ hmem
  obtain rfl := Except.ok.inj hs
  rwa [concatPath_nil] at hprint

/-- The recursion traverses the operands in pre-order exactly when all the directories on its way
are calm. -/
theorem traversesInPreorder_iff (fs : FileSystem) (width : ℕ) (qsort : Sorter ℕ) (stray : UInt8)
    (flags : Flags) (operands : List (List UInt8)) (hrec : flags.recursive=true)
    (hlist : flags.list=false)
    (hfit : ∀ p ∈ operandsOrDot operands, ∀ c, fs.lookup p=some c → c.Deep (Fits width flags)) :
    TraversesInPreorder fs width qsort stray flags operands ↔
      ∀ p ∈ operandsOrDot operands, ∀ c, fs.lookup p=some c → c.Deep (Calm width flags) := by
  constructor
  · rintro ⟨depth,hdepth⟩ p hp c hc
    obtain ⟨es,hes,-⟩ := hdepth (depth+1) (by omega)
    have hok := printDir_operand_ok hlist (congrArg Traced.result hes) p hp
    exact (regular_of_ok qsort stray hrec hlist c p depth hc hok).imp fun _ h => h.calm
  · intro hcalm
    have hreg : ∀ p ∈ operandsOrDot operands, ∀ c, fs.lookup p=some c →
        c.Deep (Regular width flags) := by
      intro p hp c hc
      exact (Contents.Deep.and_iff.mpr ⟨hfit p hp c hc,hcalm p hp c hc⟩).imp
        fun _ h => ⟨fun _ => h.1,h.2⟩
    obtain ⟨depth,hdepth⟩ := lsMain_trace qsort stray hrec hlist hreg
    refine ⟨depth+1,fun fuel hfuel => ?_⟩
    obtain ⟨fuel,rfl⟩ := Nat.exists_eq_add_of_le' (by omega : 1 ≤ fuel)
    refine ⟨_,(hdepth fuel (by omega)).1,?_⟩
    rw [opened_lsOutput,List.flatMap_map]
    simp only [opened_trace]

/-- A directory whose only entry is an empty subdirectory. -/
def nested : Contents :=
  .subdir ⟨subdirEntry,rfl,by decide,by decide,by decide,by decide⟩ .nil .nil

theorem nested_flat (d : Subdir) (sub : Contents) (h : (d,some sub) ∈ nested.subdirs) :
    sub=.nil := by
  simp only [nested,Contents.subdirs,List.mem_singleton,Prod.mk.injEq,Option.some.injEq] at h
  exact h.2

theorem nested_distinct : FileSystem.Distinct nested :=
  .of_flat nested_flat (by simp [nested,Contents.subdirs])

/-- The file system with this root. -/
def nestedSystem : FileSystem := FileSystem.ofTree nested nested_distinct

theorem nested_lookup {c : Contents} (h : nestedSystem.lookup (text ".")=some c) : c=nested :=
  FileSystem.eq_root_of_dot h

theorem nested_fits (hw : 3 ≤ width) : nested.Deep (Fits width recursiveFlags) := by
  apply Contents.Deep.of_flat nested_flat
  · exact hw
  · change 2 ≤ width
    omega

theorem nested_regular : nested.Deep (Regular 9 recursiveFlags) :=
  .of_flat nested_flat (.of_small (by decide) (by decide)) (.of_small (by decide) (by decide))

theorem traversesInPreorder_nested :
    TraversesInPreorder nestedSystem 9 Sorter.insertion 0 recursiveFlags [] := by
  refine (traversesInPreorder_iff nestedSystem 9 Sorter.insertion 0 recursiveFlags [] rfl rfl
    ?_).mpr ?_
  · intro p hp c hc
    obtain rfl : p=text "." := by simpa [operandsOrDot] using hp
    obtain rfl := nested_lookup hc
    exact nested_fits (by omega)
  · intro p hp c hc
    obtain rfl : p=text "." := by simpa [operandsOrDot] using hp
    obtain rfl := nested_lookup hc
    exact nested_regular.imp fun _ h => h.calm

/-- On a terminal of 160 columns the same tree is not traversed: the pointer to the name of the
subdirectory is stale by the time `ls` reads it. -/
theorem traversal_stale_fails :
    nested.Deep (Fits 160 recursiveFlags) ∧
      ¬TraversesInPreorder nestedSystem 160 Sorter.insertion 0 recursiveFlags [] := by
  have hfit : nested.Deep (Fits 160 recursiveFlags) := nested_fits (by omega)
  refine ⟨hfit,?_⟩
  rintro ⟨depth,hdepth⟩
  obtain ⟨es,hes,-⟩ := hdepth (depth+1) (by omega)
  have hok := printDir_operand_ok rfl (congrArg Traced.result hes) (text ".") (by decide)
  obtain ⟨_,hreg,-⟩ := regular_of_ok Sorter.insertion 0 rfl rfl nested (text ".") depth rfl hok
  exact hreg.calm 0 _ rfl (by decide) ⟨0,by decide,by decide⟩

/-- Two empty subdirectories, not in the order of their names. -/
def pair : Contents :=
  .subdir ⟨⟨text "c",dtDir,22,by decide,by decide⟩,rfl,by decide,by decide,by decide,by decide⟩ .nil
    (.subdir ⟨⟨text "b",dtDir,23,by decide,by decide⟩,rfl,by decide,by decide,by decide,by decide⟩
      .nil .nil)

theorem pair_flat (d : Subdir) (sub : Contents) (h : (d,some sub) ∈ pair.subdirs) : sub=.nil := by
  simp only [pair,Contents.subdirs,List.mem_cons,List.not_mem_nil,or_false,Prod.mk.injEq,
    Option.some.injEq] at h
  rcases h with h | h
  · exact h.2
  · exact h.2

theorem pair_distinct : FileSystem.Distinct pair := .of_flat pair_flat (by decide)

def pairSystem : FileSystem := FileSystem.ofTree pair pair_distinct

theorem pair_lookup {c : Contents} (h : pairSystem.lookup (text ".")=some c) : c=pair :=
  FileSystem.eq_root_of_dot h

theorem pair_regular : pair.Deep (Regular 9 recursiveFlags) :=
  .of_flat pair_flat (.of_small (by decide) (by decide)) (.of_small (by decide) (by decide))

end Main

end Tree

end Ls
end NeOs
