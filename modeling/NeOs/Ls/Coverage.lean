import NeOs.Ls.Traversal

/-! Which of the subdirectories that a listing shows are listed in turn, how often, and in which
order. The recursion goes into the subdirectories whose names do not start with a dot, once each and
in the order of `readdir`, whatever the order of the display. -/
namespace NeOs
open Library
namespace Ls

section Preorder
variable {fs : FileSystem} (stray : UInt8) {path : List UInt8} {c : Contents}

theorem visits_ne_nil {ns : List (List UInt8)} (h : ns ∈ c.visits) : ns≠[] := by
  rw [c.visits_eq] at h
  obtain ⟨s,-,hns⟩ := List.mem_flatMap.mp h
  rcases List.mem_cons.mp hns with rfl | hns
  · simp
  · obtain ⟨ms,-,rfl⟩ := List.mem_map.mp hns
    simp

/-- A traversal stays below the directory it starts from. -/
theorem prefix_of_mem_traversal {ns : List (List UInt8)} (h : ns ∈ fs.traversal path) :
    comps path <+: ns := by
  rcases List.mem_cons.mp h with rfl | h
  · exact List.prefix_refl _
  · obtain ⟨ms,-,rfl⟩ := List.mem_map.mp h
    exact List.prefix_append _ _

theorem comps_listed {n : List UInt8} (hn : n ∈ c.listed.map fun s => s.1.name) :
    comps (concatPath stray path n)=comps path++[n] := by
  obtain ⟨⟨d,s⟩,-,rfl⟩ := List.mem_map.mp hn
  rw [comps_concatPath,d.comps_name]

theorem listed_names_nodup (hd : FileSystem.Distinct c) :
    (c.listed.map fun s => s.1.name).Nodup := by
  obtain ⟨_,here,-⟩ := hd
  exact (List.filter_sublist.map _).nodup here

/-- No directory is met twice. -/
theorem traversal_nodup (c : Contents) : FileSystem.Distinct c → ∀ path, fs.lookup path=some c →
    (fs.traversal path).Nodup := by
  induction c using Contents.listed_induction with
  | h c ih =>
    intro hd path h
    rw [traversal_eq fs 0 h,List.nodup_cons,List.nodup_flatMap]
    refine ⟨?_,?_,?_⟩
    · intro hmem
      obtain ⟨n,hn,hns⟩ := List.mem_flatMap.mp hmem
      have hpre := prefix_of_mem_traversal hns
      rw [comps_listed 0 hn] at hpre
      have hlen := hpre.length_le
      simp at hlen
    · intro n hn
      obtain ⟨⟨d,s⟩,hs,rfl⟩ := List.mem_map.mp hn
      have hmem := (List.mem_filter.mp hs).1
      have hlookup := fs.lookup_concatPath 0 h hmem
      cases s with
      | none =>
        rw [FileSystem.traversal,hlookup]
        simp
      | some sub =>
        obtain ⟨_,-,below⟩ := hd
        exact ih d sub hs (below d sub hmem) _ hlookup
    · refine (listed_names_nodup hd).imp_of_mem ?_
      intro n m hn hm hne x hx hx'
      have hpre := prefix_of_mem_traversal hx
      have hpre' := prefix_of_mem_traversal hx'
      rw [comps_listed 0 hn] at hpre
      rw [comps_listed 0 hm] at hpre'
      exact hne (eq_of_common_extension hpre hpre')

end Preorder

section Parts
variable {ts : List (List UInt8 × List Event)} {t : List UInt8 × List Event} {q : List UInt8}

theorem mem_headed (h : .opendir q ∈ headed t) : .opendir q ∈ t.2 := by
  simpa [headed,heading] using h

/-- What `ls` opens is opened by one of its calls of `print_dir`. -/
theorem mem_lsOutput (h : .opendir q ∈ lsOutput ts) : ∃ t ∈ ts, .opendir q ∈ t.2 := by
  match ts with
  | [] => cases h
  | [t] => exact ⟨t,by simp,by simpa [lsOutput,countLine] using h⟩
  | t::u::ts =>
    have hflat : .opendir q ∈ (t::u::ts).flatMap headed := by
      simpa only [lsOutput,countLine,List.mem_cons,reduceCtorEq,false_or] using h
    obtain ⟨v,hv,hq⟩ := List.mem_flatMap.mp hflat
    exact ⟨v,hv,mem_headed hq⟩

/-- The output of each call is a part of the output. -/
theorem infix_lsOutput (h : t ∈ ts) : t.2 <:+: lsOutput ts := by
  match ts with
  | [] => cases h
  | [u] =>
    obtain rfl := List.mem_singleton.mp h
    exact (List.suffix_cons _ _).isInfix
  | u::v::ts =>
    have hheaded : t.2 <:+: headed t := ⟨[heading t.1],[.put (text "\n")],by simp [headed]⟩
    have hflat : headed t <:+: (u::v::ts).flatMap headed := by
      rw [List.flatMap_def]
      exact List.infix_of_mem_flatten (List.mem_map_of_mem h)
    exact (hheaded.trans hflat).trans (List.suffix_cons _ _).isInfix

theorem mem_ownEvents_iff {sys : System} {flags : Flags} {path : List UInt8} :
    .opendir q ∈ ownEvents sys flags path ↔ q=path := by
  obtain ⟨tail,heq,hputs⟩ := ownEvents_eq sys flags path
  rw [heq,List.mem_cons,Event.opendir.injEq]
  refine or_iff_left fun hmem => ?_
  obtain ⟨bytes,hput⟩ := hputs _ hmem
  cases hput

end Parts

section Trace
variable {fs : FileSystem} {width : ℕ} (qsort : Sorter ℕ) (stray : UInt8) {flags : Flags}
  {q : List UInt8}

theorem mem_trace_self (path : List UInt8) :
    .opendir path ∈ fs.trace width qsort stray flags path :=
  List.mem_append_left _ (mem_ownEvents_iff.mpr rfl)

theorem mem_trace_unopenable {path : List UInt8} (h : fs.lookup path=none)
    (hq : .opendir q ∈ fs.trace width qsort stray flags path) : q=path := by
  rw [trace_unopenable fs width qsort stray flags h,List.mem_singleton] at hq
  exact Event.opendir.inj hq

/-- A path that the traversal opens is the one it starts from, or is opened below one of the listed
subdirectories. -/
theorem mem_trace_cases {path : List UInt8} {c : Contents} (h : fs.lookup path=some c)
    (hq : .opendir q ∈ fs.trace width qsort stray flags path) :
    q=path ∨ ∃ d s, (d,s) ∈ c.listed ∧
      .opendir q ∈ fs.trace width qsort stray flags (concatPath stray path d.name) := by
  rw [trace_eq fs width qsort stray flags h,List.mem_append] at hq
  rcases hq with hq | hq
  · exact Or.inl (mem_ownEvents_iff.mp hq)
  · obtain ⟨t,ht,hq⟩ := mem_lsOutput hq
    simp only [List.mem_map] at ht
    obtain ⟨n,⟨⟨d,s⟩,hs,rfl⟩,rfl⟩ := ht
    exact Or.inr ⟨d,s,hs,hq⟩

theorem infix_trace_of_listed {path : List UInt8} {c : Contents} (h : fs.lookup path=some c)
    {d : Subdir} {s : Option Contents} (hs : (d,s) ∈ c.listed) :
    fs.trace width qsort stray flags (concatPath stray path d.name) <:+:
      fs.trace width qsort stray flags path := by
  rw [trace_eq fs width qsort stray flags h]
  have hmem : (concatPath stray path d.name,
      fs.trace width qsort stray flags (concatPath stray path d.name)) ∈
      (c.listed.map fun s => s.1.name).map fun n =>
        (concatPath stray path n,fs.trace width qsort stray flags (concatPath stray path n)) :=
    List.mem_map.mpr ⟨d.name,List.mem_map.mpr ⟨_,hs,rfl⟩,rfl⟩
  exact (infix_lsOutput hmem).trans (List.suffix_append _ _).isInfix

/-- Where a directory is opened, all of its trace follows. -/
theorem infix_trace (path : List UInt8) (hq : .opendir q ∈ fs.trace width qsort stray flags path) :
    fs.trace width qsort stray flags q <:+: fs.trace width qsort stray flags path := by
  induction path using fs.path_induction stray with
  | unopenable path h => rw [mem_trace_unopenable qsort stray h hq]
  | openable path c h ih =>
    rcases mem_trace_cases qsort stray h hq with rfl | ⟨d,s,hs,hq⟩
    · exact List.infix_rfl
    · exact (ih d s hs hq).trans (infix_trace_of_listed qsort stray h hs)

/-- Right below a directory only its listed subdirectories are opened, one after the other. -/
theorem children_of_self {path : List UInt8} {c : Contents} (h : fs.lookup path=some c) :
    (fs.traversal path).filter (isChild (comps path))=
      (c.listed.map fun s => s.1.name).map fun n => comps path++[n] := by
  have hself : isChild (comps path) (comps path)=false := isChild_of_length_ne (by omega)
  have hsub : ∀ n ∈ c.listed.map fun s => s.1.name,
      (fs.traversal (concatPath 0 path n)).filter (isChild (comps path))=[comps path++[n]] := by
    intro n hn
    rw [FileSystem.traversal,comps_listed 0 hn,List.filter_cons,
      if_pos (isChild_iff.mpr ⟨n,rfl⟩)]
    congr 1
    rw [List.filter_eq_nil_iff]
    intro ms hms
    obtain ⟨ks,hks,rfl⟩ := List.mem_map.mp hms
    have hne : ks≠[] := by
      cases hl : fs.lookup (concatPath 0 path n) with
      | none => simp [hl] at hks
      | some sub =>
        rw [hl] at hks
        exact visits_ne_nil hks
    have hpos := List.length_pos_iff.mpr hne
    rw [Bool.not_eq_true]
    apply isChild_of_length_ne
    simp only [List.length_append,List.length_singleton]
    omega
  rw [traversal_eq fs 0 h,List.filter_cons,hself,List.filter_flatMap]
  simp only [Bool.false_eq_true,if_false]
  rw [List.flatMap_congr hsub,← List.map_eq_flatMap]

/-- In a tree the subdirectories of each directory on the way are opened in the order in which they
were read. -/
theorem children_of_opened (path : List UInt8)
    (hd : ∀ c, fs.lookup path=some c → FileSystem.Distinct c)
    (hq : .opendir q ∈ fs.trace width qsort stray flags path) {c' : Contents}
    (hc' : fs.lookup q=some c') :
    (fs.traversal path).filter (isChild (comps q))=
      (c'.listed.map fun s => s.1.name).map fun n => comps q++[n] := by
  induction path using fs.path_induction stray with
  | unopenable path h =>
    rw [mem_trace_unopenable qsort stray h hq,h] at hc'
    cases hc'
  | openable path c h ih =>
    rcases mem_trace_cases qsort stray h hq with rfl | ⟨d,s,hs,hq⟩
    · cases h.symm.trans hc'
      exact children_of_self hc'
    · have hmem := (List.mem_filter.mp hs).1
      have hlookup := fs.lookup_concatPath stray h hmem
      have hname : d.name ∈ c.listed.map fun s => s.1.name := List.mem_map.mpr ⟨_,hs,rfl⟩
      have hbelow : comps path++[d.name] <+: comps q := by
        have hin : comps q ∈ fs.traversal (concatPath stray path d.name) := by
          rw [← opened_trace fs width qsort stray flags]
          exact List.mem_filterMap.mpr ⟨_,hq,rfl⟩
        have hpre := prefix_of_mem_traversal hin
        rwa [comps_listed stray hname] at hpre
      have hdsub : ∀ sub, fs.lookup (concatPath stray path d.name)=some sub →
          FileSystem.Distinct sub := by
        intro sub hsub
        obtain ⟨_,-,below⟩ := hd c h
        exact below d sub (hlookup.symm.trans hsub ▸ hmem)
      have hself : isChild (comps q) (comps path)=false := by
        have hlen := hbelow.length_le
        simp only [List.length_append,List.length_singleton] at hlen
        exact isChild_of_length_ne (by omega)
      rw [traversal_eq fs stray h,List.filter_cons,hself,List.filter_flatMap]
      simp only [Bool.false_eq_true,if_false]
      rw [flatMap_of_unique (listed_names_nodup (hd c h)) hname,ih d s hs hdsub hq]
      -- below another name there is no child of `q`
      intro n hn hne
      rw [List.filter_eq_nil_iff]
      intro ms hms
      rw [isChild_iff]
      rintro ⟨m,rfl⟩
      have hpre := prefix_of_mem_traversal hms
      rw [comps_listed stray hn] at hpre
      exact hne (eq_of_common_extension hpre (hbelow.trans (List.prefix_append _ _)))

end Trace

section Order
variable (fs : FileSystem) (width : ℕ) (qsort : Sorter ℕ) (stray : UInt8) (flags : Flags)
  (operands : List (List UInt8))

/-- The paths that a run opens right below a directory. -/
def subdirsOpened (es : List Event) (path : List UInt8) : List (List (List UInt8)) :=
  (opened es).filter (isChild (comps path))

/-- For all sufficiently large depths of the recursion the call from `main` returns `0`, and the
subdirectories of each directory on the way are opened in the given order of its entries. -/
def RecursesInOrder (order : Contents → List Dirent) : Prop :=
  ∃ depth, ∀ fuel ≥ depth, ∃ es,
    lsMain (fs.system width qsort stray) fuel operands flags=Traced.done es 0 ∧
    ∀ q c, .opendir q ∈ es → fs.lookup q=some c →
      subdirsOpened es q=((order c).filter descends).map fun e => comps q++[e.dName]

/-- The order in which a listing shows the entries of a directory. -/
def displayed (c : Contents) : List Dirent :=
  shownEntries (fs.system width qsort stray) flags (visibleEntries flags c.entries)

variable {fs width flags operands}

/-- The run over a single tree. -/
theorem lsMain_single (hrec : flags.recursive=true) (hlist : flags.list=false) {p : List UInt8}
    (hp : operandsOrDot operands=[p])
    (hreg : ∀ c, fs.lookup p=some c → c.Deep (Regular width flags)) :
    ∃ depth, ∀ fuel ≥ depth, lsMain (fs.system width qsort stray) fuel operands flags=
      Traced.done (countLine 1::fs.trace width qsort stray flags p) 0 := by
  have hall : ∀ r ∈ operandsOrDot operands, ∀ c, fs.lookup r=some c →
      c.Deep (Regular width flags) := by
    rw [hp]
    simpa using hreg
  obtain ⟨depth,hdepth⟩ := lsMain_trace qsort stray hrec hlist hall
  refine ⟨depth+1,fun fuel hfuel => ?_⟩
  obtain ⟨fuel,rfl⟩ := Nat.exists_eq_add_of_le' (by omega : 1 ≤ fuel)
  have hrun := (hdepth fuel (by omega)).1
  rw [hp] at hrun
  exact hrun

theorem mem_single {p q : List UInt8} :
    .opendir q ∈ countLine 1::fs.trace width qsort stray flags p ↔
      .opendir q ∈ fs.trace width qsort stray flags p := by
  simp [countLine]

theorem subdirsOpened_single {p q : List UInt8} {c : Contents}
    (hd : ∀ c, fs.lookup p=some c → FileSystem.Distinct c)
    (hq : .opendir q ∈ fs.trace width qsort stray flags p) (hc : fs.lookup q=some c) :
    subdirsOpened (countLine 1::fs.trace width qsort stray flags p) q=
      (c.entries.filter descends).map fun e => comps q++[e.dName] := by
  rw [subdirsOpened,countLine,opened_put,opened_trace,children_of_opened qsort stray p hd hq hc,
    c.filter_descends_entries,List.map_map,List.map_map]
  rfl

/-- On a single tree an order is followed when it agrees with `readdir` on the subdirectories that
are gone into. -/
theorem recursesInOrder_iff (hrec : flags.recursive=true) (hlist : flags.list=false)
    {p : List UInt8} (hp : operandsOrDot operands=[p])
    (hreg : ∀ c, fs.lookup p=some c → c.Deep (Regular width flags))
    (hd : ∀ c, fs.lookup p=some c → FileSystem.Distinct c) (order : Contents → List Dirent) :
    RecursesInOrder fs width qsort stray flags operands order ↔
      ∀ q c, .opendir q ∈ fs.trace width qsort stray flags p → fs.lookup q=some c →
        ((order c).filter descends).map Dirent.dName=
          (c.entries.filter descends).map Dirent.dName := by
  obtain ⟨depth,hdepth⟩ := lsMain_single qsort stray hrec hlist hp hreg
  have hnames : ∀ q : List UInt8, ∀ es es' : List Dirent,
      (es.map fun e => comps q++[e.dName])=(es'.map fun e => comps q++[e.dName]) ↔
        es.map Dirent.dName=es'.map Dirent.dName := by
    intro q es es'
    have hinj : Function.Injective fun n : List UInt8 => comps q++[n] := by
      intro n m hnm
      simpa using hnm
    rw [← (List.map_injective_iff.mpr hinj).eq_iff,List.map_map,List.map_map]
    rfl
  constructor
  · rintro ⟨depth',hdepth'⟩ q c hq hc
    obtain ⟨es,hes,hall⟩ := hdepth' (max depth depth') (le_max_right _ _)
    rw [hdepth (max depth depth') (le_max_left _ _)] at hes
    cases hes
    rw [← hnames q,← hall q c ((mem_single qsort stray).mpr hq) hc,
      subdirsOpened_single qsort stray hd hq hc]
  · intro hall
    refine ⟨depth,fun fuel hfuel => ⟨_,hdepth fuel hfuel,fun q c hq hc => ?_⟩⟩
    rw [mem_single] at hq
    rw [subdirsOpened_single qsort stray hd hq hc,hnames q,hall q c hq hc]

theorem displayed_unsorted (hs : flags.sort=.none) (hr : flags.reverse=false) (c : Contents) :
    displayed fs width qsort stray flags c=visibleEntries flags c.entries := by
  simp [displayed,shownEntries,ordered,sort,hs,hr,filterMap_range]

/-- The recursion goes into the subdirectories of each directory in the order of `readdir`. This is
the order of the display exactly where both orders agree on these subdirectories, and always if the
entries are not sorted. -/
theorem recurses_in_readdir_order (fs : FileSystem) (width : ℕ) (qsort : Sorter ℕ) (stray : UInt8)
    (flags : Flags) (operands : List (List UInt8)) (p : List UInt8) (hrec : flags.recursive=true)
    (hlist : flags.list=false) (hp : operandsOrDot operands=[p])
    (hreg : ∀ c, fs.lookup p=some c → c.Deep (Regular width flags))
    (hd : ∀ c, fs.lookup p=some c → FileSystem.Distinct c) :
    RecursesInOrder fs width qsort stray flags operands Contents.entries ∧
      (RecursesInOrder fs width qsort stray flags operands (displayed fs width qsort stray flags) ↔
        ∀ q c, .opendir q ∈ fs.trace width qsort stray flags p → fs.lookup q=some c →
          ((displayed fs width qsort stray flags c).filter descends).map Dirent.dName=
            (c.entries.filter descends).map Dirent.dName) ∧
      (flags.sort=.none → flags.reverse=false →
        RecursesInOrder fs width qsort stray flags operands
          (displayed fs width qsort stray flags)) := by
  have hiff := recursesInOrder_iff qsort stray hrec hlist hp hreg hd
  refine ⟨(hiff _).mpr fun _ _ _ _ => rfl,hiff _,fun hs hr => (hiff _).mpr fun q c _ _ => ?_⟩
  rw [displayed_unsorted qsort stray hs hr,filter_descends_visible]

theorem recurses_in_readdir_order_pair :
    RecursesInOrder pairSystem 9 Sorter.insertion 0 recursiveFlags [] Contents.entries :=
  (recurses_in_readdir_order pairSystem 9 Sorter.insertion 0 recursiveFlags [] (text ".") rfl rfl rfl
    (fun _ hc => pair_lookup hc ▸ pair_regular) (fun _ hc => pair_lookup hc ▸ pair_distinct)).1

/-- Sorted by name, `b` is shown before `c`; read in the other order, `c` is listed first. -/
theorem recursion_ignores_display :
    (displayed pairSystem 9 Sorter.insertion 0 recursiveFlags pair).map Dirent.dName=
        [text "b",text "c"] ∧
      ¬RecursesInOrder pairSystem 9 Sorter.insertion 0 recursiveFlags []
        (displayed pairSystem 9 Sorter.insertion 0 recursiveFlags) := by
  refine ⟨by decide,?_⟩
  rw [recursesInOrder_iff Sorter.insertion 0 rfl rfl (p := text ".") rfl
    (fun _ hc => pair_lookup hc ▸ pair_regular) (fun _ hc => pair_lookup hc ▸ pair_distinct)]
  intro h
  exact absurd (h (text ".") pair (mem_trace_self _ _ _) rfl) (by decide)

end Order

section Coverage
variable (fs : FileSystem) (width : ℕ) (qsort : Sorter ℕ) (stray : UInt8) (flags : Flags)
  (operands : List (List UInt8))

/-- The directory is opened once in the run, and what `print_dir` emits for it follows. -/
def ListedOnce (es : List Event) (path : List UInt8) : Prop :=
  ∃ pre post, es=pre++ownEvents (fs.system width qsort stray) flags path++post ∧
    comps path ∉ opened pre ∧ comps path ∉ opened post

/-- For all sufficiently large depths of the recursion the call from `main` returns `0`, and every
subdirectory of the given kind that some listing shows is opened and listed exactly once. -/
def CoversShown (kind : Dirent → Prop) : Prop :=
  ∃ depth, ∀ fuel ≥ depth, ∃ es,
    lsMain (fs.system width qsort stray) fuel operands flags=Traced.done es 0 ∧
    ∀ q c e, .opendir q ∈ es → fs.lookup q=some c → e ∈ visibleEntries flags c.entries →
      e.dType=dtDir → kind e →
        ListedOnce fs width qsort stray flags es (concatPath stray q e.dName)

/-- Likewise, no subdirectory of the given kind is opened. -/
def LeavesOut (kind : Dirent → Prop) : Prop :=
  ∃ depth, ∀ fuel ≥ depth, ∃ es,
    lsMain (fs.system width qsort stray) fuel operands flags=Traced.done es 0 ∧
    ∀ q c e, .opendir q ∈ es → fs.lookup q=some c → e ∈ visibleEntries flags c.entries →
      e.dType=dtDir → kind e → comps (concatPath stray q e.dName) ∉ opened es

variable {fs width flags operands}

/-- Where nothing is opened twice, a part that lists a directory lists it once. -/
theorem listedOnce_of_part {es : List Event} (hes : (opened es).Nodup) {path : List UInt8}
    (h : ownEvents (fs.system width qsort stray) flags path <:+: es) :
    ListedOnce fs width qsort stray flags es path := by
  obtain ⟨pre,post,rfl⟩ := h
  refine ⟨pre,post,rfl,?_⟩
  rw [opened_append,opened_append,opened_ownEvents] at hes
  simp only [List.append_assoc,List.nodup_append,List.singleton_append,List.nodup_cons,
    List.mem_cons,forall_eq_or_imp] at hes
  exact ⟨fun hmem => (hes.2.2 _ hmem).1 rfl,hes.2.1.1⟩

/-- The listed subdirectories of a directory that is opened are listed once. -/
theorem listedOnce_single {p q : List UInt8} {c : Contents}
    (hd : ∀ c, fs.lookup p=some c → FileSystem.Distinct c)
    (hq : .opendir q ∈ fs.trace width qsort stray flags p) (hc : fs.lookup q=some c)
    {e : Dirent} (he : e ∈ c.entries.filter descends) :
    ListedOnce fs width qsort stray flags (countLine 1::fs.trace width qsort stray flags p)
      (concatPath stray q e.dName) := by
  rw [c.filter_descends_entries] at he
  obtain ⟨⟨d,s⟩,hs,rfl⟩ := List.mem_map.mp he
  apply listedOnce_of_part
  · rw [countLine,opened_put,opened_trace]
    cases hp : fs.lookup p with
    | none => simp [FileSystem.traversal,hp]
    | some root => exact traversal_nodup root (hd root hp) p hp
  · have hown : ownEvents (fs.system width qsort stray) flags (concatPath stray q d.name) <:+:
        fs.trace width qsort stray flags (concatPath stray q d.name) :=
      (List.prefix_append _ _).isInfix
    exact ((hown.trans (infix_trace_of_listed qsort stray hc hs)).trans
      (infix_trace qsort stray p hq)).trans (List.suffix_cons _ _).isInfix

/-- The name of a subdirectory, or of a link to the directory or its parent, is one component. -/
theorem comps_dir_name {c : Contents} {e : Dirent} (he : e ∈ c.entries) (hdir : e.dType=dtDir) :
    comps e.dName=[e.dName] := by
  induction c with
  | nil => cases he
  | other e' h rest ih =>
    rcases List.mem_cons.mp he with rfl | he
    · rcases h hdir with hn | hn
      · rw [hn]
        exact components_of_not_mem (by decide) (by decide)
      · rw [hn]
        exact components_of_not_mem (by decide) (by decide)
    · exact ih he
  | locked d rest ih =>
    rcases List.mem_cons.mp he with rfl | he
    · exact d.comps_name
    · exact ih he
  | subdir d sub rest _ ih =>
    rcases List.mem_cons.mp he with rfl | he
    · exact d.comps_name
    · exact ih he

/-- A name that starts with a dot is never the last component of an opened path. -/
theorem not_opened_single {p q : List UInt8} {c : Contents}
    (hd : ∀ c, fs.lookup p=some c → FileSystem.Distinct c)
    (hq : .opendir q ∈ fs.trace width qsort stray flags p) (hc : fs.lookup q=some c)
    {e : Dirent} (he : e ∈ c.entries) (hdir : e.dType=dtDir) (hdot : charAt e.dName 0=dot) :
    comps (concatPath stray q e.dName) ∉
      opened (countLine 1::fs.trace width qsort stray flags p) := by
  rw [comps_concatPath,comps_dir_name he hdir]
  intro hmem
  have hchild : comps q++[e.dName] ∈
      subdirsOpened (countLine 1::fs.trace width qsort stray flags p) q :=
    List.mem_filter.mpr ⟨hmem,isChild_iff.mpr ⟨_,rfl⟩⟩
  rw [subdirsOpened_single qsort stray hd hq hc,List.mem_map] at hchild
  obtain ⟨e',he',heq⟩ := hchild
  have hname : e'.dName=e.dName := by simpa using heq
  have hdesc := (List.mem_filter.mp he').2
  simp only [descends,decide_eq_true_eq,hname] at hdesc
  exact hdesc.2 hdot

/-- With a single tree as operand the run ends, every subdirectory that some listing shows is listed
exactly once if its name does not start with a dot, and is not opened if it does. -/
theorem covers_unhidden (fs : FileSystem) (width : ℕ) (qsort : Sorter ℕ) (stray : UInt8)
    (flags : Flags) (operands : List (List UInt8)) (p : List UInt8) (hrec : flags.recursive=true)
    (hlist : flags.list=false) (hp : operandsOrDot operands=[p])
    (hreg : ∀ c, fs.lookup p=some c → c.Deep (Regular width flags))
    (hd : ∀ c, fs.lookup p=some c → FileSystem.Distinct c) :
    CoversShown fs width qsort stray flags operands (fun e => charAt e.dName 0≠dot) ∧
      LeavesOut fs width qsort stray flags operands (fun e => charAt e.dName 0=dot) := by
  obtain ⟨depth,hdepth⟩ := lsMain_single qsort stray hrec hlist hp hreg
  constructor
  · refine ⟨depth,fun fuel hfuel => ⟨_,hdepth fuel hfuel,fun q c e hq hc he hdir hdot => ?_⟩⟩
    have hdesc : e ∈ c.entries.filter descends :=
      List.mem_filter.mpr ⟨(List.mem_filter.mp he).1,by simp [descends,hdir,hdot]⟩
    exact listedOnce_single qsort stray hd ((mem_single qsort stray).mp hq) hc hdesc
  · refine ⟨depth,fun fuel hfuel => ⟨_,hdepth fuel hfuel,fun q c e hq hc he hdir hdot => ?_⟩⟩
    exact not_opened_single qsort stray hd ((mem_single qsort stray).mp hq) hc
      (List.mem_filter.mp he).1 hdir hdot

/-- The links to the directory and its parent, a hidden subdirectory, and another one. -/
def withHidden : Contents :=
  .other ⟨text ".",dtDir,31,by decide,by decide⟩ (by decide)
    (.other ⟨text "..",dtDir,32,by decide,by decide⟩ (by decide)
      (.subdir ⟨⟨text ".h",dtDir,33,by decide,by decide⟩,rfl,by decide,by decide,by decide,
        by decide⟩ .nil nested))

def showAllFlags : Flags := { recursiveFlags with showHidden := true }

theorem withHidden_flat (d : Subdir) (sub : Contents) (h : (d,some sub) ∈ withHidden.subdirs) :
    sub=.nil := by
  simp only [withHidden,Contents.subdirs,List.mem_cons,Prod.mk.injEq,Option.some.injEq] at h
  rcases h with h | h
  · exact h.2
  · exact nested_flat d sub h

theorem withHidden_distinct : FileSystem.Distinct withHidden := .of_flat withHidden_flat (by decide)

def hiddenSystem : FileSystem := FileSystem.ofTree withHidden withHidden_distinct

theorem withHidden_lookup {c : Contents} (h : hiddenSystem.lookup (text ".")=some c) :
    c=withHidden := FileSystem.eq_root_of_dot h

theorem withHidden_regular : withHidden.Deep (Regular 9 showAllFlags) :=
  .of_flat withHidden_flat (.of_small (by decide) (by decide)) (.of_small (by decide) (by decide))

theorem covers_unhidden_sample :
    CoversShown hiddenSystem 9 Sorter.insertion 0 showAllFlags [] (fun e => charAt e.dName 0≠dot) :=
  (covers_unhidden hiddenSystem 9 Sorter.insertion 0 showAllFlags [] (text ".") rfl rfl rfl
    (fun _ hc => withHidden_lookup hc ▸ withHidden_regular)
    (fun _ hc => withHidden_lookup hc ▸ withHidden_distinct)).1

/-- The hidden subdirectory is shown, but it is not listed. -/
theorem hidden_subdir_not_covered :
    text ".h" ∈ (visibleEntries showAllFlags withHidden.entries).map Dirent.dName ∧
      ¬CoversShown hiddenSystem 9 Sorter.insertion 0 showAllFlags []
        (fun e => e.dName≠text "." ∧ e.dName≠text "..") := by
  refine ⟨by decide,?_⟩
  rintro ⟨depth',hdepth'⟩
  obtain ⟨depth,hdepth⟩ := @lsMain_single hiddenSystem 9 Sorter.insertion 0 showAllFlags [] rfl rfl
    (text ".") rfl (fun _ hc => withHidden_lookup hc ▸ withHidden_regular)
  obtain ⟨es,hes,hall⟩ := hdepth' (max depth depth') (le_max_right _ _)
  rw [hdepth (max depth depth') (le_max_left _ _)] at hes
  cases hes
  have hself : .opendir (text ".") ∈
      hiddenSystem.trace 9 Sorter.insertion 0 showAllFlags (text ".") := mem_trace_self _ _ _
  have hmem : (⟨text ".h",dtDir,33,by decide,by decide⟩ : Dirent) ∈
      visibleEntries showAllFlags withHidden.entries := by decide
  obtain ⟨pre,post,hsplit,-⟩ := hall (text ".") withHidden _
    ((mem_single Sorter.insertion 0).mpr hself) rfl hmem rfl (by decide)
  apply not_opened_single Sorter.insertion 0
    (fun _ hc => withHidden_lookup hc ▸ withHidden_distinct) hself rfl
    (List.mem_filter.mp hmem).1 rfl (by decide)
  rw [hsplit,opened_append,opened_append,opened_ownEvents]
  simp

end Coverage

end Ls
end NeOs
