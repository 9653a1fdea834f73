import NeOs.Ls.Options
import NeOs.Ls.Traversal

/-! The whole output of `ls`. A recursive run prints each directory as a plain run would, and a run
with several operands prints each of them as a run with that operand alone would. -/
namespace NeOs
open Library
namespace Ls

/-- What `main` writes before and after the listing. -/
def framed (es : List Event) : List Event :=
  .put (text "\x1b[?25l")::(es++[.put (text "\x1b[?25h")])

section Flat
variable (sys : System) (flags : Flags)

def Flags.flat (flags : Flags) : Flags := { flags with recursive := false }

/-- What `print_dir` emits for a directory without recursion. -/
def flatEvents (path : List UInt8) : List Event :=
  (printDir sys (fun _ _ _ _ => pure 0) path flags.flat).events

/-- Up to its call of `ls`, `print_dir` emits the same with and without recursion. -/
theorem ownEvents_eq_flat (path : List UInt8) : ownEvents sys flags path=flatEvents sys flags path := by
  unfold ownEvents flatEvents
  cases hopen : sys.opendir path with
  | none =>
    rw [printDir,beforeLs_unopenable hopen,beforeLs_unopenable hopen]
    rfl
  | some entries =>
    by_cases hvis : visibleEntries flags entries=[]
    · have hflat : visibleEntries flags.flat entries=[] := hvis
      rw [printDir,beforeLs_empty hopen hvis,beforeLs_empty hopen hflat]
      rfl
    · have hflat : visibleEntries flags.flat entries≠[] := hvis
      rcases Nat.lt_or_ge sys.wsCol (longest (visibleEntries flags entries)+2) with hw | hw
      · have hw' : sys.wsCol < longest (visibleEntries flags.flat entries)+2 := hw
        rw [printDir,beforeLs_narrow hopen hvis hw,beforeLs_narrow hopen hflat hw']
        rfl
      · have hw' : longest (visibleEntries flags.flat entries)+2 ≤ sys.wsCol := hw
        rw [beforeLs_listed hopen hvis hw,printDir_listed _ rfl hopen hflat hw']
        rfl

end Flat

section Recursive
variable (fs : FileSystem) (width : ℕ) (qsort : Sorter ℕ) (stray : UInt8)

/-- `ls -R` on trees of regular directories: with enough depth it ends, and its output is made of the
plain listings of the directories, those of the subdirectories after that of their parent. -/
theorem main_recursive_output {argv : List (List UInt8)} {p : Parsed}
    (hp : parseArguments argv=some p) (hrec : p.flags.recursive=true)
    (hreg : ∀ q ∈ operandsOrDot (operands argv.tail), ∀ c, fs.lookup q=some c →
      c.Deep (Regular width p.flags)) :
    (∃ depth, ∀ fuel ≥ depth, main (fs.system width qsort stray) fuel argv=
      Traced.done (framed (lsOutput ((operandsOrDot (operands argv.tail)).map fun q =>
        (q,fs.trace width qsort stray p.flags q)))) 0) ∧
    (∀ path, fs.lookup path=none → fs.trace width qsort stray p.flags path=[.opendir path]) ∧
    ∀ path c, fs.lookup path=some c → fs.trace width qsort stray p.flags path=
      flatEvents (fs.system width qsort stray) p.flags path++
        lsOutput ((c.listed.map fun s => s.1.name).map fun n => (concatPath stray path n,
          fs.trace width qsort stray p.flags (concatPath stray path n))) := by
  refine ⟨?_,?_,?_⟩
  · have hlist : p.flags.list=false :=
      Run.run_invariant (fun s a t hs ht => parseArgument_list hs ht) rfl hp
    obtain ⟨depth,hdepth⟩ := lsMain_trace qsort stray hrec hlist hreg
    refine ⟨depth+1,fun fuel hfuel => ?_⟩
    obtain ⟨fuel,rfl⟩ := Nat.exists_eq_add_of_le' (by omega : 1 ≤ fuel)
    exact main_of_lsMain hp (hdepth fuel (by omega)).1
  · intro path h
    exact trace_unopenable fs width qsort stray p.flags h
  · intro path c h
    rw [trace_eq fs width qsort stray p.flags h,ownEvents_eq_flat]

theorem main_recursive_output_nested :
    ∃ depth, ∀ fuel ≥ depth, main (nestedSystem.system 9 Sorter.insertion 0) fuel [text "ls",text "-R"]=
      Traced.done (framed (lsOutput
        [(text ".",nestedSystem.trace 9 Sorter.insertion 0 recursiveFlags (text "."))])) 0 := by
  refine (@main_recursive_output nestedSystem 9 Sorter.insertion 0 [text "ls",text "-R"]
    ⟨recursiveFlags,Slots.new 0⟩ (by decide) rfl ?_).1
  intro q hq c hc
  obtain rfl : q=text "." := List.mem_singleton.mp hq
  obtain rfl := nested_lookup hc
  exact nested_regular

end Recursive

section Operands
variable {sys : System} {fuel : ℕ} {argv : List (List UInt8)} {q : Parsed}

/-- The command line with the same options and a single operand. -/
def alone (argv : List (List UInt8)) (p : List UInt8) : List (List UInt8) :=
  text "ls"::(options argv.tail++[p])

theorem parsed_list (hq : parseArguments argv=some q) : q.flags.list=false :=
  Run.run_invariant (fun _ _ _ hs ht => parseArgument_list hs ht) rfl hq

theorem operands_alone {p : List UInt8} (hp : p ∈ operands argv.tail) :
    options (alone argv p).tail=options argv.tail ∧ operands (alone argv p).tail=[p] := by
  have hno : isOption p=false := by simpa using (List.mem_filter.mp hp).2
  constructor
  · simp [alone,options,hno]
  · simp [alone,operands,options,hno]

theorem parseArguments_alone (hq : parseArguments argv=some q) {p : List UInt8}
    (hp : p ∈ operands argv.tail) :
    ∃ q', parseArguments (alone argv p)=some q' ∧ q'.flags=q.flags := by
  rw [parseArguments_eq_options,Option.map_eq_some_iff] at hq
  obtain ⟨flags,hflags,rfl⟩ := hq
  have halone := parseArguments_eq_options (alone argv p)
  rw [(operands_alone hp).1,hflags] at halone
  exact ⟨_,halone,rfl⟩

/-- If `main` returns `0`, then so does `ls`, with the output in the frame. -/
theorem lsMain_of_main (hq : parseArguments argv=some q) (h : (main sys fuel argv).result=.ok 0) :
    ∃ es, lsMain sys fuel (operands argv.tail) q.flags=Traced.done es 0 ∧
      main sys fuel argv=Traced.done (framed es) 0 := by
  have hls : lsMain sys fuel (operands argv.tail) q.flags=
      ls sys fuel [] (Slots.new 0) q.paths q.flags := by
    rw [paths_eq_operands hq]
    rfl
  rw [main_of_parsed hq,listParsed] at h
  obtain ⟨_,-,h,-⟩ := Traced.bind_ok h
  obtain ⟨err,herr,-,-⟩ := Traced.bind_ok h
  obtain rfl := ls_returnsZero (parsed_list hq) fuel [] _ _ err herr
  have hdone : lsMain sys fuel (operands argv.tail) q.flags=
      Traced.done (ls sys fuel [] (Slots.new 0) q.paths q.flags).events 0 := by
    rw [hls,Traced.done,← herr]
  exact ⟨_,hdone,main_of_lsMain hq hdone⟩

/-- The output for the operands that `print_dir` has listed. -/
theorem main_of_printDirs (hq : parseArguments argv=some q) {T : List UInt8 → List Event}
    (h : ∀ p ∈ operandsOrDot (operands argv.tail),
      printDir sys (ls sys fuel) p q.flags=Traced.done (T p) 0) :
    main sys (fuel+1) argv=
      Traced.done (framed (lsOutput ((operandsOrDot (operands argv.tail)).map fun p => (p,T p)))) 0 := by
  apply main_of_lsMain hq
  have hbody := lsBody_done sys (fun fullPath => printDir sys (ls sys fuel) fullPath q.flags) [] T
    (parsed_list hq) (deref_operands (Slots.new 0) (operands argv.tail))
    (fun p hp => by rw [concatPath_nil]; exact h p hp)
  simpa only [lsMain,ls,concatPath_nil] using hbody

/-- If `main` returns `0`, then so does `print_dir` on every operand. -/
theorem printDirs_of_main (hq : parseArguments argv=some q)
    (h : (main sys (fuel+1) argv).result=.ok 0) :
    ∀ p ∈ operandsOrDot (operands argv.tail), printDir sys (ls sys fuel) p q.flags=
      Traced.done (printDir sys (ls sys fuel) p q.flags).events 0 := by
  obtain ⟨es,hls,-⟩ := lsMain_of_main hq h
  intro p hp
  have hok := printDir_operand_ok (parsed_list hq) (congrArg Traced.result hls) p hp
  rw [Traced.done,← hok]

theorem framed_injective : Function.Injective framed := by
  intro es es' h
  exact List.append_cancel_right (List.cons.inj h).2

/-- `main` with a single operand does what `print_dir` does on it. -/
theorem main_alone_iff (hq : parseArguments argv=some q) {p : List UInt8}
    (hp : p ∈ operands argv.tail) (es : List Event) :
    main sys (fuel+1) (alone argv p)=Traced.done (framed (countLine 1::es)) 0 ↔
      printDir sys (ls sys fuel) p q.flags=Traced.done es 0 := by
  obtain ⟨q',hq',hflags⟩ := parseArguments_alone hq hp
  have hops : operandsOrDot (operands (alone argv p).tail)=[p] := by
    rw [(operands_alone hp).2]
    rfl
  have hmain : ∀ es, printDir sys (ls sys fuel) p q.flags=Traced.done es 0 →
      main sys (fuel+1) (alone argv p)=Traced.done (framed (countLine 1::es)) 0 := by
    intro es h
    have hrun := main_of_printDirs (T := fun _ => es) hq' (by
      rw [hops,hflags]
      simpa using h)
    rw [hops] at hrun
    exact hrun
  constructor
  · intro h
    have hprint := printDirs_of_main hq' (congrArg Traced.result h) p (by rw [hops]; simp)
    rw [hflags] at hprint
    have hsame := congrArg Traced.events (h.symm.trans (hmain _ hprint))
    rw [(List.cons.inj (framed_injective hsame)).2]
    exact hprint
  · exact hmain es

/-- `ls` with several operands returns `0` exactly when it does with each of them alone, and then it
prints for each of them, under a heading, what it prints for it alone. -/
theorem main_operands_compose (hq : parseArguments argv=some q) (hne : operands argv.tail≠[]) :
    ((main sys (fuel+1) argv).result=.ok 0 ↔
      ∀ p ∈ operands argv.tail, (main sys (fuel+1) (alone argv p)).result=.ok 0) ∧
    ∀ T : List UInt8 → List Event, (∀ p ∈ operands argv.tail,
      main sys (fuel+1) (alone argv p)=Traced.done (framed (countLine 1::T p)) 0) →
      main sys (fuel+1) argv=
        Traced.done (framed (lsOutput ((operands argv.tail).map fun p => (p,T p)))) 0 := by
  have hdot : operandsOrDot (operands argv.tail)=operands argv.tail := if_neg hne
  have hcompose : ∀ T : List UInt8 → List Event, (∀ p ∈ operands argv.tail,
      main sys (fuel+1) (alone argv p)=Traced.done (framed (countLine 1::T p)) 0) →
      main sys (fuel+1) argv=
        Traced.done (framed (lsOutput ((operands argv.tail).map fun p => (p,T p)))) 0 := by
    intro T hT
    have hrun := main_of_printDirs (T := T) hq (by
      rw [hdot]
      exact fun p hp => (main_alone_iff hq hp (T p)).mp (hT p hp))
    rwa [hdot] at hrun
  refine ⟨⟨?_,?_⟩,hcompose⟩
  · intro h p hp
    have hprint := printDirs_of_main hq h p (hdot.symm ▸ hp)
    exact congrArg Traced.result ((main_alone_iff hq hp _).mpr hprint)
  · intro h
    have hT : ∀ p ∈ operands argv.tail, main sys (fuel+1) (alone argv p)=
        Traced.done (framed (countLine 1::(printDir sys (ls sys fuel) p q.flags).events)) 0 := by
      intro p hp
      obtain ⟨q',hq',hflags⟩ := parseArguments_alone hq hp
      have hprint := printDirs_of_main hq' (h p hp) p (by rw [(operands_alone hp).2]; simp [operandsOrDot])
      rw [hflags] at hprint
      exact (main_alone_iff hq hp _).mpr hprint
    exact congrArg Traced.result (hcompose _ hT)

theorem main_operands_compose_two :
    (main (terminal 9 sampleDir) 1 [text "ls",text "d",text "-r",text "e"]).result=.ok 0 ↔
      ∀ p ∈ [text "d",text "e"],
        (main (terminal 9 sampleDir) 1 (alone [text "ls",text "d",text "-r",text "e"] p)).result=.ok 0 :=
  (@main_operands_compose (terminal 9 sampleDir) 0 [text "ls",text "d",text "-r",text "e"]
    ⟨{ defaultFlags with reverse := true },
      [CharPtr.string (text "d"),.string (text "e")].foldl Slots.insert (Slots.new 0)⟩ (by decide)
    (by decide)).1

end Operands

end Ls
end NeOs
