import NeOs.Library.Causes
import NeOs.Ls.Options
import NeOs.Ls.Trace

/-! Which directories `ls` opens, on any file system and in every run, also in one that faults or that
the fuel cuts off: its operands, and what it finds in directories that it has opened before. -/
namespace NeOs
open Library
namespace Ls

section Opening
variable (sys : System) (flags : Flags)

/-- The path that `ls` builds for an entry that the recursion descends into. -/
def ChildPath (parent path : List UInt8) : Prop :=
  flags.recursive=true ∧ ∃ entries e, sys.opendir parent=some entries ∧ e ∈ entries ∧
    descends e=true ∧ path=concatPath sys.stray parent e.dName

/-- Opening a directory is the cause of opening its subdirectories. -/
def Leads (d e : Event) : Prop :=
  ∃ parent path, d=.opendir parent ∧ e=.opendir path ∧ ChildPath sys flags parent path

/-- Of the calls of `opendir` the first ones may be on paths in `R`. -/
def Grounded (R : List UInt8 → Prop) (es : List Event) : Prop :=
  Caused (fun e => ∀ path, e=.opendir path → R path) (Leads sys flags) es

variable {sys flags} {R : List UInt8 → Prop} {α β : Type}

theorem grounded_of_puts {es : List Event} (h : ∀ ev ∈ es, ∃ bytes, ev=.put bytes) :
    Grounded sys flags R es := by
  refine Caused.of_forall fun e he path hp => ?_
  obtain ⟨bytes,rfl⟩ := h e he
  cases hp

theorem Grounded.bind {x : Exec α} {f : α → Exec β} (hx : Grounded sys flags R x.events)
    (hf : ∀ a, x.result=.ok a → Grounded sys flags R (f a).events) :
    Grounded sys flags R (x >>= f).events := by
  obtain ⟨es,r⟩ := x
  cases r with
  | error e => exact hx
  | ok a => exact Caused.append_of hx (hf a rfl)

theorem grounded_silent {x : Exec α} (h : x.events=[]) : Grounded sys flags R x.events := by
  rw [h]
  exact .nil

theorem grounded_put (bytes : List UInt8) : Grounded sys flags R (put bytes).events :=
  grounded_of_puts (by simp [put,Traced.emit,Traced.done])

theorem deref_events (names : Slots (List UInt8)) (p : CharPtr) : (deref names p).events=[] := by
  cases p with
  | string s => rfl
  | slot version idx =>
    rw [deref]
    split_ifs
    · exact index_events _ _
    · rfl

/-- The pointers in `dirs` that can be read give paths in `R`. -/
def LeadsInto (sys : System) (R : List UInt8 → Prop) (path : List UInt8)
    (names : Slots (List UInt8)) (ps : List CharPtr) : Prop :=
  ∀ p ∈ ps, ∀ name, (deref names p).result=.ok name → R (concatPath sys.stray path name)

variable {print : List UInt8 → Exec ℤ} {path : List UInt8} {names : Slots (List UInt8)}

theorem lsEach_grounded (hprint : ∀ q, R q → Grounded sys flags R (print q).events) {ps : List CharPtr}
    (h : LeadsInto sys R path names ps) :
    Grounded sys flags R (lsEach sys print path names ps).events := by
  induction ps with
  | nil => exact .nil
  | cons p ps ih =>
    refine Grounded.bind (grounded_silent (deref_events names p)) fun name hname => ?_
    refine Grounded.bind (grounded_put _) fun _ _ => ?_
    refine Grounded.bind (hprint _ (h p (by simp) name hname)) fun err _ => ?_
    split_ifs
    · exact .nil
    · exact Grounded.bind (grounded_put _) fun _ _ => ih fun q hq => h q (by simp [hq])

theorem lsBody_grounded (hprint : ∀ q, R q → Grounded sys flags R (print q).events)
    {dirs : Slots CharPtr} (h : LeadsInto sys R path names (withDefault dirs).elems) :
    Grounded sys flags R (lsBody sys print path names dirs flags).events := by
  unfold lsBody
  split_ifs
  · exact .nil
  · refine Grounded.bind (grounded_put _) fun _ _ => ?_
    generalize (withDefault dirs).elems=ps at h
    match ps,h with
    | [],h => exact lsEach_grounded hprint h
    | [p],h =>
      refine Grounded.bind (grounded_silent (deref_events names p)) fun name hname => ?_
      refine Grounded.bind (hprint _ (h p (by simp) name hname)) fun err _ => ?_
      split_ifs <;> exact .nil
    | p::q::ps,h => exact lsEach_grounded hprint h

/-- The pointers that `print_dir` hands to `ls` lead to the subdirectories of its directory. -/
theorem beforeLs_leadsInto {l : Locals} (h : (beforeLs sys path flags).result=.ok (some l)) :
    LeadsInto sys (ChildPath sys flags path) path l.names (withDefault l.dirs).elems := by
  cases hopen : sys.opendir path with
  | none =>
    rw [beforeLs_unopenable hopen] at h
    cases h
  | some entries =>
    by_cases hvis : visibleEntries flags entries=[]
    · rw [beforeLs_empty hopen hvis] at h
      cases h
    · rcases Nat.lt_or_ge sys.wsCol (longest (visibleEntries flags entries)+2) with hw | hw
      · rw [beforeLs_narrow hopen hvis hw] at h
        cases h
      · rw [beforeLs_listed hopen hvis hw] at h
        have hl := Except.ok.inj h
        split_ifs at hl with hcall
        cases hl
        have hrefs : references (visibleEntries flags entries)≠[] := List.length_pos_iff.mp hcall.2
        rw [padded_dirs,withDefault_filled hrefs,Slots.filled_elems]
        intro p hp name hname
        obtain ⟨⟨e,i⟩,hmem,rfl⟩ := List.mem_map.mp hp
        obtain ⟨hzip,hd⟩ := List.mem_filter.mp hmem
        have he := List.mk_mem_zipIdx_iff_getElem?.mp hzip
        have hsize := length_le_gridSize hw
        have hi : i < (visibleEntries flags entries).length := (List.getElem?_eq_some_iff.mp he).1
        have hname' : name=e.dName := by
          rw [deref] at hname
          split_ifs at hname
          · rw [index_done (padded_names_getElem? hsize (by omega)),he] at hname
            exact (Except.ok.inj hname).symm
          · cases hname
        have hentry := (List.mem_filter.mp (List.mem_of_getElem? he)).1
        exact ⟨hcall.1,entries,e,hopen,hentry,hd,by rw [hname']⟩

/-- `print_dir` opens its directory, and then what is below it. -/
theorem printDir_grounded {lsCall : LsCall} (hR : R path)
    (hls : ∀ names dirs, LeadsInto sys (ChildPath sys flags path) path names (withDefault dirs).elems →
      Grounded sys flags (ChildPath sys flags path) (lsCall path names dirs flags).events) :
    Grounded sys flags R (printDir sys lsCall path flags).events := by
  obtain ⟨tail,hown,hputs⟩ := ownEvents_eq sys flags path
  have hbefore : Grounded sys flags R (beforeLs sys path flags).events := by
    change Grounded sys flags R (ownEvents sys flags path)
    rw [hown]
    refine Caused.of_forall fun e he q hq => ?_
    rcases List.mem_cons.mp he with rfl | he
    · obtain rfl := Event.opendir.inj hq
      exact hR
    · obtain ⟨bytes,rfl⟩ := hputs e he
      cases hq
  unfold printDir
  generalize hx : beforeLs sys path flags=x at hbefore
  obtain ⟨es,r⟩ := x
  cases r with
  | error e => exact hbefore
  | ok r =>
    refine Caused.append hbefore ?_
    cases r with
    | none => exact .nil
    | some l =>
      have hopened : .opendir path ∈ es := by
        have hes : es=ownEvents sys flags path := by rw [ownEvents,hx]
        rw [hes,hown]
        exact List.mem_cons_self
      have hinto := beforeLs_leadsInto (by rw [hx] : (beforeLs sys path flags).result=.ok (some l))
      have hsub : Grounded sys flags (ChildPath sys flags path)
          (lsCall path l.names l.dirs flags >>= fun err =>
            if err≠0 then pure (err*10) else pure 0).events := by
        refine Grounded.bind (hls _ _ hinto) fun err _ => ?_
        split_ifs <;> exact .nil
      refine hsub.mono fun e he => ?_
      cases e with
      | put bytes => exact Or.inl fun q hq => by cases hq
      | opendir q => exact Or.inr ⟨_,hopened,path,q,rfl,rfl,he q rfl⟩

theorem ls_grounded (fuel : ℕ) {dirs : Slots CharPtr}
    (h : LeadsInto sys R path names (withDefault dirs).elems) :
    Grounded sys flags R (ls sys fuel path names dirs flags).events := by
  induction fuel generalizing R path names dirs with
  | zero => exact .nil
  | succ fuel ih => exact lsBody_grounded (fun q hq => printDir_grounded hq fun _ _ => ih) h

theorem listParsed_grounded (fuel : ℕ) {argv : List (List UInt8)} {q : Parsed}
    (hq : parseArguments argv=some q) :
    Grounded sys q.flags (· ∈ operandsOrDot (operands argv.tail)) (listParsed sys fuel q).events := by
  unfold listParsed
  refine Grounded.bind (grounded_put _) fun _ _ => ?_
  refine Grounded.bind (ls_grounded fuel ?_) fun err _ => ?_
  · rw [paths_eq_operands hq,withDefault_operands]
    intro p hp name hname
    obtain ⟨s,hs,rfl⟩ := List.mem_map.mp hp
    obtain rfl : s=name := Except.ok.inj hname
    rwa [concatPath_nil]
  · have hlast : Grounded sys q.flags (· ∈ operandsOrDot (operands argv.tail))
        (put (text "\x1b[?25h") >>= fun _ => pure err : Exec ℤ).events :=
      Grounded.bind (grounded_put _) fun _ _ => .nil
    dsimp only
    split_ifs
    · exact Grounded.bind (grounded_put _) fun _ _ => hlast
    · exact hlast

/-- Every path that a run of `ls` opens is an operand, or it was built in a recursive run from the
name of an entry, with type `DT_DIR` and no dot in front, of a directory that was opened before. So
no symbolic link is followed and no hidden directory entered, on whatever file system, and every path
extends an operand. Where no name has a slash in it and no operand a doubled one, no path has a
doubled one. Without operands the working directory `.` is the only one. -/
theorem main_grounded (sys : System) (fuel : ℕ) {argv : List (List UInt8)} {q : Parsed}
    (hq : parseArguments argv=some q) :
    (∀ pre path post, (main sys fuel argv).events=pre++.opendir path::post →
      path ∈ operandsOrDot (operands argv.tail) ∨
        ∃ parent, .opendir parent ∈ pre ∧ ChildPath sys q.flags parent path) ∧
    (∀ path, .opendir path ∈ (main sys fuel argv).events →
      ∃ p ∈ operandsOrDot (operands argv.tail), p <+: path) ∧
    ((∀ path entries, sys.opendir path=some entries → ∀ e ∈ entries, slash ∉ e.dName) →
      (∀ p ∈ operandsOrDot (operands argv.tail), SingleSlashes p) →
      ∀ path, .opendir path ∈ (main sys fuel argv).events → SingleSlashes path) := by
  rw [main_of_parsed hq]
  have hall : Grounded sys q.flags (· ∈ operandsOrDot (operands argv.tail))
      (listParsed sys fuel q).events := listParsed_grounded fuel hq
  refine ⟨fun pre path post he => ?_,fun path hpath => ?_,fun hnames hops path hpath => ?_⟩
  · rcases hall pre _ post he with hop | ⟨d,hd,parent,path',rfl,hp,hchild⟩
    · exact Or.inl (hop path rfl)
    · obtain rfl := Event.opendir.inj hp
      exact Or.inr ⟨parent,hd,hchild⟩
  · refine @Caused.forall_mem _ _ _ _ (fun e => ∀ path, e=.opendir path →
      ∃ p ∈ operandsOrDot (operands argv.tail), p <+: path) hall
      (fun e he path hp => ⟨path,he path hp,List.prefix_refl path⟩) ?_ _ hpath path rfl
    rintro d e hd ⟨parent,path,rfl,rfl,-,entries,e,-,-,-,rfl⟩ path hpath
    obtain rfl := Event.opendir.inj hpath
    obtain ⟨p,hp,hpre⟩ := hd parent rfl
    refine ⟨p,hp,hpre.trans ?_⟩
    rcases concatPath_eq_append sys.stray parent e.dName with h | h
    · rw [h,List.append_assoc]
      exact List.prefix_append _ _
    · rw [h]
      exact List.prefix_append _ _
  · refine @Caused.forall_mem _ _ _ _ (fun e => ∀ path, e=.opendir path → SingleSlashes path) hall
      (fun e he path hp => hops path (he path hp)) ?_ _ hpath path rfl
    rintro d e hd ⟨parent,path,rfl,rfl,-,entries,e,hopen,he,-,rfl⟩ path hpath
    obtain rfl := Event.opendir.inj hpath
    exact (hd parent rfl).concatPath sys.stray (hnames parent entries hopen e he)

/-- The directory `a` in the operand `d`. -/
theorem main_grounded_sample :
    (∃ parent, ChildPath (terminal 9 sampleDir) recursiveFlags parent (text "d/a")) ∧
      (∃ p ∈ [text "d"], p <+: text "d/a") ∧ SingleSlashes (text "d/a") := by
  obtain ⟨hcause,hextends,hsingle⟩ := main_grounded (terminal 9 sampleDir) 3
    (by decide : parseArguments [text "ls",text "-R",text "d"]=
      some ⟨recursiveFlags,(Slots.new 0).insert (.string (text "d"))⟩)
  have hmem : .opendir (text "d/a") ∈
      (main (terminal 9 sampleDir) 3 [text "ls",text "-R",text "d"]).events := by decide
  refine ⟨?_,hextends _ hmem,hsingle ?_ (by decide) _ hmem⟩
  · obtain ⟨pre,post,hsplit⟩ := List.append_of_mem hmem
    rcases hcause pre _ post hsplit with hop | ⟨parent,-,hchild⟩
    · exact absurd hop (by decide)
    · exact ⟨parent,hchild⟩
  · intro path entries hopen
    obtain ⟨-,rfl⟩ : path=text "d" ∧ sampleDir=entries := by simpa [terminal] using hopen
    decide

end Opening

end Ls
end NeOs
