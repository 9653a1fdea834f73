import NeOs.Ls.Reading

/-! Finite trees of directories, and the file systems whose directories are such trees. A traversal
goes into the subdirectories whose names do not start with a dot. -/
namespace NeOs
open Library
namespace Ls

/-- The entry of a subdirectory, other than the links to the directory itself and its parent. -/
structure Subdir where
  entry : Dirent
  is_dir : entry.dType=dtDir
  ne_nil : entry.dName≠[]
  no_slash : slash ∉ entry.dName
  ne_self : entry.dName≠text "."
  ne_parent : entry.dName≠text ".."

namespace Subdir

abbrev name (d : Subdir) : List UInt8 := d.entry.dName

def hidden (d : Subdir) : Bool := charAt d.name 0=dot

theorem descends_eq (d : Subdir) : descends d.entry=!d.hidden := by
  by_cases h : charAt d.entry.dName 0=dot <;> simp [descends,hidden,name,d.is_dir,h]

theorem comps_name (d : Subdir) : comps d.name=[d.name] := components_of_not_mem d.ne_nil d.no_slash

end Subdir

/-- What a directory holds, in the order of `readdir`: entries that are not subtrees, subdirectories
that cannot be opened, and subdirectories with contents of their own. -/
inductive Contents
  | nil
  | other (e : Dirent) (h : e.dType=dtDir → e.dName=text "." ∨ e.dName=text "..") (rest : Contents)
  | locked (d : Subdir) (rest : Contents)
  | subdir (d : Subdir) (sub rest : Contents)

namespace Contents

def entries : Contents → List Dirent
  | nil => []
  | other e _ rest => e::rest.entries
  | locked d rest => d.entry::rest.entries
  | subdir d _ rest => d.entry::rest.entries

def subdirs : Contents → List (Subdir × Option Contents)
  | nil => []
  | other _ _ rest => rest.subdirs
  | locked d rest => (d,none)::rest.subdirs
  | subdir d sub rest => (d,some sub)::rest.subdirs

/-- The subdirectories that are not hidden. -/
def listed (c : Contents) : List (Subdir × Option Contents) := c.subdirs.filter fun s => !s.1.hidden

theorem not_descends_of_link {e : Dirent} (h : e.dType=dtDir → e.dName=text "." ∨ e.dName=text "..") :
    descends e=false := by
  have hfirst : e.dType=dtDir → charAt e.dName 0=dot := by
    intro hd
    rcases h hd with hn | hn
    · rw [hn]
      decide
    · rw [hn]
      decide
  simpa [descends] using hfirst

/-- The entries that the recursion descends into are the listed subdirectories. -/
theorem filter_descends_entries (c : Contents) :
    c.entries.filter descends=c.listed.map fun s => s.1.entry := by
  induction c with
  | nil => rfl
  | other e h rest ih => simpa [entries,listed,subdirs,not_descends_of_link h] using ih
  | locked d rest ih =>
    cases hh : d.hidden <;> simpa [entries,listed,subdirs,d.descends_eq,hh] using ih
  | subdir d sub rest _ ih =>
    cases hh : d.hidden <;> simpa [entries,listed,subdirs,d.descends_eq,hh] using ih

/-- Induction over the directories below a directory. -/
theorem listed_induction {M : Contents → Prop}
    (h : ∀ c : Contents, (∀ d sub, (d,some sub) ∈ c.listed → M sub) → M c) (c : Contents) : M c := by
  apply h
  induction c with
  | nil => simp [listed,subdirs]
  | other e _ rest ih => exact ih
  | locked d rest ih =>
    intro d' sub' hmem
    apply ih d' sub'
    cases hh : d.hidden <;> simpa [listed,subdirs,hh] using hmem
  | subdir d sub rest ihs ih =>
    intro d' sub' hmem
    have hcases : sub'=sub ∨ (d',some sub') ∈ rest.listed := by
      cases hh : d.hidden with
      | false =>
        simp only [listed,subdirs,List.filter_cons,hh,Bool.not_false,if_true,List.mem_cons,
          Prod.mk.injEq,Option.some.injEq] at hmem
        exact hmem.imp And.right id
      | true =>
        refine Or.inr ?_
        simpa [listed,subdirs,hh] using hmem
    rcases hcases with rfl | hrest
    · exact h _ ihs
    · exact ih d' sub' hrest

/-- The property holds of a directory and of every one that a traversal reaches from it. -/
inductive Deep (P : Contents → Prop) : Contents → Prop
  | intro (c : Contents) (here : P c) (below : ∀ d sub, (d,some sub) ∈ c.listed → Deep P sub) : Deep P c

theorem Deep.and_iff {P Q : Contents → Prop} {c : Contents} :
    c.Deep (fun c => P c ∧ Q c) ↔ c.Deep P ∧ c.Deep Q := by
  induction c using listed_induction with
  | h c ih =>
    constructor
    · rintro ⟨_,hc,hsub⟩
      exact ⟨⟨_,hc.1,fun d sub hs => ((ih d sub hs).mp (hsub d sub hs)).1⟩,
        ⟨_,hc.2,fun d sub hs => ((ih d sub hs).mp (hsub d sub hs)).2⟩⟩
    · rintro ⟨⟨_,hp,hps⟩,⟨_,hq,hqs⟩⟩
      exact ⟨_,⟨hp,hq⟩,fun d sub hs => (ih d sub hs).mpr ⟨hps d sub hs,hqs d sub hs⟩⟩

theorem Deep.imp {P Q : Contents → Prop} (h : ∀ c, P c → Q c) {c : Contents} (hc : c.Deep P) :
    c.Deep Q := by
  induction hc with
  | intro c here _ ih => exact ⟨c,h c here,ih⟩

/-- A directory whose subdirectories are empty. -/
theorem Deep.of_flat {P : Contents → Prop} {c : Contents}
    (hflat : ∀ d sub, (d,some sub) ∈ c.subdirs → sub=nil) (hroot : P c) (hsub : P nil) :
    c.Deep P := by
  refine ⟨_,hroot,fun d sub h => ?_⟩
  obtain rfl := hflat d sub (List.mem_filter.mp h).1
  exact ⟨_,hsub,by simp [listed,subdirs]⟩

/-- The directories below a directory in pre-order, each as the names that lead to it. -/
def visits : Contents → List (List (List UInt8))
  | nil => []
  | other _ _ rest => rest.visits
  | locked d rest => (if d.hidden then [] else [[d.name]])++rest.visits
  | subdir d sub rest =>
    (if d.hidden then [] else [d.name]::sub.visits.map (d.name::·))++rest.visits

/-- Pre-order: each listed subdirectory, followed by all that is below it. -/
theorem visits_eq (c : Contents) :
    c.visits=c.listed.flatMap fun s =>
      [s.1.name]::(s.2.elim [] visits).map (s.1.name::·) := by
  induction c with
  | nil => rfl
  | other e h rest ih => exact ih
  | locked d rest ih => cases hh : d.hidden <;> simp [visits,listed,subdirs,hh,ih]
  | subdir d sub rest _ ih => cases hh : d.hidden <;> simp [visits,listed,subdirs,hh,ih]

end Contents

/-- A file system as `opendir` shows it. A path to a directory, joined with the name of a
subdirectory, leads to that subdirectory; the empty path leads nowhere. -/
structure FileSystem where
  lookup : List UInt8 → Option Contents
  lookup_nil : lookup []=none
  lookup_join : ∀ {path c d s}, lookup path=some c → (d,s) ∈ c.subdirs →
    lookup (path++slash::d.name)=s
  lookup_join_slash : ∀ {path c d s}, lookup (path++[slash])=some c → (d,s) ∈ c.subdirs →
    lookup (path++slash::d.name)=s

namespace FileSystem

/-- The path that `ls` builds for a subdirectory leads there. -/
theorem lookup_concatPath (fs : FileSystem) (stray : UInt8) {path : List UInt8} {c : Contents}
    {d : Subdir} {s : Option Contents} (h : fs.lookup path=some c) (hs : (d,s) ∈ c.subdirs) :
    fs.lookup (concatPath stray path d.name)=s := by
  have hp : path≠[] := by
    rintro rfl
    rw [fs.lookup_nil] at h
    cases h
  rw [concatPath_name stray hp d.no_slash]
  split_ifs with hlast
  · have hpath : path=path.dropLast++[slash] := by
      rw [← hlast,List.dropLast_append_getLast]
    rw [hpath] at h ⊢
    rw [List.append_assoc,List.singleton_append]
    exact fs.lookup_join_slash h hs
  · exact fs.lookup_join h hs

/-- Induction over the directories that a traversal reaches from a path. -/
theorem path_induction (fs : FileSystem) (stray : UInt8) {M : List UInt8 → Prop}
    (unopenable : ∀ path, fs.lookup path=none → M path)
    (openable : ∀ path c, fs.lookup path=some c →
      (∀ d s, (d,s) ∈ c.listed → M (concatPath stray path d.name)) → M path)
    (path : List UInt8) : M path := by
  cases h : fs.lookup path with
  | none => exact unopenable path h
  | some c =>
    induction c using Contents.listed_induction generalizing path with
    | h c ih =>
      refine openable path c h fun d s hs => ?_
      have hlookup := fs.lookup_concatPath stray h (List.mem_filter.mp hs).1
      cases s with
      | none => exact unopenable _ hlookup
      | some sub => exact ih d sub hs _ hlookup

section OfTree

/-- The subdirectory of the given name. -/
def child (c : Contents) (name : List UInt8) : Option Contents :=
  (c.subdirs.find? fun s => s.1.name=name).bind Prod.snd

/-- Follow the names of a path; `.` stays where it is. -/
def walk : List (List UInt8) → Contents → Option Contents
  | [],c => some c
  | n::ns,c => if n=text "." then walk ns c else (child c n).bind (walk ns)

/-- No directory of the tree has two subdirectories of one name. -/
inductive Distinct : Contents → Prop
  | intro (c : Contents) (here : (c.subdirs.map fun s => s.1.name).Nodup)
    (below : ∀ d sub, (d,some sub) ∈ c.subdirs → Distinct sub) : Distinct c

theorem Distinct.of_flat {c : Contents}
    (hflat : ∀ d sub, (d,some sub) ∈ c.subdirs → sub=.nil)
    (here : (c.subdirs.map fun s => s.1.name).Nodup) : Distinct c := by
  refine ⟨c,here,fun d sub h => ?_⟩
  obtain rfl := hflat d sub h
  exact ⟨_,List.nodup_nil,by simp [Contents.subdirs]⟩

theorem walk_append (ns ms : List (List UInt8)) (c : Contents) :
    walk (ns++ms) c=(walk ns c).bind (walk ms) := by
  induction ns generalizing c with
  | nil => rfl
  | cons n ns ih =>
    simp only [List.cons_append,walk]
    split_ifs
    · exact ih c
    · cases child c n with
      | none => rfl
      | some sub => exact ih sub

theorem child_of_mem {c : Contents} {d : Subdir} {s : Option Contents}
    (hd : (c.subdirs.map fun s => s.1.name).Nodup) (h : (d,s) ∈ c.subdirs) : child c d.name=s := by
  have hfind : c.subdirs.find? (fun s => s.1.name=d.name)=some (d,s) := by
    generalize c.subdirs=l at hd h
    induction l with
    | nil => cases h
    | cons a l ih =>
      rw [List.map_cons,List.nodup_cons] at hd
      rcases List.mem_cons.mp h with rfl | hl
      · simp
      · have hne : a.1.name≠d.name := by
          intro he
          exact hd.1 (he ▸ List.mem_map_of_mem hl)
        simpa [hne] using ih hd.2 hl
  rw [child,hfind]
  rfl

theorem walk_distinct {ns : List (List UInt8)} {root c : Contents} (hroot : Distinct root)
    (h : walk ns root=some c) : Distinct c := by
  induction ns generalizing root with
  | nil =>
    obtain rfl : root=c := Option.some.inj h
    exact hroot
  | cons n ns ih =>
    simp only [walk] at h
    split_ifs at h
    · exact ih hroot h
    · obtain ⟨sub,hsub,hwalk⟩ := Option.bind_eq_some_iff.mp h
      obtain ⟨⟨d,s⟩,hfind,rfl⟩ := Option.bind_eq_some_iff.mp hsub
      obtain ⟨_,_,hbelow⟩ := hroot
      exact ih (hbelow d sub (List.mem_of_find?_eq_some hfind)) hwalk

/-- Joining a path with a name takes one more step in the tree. -/
theorem walk_join {root c : Contents} (hroot : Distinct root) {ns : List (List UInt8)} {d : Subdir}
    {s : Option Contents} (h : walk ns root=some c) (hs : (d,s) ∈ c.subdirs) :
    walk (ns++[d.name]) root=s := by
  obtain ⟨_,hnodup,_⟩ := walk_distinct hroot h
  rw [walk_append,h,Option.bind_some,walk,if_neg d.ne_self,child_of_mem hnodup hs]
  cases s <;> rfl

/-- The file system of a tree whose root is also the working directory. -/
def ofTree (root : Contents) (hroot : Distinct root) : FileSystem where
  lookup path := if path=[] then none else walk (comps path) root
  lookup_nil := rfl
  lookup_join {path c d s} h hs := by
    have hwalk : walk (comps path) root=some c := by
      split_ifs at h
      exact h
    rw [if_neg (by simp),comps_append_slash,d.comps_name]
    exact walk_join hroot hwalk hs
  lookup_join_slash {path c d s} h hs := by
    rw [if_neg (by simp),comps_trailing_slash] at h
    rw [if_neg (by simp),comps_append_slash,d.comps_name]
    exact walk_join hroot h hs

/-- The working directory is the root. -/
theorem eq_root_of_dot {root c : Contents} {hroot : Distinct root}
    (h : (ofTree root hroot).lookup (text ".")=some c) : c=root := by
  have hdot : (ofTree root hroot).lookup (text ".")=some root := rfl
  rw [hdot] at h
  exact (Option.some.inj h).symm

end OfTree

/-- The system that opens the directories of the file system. -/
def system (fs : FileSystem) (wsCol : ℕ) (qsort : Sorter ℕ) (stray : UInt8) : System :=
  { opendir := fun path => (fs.lookup path).map Contents.entries
    wsCol := wsCol
    qsort := qsort
    stray := stray }

/-- The traversal of an operand in pre-order: the components of the path of each directory. -/
def traversal (fs : FileSystem) (path : List UInt8) : List (List (List UInt8)) :=
  comps path::((fs.lookup path).elim [] Contents.visits).map (comps path++·)

end FileSystem

end Ls
end NeOs
