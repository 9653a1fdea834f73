import NeOs.Ls.Memory
import NeOs.Ls.Trace

/-! The memory of `ls` over whole runs. With its memory `ls` does what the model without memory does,
so that it never releases or uses a block that is not allocated, but for reads through a pointer into
`names`. Such a pointer dangles in the one exactly when its version is out of date in the other. What
a run leaves allocated is one block `map` for each listing. -/
namespace NeOs
open Library Stateful
namespace Ls
namespace Memory

/-- From `s` to `t` no released block has come back, and all directory streams that were opened have
been closed, one before the next. -/
structure After (s t : Memory) : Prop where
  later : s.blocks.Later t.blocks
  streams : t.streams=s.streams
  peak : t.peak ≤ max s.peak 1

theorem After.refl (s : Memory) : After s s := ⟨.refl _,rfl,le_max_left _ _⟩

theorem After.trans {s t u : Memory} (h : After s t) (h' : After t u) : After s u :=
  ⟨h.later.trans h'.later,h'.streams.trans h.streams,
    h'.peak.trans (max_le h.peak (le_max_right _ _))⟩

/-- There is never more than one directory stream. -/
def Single (s : Memory) : Prop := s.peak ≤ 1

theorem After.single {s t : Memory} (h : After s t) (hs : s.Single) : t.Single :=
  h.peak.trans (max_le hs le_rfl)

section Heap
variable {s : Memory} {b n : ℕ} {M : Multiset (ℕ × ℕ)}

theorem yields_malloc (s : Memory) (size : ℕ) :
    Yields s (malloc size) fun b t => t.blocks.live={(b,size)}+s.blocks.live ∧ After s t :=
  ⟨_,_,rfl,rfl,.alloc _ _,rfl,le_max_left _ _⟩

theorem yields_touch (h : s.blocks.IsLive b) : Yields s (touch b) fun _ t => t=s :=
  ⟨(),s,by rw [touch,if_pos h]; rfl,rfl⟩

theorem yields_free (h : s.blocks.live={(b,n)}+M) :
    Yields s (free b) fun _ t => t.blocks.live=M ∧ After s t ∧ t.blocks.Dead b := by
  have hlive := Blocks.isLive_of_eq h
  refine ⟨(),{ s with blocks := s.blocks.release b },?_,Blocks.release_live h,
    ⟨.release _ _,rfl,le_max_left _ _⟩,Blocks.release_dead hlive⟩
  rw [free,if_pos hlive]
  rfl

theorem yields_realloc (h : s.blocks.live={(b,n)}+M) (size : ℕ) :
    Yields s (realloc b size) fun c t =>
      t.blocks.live={(c,size)}+M ∧ After s t ∧ t.blocks.Dead b := by
  refine (yields_free h).bind fun _ t ht => ?_
  obtain ⟨hlive,hafter,hdead⟩ := ht
  refine (yields_malloc t size).imp fun c u hu => ?_
  exact ⟨hlive ▸ hu.1,hafter.trans hu.2,hu.2.later.dead hdead⟩

end Heap

section Vectors
variable {α : Type} {s : Memory} {M : Multiset (ℕ × ℕ)}

/-- The block of a vector, with the size that `dynamic` and `dynamic_grow` ask for. -/
def Vec.held (v : Vec α) : ℕ × ℕ := (v.block,sizeofDynamic+v.slots.capacity*v.elementSize)

/-- The vector has become `w`. It is in the same block, or the old one is dead. -/
def Vec.Moved (v w : Vec α) (t : Memory) : Prop :=
  (w.block=v.block ∧ w.slots.version=v.slots.version) ∨
    (t.blocks.Dead v.block ∧ w.slots.version=v.slots.version+1)

theorem yields_dynamic (s : Memory) (elementSize initialCapacity : ℕ) :
    Yields s (dynamic elementSize initialCapacity) fun (v : Vec α) t =>
      v.slots=Slots.new initialCapacity ∧ t.blocks.live={v.held}+s.blocks.live ∧ After s t := by
  refine (yields_malloc s _).bind fun b t ht => .pure ⟨rfl,?_,ht.2⟩
  rw [ht.1]
  rfl

theorem yields_dynamicInsert {v : Vec α} (h : s.blocks.live={v.held}+M) (a : α) :
    Yields s (dynamicInsert v a) fun w t =>
      w.slots=v.slots.insert a ∧ t.blocks.live={w.held}+M ∧ After s t ∧ v.Moved w t := by
  unfold dynamicInsert
  by_cases hfull : v.slots.length=v.slots.capacity
  · rw [if_pos hfull]
    refine (yields_realloc h _).bind fun b t ht => .pure ⟨rfl,?_,ht.2.1,Or.inr ⟨ht.2.2,?_⟩⟩
    · rw [ht.1,Vec.held,Slots.insert,if_pos hfull]
    · rw [Slots.insert,if_pos hfull]
  · rw [if_neg hfull]
    refine (yields_touch (Blocks.isLive_of_eq h)).bind fun _ t ht => .pure ?_
    subst ht
    refine ⟨rfl,?_,.refl _,Or.inl ⟨rfl,?_⟩⟩
    · rw [h,Vec.held,Vec.held,Slots.insert,if_neg hfull]
    · rw [Slots.insert,if_neg hfull]

theorem yields_dynamicFree {v : Vec α} (h : s.blocks.live={v.held}+M) :
    Yields s (dynamicFree v) fun _ t => t.blocks.live=M ∧ After s t :=
  (yields_free h).imp fun _ _ ht => ⟨ht.1,ht.2.1⟩

end Vectors

section Reading
variable {s t : Memory} {M : Multiset (ℕ × ℕ)}

/-- A pointer into `names`, as an address and as a reference: both are current or neither is. -/
inductive Refers (names : Vec (List UInt8)) (m : Blocks) : Ptr → CharPtr → Prop
  | current (idx : ℕ) : Refers names m (.inBlock names.block idx) (.slot names.slots.version idx)
  | stale {b version : ℕ} (idx : ℕ) (dead : m.Dead b) (lt : version < names.slots.version) :
    Refers names m (.inBlock b idx) (.slot version idx)

theorem Refers.moved {v w : Vec (List UInt8)} {p : Ptr} {q : CharPtr} (h : Refers v s.blocks p q)
    (hafter : After s t) (hmoved : v.Moved w t) : Refers w t.blocks p q := by
  cases h with
  | current idx =>
    rcases hmoved with ⟨hblock,hversion⟩ | ⟨hdead,hversion⟩
    · rw [← hblock,← hversion]
      exact .current idx
    · exact .stale idx hdead (by omega)
  | stale idx hdead hlt =>
    refine .stale idx (hafter.later.dead hdead) ?_
    rcases hmoved with ⟨-,hversion⟩ | ⟨-,hversion⟩ <;> omega

theorem Refers.later {v : Vec (List UInt8)} {p : Ptr} {q : CharPtr} (h : Refers v s.blocks p q)
    (hafter : After s t) : Refers v t.blocks p q :=
  h.moved hafter (Or.inl ⟨rfl,rfl⟩)

/-- The blocks of the four vectors. -/
def Locals.held (l : Locals) : Multiset (ℕ × ℕ) :=
  {l.names.held}+({l.types.held}+({l.ino.held}+{l.dirs.held}))

/-- The local variables `l` hold what `p` holds, and their blocks are allocated besides `M`. -/
structure Reads (M : Multiset (ℕ × ℕ)) (l : Locals) (p : Ls.Locals) (t : Memory) : Prop where
  live : t.blocks.live=l.held+M
  maxSize : l.maxSize=p.maxSize
  names : l.names.slots=p.names
  types : l.types.slots=p.types
  ino : l.ino.slots=p.ino
  dirs : List.Forall₂ (Refers l.names t.blocks) l.dirs.slots.elems p.dirs.elems
  i : l.i=p.i

theorem insert_elems {α : Type*} (v : Slots α) (a : α) : (v.insert a).elems=v.elems++[a] := by
  unfold Slots.insert
  split_ifs <;> rfl

theorem forall₂_concat {α β : Type*} {R : α → β → Prop} {xs : List α} {ys : List β} {a : α} {b : β}
    (h : List.Forall₂ R xs ys) (hab : R a b) : List.Forall₂ R (xs++[a]) (ys++[b]) :=
  List.rel_append h (.cons hab .nil)

/-- The pointer to a subdirectory is taken from `names` as it is after the insertion. -/
theorem yields_insertDir {l : Locals} {names : Vec (List UInt8)} {dirs : Slots CharPtr} {i : ℕ}
    (e : Dirent) (hlive : t.blocks.live={l.dirs.held}+M)
    (hdirs : List.Forall₂ (Refers names t.blocks) l.dirs.slots.elems dirs.elems) (hi : l.i=i) :
    Yields t (if descends e then dynamicInsert l.dirs (.inBlock names.block l.i) else pure l.dirs)
      fun w u => u.blocks.live={w.held}+M ∧ After t u ∧
        List.Forall₂ (Refers names u.blocks) w.slots.elems
          (if descends e then dirs.insert (.slot names.slots.version i) else dirs).elems := by
  by_cases hd : descends e
  · rw [if_pos hd,if_pos hd]
    refine (yields_dynamicInsert hlive _).imp fun w u hu => ⟨hu.2.1,hu.2.2.1,?_⟩
    rw [hu.1,insert_elems,insert_elems,hi]
    exact forall₂_concat (hdirs.imp fun _ _ h => h.later hu.2.2.1) (.current i)
  · rw [if_neg hd,if_neg hd]
    exact .pure ⟨hlive,.refl t,hdirs⟩

/-- One entry. -/
theorem yields_readEntry (flags : Flags) {l : Locals} {p : Ls.Locals} (h : Reads M l p t)
    (e : Dirent) :
    Yields t (readEntry flags l e) fun l' u => Reads M l' (Ls.readEntry flags p e) u ∧ After t u := by
  unfold readEntry Ls.readEntry
  by_cases hv : visible flags e
  · rw [if_pos hv,if_pos hv]
    have hn : t.blocks.live={l.names.held}+({l.types.held}+({l.ino.held}+{l.dirs.held})+M) := by
      rw [h.live,Locals.held,add_assoc]
    refine (yields_dynamicInsert hn e.dName).bind fun names t₁ h₁ => ?_
    have ht : t₁.blocks.live={l.types.held}+({names.held}+({l.ino.held}+{l.dirs.held})+M) := by
      rw [h₁.2.1]
      abel
    refine (yields_dynamicInsert ht e.dType).bind fun types t₂ h₂ => ?_
    have hi : t₂.blocks.live={l.ino.held}+({names.held}+({types.held}+{l.dirs.held})+M) := by
      rw [h₂.2.1]
      abel
    refine (yields_dynamicInsert hi e.dIno).bind fun ino t₃ h₃ => ?_
    have hd : t₃.blocks.live={l.dirs.held}+({names.held}+({types.held}+{ino.held})+M) := by
      rw [h₃.2.1]
      abel
    have hafter := h₁.2.2.1.trans (h₂.2.2.1.trans h₃.2.2.1)
    have hdirs : List.Forall₂ (Refers names t₃.blocks) l.dirs.slots.elems p.dirs.elems :=
      h.dirs.imp fun _ _ hr =>
        (hr.moved h₁.2.2.1 h₁.2.2.2).later (h₂.2.2.1.trans h₃.2.2.1)
    refine (yields_insertDir e hd hdirs h.i).bind fun dirs u hu => .pure ⟨?_,hafter.trans hu.2.1⟩
    refine ⟨?_,?_,?_,?_,?_,?_,?_⟩
    · rw [hu.1,Locals.held]
      abel
    · rw [h.maxSize]
    · rw [h₁.1,h.names]
    · rw [h₂.1,h.types]
    · rw [h₃.1,h.ino]
    · rw [← h.names,← h₁.1]
      exact hu.2.2
    · rw [h.i]
  · rw [if_neg hv,if_neg hv]
    exact .pure ⟨h,.refl t⟩

/-- The loop over the directory stream. -/
theorem yields_readEntries (flags : Flags) {l : Locals} {p : Ls.Locals} (h : Reads M l p t)
    (entries : List Dirent) :
    Yields t (entries.foldlM (readEntry flags) l) fun l' u =>
      Reads M l' (entries.foldl (Ls.readEntry flags) p) u ∧ After t u :=
  Yields.foldlM (R := fun l p u => Reads M l p u ∧ After t u)
    (fun _ _ _ e hl => (yields_readEntry flags hl.1 e).imp fun _ _ hu => ⟨hu.1,hl.2.trans hu.2⟩)
    entries ⟨h,.refl t⟩

theorem yields_closedir (h : s.streams≠0) :
    Yields s closedir fun _ t => t.blocks=s.blocks ∧ t.streams=s.streams-1 ∧ t.peak=s.peak :=
  ⟨(),{ s with streams := s.streams-1 },by rw [closedir,if_neg h]; rfl,rfl,rfl,rfl⟩

theorem yields_openStream (s : Memory) :
    Yields s openStream fun _ t =>
      t.blocks=s.blocks ∧ t.streams=s.streams+1 ∧ t.peak=max s.peak (s.streams+1) :=
  ⟨(),_,rfl,rfl,rfl,rfl⟩

/-- What `read_dir` returns, and the memory it leaves. -/
inductive ReadResult (s : Memory) : Option Locals → Option Ls.Locals → Memory → Prop
  | unopened : ReadResult s none none s
  | read {l : Locals} {p : Ls.Locals} {t : Memory} (reads : Reads s.blocks.live l p t)
    (after : After s t) : ReadResult s (some l) (some p) t

theorem simulates_readDir (hs : s.Single) (hstreams : s.streams=0) (sys : System)
    (path : List UInt8) (flags : Flags) :
    Simulates flaw Single s (readDir sys path flags) (Ls.readDir sys path flags)
      fun _ a b t => ReadResult s a b t := by
  unfold readDir Ls.readDir
  refine simulates_lift_bind hs fun _ _ => ?_
  cases sys.opendir path with
  | none => exact simulates_pure .unopened
  | some entries =>
    refine (yields_openStream s).simulates fun _ u₀ h₀ => ?_
    rw [hstreams] at h₀
    refine (yields_dynamic u₀ 256 0).simulates fun names u₁ h₁ => ?_
    refine (yields_dynamic u₁ 1 0).simulates fun types u₂ h₂ => ?_
    refine (yields_dynamic u₂ 8 0).simulates fun ino u₃ h₃ => ?_
    refine (yields_dynamic u₃ 8 0).simulates fun dirs u₄ h₄ => ?_
    have hreads : Reads s.blocks.live ⟨0,names,types,ino,dirs,0⟩ noEntries u₄ := by
      refine ⟨?_,rfl,h₁.1,h₂.1,h₃.1,?_,rfl⟩
      · rw [h₄.2.1,h₃.2.1,h₂.2.1,h₁.2.1,h₀.1,Locals.held]
        abel
      · rw [h₄.1]
        exact .nil
    have hafter := h₁.2.2.trans (h₂.2.2.trans (h₃.2.2.trans h₄.2.2))
    refine (yields_readEntries flags hreads entries).simulates fun l u hu => ?_
    have hloop := hafter.trans hu.2
    have hone : u.streams=1 := hloop.streams.trans h₀.2.1
    refine (yields_closedir (by omega)).simulates fun _ v hv => simulates_pure (.read ?_ ?_)
    · obtain ⟨hlive,hmax,hnames,htypes,hino,hdirs,hi⟩ := hu.1
      exact ⟨by rw [hv.1,hlive],hmax,hnames,htypes,hino,by rw [hv.1]; exact hdirs,hi⟩
    · refine ⟨?_,?_,?_⟩
      · rw [hv.1,← h₀.1]
        exact hloop.later
      · omega
      · have hpeak := hloop.peak
        rw [h₀.2.2] at hpeak
        omega

end Reading

section Listing
variable {s t : Memory} {M : Multiset (ℕ × ℕ)}

theorem yields_pad {l : Locals} {p : Ls.Locals} (h : Reads M l p t) (size : ℕ) :
    Yields t (pad l size) fun l' u => Reads M l' (Ls.pad p size) u ∧ After t u := by
  unfold pad Ls.pad
  rw [h.names]
  refine Yields.foldlM (R := fun l p u => Reads M l p u ∧ After t u) ?_ _ ⟨h,.refl t⟩
  rintro l p u - ⟨h,hafter⟩
  have hn : u.blocks.live={l.names.held}+({l.types.held}+({l.ino.held}+{l.dirs.held})+M) := by
    rw [h.live,Locals.held,add_assoc]
  refine (yields_dynamicInsert hn []).bind fun names u₁ h₁ => ?_
  have ht : u₁.blocks.live={l.types.held}+({names.held}+({l.ino.held}+{l.dirs.held})+M) := by
    rw [h₁.2.1]
    abel
  refine (yields_dynamicInsert ht dtUnknown).bind fun types u₂ h₂ => .pure ⟨?_,?_⟩
  · refine ⟨?_,h.maxSize,?_,?_,h.ino,?_,h.i⟩
    · rw [h₂.2.1,Locals.held]
      abel
    · rw [h₁.1,h.names]
    · rw [h₂.1,h.types]
    · exact h.dirs.imp fun _ _ hr => (hr.moved h₁.2.2.1 h₁.2.2.2).later h₂.2.2.1
  · exact hafter.trans (h₁.2.2.1.trans h₂.2.2.1)

theorem printCell_plain {l : Locals} {p : Ls.Locals} (h : Reads M l p t) (map sizes : List ℕ)
    (colums rows : ℕ) : printCell l.plain map sizes colums rows=printCell p map sizes colums rows := by
  funext i
  simp only [printCell,Locals.plain,h.names,h.types]

/-- `print_dir` between reading the directory and recursing. -/
theorem simulates_listDir (hs : s.Single) (hafter : After s t) (sys : System) (flags : Flags)
    {l : Locals} {p : Ls.Locals} (h : Reads M l p t) :
    Simulates flaw Single t (listDir sys flags l) (Ls.listDir sys flags p) fun _ r p' u =>
      ∃ n b, Reads ({(r.2,n)}+({(b,p'.names.length*8)}+M)) r.1 p' u ∧ After s u := by
  unfold listDir Ls.listDir
  simp only [h.names,h.maxSize]
  generalize getStdoutWidth sys/(p.maxSize+2)=colums
  refine simulates_lift_bind (hafter.single hs) fun rows _ => ?_
  refine (yields_pad h _).simulates fun l₁ u₁ h₁ => ?_
  obtain ⟨hr,hafter₁⟩ := h₁
  refine (yields_malloc u₁ _).simulates fun b u₂ h₂ => ?_
  have hn : u₂.blocks.live={l₁.names.held}+({(b,l₁.names.slots.length*8)}+
      ({l₁.types.held}+({l₁.ino.held}+{l₁.dirs.held})+M)) := by
    rw [h₂.1,hr.live,Locals.held]
    abel
  refine (yields_touch (Blocks.isLive_of_eq hn)).simulates fun _ u h₃ => ?_
  subst h₃
  refine (yields_malloc u _).simulates fun c v hv => ?_
  have hafter₂ := hafter.trans (hafter₁.trans (h₂.2.trans hv.2))
  have hsingle := hafter₂.single hs
  have hlive : v.blocks.live=l₁.held+({(c,colums*8)}+({(b,l₁.names.slots.length*8)}+M)) := by
    rw [hv.1,h₂.1,hr.live]
    abel
  have hmap : v.blocks.live={(b,l₁.names.slots.length*8)}+({(c,colums*8)}+(l₁.held+M)) := by
    rw [hlive]
    abel
  have htypes : v.blocks.live={l₁.types.held}+({l₁.names.held}+({l₁.ino.held}+{l₁.dirs.held})+
      ({(c,colums*8)}+({(b,l₁.names.slots.length*8)}+M))) := by
    rw [hlive,Locals.held]
    abel
  have hreads : Reads ({(c,colums*8)}+({(b,(Ls.pad p (colums*rows)).names.length*8)}+M)) l₁
      (Ls.pad p (colums*rows)) v := by
    refine ⟨?_,hr.maxSize,hr.names,hr.types,hr.ino,?_,hr.i⟩
    · rw [hlive,hr.names]
    · exact hr.dirs.imp fun _ _ hp => hp.later (h₂.2.trans hv.2)
  rw [hr.names]
  refine simulates_lift_bind hsingle fun sizes _ => ?_
  refine (yields_touch (Blocks.isLive_of_eq hmap)).simulates fun _ w hw => ?_
  subst hw
  refine (yields_touch (Blocks.isLive_of_eq htypes)).simulates fun _ w hw => ?_
  subst hw
  rw [printCell_plain hr]
  refine simulates_lift_bind hsingle fun _ _ => ?_
  refine simulates_lift_bind hsingle fun _ _ => ?_
  split_ifs
  · exact simulates_lift_bind hsingle fun _ _ => simulates_pure ⟨colums*8,b,hreads,hafter₂⟩
  · exact simulates_pure ⟨colums*8,b,hreads,hafter₂⟩

end Listing

section Leaving
variable (sys : System) (flags : Flags)

/-- The size of the block `map` for a directory, if its listing has one. -/
def mapBytes (path : List UInt8) : Option ℕ :=
  (sys.opendir path).bind fun entries =>
    if visibleEntries flags entries=[] then none
    else some (gridSize sys.wsCol (visibleEntries flags entries)*8)

/-- The sizes of the blocks `map` for the directories that are opened, in their order. -/
def mapsOf (es : List Event) : List ℕ :=
  es.filterMap fun
    | .opendir path => mapBytes sys flags path
    | .put _ => none

/-- Both computations return `0`. Of what has been allocated since `s` the blocks `map` are left,
besides `M`. -/
structure Leaves (M : Multiset (ℕ × ℕ)) (s : Memory) (es : List Event) (r r' : ℤ) (t : Memory) :
    Prop where
  code : r=0
  code' : r'=0
  after : After s t
  maps : ∃ L, t.blocks.live=L+M ∧ L.map Prod.snd=(mapsOf sys flags es : Multiset ℕ)

@[simp] theorem mapsOf_append (es es' : List Event) :
    mapsOf sys flags (es++es')=mapsOf sys flags es++mapsOf sys flags es' :=
  List.filterMap_append

@[simp] theorem mapsOf_put (bytes : List UInt8) (es : List Event) :
    mapsOf sys flags (.put bytes::es)=mapsOf sys flags es := rfl

@[simp] theorem mapsOf_nil : mapsOf sys flags []=[] := rfl

theorem mapsOf_of_puts {es : List Event} (h : ∀ ev ∈ es, ∃ bytes, ev=.put bytes) :
    mapsOf sys flags es=[] := by
  rw [mapsOf,List.filterMap_eq_nil_iff]
  intro ev hev
  obtain ⟨bytes,rfl⟩ := h ev hev
  rfl

theorem mapsOf_opendir (path : List UInt8) :
    mapsOf sys flags [.opendir path]=(mapBytes sys flags path).toList := by
  rw [mapsOf]
  cases h : mapBytes sys flags path <;> simp [h]

variable {sys flags}

theorem Leaves.put {M : Multiset (ℕ × ℕ)} {s t : Memory} {es : List Event} {r r' : ℤ}
    (h : Leaves sys flags M s es r r' t) (bytes : List UInt8) :
    Leaves sys flags M s (.put bytes::es) r r' t :=
  ⟨h.code,h.code',h.after,h.maps⟩

theorem mapBytes_listed {path : List UInt8} {entries : List Dirent}
    (hopen : sys.opendir path=some entries) (hvis : visibleEntries flags entries≠[]) :
    mapBytes sys flags path=some (gridSize sys.wsCol (visibleEntries flags entries)*8) := by
  rw [mapBytes,hopen,Option.bind_some,if_neg hvis]

end Leaving

section Pointers
variable {s t : Memory} {M : Multiset (ℕ × ℕ)} {names : Slots (List UInt8)}

/-- A pointer in `dirs`, as `ls` gets it: an address in a block of `M` and a current reference, or a
dead address and a stale reference. -/
inductive Points (names : Slots (List UInt8)) (M : Multiset (ℕ × ℕ)) (m : Blocks) :
    Ptr → CharPtr → Prop
  | string (s : List UInt8) : Points names M m (.string s) (.string s)
  | current {b : ℕ} (idx : ℕ) (mem : b ∈ M.map Prod.fst) :
    Points names M m (.inBlock b idx) (.slot names.version idx)
  | stale {b version : ℕ} (idx : ℕ) (dead : m.Dead b) (ne : version≠names.version) :
    Points names M m (.inBlock b idx) (.slot version idx)

theorem Points.later {p : Ptr} {q : CharPtr} (h : Points names M s.blocks p q) (hafter : After s t)
    (L : Multiset (ℕ × ℕ)) : Points names (L+M) t.blocks p q := by
  cases h with
  | string s => exact .string s
  | current idx hmem => exact .current idx (Blocks.mem_add hmem L)
  | stale idx hdead hne => exact .stale idx (hafter.later.dead hdead) hne

/-- The addresses and the references that `read_dir` stores are read alike. -/
theorem Refers.points {v : Vec (List UInt8)} {p : Ptr} {q : CharPtr} (h : Refers v s.blocks p q)
    (hafter : After s t) (hv : v.block ∈ M.map Prod.fst) : Points v.slots M t.blocks p q := by
  cases h with
  | current idx => exact .current idx hv
  | stale idx hdead hlt => exact .stale idx (hafter.later.dead hdead) hlt.ne

/-- A pointer is dangling exactly when its reference is stale. -/
theorem simulates_deref (hs : s.Single) {B : Multiset (ℕ × ℕ)} (hlive : s.blocks.live=B+M) {p : Ptr}
    {q : CharPtr} (h : Points names M s.blocks p q) :
    Simulates flaw Single s (deref names p) (Ls.deref names q) fun es a b t => es=[] ∧ a=b ∧ t=s := by
  cases h with
  | string s => exact simulates_pure ⟨rfl,rfl,rfl⟩
  | @current b idx hmem =>
    have hb := Blocks.isLive_of_mem hlive hmem
    rw [Ls.deref,if_pos rfl]
    have hread : Simulates flaw Single s (lift flaw (index names.elems idx)) (index names.elems idx)
        fun es a b t => es=[] ∧ a=b ∧ t=s :=
      simulates_lift hs fun _ _ => ⟨index_events _ _,rfl,rfl⟩
    unfold Simulates at hread ⊢
    simp only [deref,if_pos hb]
    exact hread
  | @stale b version idx hdead hne =>
    rw [Ls.deref,if_neg hne]
    have hfail : deref names (.inBlock b idx) s=(⟨[],.error .danglingRead⟩,s) := by
      simp only [deref,if_neg hdead.2]
      rfl
    unfold Simulates
    rw [hfail]
    exact ⟨rfl,rfl,hs⟩

end Pointers

section Recursion
variable {sys : System} {flags : Flags} {s : Memory} {M : Multiset (ℕ × ℕ)}
  {print : List UInt8 → Prog ℤ} {printP : List UInt8 → Exec ℤ}

/-- The block of `full_path`, if there is one, is allocated besides `M`. -/
inductive Buffered (M : Multiset (ℕ × ℕ)) (s : Memory) : Option ℕ → Prop
  | none (live : s.blocks.live=M) : Buffered M s none
  | some {b n : ℕ} (live : s.blocks.live={(b,n)}+M) : Buffered M s (some b)

theorem Buffered.exists_live {buf : Option ℕ} (h : Buffered M s buf) : ∃ B, s.blocks.live=B+M := by
  cases h with
  | none hlive => exact ⟨0,by rw [hlive,zero_add]⟩
  | some hlive => exact ⟨_,hlive⟩

/-- While blocks are left besides. -/
theorem Buffered.grow {t : Memory} {buf : Option ℕ} (h : Buffered M s buf) {L : Multiset (ℕ × ℕ)}
    (hL : t.blocks.live=L+s.blocks.live) : Buffered (L+M) t buf := by
  cases h with
  | none hlive => exact .none (by rw [hL,hlive])
  | @some b n hlive => exact .some (n := n) (by rw [hL,hlive]; abel)

theorem yields_concatPath {buf : Option ℕ} (h : Buffered M s buf) (s1 s2 : List UInt8) :
    Yields s (concatPath sys s1 s2 buf) fun r t =>
      r.2=NeOs.concatPath sys.stray s1 s2 ∧ Buffered M t (some r.1) ∧ After s t := by
  unfold concatPath
  cases h with
  | none hlive =>
    refine (yields_malloc s _).bind fun b t ht => .pure ⟨rfl,?_,ht.2⟩
    exact .some (hlive ▸ ht.1)
  | some hlive =>
    exact (yields_realloc hlive _).bind fun b t ht => .pure ⟨rfl,.some ht.1,ht.2.1⟩

/-- The calls of `print_dir` with and without memory. -/
def Agree (sys : System) (flags : Flags) (print : List UInt8 → Prog ℤ)
    (printP : List UInt8 → Exec ℤ) : Prop :=
  ∀ (s : Memory) (fullPath : List UInt8), s.Single → s.streams=0 →
    Simulates flaw Single s (print fullPath) (printP fullPath) (Leaves sys flags s.blocks.live s)

theorem simulates_lsEach (hprint : Agree sys flags print printP) (path : List UInt8)
    (names : Slots (List UInt8)) {dirs : ℕ} {ps : List Ptr} {qs : List CharPtr} {buf : Option ℕ}
    (hs : s.Single) (hstreams : s.streams=0) (hdirs : dirs ∈ M.map Prod.fst)
    (hd : List.Forall₂ (Points names M s.blocks) ps qs) (hbuf : Buffered M s buf) :
    Simulates flaw Single s (lsEach sys print path names dirs ps buf) (Ls.lsEach sys printP path names qs)
      (Leaves sys flags M s) := by
  induction ps generalizing qs s M buf with
  | nil =>
    cases hd
    cases hbuf with
    | none hlive => exact simulates_pure ⟨rfl,rfl,.refl s,0,by rw [hlive,zero_add],rfl⟩
    | some hlive =>
      refine (yields_free hlive).simulates fun _ t ht => simulates_pure ?_
      exact ⟨rfl,rfl,ht.2.1,0,by rw [ht.1,zero_add],rfl⟩
  | cons p ps ih =>
    cases hd with
    | @cons _ q _ qs hp hd =>
      obtain ⟨B,hlive⟩ := hbuf.exists_live
      refine (yields_touch (Blocks.isLive_of_mem hlive hdirs)).simulates fun _ t ht => ?_
      subst ht
      refine (simulates_deref hs hlive hp).bind fun name name' t _ hQ => ?_
      obtain ⟨hes,rfl,rfl⟩ := hQ
      rw [hes]
      refine (yields_concatPath hbuf path name).simulates fun r t₁ h₁ => ?_
      obtain ⟨b,fullPath⟩ := r
      obtain ⟨rfl,hb,hafter₁⟩ := h₁
      have hs₁ := hafter₁.single hs
      refine simulates_lift_bind hs₁ fun _ _ => ?_
      refine (hprint t₁ _ hs₁ (hafter₁.streams.trans hstreams)).bind fun err err' t₂ _ hl => ?_
      obtain ⟨rfl,rfl,hafter₂,L,hL,hmaps⟩ := hl
      have hs₂ := hafter₂.single hs₁
      have hafter := hafter₁.trans hafter₂
      refine simulates_lift_bind hs₂ fun _ _ => ?_
      have hd₂ : List.Forall₂ (Points names (L+M) t₂.blocks) ps qs :=
        hd.imp fun _ _ h => h.later hafter L
      refine (ih hs₂ (hafter.streams.trans hstreams) (Blocks.mem_add hdirs L) hd₂
        (hb.grow hL)).imp fun _ _ u _ hu => ?_
      obtain ⟨rfl,rfl,hafter₃,L',hL',hmaps'⟩ := hu
      refine ⟨rfl,rfl,hafter.trans hafter₃,L'+L,by rw [hL',add_assoc],?_⟩
      rw [Multiset.map_add,hmaps,hmaps']
      simp [put,Traced.emit,Traced.done,add_comm]

/-- The default operand goes into the block as it is. -/
theorem yields_withDefault {names : Slots (List UInt8)} {dirs : Vec Ptr} {dirsP : Slots CharPtr}
    (hlive : s.blocks.IsLive dirs.block) (hcap : dirs.slots.length=0 → dirs.slots.capacity≠0)
    (hd : List.Forall₂ (Points names M s.blocks) dirs.slots.elems dirsP.elems) :
    Yields s (withDefault dirs) fun w t => t=s ∧ w.block=dirs.block ∧
      List.Forall₂ (Points names M s.blocks) w.slots.elems (Ls.withDefault dirsP).elems := by
  have hlen : dirs.slots.length=dirsP.length := hd.length_eq
  unfold withDefault Ls.withDefault
  by_cases h : dirs.slots.length=0
  · have hroom : ¬dirs.slots.length=dirs.slots.capacity := by
      have hne := hcap h
      omega
    rw [if_pos h,if_pos (hlen ▸ h),dynamicInsert,if_neg hroom]
    refine (yields_touch hlive).bind fun _ t ht => .pure ⟨ht,rfl,?_⟩
    rw [insert_elems,insert_elems]
    exact forall₂_concat hd (.string _)
  · rw [if_neg h,if_neg (hlen ▸ h)]
    exact .pure ⟨rfl,rfl,hd⟩

theorem simulates_lsBody (hprint : Agree sys flags print printP) (hlist : flags.list=false)
    (path : List UInt8) (names : Slots (List UInt8)) {dirs : Vec Ptr} {dirsP : Slots CharPtr}
    (hs : s.Single) (hstreams : s.streams=0) (hlive : s.blocks.IsLive dirs.block)
    (hcap : dirs.slots.length=0 → dirs.slots.capacity≠0)
    (hd : List.Forall₂ (Points names s.blocks.live s.blocks) dirs.slots.elems dirsP.elems) :
    Simulates flaw Single s (lsBody sys print path names dirs flags)
      (Ls.lsBody sys printP path names dirsP flags) (Leaves sys flags s.blocks.live s) := by
  have hno : ¬flags.list=true := by simp [hlist]
  unfold lsBody Ls.lsBody
  rw [if_neg hno,if_neg hno]
  refine (yields_withDefault hlive hcap hd).simulates fun w t hw => ?_
  obtain ⟨rfl,hblock,hd⟩ := hw
  have hlen : w.slots.length=(Ls.withDefault dirsP).length := hd.length_eq
  rw [hlen]
  refine simulates_lift_bind hs fun _ _ => ?_
  have heach := @simulates_lsEach _ _ t t.blocks.live _ _ hprint path names w.block _ _ none hs
    hstreams (hblock ▸ hlive) hd (.none rfl)
  generalize w.slots.elems=ps at hd heach ⊢
  generalize (Ls.withDefault dirsP).elems=qs at hd heach ⊢
  rcases hd with _ | ⟨hp,_ | ⟨hq,hd⟩⟩
  · exact heach.imp fun _ _ _ _ h => h.put _
  · refine (yields_touch (hblock ▸ hlive)).simulates fun _ u hu => ?_
    subst hu
    refine (simulates_deref hs (zero_add _).symm hp).bind fun name name' u _ hQ => ?_
    obtain ⟨hes,rfl,rfl⟩ := hQ
    rw [hes]
    refine (yields_concatPath (.none rfl) path name).simulates fun r t₁ h₁ => ?_
    obtain ⟨b,fullPath⟩ := r
    obtain ⟨rfl,hb,hafter₁⟩ := h₁
    have hs₁ := hafter₁.single hs
    refine (hprint t₁ _ hs₁ (hafter₁.streams.trans hstreams)).bind fun err err' t₂ _ hl => ?_
    obtain ⟨rfl,rfl,hafter₂,L,hL,hmaps⟩ := hl
    cases hb.grow hL with
    | some hlive₂ =>
      refine (yields_free hlive₂).simulates fun _ v hv => simulates_pure ?_
      refine ⟨rfl,rfl,(hafter₁.trans hafter₂).trans hv.2.1,L,hv.1,?_⟩
      rw [hmaps]
      simp [put,Traced.emit,Traced.done]
  · exact heach.imp fun _ _ _ _ h => h.put _

/-- The calls of `ls` with and without memory. -/
def AgreeLs (sys : System) (flags : Flags) (ls : LsCall) (lsP : Ls.LsCall) : Prop :=
  ∀ (s : Memory) (path : List UInt8) (names : Slots (List UInt8)) (dirs : Vec Ptr)
    (dirsP : Slots CharPtr), s.Single → s.streams=0 → s.blocks.IsLive dirs.block →
    (dirs.slots.length=0 → dirs.slots.capacity≠0) →
    List.Forall₂ (Points names s.blocks.live s.blocks) dirs.slots.elems dirsP.elems →
    Simulates flaw Single s (ls path names dirs flags) (lsP path names dirsP flags)
      (Leaves sys flags s.blocks.live s)

variable {ls : LsCall} {lsP : Ls.LsCall} {path : List UInt8}

/-- `print_dir` in the order of the source. -/
theorem printDir_eq :
    Ls.printDir sys lsP path flags=Ls.readDir sys path flags >>= fun
      | none => pure 0
      | some p =>
        if p.names.length=0 then pure 0
        else Ls.listDir sys flags p >>= fun p =>
          (if flags.recursive=true ∧ p.dirs.length > 0 then lsP path p.names p.dirs flags else pure 0)
            >>= fun err => if err≠0 then pure (err*10) else pure 0 := by
  unfold Ls.printDir Ls.beforeLs
  rw [bind_assoc]
  congr 1
  funext r
  cases r with
  | none => rfl
  | some p =>
    simp only
    split_ifs with h
    · rfl
    · rw [bind_assoc]
      congr 1
      funext p
      split_ifs <;> rfl

/-- `print_dir` from the end of the listing on. The block `map` is part of `M`. -/
theorem simulates_afterListing (hls : AgreeLs sys flags ls lsP) {u : Memory} (hs : s.Single)
    (hstreams : s.streams=0) (hafter : After s u) {l : Locals} {p : Ls.Locals} {sizes n : ℕ}
    (h : Reads ({(sizes,n)}+M) l p u) :
    Simulates flaw Single u
      (do
        free sizes
        dynamicFree l.types
        dynamicFree l.ino
        let err ← (if flags.recursive=true ∧ l.dirs.slots.length > 0 then
          ls path l.names.slots l.dirs flags else pure 0)
        if err≠0 then pure (err*10)
        else do
          dynamicFree l.names
          dynamicFree l.dirs
          pure 0)
      ((if flags.recursive=true ∧ p.dirs.length > 0 then lsP path p.names p.dirs flags else pure 0)
        >>= fun err => if err≠0 then pure (err*10) else pure 0)
      (Leaves sys flags M s) := by
  have hsizes : u.blocks.live={(sizes,n)}+(l.held+M) := by
    rw [h.live]
    abel
  refine (yields_free hsizes).simulates fun _ u₁ h₁ => ?_
  have htypes : u₁.blocks.live={l.types.held}+({l.names.held}+({l.ino.held}+{l.dirs.held})+M) := by
    rw [h₁.1,Locals.held]
    abel
  refine (yields_dynamicFree htypes).simulates fun _ u₂ h₂ => ?_
  have hino : u₂.blocks.live={l.ino.held}+({l.names.held}+{l.dirs.held}+M) := by
    rw [h₂.1]
    abel
  refine (yields_dynamicFree hino).simulates fun _ u₃ h₃ => ?_
  have hfreed := h₁.2.1.trans (h₂.2.trans h₃.2)
  have hall := hafter.trans hfreed
  have hnames : u₃.blocks.live={l.names.held}+({l.dirs.held}+M) := by rw [h₃.1,add_assoc]
  have hdirs : u₃.blocks.live={l.dirs.held}+({l.names.held}+M) := by
    rw [hnames]
    abel
  have hlen : l.dirs.slots.length=p.dirs.length := h.dirs.length_eq
  have hsub : Simulates flaw Single u₃
      (if flags.recursive=true ∧ l.dirs.slots.length > 0 then ls path l.names.slots l.dirs flags
        else pure 0)
      (if flags.recursive=true ∧ p.dirs.length > 0 then lsP path p.names p.dirs flags else pure 0)
      (Leaves sys flags u₃.blocks.live u₃) := by
    rw [hlen]
    split_ifs with hrec
    · rw [← h.names]
      refine hls u₃ path _ _ _ (hall.single hs) (hall.streams.trans hstreams)
        (Blocks.isLive_of_eq hdirs) ?_ ?_
      · omega
      · exact h.dirs.imp fun _ _ hr => hr.points hfreed (Blocks.isLive_of_eq hnames)
    · exact simulates_pure ⟨rfl,rfl,.refl _,0,(zero_add _).symm,rfl⟩
  refine hsub.bind fun err err' v _ hv => ?_
  obtain ⟨rfl,rfl,hafter₄,L,hL,hmaps⟩ := hv
  have hn : v.blocks.live={l.names.held}+({l.dirs.held}+(L+M)) := by
    rw [hL,hnames]
    abel
  refine (yields_dynamicFree hn).simulates fun _ v₁ hv₁ => ?_
  refine (yields_dynamicFree hv₁.1).simulates fun _ v₂ hv₂ => simulates_pure ?_
  refine ⟨rfl,rfl,hall.trans (hafter₄.trans (hv₁.2.trans hv₂.2)),L,hv₂.1,?_⟩
  rw [hmaps,List.append_nil]

/-- A listing ends only on a terminal that is wide enough. -/
theorem listDir_fits {vis : List Dirent} {p : Ls.Locals}
    (h : (Ls.listDir sys flags (collected vis)).result=.ok p) : longest vis+2 ≤ sys.wsCol := by
  by_contra hw
  have hcolums : getStdoutWidth sys/((collected vis).maxSize+2)=0 := Nat.div_eq_of_lt (not_le.mp hw)
  simp only [Ls.listDir,hcolums] at h
  cases h

/-- A directory without visible entries leaves nothing. -/
theorem simulates_emptyDir {t : Memory} (hafter : After s t) {l : Locals} {p : Ls.Locals}
    (h : Reads M l p t) {es : List Event} (hmaps : mapsOf sys flags es=[]) :
    Simulates flaw Single t
      (do
        dynamicFree l.types
        dynamicFree l.ino
        dynamicFree l.names
        dynamicFree l.dirs
        pure 0)
      (pure 0) fun es' r r' u => Leaves sys flags M s (es++es') r r' u := by
  have htypes : t.blocks.live={l.types.held}+({l.ino.held}+({l.names.held}+({l.dirs.held}+M))) := by
    rw [h.live,Locals.held]
    abel
  refine (yields_dynamicFree htypes).simulates fun _ t₁ h₁ => ?_
  refine (yields_dynamicFree h₁.1).simulates fun _ t₂ h₂ => ?_
  refine (yields_dynamicFree h₂.1).simulates fun _ t₃ h₃ => ?_
  refine (yields_dynamicFree h₃.1).simulates fun _ t₄ h₄ => simulates_pure ?_
  refine ⟨rfl,rfl,hafter.trans (h₁.2.trans (h₂.2.trans (h₃.2.trans h₄.2))),0,?_,?_⟩
  · rw [h₄.1,zero_add]
  · rw [List.append_nil,hmaps]
    rfl

/-- A directory with visible entries leaves its block `map`, and what the recursion leaves. -/
theorem simulates_listed (hls : AgreeLs sys flags ls lsP) (hs : s.Single) (hstreams : s.streams=0)
    {t : Memory} (hafter : After s t) {vis : List Dirent} (hvis : vis≠[]) {l : Locals}
    (h : Reads M l (collected vis) t) {es : List Event}
    (hmaps : mapsOf sys flags es=[gridSize sys.wsCol vis*8]) :
    Simulates flaw Single t
      (do
        let (l,sizes) ← listDir sys flags l
        free sizes
        dynamicFree l.types
        dynamicFree l.ino
        let err ← (if flags.recursive=true ∧ l.dirs.slots.length > 0 then
          ls path l.names.slots l.dirs flags else pure 0)
        if err≠0 then pure (err*10)
        else do
          dynamicFree l.names
          dynamicFree l.dirs
          pure 0)
      (Ls.listDir sys flags (collected vis) >>= fun p =>
        (if flags.recursive=true ∧ p.dirs.length > 0 then lsP path p.names p.dirs flags else pure 0)
          >>= fun err => if err≠0 then pure (err*10) else pure 0)
      fun es' r r' u => Leaves sys flags M s (es++es') r r' u := by
  refine (simulates_listDir hs hafter sys flags h).bind fun r p u hp hr => ?_
  obtain ⟨l',sizes⟩ := r
  obtain ⟨n,b,hreads,hafter'⟩ := hr
  have hfit := listDir_fits hp
  rw [listDir_done sys flags hvis hfit] at hp ⊢
  obtain rfl := Except.ok.inj hp
  refine (simulates_afterListing hls hs hstreams hafter' hreads).imp fun _ _ v _ hv => ?_
  obtain ⟨rfl,rfl,hafter'',L,hL,hsizes⟩ := hv
  refine ⟨rfl,rfl,hafter'',L+{(b,gridSize sys.wsCol vis*8)},?_,?_⟩
  · rw [hL,padded_names_length (length_le_gridSize hfit),add_assoc]
  · rw [Multiset.map_add,hsizes]
    simp [hmaps,Traced.done,mapsOf_of_puts sys flags (listing_puts _ _),add_comm]

theorem simulates_printDir (hls : AgreeLs sys flags ls lsP) :
    Agree sys flags (fun path => printDir sys ls path flags)
      fun path => Ls.printDir sys lsP path flags := by
  intro s path hs hstreams
  beta_reduce
  rw [printDir_eq]
  have hread := simulates_readDir hs hstreams sys path flags
  cases hopen : sys.opendir path with
  | none =>
    rw [readDir_unopenable hopen] at hread ⊢
    refine hread.bind fun a b t hb hr => ?_
    cases hr with
    | read => cases hb
    | unopened =>
      refine simulates_pure ⟨rfl,rfl,.refl s,0,(zero_add _).symm,?_⟩
      change _=((mapsOf sys flags [.opendir path] : List ℕ) : Multiset ℕ)
      rw [mapsOf_opendir,mapBytes,hopen]
      rfl
  | some entries =>
    rw [readDir_opened hopen] at hread ⊢
    refine hread.bind fun a b t hb hr => ?_
    cases hr with
    | unopened => cases hb
    | @read l p t h hafter =>
      obtain rfl : collected (visibleEntries flags entries)=p := Option.some.inj (Except.ok.inj hb)
      have hlen : (collected (visibleEntries flags entries)).names.length=0 ↔
          visibleEntries flags entries=[] := by simp [collected]
      simp only [h.names]
      by_cases hvis : visibleEntries flags entries=[]
      · rw [if_pos (hlen.mpr hvis),if_pos (hlen.mpr hvis)]
        refine simulates_emptyDir hafter h ?_
        change mapsOf sys flags [.opendir path]=[]
        rw [mapsOf_opendir,mapBytes,hopen,Option.bind_some,if_pos hvis]
        rfl
      · rw [if_neg (mt hlen.mp hvis),if_neg (mt hlen.mp hvis)]
        refine simulates_listed hls hs hstreams hafter hvis h ?_
        change mapsOf sys flags [.opendir path]=_
        rw [mapsOf_opendir,mapBytes_listed hopen hvis]
        rfl

theorem simulates_ls (hlist : flags.list=false) (fuel : ℕ) :
    AgreeLs sys flags (Memory.ls sys fuel) (Ls.ls sys fuel) := by
  induction fuel with
  | zero =>
    intro s path names dirs dirsP hs _ _ _ _
    exact ⟨rfl,rfl,hs⟩
  | succ fuel ih =>
    intro s path names dirs dirsP hs hstreams hlive hcap hd
    exact simulates_lsBody (simulates_printDir ih) hlist path names hs hstreams hlive hcap hd

end Recursion

section Main

/-- The operands gathered so far, in the only block there is. -/
structure Operands (paths : Vec Ptr) (p : Slots CharPtr) (t : Memory) : Prop where
  live : t.blocks.live={paths.held}
  capacity : paths.slots.capacity≠0
  elems : List.Forall₂ (fun a b => ∃ str, a=Ptr.string str ∧ b=CharPtr.string str)
    paths.slots.elems p.elems

theorem yields_insertOperand {t : Memory} {paths : Vec Ptr} {p : Slots CharPtr}
    (h : Operands paths p t) (str : List UInt8) :
    Yields t (dynamicInsert paths (.string str)) fun paths' u =>
      Operands paths' (p.insert (.string str)) u ∧ After t u := by
  have hlive : t.blocks.live={paths.held}+0 := by rw [h.live,add_zero]
  refine (yields_dynamicInsert hlive _).imp fun w u hu => ⟨⟨?_,?_,?_⟩,hu.2.2.1⟩
  · rw [hu.2.1,add_zero]
  · have hne := h.capacity
    rw [hu.1,Slots.insert]
    split_ifs
    · simpa using hne
    · exact hne
  · rw [hu.1,insert_elems,insert_elems]
    exact forall₂_concat h.elems ⟨str,rfl,rfl⟩

/-- The results of the loop over the arguments. -/
inductive ParseResult : Option (Flags × Vec Ptr) → Option Parsed → Memory → Prop
  | refused {paths : Vec Ptr} {p : Slots CharPtr} {u : Memory} (operands : Operands paths p u) :
    ParseResult none none u
  | parsed {flags : Flags} {paths : Vec Ptr} {p : Slots CharPtr} {u : Memory}
    (operands : Operands paths p u) : ParseResult (some (flags,paths)) (some ⟨flags,p⟩) u

theorem yields_parseArguments (args : List (List UInt8)) (flags : Flags) {t : Memory}
    {paths : Vec Ptr} {p : Slots CharPtr} (h : Operands paths p t) :
    Yields t (parseArguments flags paths args) fun r u =>
      ParseResult r (Run.run parseArgument ⟨flags,p⟩ args) u ∧ After t u := by
  induction args generalizing flags t paths p with
  | nil => exact .pure ⟨.parsed h,.refl t⟩
  | cons str args ih =>
    rw [Run.run_cons,parseArgument,parseArguments]
    split_ifs with hdash
    · cases hopt : parseOption flags str with
      | none => exact .pure ⟨.refused h,.refl t⟩
      | some flags' => exact ih flags' h
    · refine (yields_insertOperand h str).bind fun paths' u hu => ?_
      exact (ih flags hu.1).imp fun r v hv => ⟨hv.1,hu.2.trans hv.2⟩

/-- What a run leaves allocated: the vector of the operands if the command line was refused, and
otherwise one block `map` for each directory that was opened and found to have visible entries. -/
def Remains (sys : System) (argv : List (List UInt8)) (es : List Event) (t : Memory) : Prop :=
  match Ls.parseArguments argv with
  | none => t.blocks.live.card=1
  | some p => t.blocks.live.map Prod.snd=(mapsOf sys p.flags es : Multiset ℕ)

theorem simulates_listParsed (sys : System) (fuel : ℕ) {argv : List (List UInt8)} {flags : Flags}
    {p : Slots CharPtr} (hp : Ls.parseArguments argv=some ⟨flags,p⟩) {u : Memory} (hu : After fresh u)
    {paths : Vec Ptr} (h : Operands paths p u) :
    Simulates flaw Single u
      (do
        lift flaw (put (text "\x1b[?25l"))
        let err ← ls sys fuel [] (Slots.new 0) paths flags
        if err≠0 then lift flaw (put (text "ERROR: "++decimalInt err++text "\n")) else pure ()
        lift flaw (put (text "\x1b[?25h"))
        dynamicFree paths
        pure err)
      (listParsed sys fuel ⟨flags,p⟩)
      fun es r r' t => r=r' ∧ After fresh t ∧ Remains sys argv es t := by
  have hlist : flags.list=false :=
    Run.run_invariant (fun _ _ _ hs ht => parseArgument_list hs ht) rfl hp
  have hsingle := hu.single (Nat.zero_le 1)
  have hlive : u.blocks.IsLive paths.block := Blocks.isLive_of_eq h.live
  have hd : List.Forall₂ (Points (Slots.new 0) u.blocks.live u.blocks) paths.slots.elems p.elems := by
    refine h.elems.imp ?_
    rintro _ _ ⟨str,rfl,rfl⟩
    exact .string str
  refine simulates_lift_bind hsingle fun _ _ => ?_
  refine (simulates_ls hlist fuel u [] (Slots.new 0) paths p hsingle hu.streams hlive
    (fun _ => h.capacity) hd).bind fun err err' v _ hv => ?_
  obtain ⟨rfl,rfl,hafter,L,hL,hmaps⟩ := hv
  refine simulates_lift_bind (hafter.single hsingle) fun _ _ => ?_
  have hpaths : v.blocks.live={paths.held}+L := by rw [hL,h.live,add_comm]
  refine (yields_dynamicFree hpaths).simulates fun _ w hw => simulates_pure ?_
  refine ⟨rfl,hu.trans (hafter.trans hw.2),?_⟩
  rw [Remains,hp]
  simp only
  rw [hw.1,hmaps]
  simp [put,Traced.emit,Traced.done]

theorem simulates_main (sys : System) (fuel : ℕ) (argv : List (List UInt8)) :
    Simulates flaw Single fresh (main sys fuel argv) (Ls.main sys fuel argv)
      fun es r r' t => r=r' ∧ After fresh t ∧ Remains sys argv es t := by
  have hempty : fresh.blocks.live=0 := rfl
  refine (yields_dynamic fresh 8 0).simulates fun paths t ht => ?_
  have hops : Operands paths (Slots.new 0) t := by
    refine ⟨?_,?_,?_⟩
    · rw [ht.2.1,hempty,add_zero]
    · rw [ht.1]
      exact Nat.ne_of_gt (initialCount_pos 0)
    · rw [ht.1]
      exact .nil
  refine (yields_parseArguments argv.tail defaultFlags hops).simulates fun r u hu => ?_
  obtain ⟨hr,hafter⟩ := hu
  have hsince := ht.2.2.trans hafter
  change ParseResult r (Ls.parseArguments argv) u at hr
  unfold Ls.main
  generalize hp : Ls.parseArguments argv=q at hr
  cases hr with
  | refused h =>
    refine simulates_pure ⟨rfl,hsince,?_⟩
    rw [Remains,hp]
    simp only
    rw [h.live,Multiset.card_singleton]
  | parsed h => exact simulates_listParsed sys fuel hp hsince h

/-- With its memory a run of `ls` does what it does without. It never uses or releases a block that
is not allocated, but for a read through a pointer, which it makes exactly when the pointer is found
dangling without memory, and which ends the run. It never has more than one directory stream open.
When it ends, all are closed, and what it leaves allocated is the vector of the operands if the
command line was refused, and otherwise one block `map` for each directory that it has opened and
found to have visible entries. -/
theorem main_leaves_maps (sys : System) (fuel : ℕ) (argv : List (List UInt8)) :
    (main sys fuel argv fresh).1=
      ⟨(Ls.main sys fuel argv).events,(Ls.main sys fuel argv).result.mapError flaw⟩ ∧
    (main sys fuel argv fresh).2.peak ≤ 1 ∧
    ∀ r, (Ls.main sys fuel argv).result=.ok r → (main sys fuel argv fresh).2.streams=0 ∧
      Remains sys argv (Ls.main sys fuel argv).events (main sys fuel argv fresh).2 := by
  obtain ⟨hev,hres⟩ := simulates_main sys fuel argv
  generalize main sys fuel argv fresh=m at hev hres ⊢
  obtain ⟨⟨es,result⟩,t⟩ := m
  generalize Ls.main sys fuel argv=y at hev hres ⊢
  obtain ⟨es',result'⟩ := y
  obtain rfl : es=es' := hev
  cases result' with
  | error e =>
    obtain ⟨rfl,hsingle⟩ : result=.error (flaw e) ∧ t.Single := hres
    exact ⟨rfl,hsingle,fun r hr => nomatch hr⟩
  | ok r' =>
    obtain ⟨r,rfl,rfl,hafter,hremains⟩ :
      ∃ r, result=.ok r ∧ r=r' ∧ After fresh t ∧ Remains sys argv es t := hres
    exact ⟨rfl,hafter.single (Nat.zero_le 1),fun _ _ => ⟨hafter.streams,hremains⟩⟩

end Main

end Memory
end Ls
end NeOs
