import NeOs.Ls.Traversal

/-! The headings of a recursive listing. `ls` prints a heading for each of several directories, and
none for a single one, whether the directory comes from the command line or from the recursion. -/
namespace NeOs
open Library
namespace Ls

/-- If the second event opens a directory, then the first one is its heading. -/
def Announces (a b : Event) : Prop := ∀ path, b=.opendir path → a=heading path

/-- Every directory but the one that comes first is opened right after its heading. -/
def Attributed (es : List Event) : Prop := es.IsChain Announces

theorem announces_put (a : Event) (bytes : List UInt8) : Announces a (.put bytes) := by
  intro path h
  cases h

theorem announces_heading (path : List UInt8) : Announces (heading path) (.opendir path) := by
  rintro q ⟨⟩
  rfl

/-- The line before a single directory is not its heading: a heading ends in a colon. -/
theorem not_announces_countLine (path : List UInt8) : ¬Announces (countLine 1) (.opendir path) := by
  intro h
  have hbytes : text "count = "++text "1\n"=path++text ":\n" := Event.put.inj (h path rfl)
  exact absurd (List.append_inj' hbytes rfl).2 (by decide)

theorem attributed_of_puts {es : List Event} (h : ∀ ev ∈ es, ∃ bytes, ev=.put bytes) (a : Event) :
    Attributed (a::es) := by
  induction es generalizing a with
  | nil => exact List.isChain_singleton a
  | cons b es ih =>
    obtain ⟨bytes,rfl⟩ := h b (by simp)
    exact List.isChain_cons_cons.mpr
      ⟨announces_put a bytes,ih (fun ev hev => h ev (by simp [hev])) _⟩

/-- Output may be put between two parts. -/
theorem attributed_append_put {es es' : List Event} {bytes : List UInt8} :
    Attributed (es++.put bytes::es') ↔ Attributed es ∧ Attributed (.put bytes::es') := by
  rw [Attributed,List.isChain_append]
  constructor
  · rintro ⟨h,h',-⟩
    exact ⟨h,h'⟩
  · rintro ⟨h,h'⟩
    refine ⟨h,h',fun a _ b hb => ?_⟩
    obtain rfl : .put bytes=b := by simpa using hb
    exact announces_put a bytes

section Output
variable {ts : List (List UInt8 × List Event)} {t : List UInt8 × List Event}

/-- A listing behind its heading. -/
theorem attributed_headed (h : t.2.head?=some (.opendir t.1)) (es : List Event) :
    Attributed (headed t++es) ↔ Attributed t.2 ∧ Attributed (.put (text "\n")::es) := by
  have hsplit : headed t++es=heading t.1::(t.2++.put (text "\n")::es) := by
    simp [headed]
  rw [hsplit,← attributed_append_put,Attributed,List.isChain_cons]
  refine and_iff_right fun b hb => ?_
  rw [List.head?_append,h] at hb
  obtain rfl : .opendir t.1=b := by simpa using hb
  exact announces_heading t.1

/-- Several listings, each with its heading. -/
theorem attributed_flatMap_headed (h : ∀ t ∈ ts, t.2.head?=some (.opendir t.1))
    (bytes : List UInt8) :
    Attributed (.put bytes::ts.flatMap headed) ↔ ∀ t ∈ ts, Attributed t.2 := by
  induction ts generalizing bytes with
  | nil => simp [Attributed]
  | cons t ts ih =>
    have hput : Attributed (.put bytes::(headed t++ts.flatMap headed)) ↔
        Attributed (headed t++ts.flatMap headed) := by
      rw [Attributed,headed,List.cons_append,heading,List.isChain_cons_cons]
      exact and_iff_right (announces_put _ _)
    rw [List.flatMap_cons,hput,attributed_headed (h t (by simp)),
      ih (fun u hu => h u (by simp [hu])),List.forall_mem_cons]

/-- What `ls` emits is attributed when all its parts are and there is not just one of them. -/
theorem attributed_lsOutput (h : ∀ t ∈ ts, t.2.head?=some (.opendir t.1)) :
    Attributed (lsOutput ts) ↔ ts.length≠1 ∧ ∀ t ∈ ts, Attributed t.2 := by
  match ts with
  | [] => simp [lsOutput,Attributed]
  | [t] =>
    have hno : ¬Attributed (countLine 1::t.2) := by
      rw [Attributed,List.isChain_cons,h t (by simp)]
      exact fun hch => not_announces_countLine t.1 (hch.1 _ rfl)
    simp [lsOutput,hno]
  | t::u::ts =>
    rw [lsOutput,countLine,attributed_flatMap_headed h]
    simp

end Output

section Trace
variable {fs : FileSystem} {width : ℕ} (qsort : Sorter ℕ) (stray : UInt8) {flags : Flags}

theorem head?_trace (path : List UInt8) :
    (fs.trace width qsort stray flags path).head?=some (.opendir path) := by
  obtain ⟨tail,heq,-⟩ := ownEvents_eq (fs.system width qsort stray) flags path
  rw [FileSystem.trace,heq]
  rfl

theorem attributed_ownEvents_append (sys : System) (path : List UInt8)
    {ts : List (List UInt8 × List Event)} :
    Attributed (ownEvents sys flags path++lsOutput ts) ↔ Attributed (lsOutput ts) := by
  obtain ⟨tail,heq,hputs⟩ := ownEvents_eq sys flags path
  have hown : Attributed (ownEvents sys flags path) := by
    rw [heq]
    exact attributed_of_puts hputs _
  have hcases : lsOutput ts=[] ∨ ∃ bytes es, lsOutput ts=.put bytes::es := by
    match ts with
    | [] => exact Or.inl rfl
    | [_] => exact Or.inr ⟨_,_,rfl⟩
    | _::_::_ => exact Or.inr ⟨_,_,rfl⟩
  rcases hcases with hnil | ⟨bytes,es,hput⟩
  · rw [hnil,List.append_nil]
    exact iff_of_true hown List.isChain_nil
  · rw [hput,attributed_append_put]
    exact and_iff_right hown

/-- A trace is attributed exactly when no directory on its way has a single subdirectory to go
into. -/
theorem attributed_trace_iff (c : Contents) : ∀ path, fs.lookup path=some c →
    (Attributed (fs.trace width qsort stray flags path) ↔ c.Deep fun c => c.listed.length≠1) := by
  induction c using Contents.listed_induction with
  | h c ih =>
    intro path h
    have hheads : ∀ t ∈ (c.listed.map fun s => s.1.name).map fun n => (concatPath stray path n,
        fs.trace width qsort stray flags (concatPath stray path n)),
        t.2.head?=some (.opendir t.1) := by
      simp only [List.mem_map]
      rintro t ⟨n,-,rfl⟩
      exact head?_trace qsort stray _
    have hsub : ∀ d sub, (d,some sub) ∈ c.listed →
        (Attributed (fs.trace width qsort stray flags (concatPath stray path d.name)) ↔
          sub.Deep fun c => c.listed.length≠1) := by
      intro d sub hs
      exact ih d sub hs _ (fs.lookup_concatPath stray h (List.mem_filter.mp hs).1)
    rw [trace_eq fs width qsort stray flags h,attributed_ownEvents_append,
      attributed_lsOutput hheads,List.length_map,List.length_map]
    constructor
    · rintro ⟨hlen,hall⟩
      refine ⟨c,hlen,fun d sub hs => (hsub d sub hs).mp (hall (concatPath stray path d.name,_) ?_)⟩
      exact List.mem_map.mpr ⟨d.name,List.mem_map.mpr ⟨_,hs,rfl⟩,rfl⟩
    · rintro ⟨_,hlen,hall⟩
      refine ⟨hlen,?_⟩
      simp only [List.mem_map]
      rintro t ⟨n,⟨⟨d,s⟩,hs,rfl⟩,rfl⟩
      cases s with
      | some sub => exact (hsub d sub hs).mpr (hall d sub hs)
      | none =>
        have hlookup := fs.lookup_concatPath stray h (List.mem_filter.mp hs).1
        rw [trace_unopenable fs width qsort stray flags hlookup]
        exact List.isChain_singleton _

/-- For all sufficiently large depths of the recursion the call from `main` returns `0`, and all
directories that the `print_dir` of an operand opens below the operand follow their headings. -/
def AttributesSublistings (fs : FileSystem) (width : ℕ) (qsort : Sorter ℕ) (stray : UInt8)
    (flags : Flags) (operands : List (List UInt8)) : Prop :=
  ∃ depth, ∀ fuel ≥ depth,
    (lsMain (fs.system width qsort stray) (fuel+1) operands flags).result=.ok 0 ∧
    ∀ p ∈ operandsOrDot operands, Attributed
      (printDir (fs.system width qsort stray) (ls (fs.system width qsort stray) fuel) p flags).events

/-- On regular trees it is a question of the traces. -/
theorem attributesSublistings_regular_iff (hrec : flags.recursive=true) (hlist : flags.list=false)
    {operands : List (List UInt8)}
    (hreg : ∀ p ∈ operandsOrDot operands, ∀ c, fs.lookup p=some c →
      c.Deep (Regular width flags)) :
    AttributesSublistings fs width qsort stray flags operands ↔
      ∀ p ∈ operandsOrDot operands, ∀ c, fs.lookup p=some c →
        c.Deep fun c => c.listed.length≠1 := by
  obtain ⟨depth,hdepth⟩ := lsMain_trace qsort stray hrec hlist hreg
  have htrace : ∀ p, Attributed (fs.trace width qsort stray flags p) ↔
      ∀ c, fs.lookup p=some c → c.Deep fun c => c.listed.length≠1 := by
    intro p
    cases h : fs.lookup p with
    | none =>
      rw [trace_unopenable fs width qsort stray flags h]
      exact iff_of_true (List.isChain_singleton _) fun c hc => by cases hc
    | some c =>
      rw [attributed_trace_iff qsort stray c p h]
      exact ⟨fun hc c' hc' => Option.some.inj hc' ▸ hc,fun hc => hc c rfl⟩
  constructor
  · rintro ⟨depth',hdepth'⟩ p hp
    have hall := (hdepth' (max depth depth') (le_max_right _ _)).2 p hp
    rw [(hdepth (max depth depth') (le_max_left _ _)).2 p hp] at hall
    exact (htrace p).mp hall
  · intro hall
    refine ⟨depth,fun fuel hfuel => ⟨?_,fun p hp => ?_⟩⟩
    · rw [(hdepth fuel hfuel).1]
      rfl
    · rw [(hdepth fuel hfuel).2 p hp]
      exact (htrace p).mpr (hall p hp)

/-- Every sub-listing has its heading exactly when all the directories on the way are regular and
none of them has a single subdirectory to go into. -/
theorem attributesSublistings_iff (fs : FileSystem) (width : ℕ) (qsort : Sorter ℕ) (stray : UInt8)
    (flags : Flags) (operands : List (List UInt8)) (hrec : flags.recursive=true)
    (hlist : flags.list=false) :
    AttributesSublistings fs width qsort stray flags operands ↔
      ∀ p ∈ operandsOrDot operands, ∀ c, fs.lookup p=some c →
        c.Deep fun c => Regular width flags c ∧ c.listed.length≠1 := by
  constructor
  · intro h
    have hreg : ∀ p ∈ operandsOrDot operands, ∀ c, fs.lookup p=some c →
        c.Deep (Regular width flags) := by
      obtain ⟨depth,hdepth⟩ := h
      intro p hp c hc
      have hok := printDir_operand_ok hlist (hdepth depth le_rfl).1 p hp
      exact regular_of_ok qsort stray hrec hlist c p depth hc hok
    have hlen := (attributesSublistings_regular_iff qsort stray hrec hlist hreg).mp h
    intro p hp c hc
    exact Contents.Deep.and_iff.mpr ⟨hreg p hp c hc,hlen p hp c hc⟩
  · intro h
    refine (attributesSublistings_regular_iff qsort stray hrec hlist fun p hp c hc => ?_).mpr
      fun p hp c hc => ?_
    · exact (Contents.Deep.and_iff.mp (h p hp c hc)).1
    · exact (Contents.Deep.and_iff.mp (h p hp c hc)).2

theorem attributesSublistings_pair :
    AttributesSublistings pairSystem 9 Sorter.insertion 0 recursiveFlags [] := by
  refine (attributesSublistings_iff pairSystem 9 Sorter.insertion 0 recursiveFlags [] rfl rfl).mpr ?_
  intro p hp c hc
  obtain rfl : p=text "." := by simpa [operandsOrDot] using hp
  obtain rfl := pair_lookup hc
  exact Contents.Deep.and_iff.mpr ⟨pair_regular,.of_flat pair_flat (by decide) (by decide)⟩

/-- A single subdirectory is listed behind the line `count = 1`, without a heading. -/
theorem single_subdir_unattributed :
    nested.Deep (Regular 9 recursiveFlags) ∧
      ¬AttributesSublistings nestedSystem 9 Sorter.insertion 0 recursiveFlags [] := by
  refine ⟨nested_regular,?_⟩
  rw [attributesSublistings_regular_iff Sorter.insertion 0 rfl rfl fun p hp c hc => ?_]
  · intro h
    obtain ⟨_,hlen,-⟩ := h (text ".") (by decide) nested rfl
    exact hlen rfl
  · obtain rfl : p=text "." := by simpa [operandsOrDot] using hp
    obtain rfl := nested_lookup hc
    exact nested_regular

end Trace

end Ls
end NeOs
