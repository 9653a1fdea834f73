import NeOs.CString
import NeOs.Library.Components
import NeOs.Library.Window

/-! `concat_path` of `lib/utils.c`: the string it builds, and the bytes it builds it in. -/
namespace NeOs
open Library

/-- Join two strings with one slash unless one stands there already. For an empty `s1` the source
reads `s1[len - 1]`, the byte before the string; that byte is the parameter `stray`. -/
def concatPath (stray : UInt8) (s1 s2 : List UInt8) : List UInt8 :=
  let len := s1.length
  let last := if len=0 then stray else charAt s1 (len-1)
  if last≠slash ∧ charAt s2 0≠slash ∧ len≠0 then s1++[slash]++s2 else s1++s2

/-- The names a path goes through. -/
def comps (path : List UInt8) : List (List UInt8) := components slash path

theorem comps_append_slash (s t : List UInt8) : comps (s++slash::t)=comps s++comps t :=
  components_append_cons slash s t

theorem comps_trailing_slash (s : List UInt8) : comps (s++[slash])=comps s :=
  components_append_singleton slash s

@[simp] theorem concatPath_nil (stray : UInt8) (s2 : List UInt8) : concatPath stray [] s2=s2 := by
  simp [concatPath]

theorem charAt_last (s : List UInt8) (c : UInt8) : charAt (s++[c]) s.length=c := by
  simp [charAt]

/-- Joining with a name that holds no slash. -/
theorem concatPath_name (stray : UInt8) {path name : List UInt8} (hp : path≠[])
    (hn : slash ∉ name) :
    concatPath stray path name=
      if path.getLast hp=slash then path++name else path++slash::name := by
  have hlen : path.length≠0 := mt List.length_eq_zero_iff.mp hp
  have hlast : charAt path (path.length-1)=path.getLast hp := by
    rw [charAt,List.getD_eq_getElem _ _ (by omega),List.getLast_eq_getElem]
  have hfirst : charAt name 0≠slash := by
    cases name with
    | nil => decide
    | cons c name =>
      rintro (h : c=slash)
      exact hn (by simp [h])
  simp only [concatPath,if_neg hlen,hlast]
  by_cases h : path.getLast hp=slash
  · simp [h]
  · simp [h,hfirst,hlen]

/-- The components of a joined path are those of its parts. -/
theorem comps_concatPath (stray : UInt8) (s1 s2 : List UInt8) :
    comps (concatPath stray s1 s2)=comps s1++comps s2 := by
  rcases List.eq_nil_or_concat' s1 with rfl | ⟨s,c,rfl⟩
  · simp [comps]
  · have hlast : charAt (s++[c]) ((s++[c]).length-1)=c := by
      simpa using charAt_last s c
    have hlen : (s++[c]).length≠0 := by simp
    unfold concatPath comps
    simp only [if_neg hlen,hlast]
    split_ifs with h
    · rw [List.append_assoc,List.singleton_append,components_append_cons]
    · -- a slash ends the first part or starts the second one
      by_cases hc : c=slash
      · rw [hc,List.append_assoc,List.singleton_append,components_append_cons,
          components_append_singleton]
      · have hs2 : charAt s2 0=slash := by
          by_contra hno
          exact h ⟨hc,hno,by simp⟩
        cases s2 with
        | nil => exact absurd hs2 (by decide)
        | cons d s2 =>
          obtain rfl : d=slash := hs2
          rw [components_append_cons,components_cons]

/-- The joined path is its two parts with at most one slash between them. -/
theorem concatPath_eq_append (stray : UInt8) (s1 s2 : List UInt8) :
    concatPath stray s1 s2=s1++[slash]++s2 ∨ concatPath stray s1 s2=s1++s2 := by
  unfold concatPath
  exact ite_eq_or_eq _ _ _

theorem head?_concatPath (stray : UInt8) (s1 s2 : List UInt8) :
    (concatPath stray s1 s2).head?=if s1=[] then s2.head? else s1.head? := by
  cases s1 with
  | nil => rw [concatPath_nil,if_pos rfl]
  | cons c s1 =>
    rw [if_neg (by simp)]
    rcases concatPath_eq_append stray (c::s1) s2 with h | h
    · rw [h]
      rfl
    · rw [h]
      rfl

theorem length_concatPath_le (stray : UInt8) (s1 s2 : List UInt8) :
    (concatPath stray s1 s2).length ≤ s1.length+s2.length+1 := by
  rcases concatPath_eq_append stray s1 s2 with h | h
  · rw [h,List.length_append,List.length_append,List.length_singleton]
    omega
  · rw [h,List.length_append]
    omega

section Memory

/-- The block that `malloc` or `realloc` returns: what the old block held, then whatever is there. -/
def allocate (garbage : ℕ → UInt8) (buf : Option (List UInt8)) (n : ℕ) : List UInt8 :=
  (buf.getD []).take n++(List.range (n-(buf.getD []).length)).map garbage

/-- `strcpy`; `none` stands for a store outside the block. -/
def strcpy (block s : List UInt8) : Option (List UInt8) :=
  if (s++[0]).length ≤ block.length then some (Window.patch block 0 (s++[0])) else none

/-- `strcat`; `none` stands for a missing terminator or a store outside the block. -/
def strcat (block s : List UInt8) : Option (List UInt8) :=
  match cString block with
  | none => none
  | some t =>
    if t.length+(s++[0]).length ≤ block.length then some (Window.patch block t.length (s++[0]))
    else none

/-- The block that `concat_path` returns, for a `buf` that is NULL or a block to be reallocated. -/
def concatPathInto (garbage : ℕ → UInt8) (stray : UInt8) (s1 s2 : List UInt8)
    (buf : Option (List UInt8)) : Option (List UInt8) :=
  let len := s1.length
  let last := if len=0 then stray else charAt s1 (len-1)
  let result := allocate garbage buf (len+s2.length+2)
  (strcpy result s1).bind fun result =>
    (if last≠slash ∧ charAt s2 0≠slash ∧ len≠0 then strcat result [slash] else some result).bind
      fun result => strcat result s2

@[simp] theorem allocate_length (garbage : ℕ → UInt8) (buf : Option (List UInt8)) (n : ℕ) :
    (allocate garbage buf n).length=n := by
  simp only [allocate,List.length_append,List.length_take,List.length_map,List.length_range]
  omega

/-- The block begins with the string and its terminator. -/
def HoldsString (block s : List UInt8) : Prop := 0 ∉ s ∧ ∃ rest, block=s++0::rest

theorem HoldsString.cString_eq {block s : List UInt8} (h : HoldsString block s) :
    cString block=some s := by
  obtain ⟨hs,rest,rfl⟩ := h
  exact cString_append hs rest

theorem strcpy_holds {block s : List UInt8} (hs : 0 ∉ s) (hfit : s.length+1 ≤ block.length) :
    ∃ block', strcpy block s=some block' ∧ HoldsString block' s ∧ block'.length=block.length := by
  have hlen : (s++[0]).length ≤ block.length := by simpa using hfit
  refine ⟨_,if_pos hlen,⟨hs,block.drop (0+(s++[0]).length),?_⟩,Window.patch_length (by omega)⟩
  rw [Window.patch,List.take_zero,List.nil_append,List.append_assoc]
  rfl

theorem HoldsString.strcat {block s t : List UInt8} (h : HoldsString block s) (ht : 0 ∉ t)
    (hfit : s.length+t.length+1 ≤ block.length) :
    ∃ block', strcat block t=some block' ∧ HoldsString block' (s++t) ∧
      block'.length=block.length := by
  have hlen : s.length+(t++[0]).length ≤ block.length := by
    rw [List.length_append]
    simpa [Nat.add_assoc] using hfit
  refine ⟨Window.patch block s.length (t++[0]),?_,⟨?_,?_⟩,Window.patch_length hlen⟩
  · rw [NeOs.strcat,h.cString_eq]
    exact if_pos hlen
  · rw [List.mem_append]
    rintro (h0 | h0)
    · exact h.1 h0
    · exact ht h0
  · obtain ⟨-,rest,rfl⟩ := h
    refine ⟨(s++0::rest).drop (s.length+(t++[0]).length),?_⟩
    rw [Window.patch,List.take_left,← List.append_assoc,List.append_assoc (s++t)]
    rfl

/-- The block holds the joined path, and nothing is stored outside the bytes allocated. -/
theorem concatPathInto_holds (garbage : ℕ → UInt8) (stray : UInt8) {s1 s2 : List UInt8}
    (buf : Option (List UInt8)) (h1 : 0 ∉ s1) (h2 : 0 ∉ s2) :
    ∃ block, concatPathInto garbage stray s1 s2 buf=some block ∧
      HoldsString block (concatPath stray s1 s2) ∧ block.length=s1.length+s2.length+2 := by
  obtain ⟨b1,hb1,hh1,hl1⟩ := @strcpy_holds (allocate garbage buf (s1.length+s2.length+2)) _ h1
    (by rw [allocate_length]; omega)
  rw [allocate_length] at hl1
  simp only [concatPathInto,concatPath,hb1,Option.bind_some]
  by_cases hsep : (if s1.length=0 then stray else charAt s1 (s1.length-1))≠slash ∧
      charAt s2 0≠slash ∧ s1.length≠0
  · rw [if_pos hsep,if_pos hsep]
    obtain ⟨b2,hb2,hh2,hl2⟩ := hh1.strcat (t := [slash]) (by decide)
      (by rw [hl1,List.length_singleton]; omega)
    obtain ⟨b3,hb3,hh3,hl3⟩ := hh2.strcat h2
      (by rw [hl2,hl1,List.length_append,List.length_singleton]; omega)
    exact ⟨b3,by rw [hb2]; exact hb3,hh3,by omega⟩
  · rw [if_neg hsep,if_neg hsep]
    obtain ⟨b2,hb2,hh2,hl2⟩ := hh1.strcat h2 (by omega)
    exact ⟨b2,hb2,hh2,by omega⟩

/-- Joining is a homomorphism on components. The joined path starts where its first part starts,
unless that is empty; with its terminator it fits the block; and joining is associative up to
components. -/
theorem concatPath_homomorphism (garbage : ℕ → UInt8) (stray : UInt8) (s1 s2 : List UInt8)
    (buf : Option (List UInt8)) (h1 : 0 ∉ s1) (h2 : 0 ∉ s2) :
    ∃ block result, concatPathInto garbage stray s1 s2 buf=some block ∧
      cString block=some result ∧ block.length=s1.length+s2.length+2 ∧
      result.length+1 ≤ block.length ∧ comps result=comps s1++comps s2 ∧
      (result.head?=some slash ↔ s1.head?=some slash ∨ (s1=[] ∧ s2.head?=some slash)) ∧
      result=concatPath stray s1 s2 ∧
      ∀ stray' s3, comps (concatPath stray' result s3)=
        comps (concatPath stray s1 (concatPath stray' s2 s3)) := by
  obtain ⟨block,hblock,hholds,hlen⟩ := concatPathInto_holds garbage stray buf h1 h2
  refine ⟨block,_,hblock,hholds.cString_eq,hlen,?_,comps_concatPath stray s1 s2,?_,rfl,?_⟩
  · have hle := length_concatPath_le stray s1 s2
    omega
  · rw [head?_concatPath]
    by_cases hs : s1=[]
    · simp [hs]
    · simp [hs]
  · intro stray' s3
    simp only [comps_concatPath,List.append_assoc]

/-- Two parts with slashes on both sides, in a block that is reallocated. -/
theorem concatPath_homomorphism_slashes :
    ∃ block result, concatPathInto (fun _ => 255) 7 (text "a//") (text "/b/c") (some [1,2])=some block ∧
      cString block=some result ∧ comps result=[text "a",text "b",text "c"] := by
  obtain ⟨block,result,hblock,hstring,-,-,hcomps,-⟩ :=
    concatPath_homomorphism (fun _ => 255) 7 (text "a//") (text "/b/c") (some [1,2]) (by decide)
      (by decide)
  refine ⟨block,result,hblock,hstring,hcomps.trans ?_⟩
  decide

end Memory

section Reads

/-- The character access `string[index]`. -/
structure Access where
  string : List UInt8
  index : ℕ
  deriving Repr, DecidableEq

/-- A string may be read up to its terminator. -/
def Access.Defined (a : Access) : Prop := a.index ≤ a.string.length

instance (a : Access) : Decidable a.Defined := inferInstanceAs (Decidable (_ ≤ _))

/-- What `strlen`, `strcpy` and `strcat` read of a string. -/
def scan (s : List UInt8) : List Access := (List.range (s.length+1)).map (Access.mk s)

/-- A condition, and the accesses that were made to evaluate it. -/
structure Test where
  value : Bool
  accesses : List Access
  deriving Repr, DecidableEq

/-- `&&`: the right operand is evaluated only if the left one is true. -/
def Test.and (x y : Test) : Test := if x.value then ⟨y.value,x.accesses++y.accesses⟩ else x

/-- `s[i] != '/'`. Outside the string the character `stray` is found. -/
def notSlash (stray : UInt8) (s : List UInt8) (i : ℕ) : Test :=
  ⟨(if i ≤ s.length then charAt s i else stray)≠slash,[⟨s,i⟩]⟩

/-- `len - 1`, in `size_t`. -/
def lastIndex (len : ℕ) : ℕ := (len+(2^64-1))%2^64

/-- `(s1[len - 1] != '/') && (s2[0] != '/') && (len != 0)`. -/
def needsSlash (stray : UInt8) (s1 s2 : List UInt8) : Test :=
  ((notSlash stray s1 (lastIndex s1.length)).and (notSlash stray s2 0)).and ⟨s1.length≠0,[]⟩

/-- The accesses that `concat_path` makes to its arguments, in their order. -/
def concatPathReads (stray : UInt8) (s1 s2 : List UInt8) : List Access :=
  scan s1++scan s2++scan s1++(needsSlash stray s1 s2).accesses++scan s2

theorem scan_defined {s : List UInt8} : ∀ a ∈ scan s, a.Defined := by
  intro a ha
  obtain ⟨i,hi,rfl⟩ := List.mem_map.mp ha
  exact Nat.le_of_lt_succ (List.mem_range.mp hi)

theorem lastIndex_le {len : ℕ} (h : len≠0) : lastIndex len ≤ len := by
  have hsub : len+(2^64-1)=len-1+2^64 := by omega
  rw [lastIndex,hsub,Nat.add_mod_right]
  exact (Nat.mod_le _ _).trans (Nat.sub_le _ _)

theorem lastIndex_eq {len : ℕ} (h : len≠0) (hlt : len < 2^64) : lastIndex len=len-1 := by
  unfold lastIndex
  omega

@[simp] theorem Test.and_value (x y : Test) : (x.and y).value=(x.value && y.value) := by
  unfold Test.and
  cases h : x.value <;> simp [h]

/-- The accesses of a conjunction are among those of its operands, and those of its first operand
are always made. -/
theorem Test.mem_and {x y : Test} {a : Access} :
    (a ∈ x.accesses → a ∈ (x.and y).accesses) ∧
      (a ∈ (x.and y).accesses → a ∈ x.accesses ∨ a ∈ y.accesses) := by
  unfold Test.and
  split_ifs
  · exact ⟨List.mem_append_left _,List.mem_append.mp⟩
  · exact ⟨id,Or.inl⟩

/-- The condition is the one that decides on the slash. -/
theorem concatPath_eq_needsSlash (stray : UInt8) {s1 : List UInt8} (s2 : List UInt8)
    (h : s1.length < 2^64) :
    concatPath stray s1 s2=if (needsSlash stray s1 s2).value then s1++[slash]++s2 else s1++s2 := by
  have hlast : (if lastIndex s1.length ≤ s1.length then charAt s1 (lastIndex s1.length) else stray)=
      if s1.length=0 then stray else charAt s1 (s1.length-1) := by
    by_cases h0 : s1.length=0
    · rw [h0,if_pos rfl,if_neg (by decide)]
    · rw [if_pos (lastIndex_le h0),if_neg h0,lastIndex_eq h0 h]
  simp only [concatPath,needsSlash,notSlash,Test.and_value,hlast,if_pos (Nat.zero_le _),
    Bool.and_eq_true,decide_eq_true_eq,and_assoc]

/-- For an empty first argument the index `len - 1` wraps around, and `len != 0` is tested too late.
All other accesses stay inside the arguments. -/
theorem concatPath_reads_inside_iff (stray : UInt8) (s1 s2 : List UInt8) :
    (∀ a ∈ concatPathReads stray s1 s2, a.Defined) ↔ s1≠[] := by
  constructor
  · rintro h rfl
    have hmem : (⟨[],lastIndex 0⟩ : Access) ∈ (needsSlash stray [] s2).accesses :=
      Test.mem_and.1 (Test.mem_and.1 (List.mem_singleton.mpr rfl))
    have hdef := h ⟨[],lastIndex 0⟩ (by simp [concatPathReads,hmem])
    exact absurd hdef (by decide)
  · intro hne a ha
    have hlen : s1.length≠0 := mt List.length_eq_zero_iff.mp hne
    simp only [concatPathReads,List.mem_append] at ha
    rcases ha with (((ha | ha) | ha) | ha) | ha
    · exact scan_defined a ha
    · exact scan_defined a ha
    · exact scan_defined a ha
    · rcases Test.mem_and.2 ha with ha | ha
      · rcases Test.mem_and.2 ha with ha | ha
        · rw [List.mem_singleton.mp ha]
          exact lastIndex_le hlen
        · rw [List.mem_singleton.mp ha]
          exact Nat.zero_le _
      · cases ha
    · exact scan_defined a ha

/-- The call that `ls` makes for the operand `d`. -/
theorem concatPath_reads_before_empty :
    (⟨[],2^64-1⟩ : Access) ∈ concatPathReads 0 [] (text "d") ∧
      ¬∀ a ∈ concatPathReads 0 [] (text "d"), a.Defined := by
  have hmem : (⟨[],2^64-1⟩ : Access) ∈ concatPathReads 0 [] (text "d") := by decide
  exact ⟨hmem,fun h => absurd (h _ hmem) (by decide)⟩

end Reads

section Doubled

/-- No two slashes stand next to each other. -/
def SingleSlashes (path : List UInt8) : Prop := path.IsChain fun a b => ¬(a=slash ∧ b=slash)

instance (path : List UInt8) : Decidable (SingleSlashes path) :=
  inferInstanceAs (Decidable (path.IsChain _))

theorem singleSlashes_of_notMem {name : List UInt8} (h : slash ∉ name) : SingleSlashes name := by
  refine List.isChain_iff_forall_rel_of_append_cons_cons.mpr fun a b l₁ l₂ hname hab => h ?_
  rw [hname,hab.1]
  simp

/-- Joining with a name does not double a slash. -/
theorem SingleSlashes.concatPath {path name : List UInt8} (stray : UInt8) (hp : SingleSlashes path)
    (hn : slash ∉ name) : SingleSlashes (concatPath stray path name) := by
  have hname := singleSlashes_of_notMem hn
  have hfirst : ∀ b ∈ name.head?, b≠slash := fun b hb h => hn (h ▸ List.mem_of_head? hb)
  by_cases hne : path=[]
  · rwa [hne,concatPath_nil]
  · rw [concatPath_name stray hne hn]
    split_ifs with hlast
    · exact List.isChain_append.mpr ⟨hp,hname,fun a _ b hb hab => hfirst b hb hab.2⟩
    · refine List.isChain_append.mpr ⟨hp,List.isChain_cons.mpr ⟨fun b hb hab => hfirst b hb hab.2,
        hname⟩,fun a ha b _ hab => hlast ?_⟩
      rw [List.getLast?_eq_some_getLast hne,Option.mem_some_iff] at ha
      exact ha.trans hab.1

end Doubled

end NeOs
