import NeOs.Libc.Readdir
import NeOs.Ls.Reading

/-! `read_dir` of `bin/ls.c` at the level of bytes: the entries are records in the block of the
directory stream, and the four vectors are arrays of `lib/dynamic.c`. It refines the loop over lists
of entries, as far as its copies stay inside the block. -/
namespace NeOs
open Library Library.Run Library.Doubling
namespace Ls

/-- The local variables of `read_dir`. -/
structure ByteLocals where
  maxSize : ℕ
  names : Dynamic
  types : Dynamic
  ino : Dynamic
  dirs : Dynamic
  i : ℕ

section Model
variable (pointer : Address → List UInt8) (flags : Flags)

/-- Copy the 256 bytes at `d_name` into `names`, which is undefined beyond the block. -/
def insertName (names : Dynamic) (s : Libc.Dirstream) (p : ℕ) : Option Dynamic :=
  if p+19+256 ≤ s.allocation then dynamicInsert names (Libc.dName s.data p) else none

/-- Store the address of slot `i` of `names`, if the entry is a directory to go into. -/
def insertDir (dirs names : Dynamic) (i : ℕ) (type first : UInt8) : Option Dynamic :=
  if type=dtDir ∧ first≠dot then dynamicInsert dirs (pointer (dynamicGet names i)) else some dirs

/-- One round of the loop, for the entry at `p`. -/
def readEntryBytes (l : ByteLocals) (s : Libc.Dirstream) (p : ℕ) : Option ByteLocals :=
  let name := Libc.dName s.data p
  let type := Libc.dType s.data p
  if charAt name 0≠dot ∨ flags.showHidden=true then do
    let size := min (Bytes.cstring name).length 255
    let names ← insertName l.names s p
    let types ← dynamicInsert l.types [type]
    let ino ← dynamicInsert l.ino (Libc.dIno s.data p)
    let dirs ← insertDir pointer l.dirs names l.i type (charAt name 0)
    some ⟨max l.maxSize size,names,types,ino,dirs,l.i+1⟩
  else some l

/-- `read_dir` on an open stream. -/
def readDirBytes (fuel : ℕ) (s : Libc.Stream) : Option (ByteLocals × Libc.Stream) := do
  let names ← dynamic 256 0
  let types ← dynamic 1 0
  let ino ← dynamic 8 0
  let dirs ← dynamic 8 0
  Libc.whileReaddir (readEntryBytes pointer flags) fuel ⟨0,names,types,ino,dirs,0⟩ s

end Model

/-- The entry that a record stands for. -/
def direntOf (r : Libc.Record) : Dirent := ⟨r.name,r.type,r.ino,r.no_nul,r.name_le⟩

/-- A name and what happens to stand behind its terminator, in a slot of `names`. -/
def slotBytes (x : List UInt8 × List UInt8) : List UInt8 := x.1++0::x.2

/-- A reference into `names`, as `dirs` stores it. -/
def referenceBytes (pointer : Address → List UInt8) : CharPtr → List UInt8
  | .slot version idx => pointer ⟨version,sizeT (idx*256)⟩
  | .string s => s

/-- The byte arrays hold the lists of the variables `L`. -/
structure ReadAs (pointer : Address → List UInt8) (l : ByteLocals) (L : Locals) : Prop where
  maxSize : l.maxSize=L.maxSize
  names : ∃ v, Dynamic.Represents slotBytes l.names v ∧
    L.names=⟨v.elems.map Prod.fst,v.capacity,v.version⟩
  types : Dynamic.Represents (fun t => [t]) l.types L.types
  ino : Dynamic.Represents (fun n => Bytes.le 8 n.toNat) l.ino L.ino
  dirs : Dynamic.Represents (referenceBytes pointer) l.dirs L.dirs
  i : l.i=L.i

section Insert
variable {α : Type*} {encode : α → List UInt8}

/-- One insertion into an array that follows the growth schedule. -/
theorem represents_insert {d : Dynamic} {es : ℕ} {xs : List α}
    (h : Dynamic.Represents encode d (Slots.filled dynamicDefaultCapacity xs)) (hes : d.elementSize=es)
    {a : α} (ha : (encode a).length=es)
    (hfit : Dynamic.ScheduleFits dynamicDefaultCapacity es (xs.length+1)) :
    ∃ e, dynamicInsert d (encode a)=some e ∧
      Dynamic.Represents encode e (Slots.filled dynamicDefaultCapacity (xs++[a])) ∧
      e.elementSize=es := by
  have hall : ∀ y ∈ [a], (encode y).length=es := by simpa using ha
  obtain ⟨e,he,hr,hes'⟩ := h.insertAll (by decide) hes hall (by simpa using hfit)
  refine ⟨e,?_,hr,hes'⟩
  simpa using he

theorem scheduleFits_smaller {c es es' n : ℕ} (hle : es' ≤ es) (h : Dynamic.ScheduleFits c es n) :
    Dynamic.ScheduleFits c es' n :=
  lt_of_le_of_lt (Nat.add_le_add_left (Nat.mul_le_mul_left _ hle) _) h

end Insert

/-- The arrays once the visible entries `vis` have been read, with what stands behind the names. -/
structure Gathered (pointer : Address → List UInt8) (l : ByteLocals) (vis : List Dirent)
    (pairs : List (List UInt8 × List UInt8)) : Prop where
  maxSize : l.maxSize=longest vis
  fst_pairs : pairs.map Prod.fst=vis.map Dirent.dName
  names : Dynamic.Represents slotBytes l.names (Slots.filled dynamicDefaultCapacity pairs)
  names_size : l.names.elementSize=256
  types : Dynamic.Represents (fun t => [t]) l.types (collected vis).types
  types_size : l.types.elementSize=1
  ino : Dynamic.Represents (fun n => Bytes.le 8 n.toNat) l.ino (collected vis).ino
  ino_size : l.ino.elementSize=8
  dirs : Dynamic.Represents (referenceBytes pointer) l.dirs (collected vis).dirs
  dirs_size : l.dirs.elementSize=8
  i : l.i=vis.length

section Rounds
variable {pointer : Address → List UInt8} (hpointer : ∀ a, (pointer a).length=8) {flags : Flags}
  {l : ByteLocals} {vis : List Dirent} {pairs : List (List UInt8 × List UInt8)}

theorem Gathered.length_pairs (h : Gathered pointer l vis pairs) : pairs.length=vis.length := by
  have hlen := congrArg List.length h.fst_pairs
  simpa using hlen

theorem Gathered.readAs (h : Gathered pointer l vis pairs) : ReadAs pointer l (collected vis) := by
  refine ⟨h.maxSize,⟨_,h.names,?_⟩,h.types,h.ino,h.dirs,h.i⟩
  simp only [collected,Slots.filled,h.fst_pairs,h.length_pairs,List.length_map]

theorem charAt_zero_slot (name junk : List UInt8) : charAt (name++0::junk) 0=charAt name 0 := by
  cases name with
  | nil => rfl
  | cons c name => rfl

theorem references_length_le (vis : List Dirent) : (references vis).length ≤ vis.length := by
  rw [references,List.length_map]
  exact (List.length_filter_le _ _).trans (by simp)

include hpointer in
/-- A visible entry whose 256 bytes lie in the block. -/
theorem Gathered.shows (h : Gathered pointer l vis pairs) {s : Libc.Dirstream} {p : ℕ}
    {r : Libc.Record} (hlies : Libc.Lies s.data p r) (hvis : visible flags (direntOf r)=true)
    (hin : p+275 ≤ s.allocation)
    (hfit : Dynamic.ScheduleFits dynamicDefaultCapacity 256 (vis.length+1)) :
    ∃ l' pairs', readEntryBytes pointer flags l s p=some l' ∧
      Gathered pointer l' (vis++[direntOf r]) pairs' := by
  obtain ⟨hino,-,-,htype,junk,hname,hlen⟩ := hlies.fields
  have hfirst : charAt (r.name++0::junk) 0=charAt r.name 0 := charAt_zero_slot r.name junk
  have hshow : charAt r.name 0≠dot ∨ flags.showHidden=true := of_decide_eq_true hvis
  obtain ⟨names,hn,hrn,hsn⟩ := represents_insert (a := (r.name,junk)) h.names h.names_size hlen
    (h.length_pairs ▸ hfit)
  obtain ⟨types,ht,hrt,hst⟩ := represents_insert (a := r.type) h.types h.types_size rfl
    (by simpa using scheduleFits_smaller (by norm_num) hfit)
  obtain ⟨ino,hi,hri,hsi⟩ := represents_insert (a := r.ino) h.ino h.ino_size (by simp)
    (by simpa using scheduleFits_smaller (by norm_num) hfit)
  have hblock : names.block=doublings dynamicDefaultCapacity (vis.length+1) := by
    rw [hrn.block_eq,Slots.filled_version,List.length_append,h.length_pairs,List.length_singleton]
  have hget : dynamicGet names l.i=
      ⟨doublings dynamicDefaultCapacity (vis.length+1),sizeT (vis.length*256)⟩ := by
    rw [dynamicGet,hblock,hsn,h.i]
  have hdirs : ∃ dirs, insertDir pointer l.dirs names l.i r.type (charAt r.name 0)=some dirs ∧
      Dynamic.Represents (referenceBytes pointer) dirs (collected (vis++[direntOf r])).dirs ∧
      dirs.elementSize=8 := by
    simp only [collected,references_append_singleton,insertDir]
    by_cases hd : r.type=dtDir ∧ charAt r.name 0≠dot
    · have hdesc : descends (direntOf r)=true := decide_eq_true hd
      rw [if_pos hd,if_pos hdesc,hget]
      exact represents_insert
        (a := .slot (doublings dynamicDefaultCapacity (vis.length+1)) vis.length) h.dirs h.dirs_size
        (hpointer _) ((scheduleFits_smaller (by norm_num) hfit).of_le (by decide)
          (Nat.succ_le_succ (references_length_le vis)))
    · have hdesc : descends (direntOf r)=false := decide_eq_false hd
      rw [if_neg hd,hdesc]
      exact ⟨l.dirs,rfl,by simpa [collected] using h.dirs,h.dirs_size⟩
  obtain ⟨dirs,hdd,hrd,hsd⟩ := hdirs
  refine ⟨⟨max l.maxSize (min r.name.length 255),names,types,ino,dirs,l.i+1⟩,pairs++[(r.name,junk)],
    ?_,?_,?_,hrn,hsn,?_,hst,?_,hsi,hrd,hsd,?_⟩
  · have hn' : insertName l.names s p=some names := by
      rw [insertName,if_pos (by omega),hname]
      exact hn
    simp only [readEntryBytes,hname,hfirst,htype,hino,if_pos hshow,hn',ht,hi,hdd,
      Option.bind_eq_bind,Option.bind_some,Bytes.cstring_of_terminated r.no_nul]
  · rw [longest_append_singleton,h.maxSize,min_eq_left r.name_le]
    rfl
  · rw [List.map_append,h.fst_pairs,List.map_append]
    rfl
  · simpa [collected,direntOf] using hrt
  · simpa [collected,direntOf] using hri
  · simp [h.i]

/-- A hidden entry changes nothing. -/
theorem readEntryBytes_hidden {s : Libc.Dirstream} {p : ℕ} {r : Libc.Record}
    (hlies : Libc.Lies s.data p r) (hvis : visible flags (direntOf r)=false) :
    readEntryBytes pointer flags l s p=some l := by
  obtain ⟨-,-,-,-,junk,hname,-⟩ := hlies.fields
  have hhide : ¬(charAt r.name 0≠dot ∨ flags.showHidden=true) := of_decide_eq_false hvis
  simp only [readEntryBytes,hname,charAt_zero_slot,if_neg hhide]

/-- A visible entry too close to the end of the block. -/
theorem readEntryBytes_beyond {s : Libc.Dirstream} {p : ℕ} {r : Libc.Record}
    (hlies : Libc.Lies s.data p r) (hvis : visible flags (direntOf r)=true)
    (hout : ¬p+275 ≤ s.allocation) : readEntryBytes pointer flags l s p=none := by
  obtain ⟨-,-,-,-,junk,hname,-⟩ := hlies.fields
  have hshow : charAt r.name 0≠dot ∨ flags.showHidden=true := of_decide_eq_true hvis
  have hn : insertName l.names s p=none := if_neg (by omega)
  simp only [readEntryBytes,hname,charAt_zero_slot,if_pos hshow,hn,Option.bind_eq_bind,
    Option.bind_none]

end Rounds

/-- The visible entries among the records. -/
def shownRecords (flags : Flags) (rs : List (ℕ × Libc.Record)) : List Dirent :=
  visibleEntries flags (rs.map fun x => direntOf x.2)

theorem shownRecords_append (flags : Flags) (rs rs' : List (ℕ × Libc.Record)) :
    shownRecords flags (rs++rs')=shownRecords flags rs++shownRecords flags rs' := by
  simp [shownRecords,visibleEntries]

/-- The four vectors at the start. -/
theorem gathered_nil (pointer : Address → List UInt8) :
    ∃ names types ino dirs, dynamic 256 0=some names ∧ dynamic 1 0=some types ∧
      dynamic 8 0=some ino ∧ dynamic 8 0=some dirs ∧
      Gathered pointer ⟨0,names,types,ino,dirs,0⟩ [] [] := by
  have hnew : ∀ {α : Type} (encode : α → List UInt8) (es : ℕ), 1 ≤ es → es ≤ 256 →
      ∃ d, dynamic es 0=some d ∧
        Dynamic.Represents encode d (Slots.filled dynamicDefaultCapacity []) ∧ d.elementSize=es := by
    intro α encode es hpos hle
    have hfit : sizeofDynamic+initialCount 0*es < 2^64 := by
      simp only [sizeofDynamic,initialCount,dynamicDefaultCapacity,if_true]
      omega
    obtain ⟨d,hd,hr,hes⟩ := Dynamic.dynamic_represents encode hpos hfit
    rw [Slots.new_eq_filled] at hr
    exact ⟨d,hd,hr,hes⟩
  obtain ⟨names,hn,hrn,hsn⟩ := hnew slotBytes 256 (by norm_num) le_rfl
  obtain ⟨types,ht,hrt,hst⟩ := hnew (fun t : UInt8 => [t]) 1 le_rfl (by norm_num)
  obtain ⟨ino,hi,hri,hsi⟩ := hnew (fun n : UInt64 => Bytes.le 8 n.toNat) 8 (by norm_num) (by norm_num)
  obtain ⟨dirs,hd,hrd,hsd⟩ := hnew (referenceBytes pointer) 8 (by norm_num) (by norm_num)
  exact ⟨names,types,ino,dirs,hn,ht,hi,hd,⟨rfl,rfl,hrn,hsn,hrt,hst,hri,hsi,hrd,hsd,rfl⟩⟩

/-- `read_dir` on bytes does what the loop over entries does exactly when no visible record starts in
the last 274 bytes of the block; otherwise a copy of 256 bytes runs out of the block. The blocks for
as many names as there are records are to have sizes inside `size_t`. -/
theorem readDirBytes_refines_iff (pointer : Address → List UInt8)
    (hpointer : ∀ a, (pointer a).length=8) (flags : Flags) (stBlksize : ℕ) (data : ℕ → UInt8)
    (answers : List Libc.Answer) (errno : ℕ) (rs : List (ℕ × Libc.Record)) (fin : Option ℕ)
    (h : Libc.Delivers (Libc.allocDir stBlksize data).allocation answers rs fin)
    (hfit : Dynamic.ScheduleFits dynamicDefaultCapacity 256 rs.length) {fuel : ℕ}
    (hfuel : rs.length < fuel) :
    (∃ l s, readDirBytes pointer flags fuel (Libc.openStream stBlksize data answers errno)=some (l,s) ∧
      ReadAs pointer l ((rs.map fun x => direntOf x.2).foldl (readEntry flags) noEntries)) ↔
    ∀ x ∈ rs, visible flags (direntOf x.2)=true →
      x.1+275 ≤ (Libc.allocDir stBlksize data).allocation := by
  obtain ⟨names,types,ino,dirs,hn,ht,hi,hd,hstart⟩ := gathered_nil pointer
  have hrun : readDirBytes pointer flags fuel (Libc.openStream stBlksize data answers errno)=
      Libc.whileReaddir (readEntryBytes pointer flags) fuel ⟨0,names,types,ino,dirs,0⟩
        (Libc.openStream stBlksize data answers errno) := by
    obtain rfl : ino=dirs := Option.some.inj (hi.symm.trans hd)
    simp only [readDirBytes,hn,ht,hi,Option.bind_eq_bind,Option.bind_some]
  have hhands := Libc.openStream_handsOut data errno h
  rw [hrun]
  constructor
  · rintro ⟨l,s,hsome,-⟩
    by_contra hno
    have hbody : ∀ (b : ByteLocals) (s : Libc.Dirstream) (p : ℕ) (r : Libc.Record),
        Libc.Lies s.data p r → s.allocation=(Libc.allocDir stBlksize data).allocation →
        ¬(visible flags (direntOf r)=true → p+275 ≤ (Libc.allocDir stBlksize data).allocation) →
        readEntryBytes pointer flags b s p=none := by
      intro b s p r hlies ha hok
      push Not at hok
      exact readEntryBytes_beyond hlies hok.1 (ha ▸ not_le.mpr hok.2)
    rw [Libc.whileReaddir_undefined hbody hhands rfl hno fuel] at hsome
    cases hsome
  · intro hok
    have hbody : ∀ b seen s p r rest, seen++(p,r)::rest=rs →
        (∃ pairs, Gathered pointer b (shownRecords flags seen) pairs) → Libc.Lies s.data p r →
        s.allocation=(Libc.allocDir stBlksize data).allocation →
        (visible flags (direntOf r)=true → p+275 ≤ (Libc.allocDir stBlksize data).allocation) →
        ∃ b', readEntryBytes pointer flags b s p=some b' ∧
          ∃ pairs, Gathered pointer b' (shownRecords flags (seen++[(p,r)])) pairs := by
      rintro b seen s p r rest hall ⟨pairs,hg⟩ hlies ha hok
      rw [shownRecords_append]
      cases hv : visible flags (direntOf r) with
      | false =>
        refine ⟨b,readEntryBytes_hidden hlies hv,pairs,?_⟩
        simpa [shownRecords,visibleEntries,hv] using hg
      | true =>
        have hle : (shownRecords flags seen).length+1 ≤ rs.length := by
          have hseen : (shownRecords flags seen).length ≤ seen.length :=
            (List.length_filter_le _ _).trans (by simp)
          rw [← hall,List.length_append,List.length_cons]
          omega
        obtain ⟨l',pairs',hl,hg'⟩ := hg.shows hpointer hlies hv (ha ▸ hok hv)
          (hfit.of_le (by decide) hle)
        refine ⟨l',hl,pairs',?_⟩
        simpa [shownRecords,visibleEntries,hv] using hg'
    obtain ⟨l,s,hsome,⟨pairs,hg⟩,-⟩ := Libc.whileReaddir_run
      (R := fun b seen => ∃ pairs, Gathered pointer b (shownRecords flags seen) pairs) hbody hhands rfl
      (List.nil_append rs) ⟨[],hstart⟩ hok hfuel
    refine ⟨l,s,hsome,?_⟩
    rw [noEntries_eq,foldl_readEntry]
    exact hg.readAs

theorem readDirBytes_refines_short :
    ∃ l s, readDirBytes (fun _ => List.replicate 8 0) defaultFlags 3
        (Libc.openStream 4096 (fun _ => 0) Libc.shortAnswers 0)=some (l,s) ∧
      ReadAs (fun _ => List.replicate 8 0) l
        ([direntOf Libc.shortRecord,direntOf Libc.shortRecord].foldl (readEntry defaultFlags)
          noEntries) := by
  have hfit : Dynamic.ScheduleFits dynamicDefaultCapacity 256 2 := by
    unfold Dynamic.ScheduleFits
    decide
  refine (readDirBytes_refines_iff (fun _ => List.replicate 8 0) (fun _ => rfl) defaultFlags 4096
    (fun _ => 0) Libc.shortAnswers 0 _ _ (Libc.shortAnswers_deliver (by decide)) hfit
    (by decide)).mpr ?_
  intro x hx _
  have hzero : x.1=0 := by
    simp only [List.mem_cons,List.not_mem_nil,or_false,or_self] at hx
    rw [hx]
  rw [hzero]
  decide

end Ls
end NeOs
