import NeOs.Library.Bytes
import NeOs.Library.Cells

/-! Directory streams: `__alloc_dir` and `readdir` of `glibc-2.43/sysdeps/unix/sysv/linux`. The system
call `getdents64` fills the block of the stream with as many records as it likes, and `readdir` hands
out a pointer to one after the other. -/
namespace NeOs
open Library Cells
namespace Libc

/-- `struct __dirstream`. The block has `allocation` bytes; the cells behind them belong to others. -/
structure Dirstream where
  allocation : ℕ
  size : ℕ
  offset : ℕ
  filepos : ℕ
  data : ℕ → UInt8

/-- What `getdents64` answers: an error, or the bytes of the records. There are none at the end of
the directory. -/
abbrev Answer := Except ℕ (List UInt8)

/-- A stream, the further answers of the kernel, and `errno`. -/
structure Stream extends Dirstream where
  answers : List Answer
  errno : ℕ

def enoent : ℕ := 2

/-- `__alloc_dir`, for the block size that `fstat` reports. -/
def allocDir (stBlksize : ℕ) (data : ℕ → UInt8) : Dirstream :=
  { allocation := min (max stBlksize 32768) 1048576, size := 0, offset := 0, filepos := 0
    data := data }

/-- The fields of the `struct dirent64` at `p`. -/
def dIno (data : ℕ → UInt8) (p : ℕ) : List UInt8 := slice data p 8
def dOff (data : ℕ → UInt8) (p : ℕ) : ℕ := Bytes.toNat (slice data (p+8) 8)
def dReclen (data : ℕ → UInt8) (p : ℕ) : ℕ := Bytes.toNat (slice data (p+16) 2)
def dType (data : ℕ → UInt8) (p : ℕ) : UInt8 := data (p+18)
def dName (data : ℕ → UInt8) (p : ℕ) : List UInt8 := slice data (p+19) 256

/-- Hand out the record at the offset. -/
def nextRecord (s : Stream) : Option ℕ × Stream :=
  (some s.offset,
    { s with offset := s.offset+dReclen s.data s.offset, filepos := dOff s.data s.offset })

/-- The kernel writes the records into the block. -/
def refill (s : Stream) (bs : List UInt8) (rest : List Answer) : Stream :=
  { s with
    data := copy s.data 0 (fun i => bs.getD i 0) 0 bs.length, size := bs.length, offset := 0,
    answers := rest }

/-- `__readdir64_unlocked`. The result is an offset into the block. -/
def readdir64 (s : Stream) : Option ℕ × Stream :=
  let savedErrno := s.errno
  if s.offset ≥ s.size then
    match s.answers with
    | [] => (none,s)
    | .error e::rest =>
      (none,{ s with answers := rest, errno := if e=enoent then savedErrno else e })
    | .ok bs::rest =>
      if bs=[] then (none,{ s with answers := rest }) else nextRecord (refill s bs rest)
  else nextRecord s

/-- `while ((entry = readdir (dir)) != NULL)`, with a body that works on a state and may be undefined. -/
def whileReaddir {β : Type*} (body : β → Dirstream → ℕ → Option β) :
    ℕ → β → Stream → Option (β × Stream)
  | 0,_,_ => none
  | fuel+1,b,s =>
    match readdir64 s with
    | (none,s) => some (b,s)
    | (some p,s) => (body b s.toDirstream p).bind fun b => whileReaddir body fuel b s

/-- A record of `getdents64`. It ends with any number of bytes behind the name. -/
structure Record where
  ino : UInt64
  off : UInt64
  type : UInt8
  name : List UInt8
  pad : List UInt8
  no_nul : 0 ∉ name
  name_le : name.length ≤ 255
  reclen_lt : 20+name.length+pad.length < 2^16

namespace Record

def reclen (r : Record) : ℕ := 20+r.name.length+r.pad.length

def bytes (r : Record) : List UInt8 :=
  Bytes.le 8 r.ino.toNat++Bytes.le 8 r.off.toNat++Bytes.le 2 r.reclen++[r.type]++r.name++0::r.pad

@[simp] theorem length_bytes (r : Record) : r.bytes.length=r.reclen := by
  simp only [bytes,reclen,List.length_append,Bytes.length_le,List.length_cons,List.length_nil]
  omega

end Record

/-- The record lies at `p`. -/
def Lies (data : ℕ → UInt8) (p : ℕ) (r : Record) : Prop := slice data p r.reclen=r.bytes

/-- A block of memory, cut in two. -/
theorem slice_eq_append {data : ℕ → UInt8} {p : ℕ} {xs ys : List UInt8} {n : ℕ}
    (h : slice data p n=xs++ys) :
    slice data p xs.length=xs ∧ slice data (p+xs.length) (n-xs.length)=ys := by
  have hn : n=xs.length+(n-xs.length) := by
    have hlen := congrArg List.length h
    rw [slice_length,List.length_append] at hlen
    omega
  rw [hn,slice_add] at h
  exact List.append_inj h (by simp)

section Fields
variable {data : ℕ → UInt8} {p : ℕ} {r : Record}

/-- What the fields of the `struct dirent64` at a record hold. The 256 bytes of `d_name` reach beyond
the terminator, and may reach beyond the record. -/
theorem Lies.fields (h : Lies data p r) :
    dIno data p=Bytes.le 8 r.ino.toNat ∧ dOff data p=r.off.toNat ∧ dReclen data p=r.reclen ∧
      dType data p=r.type ∧
      ∃ junk, dName data p=r.name++0::junk ∧ (r.name++0::junk).length=256 := by
  simp only [Lies,Record.bytes,List.append_assoc] at h
  obtain ⟨hino,h⟩ := slice_eq_append h
  obtain ⟨hoff,h⟩ := slice_eq_append h
  obtain ⟨hlen,h⟩ := slice_eq_append h
  obtain ⟨htype,h⟩ := slice_eq_append h
  simp only [Bytes.length_le,List.length_singleton,Nat.add_assoc,Nat.reduceAdd,Nat.sub_sub] at hino hoff hlen htype h
  refine ⟨hino,?_,?_,?_,?_⟩
  · rw [dOff,hoff,Bytes.toNat_le]
    exact r.off.toNat_lt
  · rw [dReclen,hlen,Bytes.toNat_le r.reclen_lt]
  · rw [slice_succ,slice_zero] at htype
    exact (List.cons.inj htype).1
  · have hname : slice data (p+19) (r.name.length+1)=r.name++[0] := by
      have hsplit : slice data (p+19) (r.reclen-19)=(r.name++[0])++r.pad := by simpa using h
      simpa using (slice_eq_append hsplit).1
    refine ⟨slice data (p+19+(r.name.length+1)) (255-r.name.length),?_,?_⟩
    · have hle := r.name_le
      rw [dName,show 256=r.name.length+1+(255-r.name.length) by omega,slice_add,hname,
        List.append_assoc,List.singleton_append]
    · have hle := r.name_le
      simp only [List.length_append,List.length_cons,slice_length]
      omega

theorem Lies.cstring (h : Lies data p r) : Bytes.cstring (dName data p)=r.name := by
  obtain ⟨-,-,-,-,junk,hname,-⟩ := h.fields
  rw [hname,Bytes.cstring_of_terminated r.no_nul]

end Fields

theorem Record.reclen_pos (r : Record) : 0 < r.reclen := by
  unfold reclen
  omega

/-- Records one after the other, each with the place where it starts. -/
def placed (p : ℕ) : List Record → List (ℕ × Record)
  | [] => []
  | r::rs => (p,r)::placed (p+r.reclen) rs

/-- The kernel answers with these records, in any number of batches that each fit into the block,
until the directory ends or an error occurs, which is the last component. -/
inductive Delivers (allocation : ℕ) : List Answer → List (ℕ × Record) → Option ℕ → Prop
  | silence : Delivers allocation [] [] none
  | finish (rest : List Answer) : Delivers allocation (.ok []::rest) [] none
  | error (e : ℕ) (rest : List Answer) : Delivers allocation (.error e::rest) [] (some e)
  | batch (r : Record) (b : List Record)
      (hfit : ((r::b).flatMap Record.bytes).length ≤ allocation)
      {rest : List Answer} {rs : List (ℕ × Record)} {fin : Option ℕ}
      (h : Delivers allocation rest rs fin) :
      Delivers allocation (.ok ((r::b).flatMap Record.bytes)::rest) (placed 0 (r::b)++rs) fin

/-- The records that a stream will hand out: those left in the block, then those of the kernel. -/
structure Ahead (s : Stream) (cur : List Record) (rs : List (ℕ × Record)) (fin : Option ℕ) :
    Prop where
  block : slice s.data s.offset (s.size-s.offset)=cur.flatMap Record.bytes
  offset_le : s.offset ≤ s.size
  size_le : s.size ≤ s.allocation
  later : Delivers s.allocation s.answers rs fin

section Readdir
variable {s : Stream} {r : Record} {cur : List Record} {rs : List (ℕ × Record)} {fin : Option ℕ}

/-- Handing out the first record of the block. -/
theorem Ahead.next (h : Ahead s (r::cur) rs fin) :
    s.offset < s.size ∧ Lies (nextRecord s).2.data s.offset r ∧
      Ahead (nextRecord s).2 cur rs fin ∧ (nextRecord s).2.offset=s.offset+r.reclen := by
  obtain ⟨hblock,hle,hsize,hlater⟩ := h
  have hlen := congrArg List.length hblock
  rw [slice_length,List.flatMap_cons,List.length_append,r.length_bytes] at hlen
  rw [List.flatMap_cons] at hblock
  obtain ⟨hlies,hrest⟩ := slice_eq_append hblock
  rw [r.length_bytes] at hlies hrest
  have hpos := r.reclen_pos
  have hreclen : dReclen s.data s.offset=r.reclen := (Lies.fields hlies).2.2.1
  refine ⟨by omega,hlies,⟨?_,?_,hsize,hlater⟩,?_⟩
  · simp only [nextRecord,hreclen]
    rw [← Nat.sub_sub]
    exact hrest
  · simp only [nextRecord,hreclen]
    omega
  · simp only [nextRecord,hreclen]

/-- A batch from the kernel. -/
theorem ahead_refill {b : List Record} {rest : List Answer}
    (hfit : (b.flatMap Record.bytes).length ≤ s.allocation) (h : Delivers s.allocation rest rs fin) :
    Ahead (refill s (b.flatMap Record.bytes) rest) b rs fin := by
  refine ⟨?_,Nat.zero_le _,hfit,h⟩
  simp only [refill,Nat.sub_zero]
  rw [slice_copy]
  exact slice_getD 0 _ 0

/-- An empty block. -/
theorem Ahead.offset_eq (h : Ahead s [] rs fin) : s.offset=s.size := by
  have hlen := congrArg List.length h.block
  rw [slice_length,List.flatMap_nil,List.length_nil] at hlen
  have hle := h.offset_le
  omega

/-- The stream is about to hand out these records, and then nothing. -/
def HandsOut (s : Stream) (rs : List (ℕ × Record)) (fin : Option ℕ) : Prop :=
  ∃ cur later, Ahead s cur later fin ∧ rs=placed s.offset cur++later

/-- `readdir` hands out the next record, which lies in the block where it was placed. -/
theorem readdir64_cons {p : ℕ} (h : HandsOut s ((p,r)::rs) fin) :
    ∃ s', readdir64 s=(some p,s') ∧ Lies s'.data p r ∧ s'.allocation=s.allocation ∧
      s'.errno=s.errno ∧ HandsOut s' rs fin := by
  obtain ⟨cur,later,hahead,hrs⟩ := h
  cases cur with
  | cons r' cur =>
    simp only [placed,List.cons_append,List.cons.injEq,Prod.mk.injEq] at hrs
    obtain ⟨⟨rfl,rfl⟩,rfl⟩ := hrs
    obtain ⟨hlt,hlies,hnext,hoff⟩ := hahead.next
    refine ⟨(nextRecord s).2,?_,hlies,rfl,rfl,cur,later,hnext,by rw [hoff]⟩
    rw [readdir64]
    simp only [ge_iff_le,if_neg (not_le.mpr hlt)]
    rfl
  | nil =>
    have hoff := hahead.offset_eq
    obtain ⟨-,-,-,hlater⟩ := hahead
    simp only [placed,List.nil_append] at hrs
    subst hrs
    rw [readdir64]
    simp only [ge_iff_le,hoff,le_refl,if_true]
    generalize hans : s.answers=answers at hlater
    generalize hout : ((p,r)::rs : List (ℕ × Record))=out at hlater
    cases hlater with
    | silence => cases hout
    | finish rest => cases hout
    | error e rest => cases hout
    | @batch r' b hfit rest rs' fin h =>
      simp only [placed,List.cons_append,List.cons.injEq,Prod.mk.injEq] at hout
      obtain ⟨⟨rfl,rfl⟩,rfl⟩ := hout
      have hre := ahead_refill hfit h
      obtain ⟨hlt,hlies,hnext,hoff'⟩ := hre.next
      refine ⟨(nextRecord (refill s ((r::b).flatMap Record.bytes) rest)).2,?_,hlies,rfl,rfl,b,rs',
        hnext,by rw [hoff']; rfl⟩
      have hne : (r::b).flatMap Record.bytes≠[] := by
        rw [← List.length_pos_iff]
        have hpos := r.reclen_pos
        rw [List.flatMap_cons,List.length_append,r.length_bytes]
        omega
      simp only [if_neg hne]
      rfl

/-- `errno` after the stream has ended. A directory that was deleted ends like any other. -/
def errnoAfter (errno : ℕ) : Option ℕ → ℕ
  | none => errno
  | some e => if e=enoent then errno else e

/-- After the last record it returns NULL. -/
theorem readdir64_nil (h : HandsOut s [] fin) :
    ∃ s', readdir64 s=(none,s') ∧ s'.errno=errnoAfter s.errno fin := by
  obtain ⟨cur,later,hahead,hrs⟩ := h
  cases cur with
  | cons r' cur => cases hrs
  | nil =>
    have hoff := hahead.offset_eq
    obtain ⟨-,-,-,hlater⟩ := hahead
    simp only [placed,List.nil_append] at hrs
    subst hrs
    rw [readdir64]
    simp only [ge_iff_le,hoff,le_refl,if_true]
    generalize hans : s.answers=answers at hlater
    generalize hout : ([] : List (ℕ × Record))=out at hlater
    cases hlater with
    | silence => exact ⟨s,rfl,rfl⟩
    | finish rest => exact ⟨_,rfl,rfl⟩
    | error e rest => exact ⟨_,rfl,rfl⟩
    | batch r' b hfit h => cases hout

end Readdir

section Loop
variable {β : Type*} {body : β → Dirstream → ℕ → Option β} {R : β → List (ℕ × Record) → Prop}
  {ok : ℕ → Record → Prop} {allocation : ℕ} {fin : Option ℕ}

theorem whileReaddir_entry {s s' : Stream} {p : ℕ} (h : readdir64 s=(some p,s')) (fuel : ℕ) (b : β) :
    whileReaddir body (fuel+1) b s=
      (body b s'.toDirstream p).bind fun b => whileReaddir body fuel b s' := by
  rw [whileReaddir,h]

theorem whileReaddir_null {s s' : Stream} (h : readdir64 s=(none,s')) (fuel : ℕ) (b : β) :
    whileReaddir body (fuel+1) b s=some (b,s') := by
  rw [whileReaddir,h]

/-- Loop rule. A body that is defined on the records that are `ok`, and relates its state to the
records it has seen, ends related to all of them. -/
theorem whileReaddir_run {all : List (ℕ × Record)}
    (hbody : ∀ b seen s p r rest, seen++(p,r)::rest=all → R b seen → Lies s.data p r →
      s.allocation=allocation → ok p r → ∃ b', body b s p=some b' ∧ R b' (seen++[(p,r)]))
    {rs seen : List (ℕ × Record)} {b : β} {s : Stream} (h : HandsOut s rs fin)
    (ha : s.allocation=allocation) (hall : seen++rs=all) (hR : R b seen)
    (hok : ∀ x ∈ rs, ok x.1 x.2) {fuel : ℕ} (hfuel : rs.length < fuel) :
    ∃ b' s', whileReaddir body fuel b s=some (b',s') ∧ R b' all ∧
      s'.errno=errnoAfter s.errno fin := by
  induction rs generalizing seen b s fuel with
  | nil =>
    obtain ⟨fuel,rfl⟩ := Nat.exists_eq_add_of_lt hfuel
    obtain ⟨s',hs,he⟩ := readdir64_nil h
    rw [List.append_nil] at hall
    exact ⟨b,s',whileReaddir_null hs _ b,hall ▸ hR,he⟩
  | cons x rs ih =>
    obtain ⟨p,r⟩ := x
    obtain ⟨fuel,rfl⟩ := Nat.exists_eq_add_of_lt hfuel
    obtain ⟨s',hs,hlies,ha',he,hrest⟩ := readdir64_cons h
    have hhead : ok p r := hok (p,r) (by simp)
    obtain ⟨b',hb,hR'⟩ := hbody b seen s'.toDirstream p r rs hall hR hlies (ha'.trans ha) hhead
    have hlt : rs.length < ((p,r)::rs).length+fuel := by
      rw [List.length_cons]
      omega
    obtain ⟨b'',s'',hrun,hR'',he'⟩ := ih hrest (ha'.trans ha) (by simpa using hall) hR'
      (fun y hy => hok y (by simp [hy])) hlt
    refine ⟨b'',s'',?_,hR'',by rw [he',he]⟩
    rw [whileReaddir_entry hs,hb,Option.bind_some,hrun]

/-- A body that is undefined on the records that are not `ok` makes the loop undefined when there is
one. -/
theorem whileReaddir_undefined
    (hbody : ∀ b s p r, Lies s.data p r → s.allocation=allocation → ¬ok p r → body b s p=none)
    {rs : List (ℕ × Record)} {b : β} {s : Stream} (h : HandsOut s rs fin)
    (ha : s.allocation=allocation) (hno : ¬∀ x ∈ rs, ok x.1 x.2) (fuel : ℕ) :
    whileReaddir body fuel b s=none := by
  induction rs generalizing b s fuel with
  | nil => exact absurd (fun x hx => by cases hx) hno
  | cons x rs ih =>
    obtain ⟨p,r⟩ := x
    cases fuel with
    | zero => rfl
    | succ fuel =>
      obtain ⟨s',hs,hlies,ha',-,hrest⟩ := readdir64_cons h
      rw [whileReaddir_entry hs]
      by_cases hok : ok p r
      · have hno' : ¬∀ x ∈ rs, ok x.1 x.2 := by
          intro hall
          apply hno
          intro y hy
          rcases List.mem_cons.mp hy with rfl | hy
          · exact hok
          · exact hall y hy
        cases body b s'.toDirstream p with
        | none => rfl
        | some b' => exact ih hrest (ha'.trans ha) hno' fuel
      · rw [hbody b s'.toDirstream p r hlies (ha'.trans ha) hok,Option.bind_none]

end Loop

/-- A stream that was just opened. -/
def openStream (stBlksize : ℕ) (data : ℕ → UInt8) (answers : List Answer) (errno : ℕ) : Stream :=
  { allocDir stBlksize data with answers := answers, errno := errno }

theorem openStream_handsOut {stBlksize : ℕ} (data : ℕ → UInt8) {answers : List Answer} (errno : ℕ)
    {rs : List (ℕ × Record)} {fin : Option ℕ}
    (h : Delivers (allocDir stBlksize data).allocation answers rs fin) :
    HandsOut (openStream stBlksize data answers errno) rs fin :=
  ⟨[],rs,⟨rfl,le_rfl,Nat.zero_le _,h⟩,rfl⟩

/-- What a program reads of an entry: the name up to its terminator, the type and the inode. -/
def collectEntry (es : List (List UInt8 × UInt8 × ℕ)) (s : Dirstream) (p : ℕ) :
    Option (List (List UInt8 × UInt8 × ℕ)) :=
  some (es++[(Bytes.cstring (dName s.data p),dType s.data p,Bytes.toNat (dIno s.data p))])

/-- However the kernel divides the records into batches, a loop over `readdir` sees each record once
and in order, and then ends. The error that ends the stream, if any, is left in `errno` only. -/
theorem readdir_sees_all (stBlksize : ℕ) (data : ℕ → UInt8) (answers : List Answer) (errno : ℕ)
    (rs : List (ℕ × Record)) (fin : Option ℕ)
    (h : Delivers (allocDir stBlksize data).allocation answers rs fin) {fuel : ℕ}
    (hfuel : rs.length < fuel) :
    ∃ s, whileReaddir collectEntry fuel [] (openStream stBlksize data answers errno)=
        some (rs.map fun x => (x.2.name,x.2.type,x.2.ino.toNat),s) ∧
      s.errno=errnoAfter errno fin := by
  let fields (x : ℕ × Record) : List UInt8 × UInt8 × ℕ := (x.2.name,x.2.type,x.2.ino.toNat)
  have hbody : ∀ b seen s p r rest, seen++(p,r)::rest=rs → b=seen.map fields → Lies s.data p r →
      s.allocation=(allocDir stBlksize data).allocation → True →
      ∃ b', collectEntry b s p=some b' ∧ b'=(seen++[(p,r)]).map fields := by
    intro b seen s p r rest _ hb hlies _ _
    obtain ⟨hino,-,-,htype,-⟩ := hlies.fields
    refine ⟨_,rfl,?_⟩
    rw [hb,hlies.cstring,htype,hino,Bytes.toNat_le r.ino.toNat_lt,List.map_append]
    rfl
  have hstart : ([] : List (List UInt8 × UInt8 × ℕ))=([] : List (ℕ × Record)).map fields := rfl
  obtain ⟨es,s,hrun,rfl,he⟩ := whileReaddir_run (R := fun b seen => b=seen.map fields) hbody
    (openStream_handsOut data errno h) rfl (List.nil_append rs) hstart (fun _ _ => trivial) hfuel
  exact ⟨s,hrun,he⟩

/-- A record of 21 bytes, and answers that give it twice, in two batches, before the directory is
deleted. -/
def shortRecord : Record := ⟨11,24,8,[97],[],by decide,by decide,by decide⟩

def shortAnswers : List Answer :=
  [.ok ([shortRecord].flatMap Record.bytes),.ok ([shortRecord].flatMap Record.bytes),.error enoent]

theorem shortAnswers_deliver {allocation : ℕ} (h : 21 ≤ allocation) :
    Delivers allocation shortAnswers [(0,shortRecord),(0,shortRecord)] (some enoent) :=
  .batch shortRecord [] h (.batch shortRecord [] h (.error enoent []))

theorem readdir_sees_all_short :
    ∃ s, whileReaddir collectEntry 3 [] (openStream 4096 (fun _ => 0) shortAnswers 0)=
      some ([([97],8,11),([97],8,11)],s) ∧ s.errno=0 :=
  readdir_sees_all 4096 (fun _ => 0) shortAnswers 0 _ _ (shortAnswers_deliver (by decide)) (by decide)

end Libc
end NeOs
