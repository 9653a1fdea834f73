import NeOs.Libc.InBytes.Indirect
import NeOs.Libc.Qsort

/-! `qsort_r` of `glibc-2.43/stdlib/qsort.c` on the bytes of memory. However it moves them, directly
or through pointers, it treats the elements as the model on cells treats its cells. -/
namespace NeOs
open Library Cells
namespace Libc
namespace InBytes

/-- A call of `qsort_r` on `n` elements of `size` bytes: where the array is, where the buffer on the
stack is, and what `malloc` returns. No buffer meets the array, and the array lies in memory. -/
structure Call (n size : ℕ) where
  base : ℕ
  stack : ℕ
  malloc : Option ℕ
  size_pos : 0 < size
  fits : base+size*n ≤ 2^64
  stack_apart : base+size*n ≤ stack ∨ stack+qsortStackSize ≤ base
  malloc_apart : ∀ t, malloc=some t → base+size*n ≤ t ∨ t+totalSize n size ≤ base

/-- The parameters of the sort that moves the elements themselves. -/
def direct (cmp : Compare) (base size buf : ℕ) : MsortParam := ⟨size,getSwapType base size,cmp,buf⟩

/-- `qsort_r_mergesort` -/
def qsortRMergesort (cmp : Compare) (base totalElems size buf : ℕ) (mem : Memory) : Option Memory :=
  if size > indirectSortSizeThres then
    indirectMsortWithTmp (indirect cmp buf) base totalElems size mem
  else
    some ((direct cmp base size buf).msortWithTmp base totalElems mem)

/-- `__qsort_r`, with `qsort_r_malloc` -/
def qsortR {n size : ℕ} (call : Call n size) (cmp : Compare) (mem : Memory) : Option Memory :=
  if n ≤ 1 then some mem
  else if totalSize n size ≤ qsortStackSize then
    qsortRMergesort cmp call.base n size call.stack mem
  else match call.malloc with
    | some t => qsortRMergesort cmp call.base n size t mem
    | none => some (heapsortR cmp call.base (n-1) size mem)

namespace Call
variable {n size : ℕ} (call : Call n size)

/-- The buffer with which the call sorts, if any. -/
def buffer : Option ℕ :=
  if totalSize n size ≤ qsortStackSize then some call.stack else call.malloc

/-- The contents of the elements. -/
def blocks (mem : Memory) : List (List UInt8) :=
  (List.range n).map fun i => slice mem (call.base+size*i) size

/-- Bytes of neither the array nor the buffer. -/
def Untouched (a : ℕ) : Prop :=
  (a < call.base ∨ call.base+size*n ≤ a) ∧
    ∀ t, call.buffer=some t → a < t ∨ t+totalSize n size ≤ a

theorem buffer_apart {t : ℕ} (h : call.buffer=some t) :
    call.base+size*n ≤ t ∨ t+totalSize n size ≤ call.base := by
  unfold buffer at h
  split_ifs at h with hstack
  · cases h
    have hap := call.stack_apart
    omega
  · exact call.malloc_apart t h

/-- A buffer behind the array. -/
theorem behind_array (n size : ℕ) : Apart 0 n n (qsortStackSize/size) :=
  Or.inl (Nat.zero_add n).le

/-- The same call on cells: the array has the first `n` of them, the buffer those behind. -/
def cells (mem : Memory) : Libc.Call n size where
  base := 0
  stack := n
  malloc := call.malloc.map fun _ => n
  buf := standFor call.base size (call.buffer.getD 0) mem
  size_pos := call.size_pos
  stack_apart := behind_array n size
  malloc_apart t h := by
    obtain ⟨_,-,rfl⟩ := Option.map_eq_some_iff.mp h
    exact Or.inl (Nat.zero_add n).le

/-- What the cells hold. -/
def contents (mem : Memory) (i : ℕ) : List UInt8 :=
  slice mem (if i < n then call.base+size*i else call.buffer.getD 0+size*(i-n)) size

theorem cells_buffer (mem : Memory) : (call.cells mem).buffer=call.buffer.map fun _ => n := by
  unfold Libc.Call.buffer buffer
  split_ifs <;> rfl

theorem contents_eq (mem : Memory) {i : ℕ} (hi : i < n) :
    call.contents mem i=slice mem (call.base+size*i) size := by rw [contents,if_pos hi]

theorem contents_views (mem : Memory) :
    (elements call.base n size).Views mem (call.contents mem) := fun _ hi =>
  (call.contents_eq mem hi).symm

theorem blocks_eq {mem : Memory} {c : ℕ → List UInt8} (h : (elements call.base n size).Views mem c) :
    call.blocks mem=slice c 0 n := by
  apply List.map_congr_left
  intro i hi
  rw [Nat.zero_add]
  exact h i (List.mem_range.mp hi)

end Call

theorem width_direct (cmp : Compare) (base size t : ℕ) : (direct cmp base size t).width=size := by
  have hfits := getSwapType_fits base size
  unfold MsortParam.width direct
  cases h : getSwapType base size with
  | words32 => exact (hfits.2 h).symm
  | words64 => exact (hfits.1 h).symm
  | voidArg => exact absurd h (getSwapType_ne base size)
  | bytes => rfl

theorem compare_direct (cmp : Compare) (base size t : ℕ) (mem : Memory) (b1 b2 : ℕ) :
    (direct cmp base size t).compare mem b1 b2=cmp mem b1 b2 := by
  unfold MsortParam.compare
  split
  · exact absurd ‹_› (getSwapType_ne base size)
  · rfl

section Refinement
variable {n size : ℕ} (call : Call n size) (cmp : List UInt8 → List UInt8 → ℤ) (mem : Memory)

/-- On cells the call ends with `out` where on bytes it ends with `mem'`. -/
structure Ends (mem' : Memory) (out : ℕ → List UInt8) : Prop where
  views : (elements call.base n size).Views mem' out
  outside : ∀ a, call.Untouched a → mem' a=mem a

/-- Elements that are moved themselves. -/
theorem direct_ends {t : ℕ} (h : call.buffer=some t) (hsize : size ≤ indirectSortSizeThres)
    (hn : 0 < n) :
    Ends call mem ((direct (pointed size cmp) call.base size t).msortWithTmp call.base n mem)
      (Libc.msortWithTmp cmp n 0 n (call.contents mem)) := by
  have htotal : totalSize n size=size*n := (if_neg (by omega)).trans (Nat.mul_comm n size)
  have hap := call.buffer_apart h
  rw [htotal] at hap
  set L := Layout.withBuffer call.base t size n hap
  have hplace : ∀ i < n, L.place i=call.base+size*i := fun _ => Layout.withBuffer_place
  have hviews : L.Views mem (call.contents mem) := by
    intro i hi
    rw [Call.contents,h]
    rfl
  have hsuits : Suits (direct (pointed size cmp) call.base size t) L cmp (fun _ => True) mem n := by
    refine ⟨rfl,width_direct _ _ _ _,(Layout.withBuffer_place_buffer 0).symm,?_⟩
    intro m c himage i hi j hj _ _
    rw [compare_direct,pointed,himage.views i hi,himage.views j hj]
  have himage := msortWithTmp_image hsuits Layout.adjacent_array Layout.adjacent_buffer
    (Or.inl (Nat.zero_add n).le) hviews.image fun _ _ _ => trivial
  rw [hplace 0 hn,Nat.mul_zero,Nat.add_zero] at himage
  refine ⟨fun i hi => ?_,fun a ha => himage.outside a (Layout.withBuffer_outside ha.1 ?_)⟩
  · have hview := himage.views i (Nat.lt_add_right n hi)
    rwa [hplace i hi] at hview
  · exact htotal ▸ ha.2 t h

/-- Elements that are moved through pointers. -/
theorem indirect_ends {t : ℕ} (h : call.buffer=some t) (hsize : size > indirectSortSizeThres)
    {u : Indirect (List UInt8)}
    (hu : Libc.indirectMsortWithTmp cmp 0 n ⟨call.contents mem,(call.cells mem).buf⟩=some u) :
    ∃ mem', indirectMsortWithTmp (indirect (pointed size cmp) t) call.base n size mem=some mem' ∧
      Ends call mem mem' u.mem := by
  have htotal : totalSize n size=2*n*8+size := if_pos hsize
  have hroom : Room call.base n size t := ⟨htotal ▸ call.buffer_apart h,call.size_pos,call.fits⟩
  have hbuf : (call.cells mem).buf=standFor call.base size t mem := by
    rw [Call.cells,h]
    rfl
  rw [hbuf] at hu
  obtain ⟨mem',hmem,hfollows⟩ :=
    indirectMsortWithTmp_follows hroom cmp (call.contents_views mem) hu
  exact ⟨mem',hmem,hfollows.array,fun a ha => hfollows.outside a ha.1 (htotal ▸ ha.2 t h)⟩

/-- There is no buffer. -/
theorem heapsortR_ends (hn : 0 < n) :
    Ends call mem (heapsortR (pointed size cmp) call.base (n-1) size mem)
      (Libc.heapsortR cmp 0 (n-1) (call.contents mem)) := by
  have himage : (elements call.base n size).Image mem
      (heapsortR (pointed size cmp) call.base (n-1) size mem)
      (Libc.heapsortR cmp 0 (n-1) (call.contents mem)) :=
    heapsortR_image (by omega) (call.contents_views mem).image
  exact ⟨himage.views,fun a ha => himage.outside a (Layout.array_outside ha.1)⟩

theorem qsortRMergesort_ends {t : ℕ} (h : call.buffer=some t) (hn : 0 < n) {out : ℕ → List UInt8}
    (hout : Libc.qsortRMergesort cmp 0 n size n (call.cells mem).buf (call.contents mem)=some out) :
    ∃ mem', qsortRMergesort (pointed size cmp) call.base n size t mem=some mem' ∧
      Ends call mem mem' out := by
  unfold Libc.qsortRMergesort at hout
  unfold qsortRMergesort
  split_ifs at hout ⊢ with hsize
  · obtain ⟨u,hu,rfl⟩ := Option.map_eq_some_iff.mp hout
    exact indirect_ends call cmp mem h hsize hu
  · cases hout
    exact ⟨_,rfl,direct_ends call cmp mem h (by omega) hn⟩

/-- On bytes `qsort_r` does what it does on cells. -/
theorem qsortR_ends {out : ℕ → List UInt8}
    (hout : Libc.qsortR (call.cells mem) cmp (call.contents mem)=some out) :
    ∃ mem', qsortR call (pointed size cmp) mem=some mem' ∧ Ends call mem mem' out := by
  unfold Libc.qsortR at hout
  unfold qsortR
  by_cases hn : n ≤ 1
  · rw [if_pos hn] at hout ⊢
    cases hout
    exact ⟨mem,rfl,call.contents_views mem,fun _ _ => rfl⟩
  · rw [if_neg hn] at hout ⊢
    by_cases hstack : totalSize n size ≤ qsortStackSize
    · rw [if_pos hstack] at hout ⊢
      exact qsortRMergesort_ends call cmp mem (if_pos hstack) (by omega) hout
    · rw [if_neg hstack] at hout ⊢
      have hbuffer : call.buffer=call.malloc := if_neg hstack
      cases hmalloc : call.malloc with
      | some t =>
        have hcells : (call.cells mem).malloc=some n := congrArg (Option.map fun _ => n) hmalloc
        rw [hcells] at hout
        exact qsortRMergesort_ends call cmp mem (hbuffer.trans hmalloc) (by omega) hout
      | none =>
        have hcells : (call.cells mem).malloc=none := congrArg (Option.map fun _ => n) hmalloc
        rw [hcells] at hout
        cases hout
        exact ⟨_,rfl,heapsortR_ends call cmp mem (by omega)⟩

/-- The blocks before and after are the cells before and after. -/
theorem qsortR_blocks :
    ∃ mem' out, qsortR call (pointed size cmp) mem=some mem' ∧
      Libc.qsortR (call.cells mem) cmp (call.contents mem)=some out ∧
      call.blocks mem=slice (call.contents mem) 0 n ∧ call.blocks mem'=slice out 0 n ∧
      ∀ a, call.Untouched a → mem' a=mem a := by
  obtain ⟨out,hout,-⟩ := qsortR_perm_sorted (call.cells mem) cmp (call.contents mem)
  obtain ⟨mem',hmem,hends⟩ := qsortR_ends call cmp mem hout
  exact ⟨mem',out,hmem,hout,call.blocks_eq (call.contents_views mem),call.blocks_eq hends.views,
    hends.outside⟩

theorem qsortR_blocks_perm_sorted :
    ∃ mem', qsortR call (pointed size cmp) mem=some mem' ∧
      (call.blocks mem').Perm (call.blocks mem) ∧
      (IsComparator cmp (call.blocks mem) →
        (call.blocks mem').Pairwise fun v w => cmp v w ≤ 0) := by
  obtain ⟨mem',out,hmem,hout,hblocks,hblocks',-⟩ := qsortR_blocks call cmp mem
  obtain ⟨out',hout',hspec⟩ := qsortR_perm_sorted (call.cells mem) cmp (call.contents mem)
  obtain rfl : out'=out := Option.some.inj (hout'.symm.trans hout)
  refine ⟨mem',hmem,?_⟩
  rw [hblocks,hblocks']
  exact hspec

theorem qsortR_blocks_stable (hbuf : call.buffer.isSome) (h : IsComparator cmp (call.blocks mem))
    {mem' : Memory} (hmem : qsortR call (pointed size cmp) mem=some mem') :
    ∀ v ∈ call.blocks mem,
      (call.blocks mem').filter (ties cmp v)=(call.blocks mem).filter (ties cmp v) := by
  obtain ⟨mem₁,out,hmem₁,hout,hblocks,hblocks',-⟩ := qsortR_blocks call cmp mem
  obtain rfl : mem₁=mem' := Option.some.inj (hmem₁.symm.trans hmem)
  obtain ⟨t,ht⟩ := Option.isSome_iff_exists.mp hbuf
  have hbuffer : (call.cells mem).buffer=some n := by rw [call.cells_buffer,ht]; rfl
  obtain ⟨out',hout',hmerge,-⟩ := qsortR_of_buffer (call.cells mem) cmp (call.contents mem) hbuffer
  obtain rfl : out'=out := Option.some.inj (hout'.symm.trans hout)
  have hsorted : call.blocks mem₁=mergeHalves cmp (call.blocks mem) := by
    rw [hblocks,hblocks']
    exact hmerge
  rw [hsorted]
  exact fun v hv => filter_ties_mergeHalves h hv fun _ hx => hx

/-- On bytes `qsort_r` returns. It permutes the blocks of bytes that the elements are, and changes no
byte outside the array and the buffer. If the comparison is proper on the blocks, they end up
sorted, and with a buffer blocks that tie keep their order. -/
theorem qsortR_sorts_blocks :
    ∃ mem', qsortR call (pointed size cmp) mem=some mem' ∧
      (call.blocks mem').Perm (call.blocks mem) ∧ (∀ a, call.Untouched a → mem' a=mem a) ∧
      (IsComparator cmp (call.blocks mem) →
        (call.blocks mem').Pairwise (fun v w => cmp v w ≤ 0) ∧
        (call.buffer.isSome → ∀ v ∈ call.blocks mem,
          (call.blocks mem').filter (ties cmp v)=(call.blocks mem).filter (ties cmp v))) := by
  obtain ⟨mem',hmem,hperm,hsorted⟩ := qsortR_blocks_perm_sorted call cmp mem
  obtain ⟨mem₁,-,hmem₁,-,-,-,hout⟩ := qsortR_blocks call cmp mem
  obtain rfl : mem₁=mem' := Option.some.inj (hmem₁.symm.trans hmem)
  exact ⟨mem₁,hmem,hperm,hout,fun h =>
    ⟨hsorted h,fun hbuf => qsortR_blocks_stable call cmp mem hbuf h hmem⟩⟩

end Refinement

section Words

theorem slice_storePtr (mem : Memory) (p v : ℕ) : slice (storePtr mem p v) p 8=Bytes.le 8 v := by
  rw [storePtr_eq,slice_copy,slice_le]

/-- Numbers stored one behind the other are the blocks of that array. -/
theorem slice_store_words (xs : List ℕ) (mem : Memory) (p : ℕ) :
    ((List.range xs.length).map fun i => slice (store mem p (xs.flatMap (Bytes.le 8))) (p+8*i) 8)=
      xs.map (Bytes.le 8) := by
  induction xs generalizing mem p with
  | nil => rfl
  | cons x xs ih =>
    have hstore : store mem p ((x::xs).flatMap (Bytes.le 8))=
        store (storePtr mem p x) (p+8) (xs.flatMap (Bytes.le 8)) := by
      rw [List.flatMap_cons,store_append,Bytes.length_le,storePtr]
    have hhead : slice (store (storePtr mem p x) (p+8) (xs.flatMap (Bytes.le 8))) (p+8*0) 8=
        Bytes.le 8 x := by
      rw [← slice_storePtr mem p x]
      apply slice_congr
      intro i hi
      exact copy_of_lt _ _ (Or.inl (by omega))
    rw [hstore,List.length_cons,List.range_succ_eq_map,List.map_cons,List.map_map,List.map_cons,
      hhead,← ih (storePtr mem p x) (p+8)]
    congr 1
    apply List.map_congr_left
    intro i _
    rw [Function.comp_apply,show p+8*i.succ=p+8+8*i by omega]

/-- `qsort_r` on a vector of `size_t` at the array of the call. The comparison reads the numbers. -/
def sortWords (cmp : ℕ → ℕ → ℤ) (xs : List ℕ) (call : Call xs.length 8) (mem : Memory) : List ℕ :=
  let mem := store mem call.base (xs.flatMap (Bytes.le 8))
  match qsortR call (pointed 8 fun v w => cmp (Bytes.toNat v) (Bytes.toNat w)) mem with
  | some mem => (call.blocks mem).map Bytes.toNat
  | none => xs

theorem sortWords_spec (cmp : ℕ → ℕ → ℤ) {xs : List ℕ} (hxs : ∀ x ∈ xs, x < 2^64)
    (call : Call xs.length 8) (mem : Memory) :
    (sortWords cmp xs call mem).Perm xs ∧
      (IsComparator cmp xs → (sortWords cmp xs call mem).Pairwise fun a b => cmp a b ≤ 0) := by
  obtain ⟨mem',hmem,hperm,hsorted⟩ := qsortR_blocks_perm_sorted call
    (fun v w => cmp (Bytes.toNat v) (Bytes.toNat w)) (store mem call.base (xs.flatMap (Bytes.le 8)))
  have hblocks : call.blocks (store mem call.base (xs.flatMap (Bytes.le 8)))=xs.map (Bytes.le 8) :=
    slice_store_words xs mem call.base
  have hdecode : ∀ x ∈ xs, Bytes.toNat (Bytes.le 8 x)=x := fun x hx => Bytes.toNat_le (hxs x hx)
  have hback : (xs.map (Bytes.le 8)).map Bytes.toNat=xs := by
    rw [List.map_map]
    exact (List.map_congr_left hdecode).trans (List.map_id xs)
  rw [hblocks] at hperm hsorted
  simp only [sortWords,hmem]
  refine ⟨?_,fun h => ?_⟩
  · exact (hperm.map _).trans (.of_eq hback)
  · rw [List.pairwise_map]
    apply hsorted
    constructor
    · simp only [List.forall_mem_map]
      intro a ha b hb
      rw [hdecode a ha,hdecode b hb]
      exact h.sign a ha b hb
    · simp only [List.forall_mem_map]
      intro a ha b hb c hc
      rw [hdecode a ha,hdecode b hb,hdecode c hc]
      exact h.trans a ha b hb c hc

/-- The list fits a vector of `size_t` in memory. -/
def Storable (xs : List ℕ) : Prop := (∀ x ∈ xs, x < 2^64) ∧ 8*xs.length ≤ 2^64

instance (xs : List ℕ) : Decidable (Storable xs) := inferInstanceAs (Decidable (_ ∧ _))

/-- `qsort_r` on bytes as a sorting function for vectors of `size_t`, for any surroundings of its
calls and any contents of the memory around the vector. Lists that no vector holds are sorted by
insertion. -/
def sorter (calls : ∀ (_ : ℕ → ℕ → ℤ) (xs : List ℕ), Storable xs → Call xs.length 8 × Memory) :
    Sorter ℕ where
  sort cmp xs :=
    if h : Storable xs then sortWords cmp xs (calls cmp xs h).1 (calls cmp xs h).2
    else Sorter.insertion.sort cmp xs
  perm {cmp xs} h := by
    split_ifs with hxs
    · exact (sortWords_spec cmp hxs.1 _ _).1
    · exact Sorter.insertion.perm h
  sorted {cmp xs} h := by
    split_ifs with hxs
    · exact (sortWords_spec cmp hxs.1 _ _).2 h
    · exact Sorter.insertion.sorted h

end Words
end InBytes
end Libc
end NeOs
