import NeOs.Libc.Heapsort
import NeOs.Libc.Indirect

/-! `qsort_r` of `glibc-2.43/stdlib/qsort.c`: merge sort with a buffer on the stack or from
`malloc`, through pointers if the elements are large, and heap sort if there is no memory. -/
namespace NeOs
open Library Cells
namespace Libc
variable {α : Type*}

/-- `QSORT_STACK_SIZE` -/
def qsortStackSize : ℕ := 1024

/-- `INDIRECT_SORT_SIZE_THRES` -/
def indirectSortSizeThres : ℕ := 32

/-- `total_size`, in bytes. -/
def totalSize (totalElems size : ℕ) : ℕ :=
  if size > indirectSortSizeThres then 2*totalElems*8+size else totalElems*size

/-- For an array that fits into memory, `total_size` is a `size_t`. -/
theorem totalSize_lt {totalElems size : ℕ} (hn : 1 < totalElems) (h : totalElems*size < 2^64) :
    totalSize totalElems size < 2^64 := by
  unfold totalSize
  split_ifs with hsize
  · have hlarge : totalElems*33 ≤ totalElems*size := Nat.mul_le_mul_left _ hsize
    have htwo : 2*size ≤ totalElems*size := Nat.mul_le_mul_right _ hn
    omega
  · exact h

/-- A call of `qsort_r` on `totalElems` elements of `size` bytes: where the array is, where the
buffer on the stack is, what `malloc` returns, and what pointers the buffer happens to hold. No
buffer meets the array. -/
structure Call (totalElems size : ℕ) where
  base : ℕ
  stack : ℕ
  malloc : Option ℕ
  buf : ℕ → ℕ
  size_pos : 0 < size
  stack_apart : Apart base totalElems stack (qsortStackSize/size)
  malloc_apart : ∀ t, malloc=some t → Apart base totalElems t (totalSize totalElems size/size)

/-- `qsort_r_mergesort` -/
def qsortRMergesort (cmp : α → α → ℤ) (base totalElems size : ℕ) (buf : ℕ) (pointers : ℕ → ℕ)
    (mem : ℕ → α) : Option (ℕ → α) :=
  if size > indirectSortSizeThres then
    (indirectMsortWithTmp cmp base totalElems ⟨mem,pointers⟩).map Indirect.mem
  else some (msortWithTmp cmp buf base totalElems mem)

/-- `__qsort_r`, with `qsort_r_malloc` -/
def qsortR {totalElems size : ℕ} (call : Call totalElems size) (cmp : α → α → ℤ) (mem : ℕ → α) :
    Option (ℕ → α) :=
  if totalElems ≤ 1 then some mem
  else if totalSize totalElems size ≤ qsortStackSize then
    qsortRMergesort cmp call.base totalElems size call.stack call.buf mem
  else match call.malloc with
    | some t => qsortRMergesort cmp call.base totalElems size t call.buf mem
    | none => some (heapsortR cmp call.base (totalElems-1) mem)

/-- The buffer with which the call sorts, if any. -/
def Call.buffer {totalElems size : ℕ} (call : Call totalElems size) : Option ℕ :=
  if totalSize totalElems size ≤ qsortStackSize then some call.stack else call.malloc

section Calls
variable {n size : ℕ} (call : Call n size)

/-- The buffer has room for all elements, and does not meet the array. -/
theorem Call.buffer_apart (hsize : size ≤ indirectSortSizeThres) {t : ℕ} (h : call.buffer=some t) :
    Apart call.base n t n := by
  have htotal : totalSize n size=n*size := if_neg (by omega)
  unfold Call.buffer at h
  split_ifs at h with hstack
  · cases h
    have hroom : n ≤ qsortStackSize/size :=
      (Nat.le_div_iff_mul_le call.size_pos).mpr (htotal ▸ hstack)
    have hap := call.stack_apart
    unfold Apart at *
    omega
  · have hap := call.malloc_apart t h
    rwa [htotal,Nat.mul_div_cancel _ call.size_pos] at hap

theorem qsortRMergesort_spec (cmp : α → α → ℤ) (mem : ℕ → α) {t : ℕ} (h : call.buffer=some t) :
    ∃ mem', qsortRMergesort cmp call.base n size t call.buf mem=some mem' ∧
      slice mem' call.base n=mergeHalves cmp (slice mem call.base n) ∧
      SameOutside t call.base n mem mem' := by
  unfold qsortRMergesort
  split_ifs with hsize
  · obtain ⟨s,hs,hsort,hout,-⟩ := indirectMsortWithTmp_spec cmp call.base n ⟨mem,call.buf⟩
    exact ⟨s.mem,by rw [hs]; rfl,hsort,fun i hi _ => hout i hi⟩
  · have hspec := msortWithTmp_spec cmp (call.buffer_apart (by omega) h) mem
    exact ⟨_,rfl,hspec⟩

/-- With a buffer, whatever the size of the elements and whatever the comparison returns. -/
theorem qsortR_of_buffer (cmp : α → α → ℤ) (mem : ℕ → α) {t : ℕ} (h : call.buffer=some t) :
    ∃ mem', qsortR call cmp mem=some mem' ∧
      slice mem' call.base n=mergeHalves cmp (slice mem call.base n) ∧
      SameOutside t call.base n mem mem' := by
  unfold qsortR
  by_cases hn : n ≤ 1
  · refine ⟨mem,if_pos hn,?_,fun _ _ _ => rfl⟩
    rw [mergeHalves_of_length (by simpa using hn)]
  · rw [if_neg hn]
    have hspec := qsortRMergesort_spec call cmp mem h
    unfold Call.buffer at h
    split_ifs at h with hstack
    · cases h
      rw [if_pos hstack]
      exact hspec
    · rw [if_neg hstack,h]
      exact hspec

theorem qsortR_of_no_buffer (cmp : α → α → ℤ) (mem : ℕ → α) (h : call.buffer=none) :
    ∃ mem', qsortR call cmp mem=some mem' ∧ Rearranged call.base n mem mem' ∧
      (IsComparator cmp (slice mem call.base n) →
        (slice mem' call.base n).Pairwise fun a b => cmp a b ≤ 0) := by
  unfold qsortR
  by_cases hn : n ≤ 1
  · refine ⟨mem,if_pos hn,.refl _ _ _,fun _ => pairwise_slice.mpr ?_⟩
    intro i j hij hj
    omega
  · rw [if_neg hn]
    unfold Call.buffer at h
    split_ifs at h with hstack
    rw [if_neg hstack,h]
    have hspec := heapsortR_spec cmp call.base (n-1) mem
    rw [Nat.sub_add_cancel (by omega)] at hspec
    exact ⟨_,rfl,hspec⟩

/-- Cells of neither the array nor the buffer. -/
def Call.Untouched (i : ℕ) : Prop :=
  (i < call.base ∨ call.base+n ≤ i) ∧ ∀ t, call.buffer=some t → i < t ∨ t+n ≤ i

theorem qsortR_perm_sorted (cmp : α → α → ℤ) (mem : ℕ → α) :
    ∃ mem', qsortR call cmp mem=some mem' ∧
      (slice mem' call.base n).Perm (slice mem call.base n) ∧
      (IsComparator cmp (slice mem call.base n) →
        (slice mem' call.base n).Pairwise fun a b => cmp a b ≤ 0) := by
  cases hb : call.buffer with
  | some t =>
    obtain ⟨mem',hsome,hsort,-⟩ := qsortR_of_buffer call cmp mem hb
    refine ⟨mem',hsome,hsort ▸ mergeHalves_perm cmp _,fun h => ?_⟩
    rw [hsort]
    exact pairwise_mergeHalves h
  | none =>
    obtain ⟨mem',hsome,hre,hsorted⟩ := qsortR_of_no_buffer call cmp mem hb
    exact ⟨mem',hsome,hre.perm,hsorted⟩

/-- Nothing but the array and the buffer is written. -/
theorem qsortR_outside {cmp : α → α → ℤ} {mem mem' : ℕ → α} (h : qsortR call cmp mem=some mem')
    {i : ℕ} (hi : call.Untouched i) : mem' i=mem i := by
  cases hb : call.buffer with
  | some t =>
    obtain ⟨out,hout,-,hsame⟩ := qsortR_of_buffer call cmp mem hb
    obtain rfl : out=mem' := Option.some.inj (hout.symm.trans h)
    exact hsame i hi.1 (hi.2 t hb)
  | none =>
    obtain ⟨out,hout,hre,-⟩ := qsortR_of_no_buffer call cmp mem hb
    obtain rfl : out=mem' := Option.some.inj (hout.symm.trans h)
    exact hre.outside hi.1

/-- `qsort_r` returns, with or without memory for a buffer. It permutes the array and writes
nothing but the array and the buffer. A comparison that is proper on the elements finds them
sorted. -/
theorem qsortR_sorts (cmp : α → α → ℤ) (mem : ℕ → α) :
    ∃ mem', qsortR call cmp mem=some mem' ∧
      (slice mem' call.base n).Perm (slice mem call.base n) ∧
      (∀ i, call.Untouched i → mem' i=mem i) ∧
      (IsComparator cmp (slice mem call.base n) →
        (slice mem' call.base n).Pairwise fun a b => cmp a b ≤ 0) := by
  obtain ⟨mem',hsome,hperm,hsorted⟩ := qsortR_perm_sorted call cmp mem
  exact ⟨mem',hsome,hperm,fun i hi => qsortR_outside call hsome hi,hsorted⟩

/-- With a buffer `qsort_r` is stable, also where it sorts through pointers. Calls with buffers
agree on the array, whatever the size of their elements and whatever the comparison returns. -/
theorem qsortR_stable {size' : ℕ} (call' : Call n size') (cmp : α → α → ℤ) (mem mem₂ : ℕ → α)
    (hb : call.buffer.isSome) (hb' : call'.buffer.isSome)
    (hsame : slice mem call.base n=slice mem₂ call'.base n) :
    ∃ out out₂, qsortR call cmp mem=some out ∧ qsortR call' cmp mem₂=some out₂ ∧
      slice out call.base n=slice out₂ call'.base n ∧
      (IsComparator cmp (slice mem call.base n) → ∀ a ∈ slice mem call.base n,
        (slice out call.base n).filter (ties cmp a)=(slice mem call.base n).filter (ties cmp a)) := by
  obtain ⟨t,ht⟩ := Option.isSome_iff_exists.mp hb
  obtain ⟨t',ht'⟩ := Option.isSome_iff_exists.mp hb'
  obtain ⟨out,hout,hsort,-⟩ := qsortR_of_buffer call cmp mem ht
  obtain ⟨out',hout',hsort',-⟩ := qsortR_of_buffer call' cmp mem₂ ht'
  refine ⟨out,out',hout,hout',?_,fun h a ha => ?_⟩
  · rw [hsort,hsort',hsame]
  · rw [hsort]
    exact filter_ties_mergeHalves h ha fun _ hx => hx

/-- A call at a time when there is no memory. -/
def Call.noMemory (n : ℕ) {size : ℕ} (h : 0 < size) : Call n size where
  base := 0
  stack := n
  malloc := none
  buf _ := 0
  size_pos := h
  stack_apart := Or.inl (Nat.zero_add n).le
  malloc_apart _ h := nomatch h

/-- Elements of 8 and of 256 bytes, the latter through pointers. -/
theorem qsortR_stable_sizes :
    ∃ out out₂, qsortR (Call.noMemory 3 (by decide : 0 < 8)) (fun a b => (a/10 : ℤ)-b/10)
        (fun i => [21,13,10,0].getD i 0)=some out ∧
      qsortR (Call.noMemory 3 (by decide : 0 < 256)) (fun a b => (a/10 : ℤ)-b/10)
        (fun i => [21,13,10,7].getD i 0)=some out₂ ∧
      slice out 0 3=slice out₂ 0 3 := by
  obtain ⟨out,out₂,hout,hout₂,hsame,-⟩ := qsortR_stable (Call.noMemory 3 (by decide : 0 < 8))
    (Call.noMemory 3 (by decide : 0 < 256)) (fun a b => (a/10 : ℤ)-b/10)
    (fun i => [21,13,10,0].getD i 0) (fun i => [21,13,10,7].getD i 0) (by decide) (by decide)
    (by decide)
  exact ⟨out,out₂,hout,hout₂,hsame⟩

/-- `qsort_r` on a list in memory. -/
def qsortList (cmp : α → α → ℤ) (xs : List α) (call : Call xs.length size) : List α :=
  match xs with
  | [] => []
  | x::xs =>
    match qsortR call cmp fun i => (x::xs).getD (i-call.base) x with
    | some mem => slice mem call.base (x::xs).length
    | none => x::xs

theorem qsortList_spec (cmp : α → α → ℤ) (xs : List α) (call : Call xs.length size) :
    (qsortList cmp xs call).Perm xs ∧
      (IsComparator cmp xs → (qsortList cmp xs call).Pairwise fun a b => cmp a b ≤ 0) := by
  cases xs with
  | nil => exact ⟨.refl _,fun _ => .nil⟩
  | cons x xs =>
    obtain ⟨mem,hmem,hperm,hsorted⟩ :=
      qsortR_perm_sorted call cmp fun i => (x::xs).getD (i-call.base) x
    rw [slice_getD] at hperm hsorted
    simp only [qsortList,hmem]
    exact ⟨hperm,hsorted⟩

/-- `qsort_r` as a sorting function, for any surroundings of its calls. These may vary with what is
sorted and how. -/
def sorter (size : ℕ) (calls : ∀ (_ : α → α → ℤ) (xs : List α), Call xs.length size) : Sorter α where
  sort cmp xs := qsortList cmp xs (calls cmp xs)
  perm {cmp xs} _ := (qsortList_spec cmp xs _).1
  sorted {cmp xs} h := (qsortList_spec cmp xs _).2 h

end Calls
end Libc
end NeOs
