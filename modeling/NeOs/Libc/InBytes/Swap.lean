import NeOs.Library.Layout

/-! `do_swap` of `glibc-2.43/stdlib/qsort.c` and `__memswap` of `sysdeps/generic/memswap.h`, on the
bytes of memory. -/
namespace NeOs
open Library Cells
namespace Libc
namespace InBytes

abbrev Memory := ℕ → UInt8

/-- `enum swap_type_t` -/
inductive SwapType
  | words64
  | words32
  | voidArg
  | bytes
  deriving Repr, DecidableEq

/-- `get_swap_type` -/
def getSwapType (pbase size : ℕ) : SwapType :=
  if size%4=0 ∧ pbase%4=0 then
    if size=4 then .words32
    else if size=8 ∧ pbase%8=0 then .words64
    else .bytes
  else .bytes

/-- Store bytes that have been read before. -/
def store (mem : Memory) (p : ℕ) (bs : List UInt8) : Memory :=
  copy mem p (fun i => bs.getD i 0) 0 bs.length

/-- The loop of `swap_words_64` and `swap_words_32`, for words of `w` bytes. -/
def swapWords {w : ℕ} (hw : 0 < w) (a b n : ℕ) (mem : Memory) : Memory :=
  let n' := n-w
  let t := slice mem (a+n') w
  let mem := copy mem (a+n') mem (b+n') w
  let mem := store mem (b+n') t
  if n'=0 then mem else swapWords hw a b n' mem
  termination_by n

/-- `swap_words_64` -/
def swapWords64 (a b n : ℕ) (mem : Memory) : Memory := swapWords (by decide : 0 < 8) a b n mem

/-- `swap_words_32` -/
def swapWords32 (a b n : ℕ) (mem : Memory) : Memory := swapWords (by decide : 0 < 4) a b n mem

/-- The second loop of `__memswap`. -/
def memswapBytes (p1 p2 : ℕ) : ℕ → Memory → Memory
  | 0,mem => mem
  | n+1,mem =>
    let t := mem (p1+n)
    let mem := Function.update mem (p1+n) (mem (p2+n))
    let mem := Function.update mem (p2+n) t
    memswapBytes p1 p2 n mem

/-- `__memswap` -/
def memswap (p1 p2 n : ℕ) (mem : Memory) : Memory :=
  if 32 < n then
    let tmp := slice mem p1 32
    let mem := copy mem p1 mem p2 32
    let mem := store mem p2 tmp
    memswap (p1+32) (p2+32) (n-32) mem
  else memswapBytes p1 p2 n mem
  termination_by n

/-- `do_swap` -/
def doSwap (a b size : ℕ) (swapType : SwapType) (mem : Memory) : Memory :=
  if swapType=.words64 then swapWords64 a b size mem
  else if swapType=.words32 then swapWords32 a b size mem
  else memswap a b size mem

/-- Exchange the `n` bytes at `a` and those at `b`. -/
def exchange (mem : Memory) (a b n : ℕ) : Memory := copy (copy mem a mem b n) b mem a n

/-- The two blocks do not meet. -/
def Disjoint (a b n : ℕ) : Prop := a+n ≤ b ∨ b+n ≤ a

/-- Words of the type fit elements of this size. -/
def SwapType.Fits (swapType : SwapType) (size : ℕ) : Prop :=
  (swapType=.words64 → size=8) ∧ (swapType=.words32 → size=4)

theorem getSwapType_fits (pbase size : ℕ) : (getSwapType pbase size).Fits size := by
  unfold getSwapType SwapType.Fits
  split_ifs <;> simp_all

theorem getSwapType_ne (pbase size : ℕ) : getSwapType pbase size≠.voidArg := by
  unfold getSwapType
  split_ifs <;> simp

theorem store_slice (mem mem' : Memory) (p a n : ℕ) :
    store mem p (slice mem' a n)=copy mem p mem' a n := by
  funext i
  unfold store copy
  rw [slice_length]
  split_ifs with h
  · beta_reduce
    rw [Nat.zero_add,List.getD_eq_getElem?_getD,getElem?_slice,if_pos (by omega),Option.getD_some]
  · rfl

theorem store_append (mem : Memory) (p : ℕ) (bs bs' : List UInt8) :
    store mem p (bs++bs')=store (store mem p bs) (p+bs.length) bs' := by
  funext a
  simp only [store,copy,List.length_append,Nat.zero_add]
  by_cases hin : p ≤ a ∧ a < p+bs.length
  · rw [if_pos (by omega),if_neg (by omega),if_pos hin,List.getD_append _ _ _ _ (by omega)]
  · by_cases hin' : p+bs.length ≤ a ∧ a < p+bs.length+bs'.length
    · rw [if_pos (by omega),if_pos hin',List.getD_append_right _ _ _ _ (by omega),Nat.sub_sub]
    · rw [if_neg (by omega),if_neg hin',if_neg hin]

theorem exchange_eq {mem : Memory} {a b n : ℕ} :
    store (copy mem a mem b n) b (slice mem a n)=exchange mem a b n := store_slice _ _ _ _ _

/-- Two pieces are exchanged one after the other. -/
theorem exchange_add {mem : Memory} {a b k n : ℕ} (h : Disjoint a b (k+n)) :
    exchange (exchange mem a b k) (a+k) (b+k) n=exchange mem a b (k+n) := by
  funext i
  unfold Disjoint at h
  simp only [exchange,copy]
  split_ifs <;> first | omega | rfl | (congr 1; omega)

/-- The other way round. -/
theorem exchange_add_last {mem : Memory} {a b k n : ℕ} (h : Disjoint a b (k+n)) :
    exchange (exchange mem (a+k) (b+k) n) a b k=exchange mem a b (k+n) := by
  funext i
  unfold Disjoint at h
  simp only [exchange,copy]
  split_ifs <;> first | omega | rfl | (congr 1; omega)

theorem swapWords_once {w : ℕ} (hw : 0 < w) (a b : ℕ) (mem : Memory) :
    swapWords hw a b w mem=exchange mem a b w := by
  rw [swapWords]
  simp only [Nat.sub_self,Nat.add_zero,if_true]
  exact exchange_eq

theorem memswapBytes_eq {p1 p2 n : ℕ} (mem : Memory) (h : Disjoint p1 p2 n) :
    memswapBytes p1 p2 n mem=exchange mem p1 p2 n := by
  induction n generalizing mem with
  | zero =>
    funext i
    simp only [memswapBytes,exchange,copy]
    rw [if_neg (by omega),if_neg (by omega)]
  | succ n ih =>
    have hbyte : Function.update (Function.update mem (p1+n) (mem (p2+n))) (p2+n) (mem (p1+n))=
        exchange mem (p1+n) (p2+n) 1 := by
      funext i
      simp only [exchange,copy,Function.update_apply]
      split_ifs <;> first | omega | rfl | (congr 1; omega)
    unfold Disjoint at h
    rw [memswapBytes,hbyte,ih _ (by unfold Disjoint; omega)]
    exact exchange_add_last h

theorem memswap_eq {p1 p2 n : ℕ} (mem : Memory) (h : Disjoint p1 p2 n) :
    memswap p1 p2 n mem=exchange mem p1 p2 n := by
  induction n using Nat.strong_induction_on generalizing p1 p2 mem with
  | h n ih =>
    rw [memswap]
    split_ifs with hn
    · simp only [exchange_eq]
      obtain ⟨k,rfl⟩ := Nat.exists_eq_add_of_lt hn
      have hk : 32+k+1-32=k+1 := by omega
      unfold Disjoint at h
      rw [hk,ih (k+1) (by omega) _ (by unfold Disjoint; omega),
        exchange_add (by unfold Disjoint; omega),Nat.add_assoc]
    · exact memswapBytes_eq mem h

/-- However it moves the bytes, `do_swap` exchanges the elements. -/
theorem doSwap_eq {a b size : ℕ} {swapType : SwapType} (hfits : swapType.Fits size) (mem : Memory)
    (h : Disjoint a b size) : doSwap a b size swapType mem=exchange mem a b size := by
  unfold doSwap
  split_ifs with h64 h32
  · obtain rfl := hfits.1 h64
    exact swapWords_once _ a b mem
  · obtain rfl := hfits.2 h32
    exact swapWords_once _ a b mem
  · exact memswap_eq mem h

end InBytes
end Libc
end NeOs
