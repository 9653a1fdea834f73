import NeOs.Libc.InBytes.Heapsort
import NeOs.Libc.Msort
import NeOs.Library.Bytes

/-! `msort_with_tmp` of `glibc-2.43/stdlib/qsort.c` on the bytes of memory, with all variants of its
merging loop. On the cells of array and buffer it does what the model on cells does. -/
namespace NeOs
open Library Cells
namespace Libc
namespace InBytes

/-- A pointer in memory. -/
def loadPtr (mem : Memory) (p : ℕ) : ℕ := Bytes.toNat (slice mem p 8)

def storePtr (mem : Memory) (p v : ℕ) : Memory := store mem p (Bytes.le 8 v)

/-- `struct msort_param`. The argument `arg` is part of `cmp`. -/
structure MsortParam where
  s : ℕ
  var : SwapType
  cmp : Compare
  t : ℕ

namespace MsortParam
variable (p : MsortParam)

/-- How many bytes the merging loop moves at a time. -/
def width : ℕ :=
  match p.var with
  | .words32 => 4
  | .words64 => 8
  | .voidArg => 8
  | .bytes => p.s

/-- How it compares the elements at `b1` and `b2`. -/
def compare (mem : Memory) (b1 b2 : ℕ) : ℤ :=
  match p.var with
  | .voidArg => p.cmp mem (loadPtr mem b1) (loadPtr mem b2)
  | _ => p.cmp mem b1 b2

def takeLeft (s : Merging UInt8) : Merging UInt8 :=
  { s with
    mem := copy s.mem s.tmp s.mem s.b1 p.width, b1 := s.b1+p.width, n1 := s.n1-1,
    tmp := s.tmp+p.width }

def takeRight (s : Merging UInt8) : Merging UInt8 :=
  { s with
    mem := copy s.mem s.tmp s.mem s.b2 p.width, b2 := s.b2+p.width, n2 := s.n2-1,
    tmp := s.tmp+p.width }

/-- The merging loop. -/
def mergeLoop (s : Merging UInt8) : Merging UInt8 :=
  if 0 < s.n1 ∧ 0 < s.n2 then
    if p.compare s.mem s.b1 s.b2 ≤ 0 then mergeLoop (p.takeLeft s) else mergeLoop (p.takeRight s)
  else s
  termination_by s.n1+s.n2
  decreasing_by
    · simp only [takeLeft]
      omega
    · simp only [takeRight]
      omega

/-- What follows the loop. -/
def copyBack (s : Merging UInt8) (b n : ℕ) : Memory :=
  let mem := if 0 < s.n1 then copy s.mem s.tmp s.mem s.b1 (s.n1*p.s) else s.mem
  copy mem b mem p.t ((n-s.n2)*p.s)

/-- `msort_with_tmp` -/
def msortWithTmp (b n : ℕ) (mem : Memory) : Memory :=
  if n ≤ 1 then mem
  else
    let n1 := n/2
    let n2 := n-n1
    let b2 := b+n1*p.s
    let mem := msortWithTmp b n1 mem
    let mem := msortWithTmp b2 n2 mem
    p.copyBack (p.mergeLoop ⟨mem,b,n1,b2,n2,p.t⟩) b n
  termination_by n
  decreasing_by all_goals omega

end MsortParam

section Refinement
variable {size : ℕ}

/-- The parameters suit the cells: the loop moves whole cells, and compares good ones by `cmp`. -/
structure Suits (p : MsortParam) (L : Layout size) (cmp : List UInt8 → List UInt8 → ℤ)
    (Good : List UInt8 → Prop) (mem₀ : Memory) (t : ℕ) : Prop where
  s : p.s=size
  width : p.width=size
  t : p.t=L.place t
  compare : ∀ mem c, L.Image mem₀ mem c → ∀ i < L.count, ∀ j < L.count, Good (c i) → Good (c j) →
    p.compare mem (L.place i) (L.place j)=cmp (c i) (c j)

/-- The loop on bytes is at `s` where the loop on cells is at `u`. The runs of `k1` and `k2` cells
start at `b`, and what is left of them is good. -/
structure Tracks (L : Layout size) (Good : List UInt8 → Prop) (mem₀ : Memory) (b k1 k2 t : ℕ)
    (s : Merging UInt8) (u : Merging (List UInt8)) : Prop where
  image : L.Image mem₀ s.mem u.mem
  n1 : s.n1=u.n1
  n2 : s.n2=u.n2
  b1 : s.b1=L.place b+size*(u.b1-b)
  b2 : s.b2=L.place b+size*(u.b2-b)
  tmp : s.tmp=L.place t+size*(u.tmp-t)
  left : b ≤ u.b1 ∧ u.b1+u.n1=b+k1
  right : b+k1 ≤ u.b2 ∧ u.b2+u.n2=b+k1+k2
  buffer : t ≤ u.tmp ∧ u.tmp+u.n1+u.n2=t+(k1+k2)
  good : ∀ i, (u.b1 ≤ i ∧ i < u.b1+u.n1) ∨ (u.b2 ≤ i ∧ i < u.b2+u.n2) → Good (u.mem i)

variable {p : MsortParam} {L : Layout size} {cmp : List UInt8 → List UInt8 → ℤ}
  {Good : List UInt8 → Prop} {mem₀ : Memory} {b k1 k2 t : ℕ} {s : Merging UInt8}
  {u : Merging (List UInt8)}

theorem mul_succ_sub {size b i : ℕ} (h : b ≤ i) : size*(i+1-b)=size*(i-b)+size := by
  rw [show i+1-b=i-b+1 by omega,Nat.mul_succ]

namespace Tracks

/-- While the loop goes on, its pointers point to cells. -/
theorem places (h : Tracks L Good mem₀ b k1 k2 t s u) (hb : L.Adjacent b (k1+k2))
    (ht : L.Adjacent t (k1+k2)) :
    (0 < u.n1 → s.b1=L.place u.b1) ∧ (0 < u.n2 → s.b2=L.place u.b2) ∧
      (0 < u.n1+u.n2 → s.tmp=L.place u.tmp) := by
  obtain ⟨-,-,-,hb1,hb2,htmp,hl,hr,hbuf,-⟩ := h
  refine ⟨fun hn => ?_,fun hn => ?_,fun hn => ?_⟩
  · rw [hb1,hb.place_eq hl.1 (by omega)]
  · rw [hb2,hb.place_eq (by omega) (by omega)]
  · rw [htmp,ht.place_eq hbuf.1 (by omega)]

theorem takeLeft (h : Tracks L Good mem₀ b k1 k2 t s u) (hs : Suits p L cmp Good mem₀ t)
    (hb : L.Adjacent b (k1+k2)) (ht : L.Adjacent t (k1+k2)) (hap : Apart b (k1+k2) t (k1+k2))
    (hn : 0 < u.n1) : Tracks L Good mem₀ b k1 k2 t (p.takeLeft s) u.takeLeft := by
  obtain ⟨hp1,-,hpt⟩ := h.places hb ht
  obtain ⟨himage,hn1,hn2,hb1,hb2,htmp,hl,hr,hbuf,hgood⟩ := h
  have hle := hb.le
  have hlt := ht.le
  unfold Apart at hap
  refine ⟨?_,?_,hn2,?_,hb2,?_,?_,hr,?_,?_⟩
  · simp only [MsortParam.takeLeft,Merging.takeLeft,hs.width,hp1 hn,hpt (by omega)]
    rw [← himage.views u.b1 (by omega)]
    exact himage.put (by omega) _ _
  · simp only [MsortParam.takeLeft,Merging.takeLeft,hn1]
  · simp only [MsortParam.takeLeft,Merging.takeLeft,hs.width]
    rw [mul_succ_sub hl.1]
    omega
  · simp only [MsortParam.takeLeft,Merging.takeLeft,hs.width]
    rw [mul_succ_sub hbuf.1]
    omega
  · simp only [Merging.takeLeft]
    omega
  · simp only [Merging.takeLeft]
    omega
  · intro i hi
    simp only [Merging.takeLeft] at hi ⊢
    rw [Function.update_of_ne (by omega)]
    exact hgood i (by omega)

theorem takeRight (h : Tracks L Good mem₀ b k1 k2 t s u) (hs : Suits p L cmp Good mem₀ t)
    (hb : L.Adjacent b (k1+k2)) (ht : L.Adjacent t (k1+k2)) (hap : Apart b (k1+k2) t (k1+k2))
    (hn : 0 < u.n2) : Tracks L Good mem₀ b k1 k2 t (p.takeRight s) u.takeRight := by
  obtain ⟨-,hp2,hpt⟩ := h.places hb ht
  obtain ⟨himage,hn1,hn2,hb1,hb2,htmp,hl,hr,hbuf,hgood⟩ := h
  have hle := hb.le
  have hlt := ht.le
  unfold Apart at hap
  refine ⟨?_,hn1,?_,hb1,?_,?_,hl,?_,?_,?_⟩
  · simp only [MsortParam.takeRight,Merging.takeRight,hs.width,hp2 hn,hpt (by omega)]
    rw [← himage.views u.b2 (by omega)]
    exact himage.put (by omega) _ _
  · simp only [MsortParam.takeRight,Merging.takeRight,hn2]
  · simp only [MsortParam.takeRight,Merging.takeRight,hs.width]
    rw [mul_succ_sub (by omega)]
    omega
  · simp only [MsortParam.takeRight,Merging.takeRight,hs.width]
    rw [mul_succ_sub hbuf.1]
    omega
  · simp only [Merging.takeRight]
    omega
  · simp only [Merging.takeRight]
    omega
  · intro i hi
    simp only [Merging.takeRight] at hi ⊢
    rw [Function.update_of_ne (by omega)]
    exact hgood i (by omega)

theorem mergeLoop (h : Tracks L Good mem₀ b k1 k2 t s u) (hs : Suits p L cmp Good mem₀ t)
    (hb : L.Adjacent b (k1+k2)) (ht : L.Adjacent t (k1+k2)) (hap : Apart b (k1+k2) t (k1+k2)) :
    Tracks L Good mem₀ b k1 k2 t (p.mergeLoop s) (Libc.mergeLoop cmp u) := by
  have hcompare : ∀ {s : Merging UInt8} {u : Merging (List UInt8)},
      Tracks L Good mem₀ b k1 k2 t s u → 0 < u.n1 → 0 < u.n2 →
      p.compare s.mem s.b1 s.b2=cmp (u.mem u.b1) (u.mem u.b2) := by
    intro s u h h1 h2
    obtain ⟨hp1,hp2,-⟩ := h.places hb ht
    have hle := hb.le
    have hl := h.left
    have hr := h.right
    rw [hp1 h1,hp2 h2]
    exact hs.compare _ _ h.image _ (by omega) _ (by omega) (h.good _ (by omega)) (h.good _ (by omega))
  induction u using Libc.mergeLoop.induct cmp generalizing s with
  | case1 u hn hcmp ih =>
    have hn' : 0 < s.n1 ∧ 0 < s.n2 := by rwa [h.n1,h.n2]
    rw [MsortParam.mergeLoop,if_pos hn',Libc.mergeLoop,if_pos hn,if_pos hcmp,
      if_pos (by rwa [hcompare h hn.1 hn.2])]
    exact ih (h.takeLeft hs hb ht hap hn.1)
  | case2 u hn hcmp ih =>
    have hn' : 0 < s.n1 ∧ 0 < s.n2 := by rwa [h.n1,h.n2]
    rw [MsortParam.mergeLoop,if_pos hn',Libc.mergeLoop,if_pos hn,if_neg hcmp,
      if_neg (by rwa [hcompare h hn.1 hn.2])]
    exact ih (h.takeRight hs hb ht hap hn.2)
  | case3 u hn =>
    rwa [MsortParam.mergeLoop,if_neg (by rwa [h.n1,h.n2]),Libc.mergeLoop,if_neg hn]

theorem copyBack (h : Tracks L Good mem₀ b k1 k2 t s u) (hs : Suits p L cmp Good mem₀ t)
    (hb : L.Adjacent b (k1+k2)) (ht : L.Adjacent t (k1+k2)) :
    L.Image mem₀ (p.copyBack s (L.place b) (k1+k2)) (Libc.copyBack u t b (k1+k2)) := by
  obtain ⟨hp1,-,hpt⟩ := h.places hb ht
  have hl := h.left
  have hbuf := h.buffer
  have hrest : L.Image mem₀
      (if 0 < s.n1 then Cells.copy s.mem s.tmp s.mem s.b1 (s.n1*size) else s.mem)
      (if 0 < u.n1 then Cells.copy u.mem u.tmp u.mem u.b1 u.n1 else u.mem) := by
    rw [h.n1]
    split_ifs with hn
    · rw [hp1 hn,hpt (by omega),Nat.mul_comm]
      exact h.image.move (ht.mono hbuf.1 (by omega)) (hb.mono hl.1 (by omega))
    · exact h.image
  have hb' : L.Adjacent b (k1+k2-u.n2) := hb.mono le_rfl (by omega)
  have ht' : L.Adjacent t (k1+k2-u.n2) := ht.mono le_rfl (by omega)
  have hmove := hrest.move hb' ht'
  rw [Nat.mul_comm size (k1+k2-u.n2)] at hmove
  unfold MsortParam.copyBack Libc.copyBack
  rwa [hs.t,h.n2,hs.s]

end Tracks

/-- Sorting leaves good cells good. -/
theorem good_msortWithTmp {n : ℕ} {c : ℕ → List UInt8} (hap : Apart b n t n)
    (hgood : ∀ i, b ≤ i → i < b+n → Good (c i)) :
    ∀ i, b ≤ i → i < b+n → Good (Libc.msortWithTmp cmp t b n c i) := by
  intro i hi hlt
  have hmem : Libc.msortWithTmp cmp t b n c i ∈ slice (Libc.msortWithTmp cmp t b n c) b n :=
    mem_slice.mpr ⟨i-b,by omega,by rw [Nat.add_sub_cancel' hi]⟩
  rw [(msortWithTmp_spec cmp hap c).1,(mergeHalves_perm cmp _).mem_iff,mem_slice] at hmem
  obtain ⟨j,hj,heq⟩ := hmem
  rw [← heq]
  exact hgood (b+j) (by omega) (by omega)

/-- On bytes `msort_with_tmp` does what it does on cells. -/
theorem msortWithTmp_image (hs : Suits p L cmp Good mem₀ t) {n : ℕ} {mem : Memory}
    {c : ℕ → List UInt8} (hb : L.Adjacent b n) (ht : L.Adjacent t n) (hap : Apart b n t n)
    (h : L.Image mem₀ mem c) (hgood : ∀ i, b ≤ i → i < b+n → Good (c i)) :
    L.Image mem₀ (p.msortWithTmp (L.place b) n mem) (Libc.msortWithTmp cmp t b n c) := by
  induction n using Nat.strong_induction_on generalizing b mem c with
  | h n ih =>
    by_cases hn : n ≤ 1
    · rwa [MsortParam.msortWithTmp,if_pos hn,Libc.msortWithTmp,if_pos hn]
    · obtain ⟨n1,n2,rfl,hhalf⟩ : ∃ n1 n2, n=n1+n2 ∧ n1=(n1+n2)/2 := ⟨n/2,n-n/2,by omega,by omega⟩
      have hapart : b+(n1+n2) ≤ t ∨ t+(n1+n2) ≤ b := hap
      have hb2 : L.place b+n1*p.s=L.place (b+n1) := by
        rw [hb.place n1 (by omega),hs.s,Nat.mul_comm]
      have hap1 : Apart b n1 t n1 := by unfold Apart; omega
      have hap2 : Apart (b+n1) n2 t n2 := by unfold Apart; omega
      rw [Libc.msortWithTmp_halves cmp t b hhalf (by omega),MsortParam.msortWithTmp,
        if_neg (by omega)]
      simp only [← hhalf,Nat.add_sub_cancel_left,hb2]
      have h1 := ih n1 (by omega) (hb.mono le_rfl (by omega)) (ht.mono le_rfl (by omega)) hap1 h
        fun i hi hlt => hgood i hi (by omega)
      have hgood1 : ∀ i, b ≤ i → i < b+n1 → Good (Libc.msortWithTmp cmp t b n1 c i) :=
        good_msortWithTmp hap1 fun i hi hlt => hgood i hi (by omega)
      have hgood1' : ∀ i, b+n1 ≤ i → i < b+n1+n2 → Good (Libc.msortWithTmp cmp t b n1 c i) := by
        intro i hi hlt
        rw [(msortWithTmp_spec cmp hap1 c).2 i (by omega) (by omega)]
        exact hgood i (by omega) (by omega)
      generalize Libc.msortWithTmp cmp t b n1 c=c1 at h1 hgood1 hgood1' ⊢
      have h2 := ih n2 (by omega) (hb.mono (by omega) (by omega)) (ht.mono le_rfl (by omega)) hap2 h1
        hgood1'
      have hgood2 : ∀ i, b+n1 ≤ i → i < b+n1+n2 → Good (Libc.msortWithTmp cmp t (b+n1) n2 c1 i) :=
        good_msortWithTmp hap2 hgood1'
      have hgood2' : ∀ i, b ≤ i → i < b+n1 → Good (Libc.msortWithTmp cmp t (b+n1) n2 c1 i) := by
        intro i hi hlt
        rw [(msortWithTmp_spec cmp hap2 c1).2 i (by omega) (by omega)]
        exact hgood1 i hi hlt
      have htracks : Tracks L Good mem₀ b n1 n2 t
          ⟨p.msortWithTmp (L.place (b+n1)) n2 (p.msortWithTmp (L.place b) n1 mem),L.place b,n1,
            L.place (b+n1),n2,p.t⟩
          ⟨Libc.msortWithTmp cmp t (b+n1) n2 c1,b,n1,b+n1,n2,t⟩ := by
        refine ⟨h2,rfl,rfl,?_,?_,?_,⟨le_rfl,rfl⟩,⟨le_rfl,rfl⟩,⟨le_rfl,Nat.add_assoc _ _ _⟩,?_⟩
        · simp
        · simp only [Nat.add_sub_cancel_left]
          exact hb.place n1 (by omega)
        · simpa using hs.t
        · intro i hi
          rcases hi with hi | hi
          · exact hgood2' i hi.1 hi.2
          · exact hgood2 i hi.1 hi.2
      exact (htracks.mergeLoop hs hb ht hap).copyBack hs hb ht

end Refinement
end InBytes
end Libc
end NeOs
