import NeOs.Libc.InBytes.Msort
import NeOs.Libc.Indirect

/-! `indirect_msort_with_tmp` of `glibc-2.43/stdlib/qsort.c` on the bytes of memory: the pointers are
words of the buffer, and the elements are moved through `tmp_storage` behind them. -/
namespace NeOs
open Library Cells
namespace Libc
namespace InBytes

/-- The variables of the loop that goes round a cycle. -/
structure Cycle where
  mem : Memory
  j : ℕ
  jp : ℕ
  kp : ℕ

/-- The body of that loop. -/
def cycleStep (b s tp : ℕ) (c : Cycle) : Cycle :=
  let k := (c.kp-b)/s
  let mem := storePtr c.mem (tp+8*c.j) c.jp
  let mem := copy mem c.jp mem c.kp s
  ⟨mem,k,c.kp,loadPtr mem (tp+8*k)⟩

def cycleLoop (b s tp ip : ℕ) : ℕ → Cycle → Option Cycle
  | 0,_ => none
  | fuel+1,c =>
    let c := cycleStep b s tp c
    if c.kp≠ip then cycleLoop b s tp ip fuel c else some c

/-- Bring the elements of the cycle of `i` to their places. -/
def placeCycle (b s tp tmpStorage n : ℕ) (mem : Memory) (i : ℕ) : Option Memory :=
  let ip := b+s*i
  let kp := loadPtr mem (tp+8*i)
  if kp≠ip then
    let mem := copy mem tmpStorage mem ip s
    (cycleLoop b s tp ip n ⟨mem,i,ip,kp⟩).map fun c =>
      let mem := storePtr c.mem (tp+8*c.j) c.jp
      copy mem c.jp mem tmpStorage s
  else some mem

/-- Let `tp[0] .. tp[n - 1]` point to the elements. -/
def setPointers (b s tp n : ℕ) (mem : Memory) : Memory :=
  (List.range n).foldl (fun mem i => storePtr mem (tp+8*i) (b+s*i)) mem

/-- `indirect_msort_with_tmp` -/
def indirectMsortWithTmp (p : MsortParam) (b n s : ℕ) (mem : Memory) : Option Memory :=
  let tp := p.t+n*8
  let tmpStorage := tp+n*8
  let mem := setPointers b s tp n mem
  let mem := p.msortWithTmp tp n mem
  Run.run (placeCycle b s tp tmpStorage n) mem (List.range n)

/-- The parameters for a sort of pointers. -/
def indirect (cmp : Compare) (buf : ℕ) : MsortParam := ⟨8,.voidArg,cmp,buf⟩

/-- Where the array and the buffer at `t` are. They do not meet, and elements have addresses. -/
structure Room (b n s t : ℕ) : Prop where
  apart : b+s*n ≤ t ∨ t+(2*n*8+s) ≤ b
  size_pos : 0 < s
  fits : b+s*n ≤ 2^64

section Refinement
variable {b n s t : ℕ}

/-- The word of a pointer to an element. -/
def word (b s k : ℕ) : List UInt8 := Bytes.le 8 (b+s*k)

/-- The element that a word points to. -/
def elementOf (b s : ℕ) (w : List UInt8) : ℕ := (Bytes.toNat w-b)/s

theorem Room.toNat_word (h : Room b n s t) {k : ℕ} (hk : k < n) :
    Bytes.toNat (word b s k)=b+s*k := by
  have hlt := Layout.mul_add_lt hk h.size_pos
  have hfits := h.fits
  exact Bytes.toNat_le (by omega)

theorem Room.elementOf_word (h : Room b n s t) {k : ℕ} (hk : k < n) :
    elementOf b s (word b s k)=k := by
  rw [elementOf,h.toNat_word hk,Nat.add_sub_cancel_left,Nat.mul_div_cancel_left _ h.size_pos]

theorem Room.address_inj (h : Room b n s t) {i j : ℕ} : b+s*i=b+s*j ↔ i=j := by
  constructor
  · intro heq
    exact Nat.eq_of_mul_eq_mul_left h.size_pos (by omega)
  · rintro rfl
    rfl

theorem storePtr_eq (mem : Memory) (p v : ℕ) :
    storePtr mem p v=copy mem p (fun i => (Bytes.le 8 v).getD i 0) 0 8 := by
  rw [storePtr,store,Bytes.length_le]

theorem slice_le (v : ℕ) : slice (fun i => (Bytes.le 8 v).getD i 0) 0 8=Bytes.le 8 v := by
  have h := slice_getD 0 (Bytes.le 8 v) 0
  rwa [Bytes.length_le] at h

section Cycles

/-- The elements, the pointers `tp`, and `tmp_storage`. -/
abbrev elements (b n s : ℕ) : Layout s := .array b s n
abbrev pointers (n t : ℕ) : Layout 8 := .array (t+n*8) 8 n
abbrev storage (n s t : ℕ) : Layout s := .array (t+n*8+n*8) s 1

/-- The memory holds what the model on cells has, and is `mem₀` outside the array and the buffer. -/
structure Follows (b n s t : ℕ) (mem₀ mem : Memory) (u : Indirect (List UInt8)) : Prop where
  array : (elements b n s).Views mem u.mem
  words : (pointers n t).Views mem fun x => word b s (u.tp n x)
  range : ∀ x < n, u.tp n x < n
  outside : ∀ a, a < b ∨ b+s*n ≤ a → a < t ∨ t+(2*n*8+s) ≤ a → mem a=mem₀ a

variable {mem₀ mem : Memory} {u : Indirect (List UInt8)}

theorem Room.separate (h : Room b n s t) :
    (elements b n s).Separate (pointers n t) ∧ (elements b n s).Separate (storage n s t) ∧
      (pointers n t).Separate (storage n s t) := by
  have hap := h.apart
  refine ⟨?_,?_,?_⟩
  · apply Layout.array_separate
    omega
  · apply Layout.array_separate
    omega
  · apply Layout.array_separate
    omega

theorem Follows.load (h : Follows b n s t mem₀ mem u) (hr : Room b n s t) {x : ℕ} (hx : x < n) :
    loadPtr mem (t+n*8+8*x)=b+s*u.tp n x := by
  have hw : slice mem (t+n*8+8*x) 8=word b s (u.tp n x) := h.words x hx
  rw [loadPtr,hw,hr.toNat_word (h.range x hx)]

/-- `tp[j] = jp` -/
theorem Follows.setTp (h : Follows b n s t mem₀ mem u) (hr : Room b n s t) {j k : ℕ} (hj : j < n)
    (hk : k < n) : Follows b n s t mem₀ (storePtr mem (t+n*8+8*j) (b+s*k)) (u.setTp n j k) ∧
      ∀ v, (storage n s t).Views mem v →
        (storage n s t).Views (storePtr mem (t+n*8+8*j) (b+s*k)) v := by
  obtain ⟨hep,-,hps⟩ := hr.separate
  have hput := h.words.image.put hj (fun i => (Bytes.le 8 (b+s*k)).getD i 0) 0
  rw [slice_le] at hput
  rw [storePtr_eq]
  refine ⟨⟨h.array.stable hep hput.outside,fun x hx => ?_,fun x hx => ?_,fun a ha hb => ?_⟩,
    fun v hv => hv.stable hps.symm hput.outside⟩
  · refine (hput.views x hx).trans ?_
    beta_reduce
    rw [tp_setTp,Function.update_apply]
    split_ifs <;> rfl
  · rw [tp_setTp]
    split_ifs
    · exact hk
    · exact h.range x hx
  · rw [← h.outside a ha hb]
    apply hput.outside
    apply Layout.array_outside
    omega

/-- `memcpy (jp, q, s)`, where `q` holds the element `v`. -/
theorem Follows.store (h : Follows b n s t mem₀ mem u) (hr : Room b n s t) {k q : ℕ} {v : List UInt8}
    (hk : k < n) (hv : slice mem q s=v) :
    Follows b n s t mem₀ (copy mem (b+s*k) mem q s) (u.store k v) ∧
      ∀ v, (storage n s t).Views mem v → (storage n s t).Views (copy mem (b+s*k) mem q s) v := by
  obtain ⟨hep,hes,-⟩ := hr.separate
  have hput := h.array.image.put hk mem q
  rw [hv] at hput
  refine ⟨⟨hput.views,h.words.stable hep.symm hput.outside,h.range,fun a ha hb => ?_⟩,
    fun v hv => hv.stable hes.symm hput.outside⟩
  rw [← h.outside a ha hb]
  exact hput.outside a (Layout.array_outside ha)

/-- The loop on bytes is where the loop on cells is, with `v` in `tmp_storage`. -/
structure Rounds (b n s t : ℕ) (mem₀ : Memory) (v : List UInt8) (c : Cycle)
    (d : Libc.Cycle (List UInt8)) : Prop where
  follows : Follows b n s t mem₀ c.mem d.toIndirect
  saved : (storage n s t).Views c.mem fun _ => v
  j : c.j=d.j
  jp : c.jp=b+s*d.jp
  kp : c.kp=b+s*d.kp
  j_lt : d.j < n
  jp_lt : d.jp < n
  kp_lt : d.kp < n

variable {v : List UInt8} {c : Cycle} {d : Libc.Cycle (List UInt8)}

theorem Rounds.step (h : Rounds b n s t mem₀ v c d) (hr : Room b n s t) :
    Rounds b n s t mem₀ v (cycleStep b s (t+n*8) c) (Libc.cycleStep 0 n d) := by
  obtain ⟨hf,hsaved,hj,hjp,hkp,hjn,hjpn,hkpn⟩ := h
  obtain ⟨hset,hkeep⟩ := hf.setTp hr hjn hjpn
  have hsource : slice (storePtr c.mem (t+n*8+8*d.j) (b+s*d.jp)) (b+s*d.kp) s=d.mem d.kp :=
    hset.array d.kp hkpn
  obtain ⟨hstore,hkeep'⟩ := hset.store hr hjpn hsource
  have hk : (b+s*d.kp-b)/s=d.kp := by
    rw [Nat.add_sub_cancel_left,Nat.mul_div_cancel_left _ hr.size_pos]
  have hload := hstore.load hr hkpn
  simp only [cycleStep,Libc.cycleStep,Nat.sub_zero,hk,hj,hjp,hkp]
  exact ⟨hstore,hkeep' _ (hkeep _ hsaved),rfl,rfl,hload,hkpn,hkpn,hstore.range _ hkpn⟩

theorem Rounds.loop (h : Rounds b n s t mem₀ v c d) (hr : Room b n s t) {ip fuel : ℕ}
    {d' : Libc.Cycle (List UInt8)} (hd : Libc.cycleLoop 0 n ip fuel d=some d') :
    ∃ c', cycleLoop b s (t+n*8) (b+s*ip) fuel c=some c' ∧ Rounds b n s t mem₀ v c' d' := by
  induction fuel generalizing c d with
  | zero => cases hd
  | succ fuel ih =>
    have hstep := h.step hr
    rw [Libc.cycleLoop] at hd
    rw [cycleLoop]
    simp only [ne_eq,hstep.kp,hr.address_inj] at hd ⊢
    split_ifs at hd ⊢ with hback
    · cases hd
      exact ⟨_,rfl,hstep⟩
    · exact ih hstep hd

/-- One round of the outer loop. -/
theorem Follows.placeCycle (h : Follows b n s t mem₀ mem u) (hr : Room b n s t) {i : ℕ} (hi : i < n)
    {u' : Indirect (List UInt8)} (hu : Libc.placeCycle 0 n u i=some u') :
    ∃ mem', placeCycle b s (t+n*8) (t+n*8+n*8) n mem i=some mem' ∧ Follows b n s t mem₀ mem' u' := by
  obtain ⟨-,hes,hps⟩ := hr.separate
  rw [Libc.placeCycle] at hu
  unfold InBytes.placeCycle
  simp only [ne_eq,h.load hr hi,hr.address_inj,Nat.zero_add] at hu ⊢
  split_ifs at hu ⊢ with hip
  · cases hu
    exact ⟨mem,rfl,h⟩
  · obtain ⟨d,hd,rfl⟩ := Option.map_eq_some_iff.mp hu
    have hself : (storage n s t).Views mem fun j => slice mem ((storage n s t).place j) s :=
      fun j hj => rfl
    have hsave := hself.image.put Nat.zero_lt_one mem (b+s*i)
    have hplace : (storage n s t).place 0=t+n*8+n*8 := rfl
    have hvi : slice mem (b+s*i) s=u.mem i := h.array i hi
    rw [hplace,hvi] at hsave
    have hrounds : Rounds b n s t mem₀ (u.mem i)
        ⟨copy mem (t+n*8+n*8) mem (b+s*i) s,i,b+s*i,b+s*u.tp n i⟩ ⟨u,i,i,u.tp n i⟩ := by
      refine ⟨⟨h.array.stable hes hsave.outside,h.words.stable hps hsave.outside,h.range,
        fun a ha hb => ?_⟩,fun j hj => ?_,rfl,rfl,rfl,hi,hi,h.range i hi⟩
      · rw [← h.outside a ha hb]
        apply hsave.outside
        apply Layout.array_outside
        omega
      · obtain rfl : j=0 := Nat.lt_one_iff.mp hj
        exact (hsave.views 0 Nat.zero_lt_one).trans (Function.update_self _ _ _)
    obtain ⟨c,hc,hrc⟩ := hrounds.loop hr hd
    obtain ⟨hset,hkeep⟩ := hrc.follows.setTp hr hrc.j_lt hrc.jp_lt
    have hsaved := hkeep _ hrc.saved 0 Nat.zero_lt_one
    refine ⟨_,by rw [hc]; rfl,?_⟩
    simp only [hrc.j,hrc.jp]
    exact (hset.store hr hrc.jp_lt hsaved).1

end Cycles

section Pointers

/-- The buffer as words: the first `n` are for `msort_with_tmp`, the others are the pointers `tp`. -/
abbrev words (n t : ℕ) : Layout 8 := .array t 8 (n+n)

/-- A pointer to an element. -/
def Pointer (b n s : ℕ) (w : List UInt8) : Prop := ∃ k < n, w=word b s k

/-- The elements that the words of the buffer stand for. -/
def standFor (b s t : ℕ) (mem : Memory) : ℕ → ℕ := fun x => elementOf b s (slice mem (t+8*x) 8)

variable {mem₀ mem : Memory} {arr : ℕ → List UInt8}

theorem words_outside {a : ℕ} (ha : a < t ∨ t+(2*n*8+s) ≤ a) : (words n t).Outside a := by
  apply Layout.array_outside
  omega

theorem Room.elements_words (h : Room b n s t) : (elements b n s).Separate (words n t) := by
  have hap := h.apart
  apply Layout.array_separate
  omega

/-- The loop that sets the pointers, after `k` rounds. -/
theorem setPointers_image {c : ℕ → List UInt8} (h : (words n t).Image mem₀ mem c) {k : ℕ}
    (hk : k ≤ n) :
    (words n t).Image mem₀ (setPointers b s (t+n*8) k mem)
      ((List.range k).foldl (fun c i => Function.update c (n+i) (word b s i)) c) := by
  induction k with
  | zero => exact h
  | succ k ih =>
    have hput := (ih (by omega)).put (show n+k < n+n by omega)
      (fun i => (Bytes.le 8 (b+s*k)).getD i 0) 0
    have hplace : (words n t).place (n+k)=t+n*8+8*k := by
      change t+8*(n+k)=t+n*8+8*k
      omega
    rw [hplace,slice_le,← storePtr_eq] at hput
    unfold setPointers at hput ⊢
    rw [List.range_succ,List.foldl_append,List.foldl_append]
    exact hput

/-- Setting the words sets what they stand for. -/
theorem comp_setPointers (h : Room b n s t) (c : ℕ → List UInt8) :
    elementOf b s ∘ (List.range n).foldl (fun c i => Function.update c (n+i) (word b s i)) c=
      Libc.setPointers 0 n (elementOf b s ∘ c) := by
  funext i
  rw [Function.comp_apply,Libc.setPointers,foldl_update,foldl_update]
  split_ifs with hi
  · rw [h.elementOf_word (by omega),Nat.zero_add]
  · rfl

/-- On the pointers `msort_with_tmp` compares the elements, which stay as they are. -/
theorem Room.suits (h : Room b n s t) (cmp : List UInt8 → List UInt8 → ℤ)
    (harr : (elements b n s).Views mem arr) :
    Suits (indirect (pointed s cmp) t) (words n t)
      (fun v w => cmp (arr (elementOf b s v)) (arr (elementOf b s w))) (Pointer b n s) mem 0 := by
  refine ⟨rfl,rfl,rfl,?_⟩
  rintro mem' c himage i hi j hj ⟨k,hk,hik⟩ ⟨l,hl,hjl⟩
  have harr' := harr.stable h.elements_words himage.outside
  have hvk : slice mem' (b+s*k) s=arr k := harr' k hk
  have hvl : slice mem' (b+s*l) s=arr l := harr' l hl
  simp only [indirect,MsortParam.compare,loadPtr,pointed,himage.views i hi,himage.views j hj,hik,hjl,
    h.toNat_word hk,h.toNat_word hl,h.elementOf_word hk,h.elementOf_word hl,hvk,hvl]

/-- The pointers are sorted as in the model on cells. -/
theorem follows_sorted (h : Room b n s t) (cmp : List UInt8 → List UInt8 → ℤ)
    (harr : (elements b n s).Views mem arr) :
    Follows b n s t mem
      ((indirect (pointed s cmp) t).msortWithTmp (t+n*8) n (setPointers b s (t+n*8) n mem))
      ⟨arr,Libc.msortWithTmp (fun p q => cmp (arr p) (arr q)) 0 n n
        (Libc.setPointers 0 n (standFor b s t mem))⟩ := by
  have hviews : (words n t).Views mem fun x => slice mem ((words n t).place x) 8 := fun x hx => rfl
  have hset := setPointers_image (b := b) (s := s) hviews.image le_rfl
  set c := (List.range n).foldl (fun c i => Function.update c (n+i) (word b s i))
    (fun x => slice mem ((words n t).place x) 8)
  have hpointer : ∀ i, n ≤ i → i < n+n → Pointer b n s (c i) := by
    intro i hi hlt
    exact ⟨i-n,by omega,(foldl_update _ _ _ _ _).trans (if_pos ⟨hi,hlt⟩)⟩
  have hsort := msortWithTmp_image (h.suits cmp harr) (b := n) (n := n)
    ⟨le_rfl,fun j hj => by change t+8*(n+j)=t+8*n+8*j; omega⟩
    ⟨by change 0+n ≤ n+n; omega,fun j hj => by change t+8*(0+j)=t+8*0+8*j; omega⟩
    (Or.inr (by omega)) hset hpointer
  have hsorted : ∀ i, n ≤ i → i < n+n → Pointer b n s (Libc.msortWithTmp
      (fun v w => cmp (arr (elementOf b s v)) (arr (elementOf b s w))) 0 n n c i) :=
    good_msortWithTmp (Or.inr (by omega)) hpointer
  have hcells : Libc.msortWithTmp (fun p q => cmp (arr p) (arr q)) 0 n n
      (Libc.setPointers 0 n (standFor b s t mem))=elementOf b s ∘ Libc.msortWithTmp
        (fun v w => cmp (arr (elementOf b s v)) (arr (elementOf b s w))) 0 n n c := by
    rw [msortWithTmp_comp (elementOf b s) fun p q => cmp (arr p) (arr q),comp_setPointers h]
    rfl
  have hplace : (words n t).place n=t+n*8 := by
    change t+8*n=t+n*8
    omega
  rw [hplace] at hsort
  rw [hcells]
  refine ⟨harr.stable h.elements_words hsort.outside,fun x hx => ?_,fun x hx => ?_,fun a _ ha => ?_⟩
  · have hx : x < n := hx
    obtain ⟨k,hk,hword⟩ := hsorted (n+x) (by omega) (by omega)
    have hview := hsort.views (n+x) (show n+x < n+n by omega)
    have hplace : (words n t).place (n+x)=(pointers n t).place x := by
      change t+8*(n+x)=t+n*8+8*x
      omega
    rw [hplace,hword] at hview
    simp only [hview,Indirect.tp,Function.comp_apply,hword,h.elementOf_word hk]
  · obtain ⟨k,hk,hword⟩ := hsorted (n+x) (by omega) (by omega)
    simp only [Indirect.tp,Function.comp_apply,hword,h.elementOf_word hk]
    exact hk
  · exact hsort.outside a (words_outside ha)

/-- On bytes `indirect_msort_with_tmp` does what it does on cells. -/
theorem indirectMsortWithTmp_follows (h : Room b n s t) (cmp : List UInt8 → List UInt8 → ℤ)
    (harr : (elements b n s).Views mem arr) {u : Indirect (List UInt8)}
    (hu : Libc.indirectMsortWithTmp cmp 0 n ⟨arr,standFor b s t mem⟩=some u) :
    ∃ mem', indirectMsortWithTmp (indirect (pointed s cmp) t) b n s mem=some mem' ∧
      Follows b n s t mem mem' u := by
  have hstep : ∀ u mem' i u', i ∈ List.range n → Follows b n s t mem mem' u →
      Libc.placeCycle 0 n u i=some u' →
      ∃ mem'', placeCycle b s (t+n*8) (t+n*8+n*8) n mem' i=some mem'' ∧
        Follows b n s t mem mem'' u' := by
    intro u mem' i u' hi hf hu'
    exact hf.placeCycle h (List.mem_range.mp hi) hu'
  exact Run.run_simulates_of_mem (R := fun u mem' => Follows b n s t mem mem' u) hstep
    (follows_sorted h cmp harr) hu

end Pointers

end Refinement
end InBytes
end Libc
end NeOs
