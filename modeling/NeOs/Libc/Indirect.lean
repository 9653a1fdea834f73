import NeOs.Library.Run
import NeOs.Libc.Msort

/-! `indirect_msort_with_tmp` of `glibc-2.43/stdlib/qsort.c`, for large elements: it sorts pointers
to them, then moves the elements along the cycles of the permutation found. The first `n` cells of
the buffer are for `msort_with_tmp`, the next `n` are the pointers `tp`. -/
namespace NeOs
open Library Cells
namespace Libc
variable {α : Type*}

/-- The array and the buffer of pointers. -/
structure Indirect (α : Type*) where
  mem : ℕ → α
  buf : ℕ → ℕ

/-- The variables of the loop that goes round a cycle. -/
structure Cycle (α : Type*) extends Indirect α where
  j : ℕ
  jp : ℕ
  kp : ℕ

/-- `tp[x]` -/
def Indirect.tp (s : Indirect α) (n x : ℕ) : ℕ := s.buf (n+x)

/-- `tp[j] = p` -/
def Indirect.setTp (s : Indirect α) (n j p : ℕ) : Indirect α :=
  { s with buf := Function.update s.buf (n+j) p }

/-- `memcpy (p, &a, s)` -/
def Indirect.store (s : Indirect α) (p : ℕ) (a : α) : Indirect α :=
  { s with mem := Function.update s.mem p a }

/-- The body of that loop: fill the hole at `jp` from `kp`, which becomes the hole. -/
def cycleStep (b n : ℕ) (c : Cycle α) : Cycle α :=
  let k := c.kp-b
  let s := (c.toIndirect.setTp n c.j c.jp).store c.jp (c.mem c.kp)
  ⟨s,k,c.kp,s.tp n k⟩

/-- The loop, which ends where the pointer leads back to `ip`. -/
def cycleLoop (b n ip : ℕ) : ℕ → Cycle α → Option (Cycle α)
  | 0,_ => none
  | fuel+1,c =>
    let c := cycleStep b n c
    if c.kp≠ip then cycleLoop b n ip fuel c else some c

/-- Bring the elements of the cycle of `i` to their places. -/
def placeCycle (b n : ℕ) (s : Indirect α) (i : ℕ) : Option (Indirect α) :=
  let ip := b+i
  let kp := s.tp n i
  if kp≠ip then
    let tmpStorage := s.mem ip
    (cycleLoop b n ip n ⟨s,i,ip,kp⟩).map fun c =>
      (c.toIndirect.setTp n c.j c.jp).store c.jp tmpStorage
  else some s

/-- Let `tp[0] .. tp[n - 1]` point to the elements. -/
def setPointers (b n : ℕ) (buf : ℕ → ℕ) : ℕ → ℕ :=
  (List.range n).foldl (fun buf i => Function.update buf (n+i) (b+i)) buf

/-- `indirect_msort_with_tmp` -/
def indirectMsortWithTmp (cmp : α → α → ℤ) (b n : ℕ) (s : Indirect α) : Option (Indirect α) :=
  let buf := setPointers b n s.buf
  let buf := msortWithTmp (fun p q => cmp (s.mem p) (s.mem q)) 0 n n buf
  Run.run (placeCycle b n) ⟨s.mem,buf⟩ (List.range n)

theorem tp_setTp (s : Indirect α) (n j p x : ℕ) :
    (s.setTp n j p).tp n x=if x=j then p else s.tp n x := by
  simp only [Indirect.tp,Indirect.setTp]
  split_ifs with h
  · rw [h,Function.update_self]
  · exact Function.update_of_ne (by omega) _ _

theorem buf_setTp (s : Indirect α) {n j : ℕ} (hj : j < n) (p : ℕ) {a : ℕ} (ha : a < n ∨ 2*n ≤ a) :
    (s.setTp n j p).buf a=s.buf a := Function.update_of_ne (by omega) _ _

@[simp] theorem tp_store (s : Indirect α) (n p x : ℕ) (a : α) : (s.store p a).tp n x=s.tp n x := rfl

@[simp] theorem mem_setTp (s : Indirect α) (n j p : ℕ) : (s.setTp n j p).mem=s.mem := rfl

@[simp] theorem mem_store (s : Indirect α) (p : ℕ) (a : α) :
    (s.store p a).mem=Function.update s.mem p a := rfl

/-- What the pointers `tp` say about the memory `m`: through them it holds the elements `goal` in
order, and the elements before `i` are in place. Outside the array it is `m₀`. -/
structure Pointing (b n i : ℕ) (goal m₀ m : ℕ → α) (tp : ℕ → ℕ) : Prop where
  range : ∀ x < n, b ≤ tp x ∧ tp x < b+n
  inj : ∀ x < n, ∀ y < n, tp x=tp y → x=y
  value : ∀ x < n, m (tp x)=goal x
  placed : ∀ x < i, tp x=b+x
  outside : ∀ a, a < b ∨ b+n ≤ a → m a=m₀ a

/-- On the way round the cycle of `i` the element of the cell `b+i` is in `tmp_storage`, as if it
were in the hole `b+j`. -/
def around (b i j : ℕ) (tp : ℕ → ℕ) (x : ℕ) : ℕ := if tp x=b+i ∧ x≠i then b+j else tp x

section Around
variable {b n i j k : ℕ} {goal m₀ m : ℕ → α} {tp tp' : ℕ → ℕ} {v : α}

theorem Pointing.congr (h : Pointing b n i goal m₀ m tp) (hi : i ≤ n)
    (ht : ∀ x < n, tp' x=tp x) : Pointing b n i goal m₀ m tp' := by
  refine ⟨?_,?_,?_,?_,h.outside⟩
  · intro x hx
    rw [ht x hx]
    exact h.range x hx
  · intro x hx y hy hxy
    rw [ht x hx,ht y hy] at hxy
    exact h.inj x hx y hy hxy
  · intro x hx
    rw [ht x hx]
    exact h.value x hx
  · intro x hx
    rw [ht x (by omega)]
    exact h.placed x hx

/-- Exchanging two cells and the pointers to them changes nothing that the pointers say. -/
theorem Pointing.exchange (h : Pointing b n i goal m₀ m tp) (hj : i ≤ j ∧ j < n)
    (hk : i ≤ k ∧ k < n) :
    Pointing b n i goal m₀ (swap m (b+j) (b+k)) fun x => Equiv.swap (b+j) (b+k) (tp x) := by
  have hfix : ∀ a, a≠b+j → a≠b+k → Equiv.swap (b+j) (b+k) a=a := fun a ha ha' =>
    Equiv.swap_apply_of_ne_of_ne ha ha'
  refine ⟨?_,?_,?_,?_,?_⟩
  · intro x hx
    have hr := h.range x hx
    by_cases hxj : tp x=b+j
    · rw [hxj,Equiv.swap_apply_left]
      omega
    · by_cases hxk : tp x=b+k
      · rw [hxk,Equiv.swap_apply_right]
        omega
      · rw [hfix _ hxj hxk]
        exact hr
  · intro x hx y hy hxy
    exact h.inj x hx y hy ((Equiv.swap _ _).injective hxy)
  · intro x hx
    rw [swap,Function.comp_apply,Equiv.swap_apply_self]
    exact h.value x hx
  · intro x hx
    rw [h.placed x hx]
    exact hfix _ (by omega) (by omega)
  · intro a ha
    rw [swap_of_ne _ (by omega) (by omega)]
    exact h.outside a ha

theorem around_of_ne (h : tp j≠b+i) (k : ℕ) : around b i k tp j=tp j := by
  rw [around,if_neg fun hc => h hc.1]

/-- The pointers to the hole and to the cell that fills it trade places. -/
theorem around_fill (hinj : ∀ x < n, ∀ y < n, around b i j tp x=around b i j tp y → x=y) (hj : j < n)
    (hk : tp j=b+k) (hki : k≠i) (hlast : ∃ y < n, y≠i ∧ tp y=b+i) {x : ℕ} (hx : x < n) :
    around b i k (fun x => if x=j then b+j else tp x) x=
      Equiv.swap (b+j) (b+k) (around b i j tp x) := by
  have hj' : around b i j tp j=b+k := by rw [around_of_ne (by omega),hk]
  by_cases hxj : x=j
  · rw [hxj,hj',Equiv.swap_apply_right,around,if_pos rfl]
    exact if_neg (by omega)
  · by_cases hxi : tp x=b+i ∧ x≠i
    · rw [around,around,if_neg hxj,if_pos hxi,if_pos hxi,Equiv.swap_apply_left]
    · have hself : around b i j tp x=tp x := if_neg hxi
      obtain ⟨y,hy,hyi,hty⟩ := hlast
      have hy' : around b i j tp y=b+j := if_pos ⟨hty,hyi⟩
      have hnj : tp x≠b+j := by
        intro heq
        have hxy := hinj x hx y hy (by rw [hself,heq,hy'])
        exact hxi (hxy ▸ ⟨hty,hyi⟩)
      have hnk : tp x≠b+k := by
        intro heq
        exact hxj (hinj x hx j hj (by rw [hself,heq,hj']))
      rw [hself,Equiv.swap_apply_of_ne_of_ne hnj hnk,around,if_neg hxj]
      exact if_neg hxi

/-- Filling the hole at `b+j` from `b+k` moves the hole there. -/
theorem update_fill (m : ℕ → α) (b j k : ℕ) (v : α) :
    Function.update (Function.update m (b+j) (m (b+k))) (b+k) v=
      swap (Function.update m (b+j) v) (b+j) (b+k) := by
  funext a
  by_cases hk : a=b+k
  · rw [hk,Function.update_self,swap_right,Function.update_self]
  · rw [Function.update_of_ne hk]
    by_cases hj : a=b+j
    · rw [hj,Function.update_self,swap_left,Function.update_of_ne (by omega)]
    · rw [swap_of_ne _ hj hk,Function.update_of_ne hj,Function.update_of_ne hj]

end Around

/-- The invariant of the loop. -/
structure Broken (b n i : ℕ) (goal m₀ : ℕ → α) (v : α) (c : Cycle α) : Prop where
  pointing : Pointing b n i goal m₀ (Function.update c.mem (b+c.j) v)
    (around b i c.j (c.toIndirect.tp n))
  lt : c.j < n
  jp : c.jp=b+c.j
  kp : c.kp=c.toIndirect.tp n c.j
  unplaced : c.toIndirect.tp n c.j≠b+c.j
  last : ∃ y < n, y≠i ∧ c.toIndirect.tp n y=b+i
  first : c.j=i ∨ c.toIndirect.tp n i=b+i

/-- How many pointers do not yet point to their own cell. -/
def unplacedCount (b n : ℕ) (s : Indirect α) : ℕ :=
  ((Finset.range n).filter fun x => s.tp n x≠b+x).card

section Loop
variable {b n i : ℕ} {goal m₀ : ℕ → α} {v : α} {c : Cycle α}

/-- The cell that fills the hole. -/
theorem Broken.source (h : Broken b n i goal m₀ v c) (hgo : c.kp≠b+i) :
    ∃ k, c.kp=b+k ∧ k < n ∧ k≠i ∧ k≠c.j ∧ c.toIndirect.tp n k≠b+k := by
  have hself := around_of_ne (h.kp ▸ hgo) c.j
  have hr := h.pointing.range c.j h.lt
  rw [hself,← h.kp] at hr
  obtain ⟨k,hk⟩ := Nat.exists_eq_add_of_le hr.1
  have hkp := h.kp
  have hun := h.unplaced
  refine ⟨k,hk,by omega,by omega,by omega,?_⟩
  intro heq
  have hk' : around b i c.j (c.toIndirect.tp n) k=b+k := by rw [around_of_ne (by omega),heq]
  have hkj := h.pointing.inj k (by omega) c.j h.lt (by rw [hk',hself,← hkp,hk])
  omega

theorem tp_cycleStep (h : Broken b n i goal m₀ v c) :
    (cycleStep b n c).toIndirect.tp n=
      fun x => if x=c.j then b+c.j else c.toIndirect.tp n x := by
  funext x
  simp only [cycleStep,tp_store,tp_setTp,h.jp]

/-- Nothing before `i` takes part in the cycle. -/
theorem Broken.not_before (h : Broken b n i goal m₀ v c) (hgo : c.kp≠b+i) : i ≤ c.j := by
  by_contra hlt
  have hplaced := h.pointing.placed c.j (by omega)
  rw [around_of_ne (h.kp ▸ hgo)] at hplaced
  exact h.unplaced hplaced

theorem Broken.step (h : Broken b n i goal m₀ v c) (hi : i ≤ n) (hgo : c.kp≠b+i) :
    Broken b n i goal m₀ v (cycleStep b n c) := by
  obtain ⟨k,hk,hkn,hki,hkj,hun⟩ := h.source hgo
  have htp := tp_cycleStep h
  have hj : (cycleStep b n c).j=k := by
    simp only [cycleStep,hk]
    omega
  have hmem : (cycleStep b n c).mem=Function.update c.mem (b+c.j) (c.mem (b+k)) := by
    simp only [cycleStep,mem_store,mem_setTp,h.jp,hk]
  have hkj' : c.toIndirect.tp n c.j=b+k := h.kp ▸ hk
  have hik : i ≤ k := by
    by_contra hlt
    have hplaced := h.pointing.placed k (by omega)
    by_cases hck : c.toIndirect.tp n k=b+i
    · rw [around,if_pos ⟨hck,hki⟩] at hplaced
      omega
    · rw [around_of_ne hck] at hplaced
      exact hun hplaced
  refine ⟨?_,?_,?_,?_,?_,?_,?_⟩
  · rw [hj,hmem,htp,update_fill c.mem b c.j k]
    apply (h.pointing.exchange ⟨h.not_before hgo,h.lt⟩ ⟨hik,hkn⟩).congr hi
    intro x hx
    exact around_fill h.pointing.inj h.lt hkj' hki h.last hx
  · rw [hj]
    exact hkn
  · rw [hj,← hk]
    rfl
  · rfl
  · rw [hj,htp]
    simp only [if_neg hkj]
    exact hun
  · obtain ⟨y,hy,hyi,hty⟩ := h.last
    refine ⟨y,hy,hyi,?_⟩
    rw [htp]
    simp only
    rw [if_neg,hty]
    rintro rfl
    omega
  · right
    rw [htp]
    simp only
    split_ifs with hij
    · rw [hij]
    · exact h.first.resolve_left fun hc => hij hc.symm

theorem Broken.count_lt (h : Broken b n i goal m₀ v c) :
    unplacedCount b n (cycleStep b n c).toIndirect < unplacedCount b n c.toIndirect := by
  apply Finset.card_lt_card
  rw [Finset.ssubset_iff_of_subset]
  · refine ⟨c.j,?_,?_⟩
    · simp [h.lt,h.unplaced]
    · simp [tp_cycleStep h]
  · intro x hx
    rw [tp_cycleStep h] at hx
    simp only [Finset.mem_filter] at hx ⊢
    refine ⟨hx.1,?_⟩
    by_cases hxj : x=c.j
    · rw [hxj]
      exact h.unplaced
    · simpa only [if_neg hxj] using hx.2

theorem Broken.count_pos (h : Broken b n i goal m₀ v c) : 0 < unplacedCount b n c.toIndirect :=
  Finset.card_pos.mpr ⟨c.j,by simp [h.lt,h.unplaced]⟩

/-- The loop comes back to `ip` before it has gone through all pointers. -/
theorem cycleLoop_returns (h : Broken b n i goal m₀ v c) (hi : i ≤ n) (hgo : c.kp≠b+i) (fuel : ℕ)
    (hfuel : unplacedCount b n c.toIndirect ≤ fuel) :
    ∃ c', cycleLoop b n (b+i) fuel c=some c' ∧ Broken b n i goal m₀ v c' ∧ c'.kp=b+i ∧
      ∀ a, a < n ∨ 2*n ≤ a → c'.buf a=c.buf a := by
  induction fuel generalizing c with
  | zero =>
    have hpos := h.count_pos
    omega
  | succ fuel ih =>
    have hlt := h.count_lt
    have hstep := h.step hi hgo
    have hbuf : ∀ a, a < n ∨ 2*n ≤ a → (cycleStep b n c).buf a=c.buf a := fun a ha =>
      buf_setTp _ h.lt _ ha
    rw [cycleLoop]
    by_cases hback : (cycleStep b n c).kp=b+i
    · exact ⟨_,if_neg (not_not.mpr hback),hstep,hback,hbuf⟩
    · obtain ⟨c',hc,hb,hk,hout⟩ := ih hstep hback (by omega)
      refine ⟨c',by simpa only [if_pos hback] using hc,hb,hk,fun a ha => ?_⟩
      rw [hout a ha,hbuf a ha]

/-- Back at `ip`, the saved element goes into the last hole. -/
theorem Broken.close (h : Broken b n i goal m₀ v c) (hi : i < n) (hback : c.kp=b+i) :
    Pointing b n (i+1) goal m₀ ((c.toIndirect.setTp n c.j c.jp).store c.jp v).mem
      (((c.toIndirect.setTp n c.j c.jp).store c.jp v).tp n) := by
  have hun := h.unplaced
  have hjb : c.toIndirect.tp n c.j=b+i := h.kp ▸ hback
  have hji : c.j≠i := fun hc => hun (by rw [hjb,hc])
  have htp : ∀ x < n, ((c.toIndirect.setTp n c.j c.jp).store c.jp v).tp n x=
      around b i c.j (c.toIndirect.tp n) x := by
    intro x hx
    rw [tp_store,tp_setTp,h.jp]
    split_ifs with hxj
    · rw [hxj,around,if_pos ⟨hjb,hji⟩]
    · rw [around,if_neg]
      intro hxi
      apply hxj
      apply h.pointing.inj x hx c.j h.lt
      rw [around,around,if_pos hxi,if_pos ⟨hjb,hji⟩]
  have hpoint := h.pointing.congr hi.le htp
  rw [mem_store,mem_setTp,h.jp]
  refine ⟨?_,?_,?_,?_,hpoint.outside⟩
  · exact h.jp ▸ hpoint.range
  · exact h.jp ▸ hpoint.inj
  · exact h.jp ▸ hpoint.value
  · intro x hx
    by_cases hxi : x=i
    · rw [tp_store,tp_setTp,if_neg (by omega),hxi]
      exact h.first.resolve_left hji
    · rw [← h.jp]
      exact hpoint.placed x (by omega)

/-- One round of the outer loop. -/
theorem placeCycle_spec {s : Indirect α} (h : Pointing b n i goal m₀ s.mem (s.tp n)) (hi : i < n) :
    ∃ t, placeCycle b n s i=some t ∧ Pointing b n (i+1) goal m₀ t.mem (t.tp n) ∧
      ∀ a, a < n ∨ 2*n ≤ a → t.buf a=s.buf a := by
  unfold placeCycle
  by_cases hip : s.tp n i=b+i
  · refine ⟨s,if_neg (not_not.mpr hip),⟨h.range,h.inj,h.value,?_,h.outside⟩,fun _ _ => rfl⟩
    intro x hx
    rcases Nat.lt_succ_iff_lt_or_eq.mp hx with hlt | rfl
    · exact h.placed x hlt
    · exact hip
  · have hbroken : Broken b n i goal m₀ (s.mem (b+i)) ⟨s,i,b+i,s.tp n i⟩ := by
      have haround : around b i i (s.tp n)=s.tp n := by
        funext x
        unfold around
        split_ifs with hx
        · exact hx.1.symm
        · rfl
      refine ⟨?_,hi,rfl,rfl,hip,?_,Or.inl rfl⟩
      · simp only [Function.update_eq_self,haround]
        exact h
      · -- the pointers are onto, being one-to-one from the `n` indices to the `n` cells
        have hsurj := Finset.surj_on_of_inj_on_of_card_le (s := Finset.range n)
          (t := Finset.Ico b (b+n)) (fun x _ => s.tp n x)
          (fun x hx => Finset.mem_Ico.mpr (h.range x (Finset.mem_range.mp hx)))
          (fun x y hx hy => h.inj x (Finset.mem_range.mp hx) y (Finset.mem_range.mp hy))
          (by simp) (b+i) (Finset.mem_Ico.mpr (by omega))
        obtain ⟨y,hy,hty⟩ := hsurj
        refine ⟨y,Finset.mem_range.mp hy,?_,hty.symm⟩
        rintro rfl
        exact hip hty.symm
    obtain ⟨c,hc,hb,hk,hout⟩ := cycleLoop_returns hbroken hi.le hip n (by
      unfold unplacedCount
      exact (Finset.card_filter_le _ _).trans (by simp))
    refine ⟨_,?_,hb.close hi hk,fun a ha => ?_⟩
    · simp only [if_pos hip,hc,Option.map_some]
    · exact (buf_setTp c.toIndirect hb.lt c.jp ha).trans (hout a ha)

/-- The outer loop. -/
theorem placeCycles_spec {s : Indirect α} {k : ℕ} (hk : i+k=n)
    (h : Pointing b n i goal m₀ s.mem (s.tp n)) :
    ∃ t, Run.run (placeCycle b n) s (List.range' i k)=some t ∧
      Pointing b n n goal m₀ t.mem (t.tp n) ∧ ∀ a, a < n ∨ 2*n ≤ a → t.buf a=s.buf a := by
  induction k generalizing i s with
  | zero =>
    obtain rfl : i=n := by omega
    exact ⟨s,rfl,h,fun _ _ => rfl⟩
  | succ k ih =>
    obtain ⟨u,hu,hpoint,hout⟩ := placeCycle_spec h (by omega)
    obtain ⟨t,ht,hpoint',hout'⟩ := ih (by omega) hpoint
    refine ⟨t,?_,hpoint',fun a ha => ?_⟩
    · rw [List.range'_succ,Run.run_cons,hu,Option.bind_some,ht]
    · rw [hout' a ha,hout a ha]

end Loop

theorem slice_setPointers (b n : ℕ) (buf : ℕ → ℕ) :
    slice (setPointers b n buf) n n=(List.range n).map (b+·) := by
  apply List.map_congr_left
  intro x hx
  have hlt := List.mem_range.mp hx
  rw [setPointers,foldl_update,if_pos (by omega),Nat.add_sub_cancel_left]

/-- Sorted pointers to the cells of the array. -/
theorem pointing_of_perm {b n : ℕ} {buf : ℕ → ℕ} (mem : ℕ → α)
    (h : (slice buf n n).Perm ((List.range n).map (b+·))) :
    Pointing b n 0 (fun x => mem (buf (n+x))) mem mem fun x => buf (n+x) := by
  have hnodup : (slice buf n n).Nodup :=
    h.nodup_iff.mpr (List.nodup_range.map (add_right_injective b))
  refine ⟨?_,?_,fun _ _ => rfl,fun x hx => absurd hx (Nat.not_lt_zero x),fun _ _ => rfl⟩
  · intro x hx
    have hmem := h.mem_iff.mp (mem_slice.mpr ⟨x,hx,rfl⟩)
    obtain ⟨k,hk,heq⟩ := List.mem_map.mp hmem
    have hlt := List.mem_range.mp hk
    omega
  · intro x hx y hy hxy
    by_contra hne
    have hpair := pairwise_slice.mp hnodup
    rcases Nat.lt_or_gt_of_ne hne with hlt | hgt
    · exact hpair x y hlt hy hxy
    · exact hpair y x hgt hx hxy.symm

/-- Sorting through pointers ends with the same array as sorting the elements themselves. It
leaves the rest of memory as it is and keeps to `2*n` cells of the buffer. -/
theorem indirectMsortWithTmp_spec (cmp : α → α → ℤ) (b n : ℕ) (s : Indirect α) :
    ∃ t, indirectMsortWithTmp cmp b n s=some t ∧
      slice t.mem b n=mergeHalves cmp (slice s.mem b n) ∧
      (∀ a, a < b ∨ b+n ≤ a → t.mem a=s.mem a) ∧ ∀ a, 2*n ≤ a → t.buf a=s.buf a := by
  obtain ⟨hsorted,hframe⟩ := msortWithTmp_spec (fun p q => cmp (s.mem p) (s.mem q)) (t := 0) (b := n)
    (n := n) (Or.inr (by omega)) (setPointers b n s.buf)
  rw [slice_setPointers] at hsorted
  unfold indirectMsortWithTmp
  set buf := msortWithTmp (fun p q => cmp (s.mem p) (s.mem q)) 0 n n (setPointers b n s.buf)
  have hperm : (slice buf n n).Perm ((List.range n).map (b+·)) := hsorted ▸ mergeHalves_perm _ _
  obtain ⟨t,ht,hpoint,hout⟩ := placeCycles_spec (s := ⟨s.mem,buf⟩) (Nat.zero_add n)
    (pointing_of_perm s.mem hperm)
  refine ⟨t,?_,?_,hpoint.outside,fun a ha => ?_⟩
  · simp only
    rw [List.range_eq_range',ht]
  · have hplaced : slice t.mem b n=(slice buf n n).map s.mem := by
      rw [slice,slice,List.map_map]
      apply List.map_congr_left
      intro x hx
      have hlt := List.mem_range.mp hx
      rw [← hpoint.placed x hlt,hpoint.value x hlt]
      rfl
    rw [hplaced,hsorted,map_mergeHalves,List.map_map]
    rfl
  · rw [hout a (Or.inr ha)]
    exact (hframe a (by omega) (by omega)).trans
      ((foldl_update (b+·) s.buf n n a).trans (if_neg (by omega)))

end Libc
end NeOs
