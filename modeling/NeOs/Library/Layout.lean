import NeOs.Library.Cells

/-! Cells of several bytes each that lie in one memory of bytes. -/
namespace NeOs.Library
open Cells
variable {β : Type*}

/-- The places of `count` cells of `size` bytes. No two of them meet. -/
structure Layout (size : ℕ) where
  place : ℕ → ℕ
  count : ℕ
  apart : ∀ i < count, ∀ j < count, ∀ r < size, ∀ q < size, place i+r=place j+q → i=j

namespace Layout
variable {size : ℕ}

/-- Cells one behind the other, from `base` on. -/
def array (base size n : ℕ) : Layout size where
  place i := base+size*i
  count := n
  apart i _ j _ r hr q hq h := by
    have hdiv : (size*i+r)/size=(size*j+q)/size := congrArg (·/size) (by omega)
    rwa [Nat.mul_add_div (by omega),Nat.mul_add_div (by omega),Nat.div_eq_of_lt hr,
      Nat.div_eq_of_lt hq,Nat.add_zero,Nat.add_zero] at hdiv

theorem mul_add_le {size i n : ℕ} (h : i < n) : size*i+size ≤ size*n := by
  rw [← Nat.mul_succ]
  exact Nat.mul_le_mul_left size h

theorem mul_add_lt {size i n r : ℕ} (hi : i < n) (hr : r < size) : size*i+r < size*n := by
  have h : size*i+size ≤ size*n := mul_add_le hi
  omega

/-- The `n` cells from `base` on, and as many from `t` on. -/
def withBuffer (base t size n : ℕ) (h : base+size*n ≤ t ∨ t+size*n ≤ base) : Layout size where
  place i := if i < n then base+size*i else t+size*(i-n)
  count := n+n
  apart i hi j hj r hr q hq heq := by
    have hin : ∀ k < n, ∀ r < size, size*k+r < size*n := fun k hk r hr => mul_add_lt hk hr
    have hb : base+size*i+r=base+size*j+q → i=j :=
      (array base size (n+n)).apart i hi j hj r hr q hq
    have ht : t+size*(i-n)+r=t+size*(j-n)+q → i-n=j-n :=
      (array t size (n+n)).apart (i-n) (by change i-n < n+n; omega) (j-n)
        (by change j-n < n+n; omega) r hr q hq
    split_ifs at heq with hin' hjn hjn
    · exact hb heq
    · have h1 := hin i hin' r hr
      have h2 := hin (j-n) (by omega) q hq
      omega
    · have h1 := hin (i-n) (by omega) r hr
      have h2 := hin j hjn q hq
      omega
    · have h1 := ht heq
      omega

variable (L : Layout size)

/-- The memory holds the cells `c`. -/
def Views (m : ℕ → β) (c : ℕ → List β) : Prop := ∀ i < L.count, slice m (L.place i) size=c i

/-- The address belongs to no cell. -/
def Outside (a : ℕ) : Prop := ∀ i < L.count, ∀ r < size, a≠L.place i+r

/-- `m` holds the cells `c` and is `m₀` elsewhere. -/
structure Image (m₀ m : ℕ → β) (c : ℕ → List β) : Prop where
  views : L.Views m c
  outside : ∀ a, L.Outside a → m a=m₀ a

/-- The `n` cells from `d` on lie one behind the other. -/
structure Adjacent (d n : ℕ) : Prop where
  le : d+n ≤ L.count
  place : ∀ j < n, L.place (d+j)=L.place d+size*j

variable {L} {m₀ m : ℕ → β} {c : ℕ → List β} {d e n : ℕ}

theorem Adjacent.single {i : ℕ} (h : i < L.count) : L.Adjacent i 1 := by
  refine ⟨h,fun j hj => ?_⟩
  obtain rfl : j=0 := by omega
  rfl

theorem Adjacent.mono (h : L.Adjacent d n) {d' n' : ℕ} (hd : d ≤ d') (hn : d'+n' ≤ d+n) :
    L.Adjacent d' n' := by
  refine ⟨hn.trans h.le,fun j hj => ?_⟩
  have hfrom := h.place (d'-d) (by omega)
  have hto := h.place (d'+j-d) (by omega)
  rw [Nat.add_sub_cancel' (by omega)] at hfrom hto
  rw [hfrom,hto,show d'+j-d=d'-d+j by omega,Nat.mul_add,Nat.add_assoc]

section WithBuffer
variable {base t : ℕ} {h : base+size*n ≤ t ∨ t+size*n ≤ base}

theorem withBuffer_place {j : ℕ} (hj : j < n) :
    (withBuffer base t size n h).place j=base+size*j := if_pos hj

theorem withBuffer_place_buffer (j : ℕ) : (withBuffer base t size n h).place (n+j)=t+size*j := by
  refine (if_neg (by omega)).trans ?_
  rw [Nat.add_sub_cancel_left]

theorem adjacent_array : (withBuffer base t size n h).Adjacent 0 n := by
  refine ⟨by change 0+n ≤ n+n; omega,fun j hj => ?_⟩
  rw [Nat.zero_add,withBuffer_place hj,withBuffer_place (by omega),Nat.mul_zero,Nat.add_zero]

theorem adjacent_buffer : (withBuffer base t size n h).Adjacent n n := by
  refine ⟨le_rfl,fun j _ => ?_⟩
  rw [withBuffer_place_buffer]
  exact congrArg (·+size*j) (withBuffer_place_buffer 0).symm

end WithBuffer

/-- The place of a cell that is reached from the first one. -/
theorem Adjacent.place_eq (h : L.Adjacent d n) {i : ℕ} (hd : d ≤ i) (hi : i < d+n) :
    L.place d+size*(i-d)=L.place i := by
  have hplace := h.place (i-d) (by omega)
  rwa [Nat.add_sub_cancel' hd,eq_comm] at hplace

/-- An address among adjacent cells belongs to one of them. -/
theorem Adjacent.owner (h : L.Adjacent d n) {a : ℕ} (hle : L.place d ≤ a)
    (hlt : a < L.place d+size*n) :
    ∃ j < n, ∃ r < size, a=L.place (d+j)+r := by
  have hpos : 0 < size := Nat.pos_of_mul_pos_right (by omega : 0 < size*n)
  have hj : (a-L.place d)/size < n := by
    rw [Nat.div_lt_iff_lt_mul hpos,Nat.mul_comm]
    omega
  refine ⟨(a-L.place d)/size,hj,(a-L.place d)%size,Nat.mod_lt _ hpos,?_⟩
  rw [h.place _ hj,Nat.add_assoc,Nat.div_add_mod]
  omega

/-- Copy any bytes over adjacent cells. -/
theorem Image.fill (h : L.Image m₀ m c) (hd : L.Adjacent d n) (src : ℕ → β) (s : ℕ) :
    L.Image m₀ (copy m (L.place d) src s (size*n))
      fun i => if d ≤ i ∧ i < d+n then slice src (s+size*(i-d)) size else c i := by
  refine ⟨fun i hi => ?_,fun a ha => ?_⟩
  · split_ifs with hin
    · apply slice_congr
      intro r hr
      have hlt := mul_add_lt (show i-d < n by omega) hr
      rw [← hd.place_eq hin.1 hin.2,copy,if_pos (by omega)]
      congr 1
      omega
    · rw [← h.views i hi]
      apply slice_congr
      intro r hr
      rw [copy,if_neg]
      rintro ⟨hle,hlt⟩
      obtain ⟨j,hj,q,hq,heq⟩ := hd.owner hle hlt
      have hle := hd.le
      have hij := L.apart i hi (d+j) (by omega) r hr q hq heq
      omega
  · rw [copy,if_neg,h.outside a ha]
    rintro ⟨hle,hlt⟩
    obtain ⟨j,hj,q,hq,heq⟩ := hd.owner hle hlt
    have hle := hd.le
    exact ha (d+j) (by omega) q hq heq

/-- Copy any bytes over a cell. -/
theorem Image.put (h : L.Image m₀ m c) {i : ℕ} (hi : i < L.count) (src : ℕ → β) (s : ℕ) :
    L.Image m₀ (copy m (L.place i) src s size) (Function.update c i (slice src s size)) := by
  have hfill := h.fill (Adjacent.single hi) src s
  rw [Nat.mul_one] at hfill
  refine ⟨fun k hk => ?_,hfill.outside⟩
  rw [hfill.views k hk,Function.update_apply]
  beta_reduce
  by_cases hki : k=i
  · rw [if_pos (by omega),if_pos hki,hki,Nat.sub_self,Nat.mul_zero,Nat.add_zero]
  · rw [if_neg (by omega),if_neg hki]

/-- Copy adjacent cells to adjacent cells. -/
theorem Image.move (h : L.Image m₀ m c) (hd : L.Adjacent d n) (he : L.Adjacent e n) :
    L.Image m₀ (copy m (L.place d) m (L.place e) (size*n)) (copy c d c e n) := by
  have hfill := h.fill hd m (L.place e)
  refine ⟨fun i hi => ?_,hfill.outside⟩
  rw [hfill.views i hi,copy]
  beta_reduce
  split_ifs with hin
  · have hle := he.le
    rw [← he.place (i-d) (by omega),h.views (e+(i-d)) (by omega)]
  · rfl

/-- An image of the memory itself. -/
theorem Views.image (h : L.Views m c) : L.Image m m c := ⟨h,fun _ _ => rfl⟩

section Separate
variable {size' : ℕ} {L' : Layout size'}

/-- No byte belongs to cells of both. -/
def Separate (L : Layout size) (L' : Layout size') : Prop :=
  ∀ i < L.count, ∀ r < size, L'.Outside (L.place i+r)

theorem Separate.symm (h : L.Separate L') : L'.Separate L :=
  fun i hi r hr j hj q hq heq => h j hj q hq i hi r hr heq.symm

/-- Cells stay when only others are written. -/
theorem Views.stable (h : L.Views m c) (hsep : L.Separate L') {m' : ℕ → β}
    (hm : ∀ a, L'.Outside a → m' a=m a) : L.Views m' c := by
  intro i hi
  rw [← h i hi]
  exact slice_congr fun r hr => hm _ (hsep i hi r hr)

theorem array_outside {base n a : ℕ} (h : a < base ∨ base+size*n ≤ a) :
    (array base size n).Outside a := by
  intro i (hi : i < n) r hr (heq : a=base+size*i+r)
  have hlt := mul_add_lt hi hr
  omega

theorem withBuffer_outside {base t n a : ℕ} {h : base+size*n ≤ t ∨ t+size*n ≤ base}
    (harr : a < base ∨ base+size*n ≤ a) (hbuf : a < t ∨ t+size*n ≤ a) :
    (withBuffer base t size n h).Outside a := by
  intro i (hi : i < n+n) r hr heq
  by_cases hin : i < n
  · have hlt := mul_add_lt hin hr
    rw [withBuffer_place hin] at heq
    omega
  · obtain ⟨j,rfl⟩ := Nat.exists_eq_add_of_le (Nat.le_of_not_lt hin)
    have hlt := mul_add_lt (show j < n by omega) hr
    rw [withBuffer_place_buffer] at heq
    omega

theorem array_separate {base n base' n' : ℕ} (h : base+size*n ≤ base' ∨ base'+size'*n' ≤ base) :
    (array base size n).Separate (array base' size' n') := by
  intro i (hi : i < n) r hr
  have hlt := mul_add_lt hi hr
  apply array_outside
  change base+size*i+r < base' ∨ base'+size'*n' ≤ base+size*i+r
  omega

end Separate

end Layout
end NeOs.Library
