import NeOs.Dynamic.Model
import NeOs.Library.Doubling

/-! The growable array as its users see it: a list of elements of one type, a capacity, and a
version that changes when the storage moves. The array of `lib/dynamic.c` refines it as long as
its byte counts fit `size_t`. -/
namespace NeOs
open Library Library.Run Library.Doubling

/-- The elements in insertion order. A reference into the array is good for one version only. -/
structure Slots (α : Type*) where
  elems : List α
  capacity : ℕ
  version : ℕ
  deriving Repr, DecidableEq

namespace Slots
variable {α : Type*}

/-- `dynamic(sizeof(α), initial_capacity)`. -/
def new (initialCapacity : ℕ) : Slots α := ⟨[],initialCount initialCapacity,0⟩

def length (v : Slots α) : ℕ := v.elems.length

/-- `dynamic_insert`: a full array is moved to a block of twice the capacity first. -/
def insert (v : Slots α) (a : α) : Slots α :=
  if v.length=v.capacity then ⟨v.elems++[a],v.capacity*2,v.version+1⟩
  else ⟨v.elems++[a],v.capacity,v.version⟩

/-- The array that holds `xs` after growing from capacity `c`. -/
def filled (c : ℕ) (xs : List α) : Slots α :=
  ⟨xs,c*2^doublings c xs.length,doublings c xs.length⟩

@[simp] theorem filled_elems (c : ℕ) (xs : List α) : (filled c xs).elems=xs := rfl
@[simp] theorem filled_length (c : ℕ) (xs : List α) : (filled c xs).length=xs.length := rfl
@[simp] theorem filled_version (c : ℕ) (xs : List α) :
    (filled c xs).version=doublings c xs.length := rfl

theorem new_eq_filled (initialCapacity : ℕ) :
    (new initialCapacity : Slots α)=filled (initialCount initialCapacity) [] := by
  simp [new,filled]

/-- The growth schedule depends on the number of elements only. -/
@[simp] theorem insert_filled (c : ℕ) (xs : List α) (a : α) :
    (filled c xs).insert a=filled c (xs++[a]) := by
  have hs : (xs++[a]).length=xs.length+1 := by simp
  by_cases h : (filled c xs).length=(filled c xs).capacity
  · have hd : doublings c (xs.length+1)=doublings c xs.length+1 := if_pos h
    rw [insert,if_pos h,filled,filled,hs,hd,pow_succ,Nat.mul_assoc]
  · have hd : doublings c (xs.length+1)=doublings c xs.length := if_neg h
    rw [insert,if_neg h,filled,filled,hs,hd]

theorem foldl_insert_filled (c : ℕ) (xs ys : List α) :
    ys.foldl insert (filled c xs)=filled c (xs++ys) := by
  induction ys generalizing xs with
  | nil => simp
  | cons y ys ih =>
    rw [List.foldl_cons,insert_filled,ih,List.append_assoc,List.singleton_append]

end Slots

theorem initialCount_pos (initialCapacity : ℕ) : 1 ≤ initialCount initialCapacity := by
  unfold initialCount dynamicDefaultCapacity
  split_ifs <;> omega

namespace Dynamic
variable {α : Type*} (encode : α → List UInt8)

/-- The byte array `d` stores the encodings of the elements of `v`, on the same block and with the
same capacity. -/
structure Represents (d : Dynamic) (v : Slots α) : Prop where
  holds : Holds d (v.elems.map encode)
  capacity_eq : d.capacity=v.capacity
  block_eq : d.block=v.version

variable {encode}

theorem Represents.length_eq {d : Dynamic} {v : Slots α} (h : Represents encode d v) :
    d.length=v.length := by
  rw [h.holds.length_eq,List.length_map]
  rfl

/-- One insertion into the byte array simulates one insertion into the abstract one. -/
theorem Represents.insert {d : Dynamic} {v : Slots α} (h : Represents encode d v)
    (hc : 1≤v.capacity) (hf : GrowthFits d) {a : α} (ha : (encode a).length=d.elementSize) :
    ∃ e, dynamicInsert d (encode a)=some e ∧ Represents encode e (v.insert a) ∧
      e.elementSize=d.elementSize := by
  obtain ⟨e,he,hh,hcap,hblk,hes⟩ := h.holds.insert (h.capacity_eq ▸ hc) hf ha
  have hfull : d.length=d.capacity ↔ v.length=v.capacity := by rw [h.length_eq,h.capacity_eq]
  refine ⟨e,he,?_,hes⟩
  unfold Slots.insert
  by_cases hv : v.length=v.capacity
  · rw [if_pos hv]
    rw [if_pos (hfull.mpr hv)] at hcap hblk
    refine ⟨?_,?_,?_⟩
    · simpa using hh
    · rw [hcap,h.capacity_eq]
    · rw [hblk,h.block_eq]
  · rw [if_neg hv]
    rw [if_neg (mt hfull.mp hv)] at hcap hblk
    refine ⟨?_,?_,?_⟩
    · simpa using hh
    · rw [hcap,h.capacity_eq]
    · rw [hblk,h.block_eq]

variable (encode) in
/-- A fresh byte array represents the fresh abstract one. -/
theorem dynamic_represents {elementSize initialCapacity : ℕ} (he : 1≤elementSize)
    (hfit : sizeofDynamic+initialCount initialCapacity*elementSize<2^64) :
    ∃ d, dynamic elementSize initialCapacity=some d ∧
      Represents encode d (Slots.new initialCapacity) ∧ d.elementSize=elementSize := by
  have hsize : sizeT (initialCount initialCapacity*elementSize)=
      initialCount initialCapacity*elementSize := sizeT_eq (by omega)
  have hne : ¬(elementSize<1 ∨ elementSize=0) := by omega
  refine ⟨_,by rw [dynamic,if_neg hne],⟨⟨⟨rfl,he,Nat.zero_le _,hsize,?_,?_,?_⟩,rfl,?_,?_⟩,rfl,rfl⟩,rfl⟩
  · simpa only [hsize] using hfit
  · exact sizeT_eq (by simpa only [hsize] using hfit)
  · simp only [hsize,sizeT_eq hfit,List.length_replicate,Nat.add_sub_cancel_left]
  · simp [Slots.new]
  · simp [Slots.new]

/-- The capacity that the schedule prescribes for `n` elements fits `size_t`, with the header. -/
def ScheduleFits (c elementSize n : ℕ) : Prop :=
  sizeofDynamic+c*2^doublings c n*elementSize < 2^64

theorem scheduleFits_zero (c es : ℕ) : ScheduleFits c es 0 ↔ sizeofDynamic+c*es < 2^64 := by
  rw [ScheduleFits,doublings_zero,pow_zero,Nat.mul_one]

/-- A capacity of the schedule fits as soon as a later one does. -/
theorem ScheduleFits.of_le {c es m n : ℕ} (h : ScheduleFits c es n) (hc : 1 ≤ c) (hmn : m ≤ n) :
    ScheduleFits c es m :=
  lt_of_le_of_lt (Nat.add_le_add_left (Nat.mul_le_mul_right es (bound_mono hc hmn)) _) h

theorem scheduleFits_iff {c : ℕ} (hc : 1 ≤ c) (es n : ℕ) :
    ScheduleFits c es n ↔ ∃ k, n ≤ c*2^k ∧ sizeofDynamic+c*2^k*es < 2^64 := by
  constructor
  · intro h
    exact ⟨doublings c n,le_bound hc n,h⟩
  · rintro ⟨k,hk,hbytes⟩
    exact lt_of_le_of_lt (Nat.add_le_add_left (Nat.mul_le_mul_right es (bound_le hc hk)) _) hbytes

section Schedule
variable {c es : ℕ} {d : Dynamic} {xs : List α}

theorem Represents.capacity_pos (h : Represents encode d (Slots.filled c xs)) (hc : 1 ≤ c) :
    1 ≤ d.capacity := by
  rw [h.capacity_eq]
  exact bound_pos hc xs.length

theorem Represents.scheduleFits (h : Represents encode d (Slots.filled c xs))
    (hes : d.elementSize=es) : ScheduleFits c es xs.length := by
  have hbytes := h.holds.bytes_lt
  rw [h.holds.size_eq,h.capacity_eq,hes] at hbytes
  exact hbytes

/-- The next growth fits if and only if the capacity for one more element does. -/
theorem Represents.growthFits_iff (h : Represents encode d (Slots.filled c xs))
    (hes : d.elementSize=es) : GrowthFits d ↔ ScheduleFits c es (xs.length+1) := by
  have hfull : d.length=d.capacity ↔ xs.length=c*2^doublings c xs.length := by
    rw [h.length_eq,h.capacity_eq]
    rfl
  have hcap : d.capacity=c*2^doublings c xs.length := h.capacity_eq
  rw [GrowthFits,hfull,ScheduleFits,doublings,hcap,hes]
  split_ifs with hn
  · have hdouble : c*2^(doublings c xs.length+1)=c*2^doublings c xs.length*2 := by ring
    rw [hdouble]
    exact ⟨fun hf => hf hn,fun hf _ => hf⟩
  · exact iff_of_true (fun hno => absurd hno hn) (h.scheduleFits hes)

end Schedule

/-- Appending a list of elements: the byte array follows the growth schedule of the abstract one
as long as the last capacity of the schedule fits. -/
theorem Represents.insertAll {c : ℕ} (hc : 1≤c) {es : ℕ} {d : Dynamic} {xs ys : List α}
    (h : Represents encode d (Slots.filled c xs)) (hes : d.elementSize=es)
    (hy : ∀ y ∈ ys, (encode y).length=es) (hfit : ScheduleFits c es (xs++ys).length) :
    ∃ e, run dynamicInsert d (ys.map encode)=some e ∧
      Represents encode e (Slots.filled c (xs++ys)) ∧ e.elementSize=es := by
  induction ys generalizing d xs with
  | nil => exact ⟨d,rfl,by simpa using h,hes⟩
  | cons y ys ih =>
    have hlen : xs.length+1≤(xs++y::ys).length := by
      simp only [List.length_append,List.length_cons]
      omega
    have hfull : GrowthFits d := (h.growthFits_iff hes).mpr (hfit.of_le hc hlen)
    obtain ⟨e,he,hr,hes'⟩ := h.insert (bound_pos hc xs.length) hfull
      ((hy y (by simp)).trans hes.symm)
    rw [Slots.insert_filled] at hr
    obtain ⟨e',he',hr',hes''⟩ := ih hr (hes'.trans hes) (fun z hz => hy z (by simp [hz]))
      (by simpa using hfit)
    refine ⟨e',?_,by simpa using hr',hes''⟩
    rw [List.map_cons,run_cons,he]
    exact he'

end Dynamic
end NeOs
