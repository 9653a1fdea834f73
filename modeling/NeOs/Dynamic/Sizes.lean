import NeOs.Dynamic.Append

/-! The size arithmetic of an array that is appended to: when the byte counts and offsets that it
computes in `size_t` are the natural numbers they stand for. -/
namespace NeOs
open Library Library.Run Library.Doubling
namespace Dynamic

/-- The byte count last passed to `malloc` or `realloc` is that of the header and the capacity. -/
def ExactBytes (d : Dynamic) : Prop := d.requested=sizeofDynamic+d.capacity*d.elementSize

instance (d : Dynamic) : Decidable (ExactBytes d) := inferInstanceAs (Decidable (_=_))

/-- The bytes of the block behind the header. -/
def payload (d : Dynamic) : ℕ := d.requested-sizeofDynamic

/-- An insertion allocates an exact byte count and writes at an offset inside the payload. -/
def InsertsExactly (d : Dynamic) (_element : List UInt8) : Prop :=
  ExactBytes (dynamicGrow d) ∧ d.length*d.elementSize < payload (dynamicGrow d)

/-- `dynamic` refuses its arguments, or neither it nor `n` insertions that follow compute a size
that wraps around. -/
def NeverWraps (elementSize initialCapacity n : ℕ) : Prop :=
  dynamic elementSize initialCapacity=none ∨
    ∃ d, dynamic elementSize initialCapacity=some d ∧ ExactBytes d ∧
      ∀ xs, xs.length=n → (∀ x ∈ xs, x.length=elementSize) → Along dynamicInsert InsertsExactly d xs

variable {d : Dynamic}

theorem sizeT_lt (n : ℕ) : sizeT n < 2^64 := Nat.mod_lt _ (by norm_num)

/-- A capacity that is doubled past the range of `size_t` does not grow. -/
theorem lt_sizeT_double {n : ℕ} (h : n < sizeT (n*2)) : sizeT (n*2)=n*2 := by
  apply sizeT_eq
  by_contra hno
  have hlt := sizeT_lt (n*2)
  unfold sizeT at h hlt
  omega

theorem Tied.exactBytes (h : Tied d) : ExactBytes d := by
  rw [ExactBytes,h.requested_eq,h.size_eq]

/-- An insertion is exact if and only if the doubling of a full array fits. -/
theorem Tied.insertsExactly_iff (h : Tied d) (hc : 1 ≤ d.capacity) (x : List UInt8) :
    InsertsExactly d x ↔ GrowthFits d := by
  constructor
  · rintro ⟨hexact,hoff⟩ hfull
    rw [payload,hexact,Nat.add_sub_cancel_left] at hoff
    rw [ExactBytes] at hexact
    rw [h.grow_full hfull] at hexact hoff
    change sizeT (sizeofDynamic+sizeT (d.size*2))=
      sizeofDynamic+sizeT (d.capacity*2)*d.elementSize at hexact
    change d.length*d.elementSize < sizeT (d.capacity*2)*d.elementSize at hoff
    have hgrown : d.capacity < sizeT (d.capacity*2) := by
      rw [← hfull] at hoff ⊢
      exact Nat.lt_of_mul_lt_mul_right hoff
    rw [lt_sizeT_double hgrown] at hexact
    rw [← hexact]
    exact sizeT_lt _
  · intro hf
    have ht := h.grow hc hf
    obtain ⟨hl,-,-,hes⟩ := h.grow_fields hf
    have hused : (d.length+1)*d.elementSize ≤ (dynamicGrow d).capacity*d.elementSize := by
      rw [← hl]
      exact Nat.mul_le_mul_right _ ht.length_le
    refine ⟨ht.exactBytes,?_⟩
    have hpos := h.elementSize_pos
    rw [payload,ht.exactBytes,Nat.add_sub_cancel_left,hes]
    rw [Nat.add_mul,Nat.one_mul] at hused
    omega

/-- Insertions compute exact sizes if and only if the last capacity they call for fits. -/
theorem Represents.along_insertsExactly_iff {c es : ℕ} (hc : 1 ≤ c) {xs ys : List (List UInt8)}
    (h : Represents id d (Slots.filled c ys)) (hes : d.elementSize=es)
    (hx : ∀ x ∈ xs, x.length=es) :
    Along dynamicInsert InsertsExactly d xs ↔ ScheduleFits c es (ys.length+xs.length) := by
  induction xs generalizing d ys with
  | nil => exact iff_of_true trivial (h.scheduleFits hes)
  | cons x xs ih =>
    have hcap := h.capacity_pos hc
    have hlen : ys.length+(x::xs).length=(ys++[x]).length+xs.length := by
      simp only [List.length_append,List.length_cons,List.length_nil]
      omega
    have hfirst : InsertsExactly d x ↔ ScheduleFits c es (ys.length+1) := by
      rw [h.holds.insertsExactly_iff hcap,h.growthFits_iff hes]
    rw [hlen]
    by_cases hf : ScheduleFits c es (ys.length+1)
    · obtain ⟨e,he,hr,hes'⟩ := Represents.insert h (h.capacity_eq ▸ hcap)
        ((h.growthFits_iff hes).mpr hf) ((hx x (by simp)).trans hes.symm)
      rw [Slots.insert_filled] at hr
      rw [← ih hr (hes'.trans hes) fun y hy => hx y (by simp [hy])]
      constructor
      · intro ha
        exact ha.tail he
      · intro ha
        refine ⟨hfirst.mpr hf,fun t ht => ?_⟩
        cases ht.symm.trans he
        exact ha
    · refine iff_of_false (fun ha => hf (hfirst.mp ha.1)) fun hlast => hf ?_
      refine hlast.of_le hc ?_
      simp

/-- The first allocation is exact only if it fits. -/
theorem fits_of_exactBytes {elementSize initialCapacity : ℕ}
    (hd : dynamic elementSize initialCapacity=some d) (hexact : ExactBytes d) :
    sizeofDynamic+initialCount initialCapacity*elementSize < 2^64 := by
  unfold dynamic at hd
  split_ifs at hd
  cases hd
  exact hexact ▸ sizeT_lt _

/-- There is no check against wrapping around: the sizes are exact just as long as some capacity of
the schedule holds the elements and fits `size_t` together with the header. -/
theorem neverWraps_iff {elementSize : ℕ} (he : 1 ≤ elementSize) (initialCapacity n : ℕ) :
    NeverWraps elementSize initialCapacity n ↔
      ∃ k, n ≤ initialCount initialCapacity*2^k ∧
        sizeofDynamic+initialCount initialCapacity*2^k*elementSize < 2^64 := by
  have hc := initialCount_pos initialCapacity
  rw [← scheduleFits_iff hc]
  constructor
  · rintro (hnone | ⟨d,hd,hexact,hrun⟩)
    · rw [dynamic,if_neg (by omega)] at hnone
      cases hnone
    · obtain ⟨e,hd',hr,hes⟩ :=
        dynamic_represents (id : List UInt8 → List UInt8) he (fits_of_exactBytes hd hexact)
      cases hd.symm.trans hd'
      rw [Slots.new_eq_filled] at hr
      have hx : ∀ x ∈ List.replicate n (List.replicate elementSize (0 : UInt8)),
          x.length=elementSize := by
        intro x hx
        rw [(List.mem_replicate.mp hx).2,List.length_replicate]
      have hall := hrun _ List.length_replicate hx
      rw [hr.along_insertsExactly_iff hc hes hx] at hall
      simpa using hall
  · intro hfit
    have hfirst := (scheduleFits_zero _ _).mp (hfit.of_le hc (Nat.zero_le n))
    obtain ⟨d,hd,hr,hes⟩ := dynamic_represents (id : List UInt8 → List UInt8) he hfirst
    refine Or.inr ⟨d,hd,hr.holds.exactBytes,fun xs hlen hx => ?_⟩
    rw [Slots.new_eq_filled] at hr
    rw [hr.along_insertsExactly_iff hc hes hx,hlen]
    simpa using hfit

/-- Pointers in an array of the default capacity, past its first growth. -/
theorem neverWraps_pointers : NeverWraps 8 0 33 :=
  (neverWraps_iff (by decide) 0 33).mpr ⟨1,by decide⟩

/-- Two elements of half the address space each: the product is zero in `size_t`, and `malloc` is
asked for a header only. -/
theorem two_halves_wrap :
    (dynamic (2^63) 2).map requested=some 32 ∧ ¬NeverWraps (2^63) 2 0 := by
  refine ⟨by decide,?_⟩
  rintro (hnone | ⟨d,hd,hexact,-⟩)
  · exact absurd hnone (by decide)
  · cases hd
    exact absurd hexact (by decide)

end Dynamic
end NeOs
