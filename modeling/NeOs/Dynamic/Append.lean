import NeOs.Dynamic.Slots

/-! An array that is only appended to: a byte-level refinement of a list, with its exact growth
schedule and the exact lifetime of the addresses that `dynamic_get` hands out. -/
namespace NeOs
open Library Library.Run Library.Doubling
namespace Dynamic

/-- The array after the first insertions of a run, as long as some capacity of the schedule both
holds everything and fits `size_t` together with the header. -/
theorem append_state {elementSize initialCapacity : ℕ} (he : 1≤elementSize)
    {xs : List (List UInt8)} (hx : ∀ x ∈ xs, x.length=elementSize)
    (hfit : ∃ k, xs.length≤ initialCount initialCapacity*2^k ∧
      sizeofDynamic+initialCount initialCapacity*2^k*elementSize<2^64) :
    ∃ d₀, dynamic elementSize initialCapacity=some d₀ ∧ ∀ n, ∃ e,
      run dynamicInsert d₀ (xs.take n)=some e ∧ e.elementSize=elementSize ∧
      Represents id e (Slots.filled (initialCount initialCapacity) (xs.take n)) := by
  have hc := initialCount_pos initialCapacity
  -- every capacity of the schedule up to the last one fits
  have hcap : ∀ n ≤ xs.length, ScheduleFits (initialCount initialCapacity) elementSize n :=
    fun n => ((scheduleFits_iff hc _ _).mpr hfit).of_le hc
  have hfirst := (scheduleFits_zero _ _).mp (hcap 0 (Nat.zero_le _))
  obtain ⟨d₀,hd,hr,hes⟩ := dynamic_represents (id : List UInt8 → List UInt8) he hfirst
  rw [Slots.new_eq_filled] at hr
  refine ⟨d₀,hd,fun n => ?_⟩
  obtain ⟨e,hrun,hrep,hees⟩ := hr.insertAll hc hes
    (fun y hy => hx y (List.mem_of_mem_take hy)) (hcap (xs.take n).length (by simp))
  exact ⟨e,by simpa using hrun,hees,by simpa using hrep⟩

/-- A growth keeps its block exactly when the number of elements is not a full capacity. -/
theorem grow_block_iff {d : Dynamic} {c : ℕ} (hc : 1≤c) {xs : List (List UInt8)}
    (h : Represents id d (Slots.filled c xs)) :
    (dynamicGrow d).block≠d.block ↔ ∃ j, xs.length=c*2^j := by
  rw [← full_iff hc]
  have hiff : d.length=d.capacity ↔ xs.length=c*2^doublings c xs.length := by
    rw [h.length_eq,h.capacity_eq]
    rfl
  rw [← hiff]
  by_cases hfull : d.length=d.capacity
  · rw [h.holds.grow_full hfull]
    simp [dynamicRealloc,doubled,hfull]
  · rw [h.holds.grow_room hfull]
    simp [hfull]

/-- An address taken when the array held `xs` still reads the element it was taken for once the
array holds `xs++ys` if no full capacity was crossed, and is dangling otherwise. -/
theorem load_later {d e : Dynamic} {c : ℕ} (hc : 1≤c) {xs ys : List (List UInt8)}
    (hd : Represents id d (Slots.filled c xs)) (he : Represents id e (Slots.filled c (xs++ys)))
    (hes : d.elementSize=e.elementSize) {i : ℕ} (hi : i<xs.length) :
    (Crossed c xs.length (xs++ys).length → load e (dynamicGet d i) e.elementSize=none) ∧
    (¬Crossed c xs.length (xs++ys).length →
      load e (dynamicGet d i) e.elementSize=some (xs[i].map some)) := by
  have hsame := doublings_eq_iff hc (m := xs.length) (n := (xs++ys).length) (by simp)
  have hblk : d.block=e.block ↔ ¬Crossed c xs.length (xs++ys).length := by
    rw [hd.block_eq,he.block_eq,← hsame]
    rfl
  constructor
  · intro hcross
    have hne : d.block≠e.block := fun h => hblk.mp h hcross
    simp [load,dynamicGet,hne]
  · intro hcross
    have hget : dynamicGet d i=dynamicGet e i := by
      simp only [dynamicGet,Address.mk.injEq,hes,and_true]
      exact hblk.mpr hcross
    have hi' : i<((xs++ys).map id).length := by simp; omega
    rw [hget,he.holds.load hi']
    simp [List.getElem_append_left hi]

/-- A growth fits when the capacity that the schedule prescribes for the next element does. -/
theorem growthFits_of_next {d e : Dynamic} {c : ℕ} {xs : List (List UInt8)} {x : List UInt8}
    (hd : Represents id d (Slots.filled c xs)) (he : Represents id e (Slots.filled c (xs++[x])))
    (hes : d.elementSize=e.elementSize) : GrowthFits d := by
  rw [hd.growthFits_iff hes]
  simpa using he.scheduleFits rfl

/-- The `n+1`-th insertion stores inside the payload that its growth leaves, and moves the storage
exactly when `n` is a full count. -/
theorem append_step {d : Dynamic} {c : ℕ} (hc : 1≤c) {xs : List (List UInt8)}
    (hd : Represents id d (Slots.filled c xs)) (hf : GrowthFits d) :
    d.length*d.elementSize+d.elementSize≤(dynamicGrow d).cells.length ∧
    ((dynamicGrow d).block≠d.block ↔ ∃ j, d.length=c*2^j) := by
  have hcap := hd.capacity_pos hc
  obtain ⟨hl,-,-,hes⟩ := hd.holds.grow_fields hf
  constructor
  · have hused := (hd.holds.grow hcap hf).used_le
    rwa [hl,hes,Nat.add_mul,Nat.one_mul] at hused
  · have hblk := grow_block_iff hc hd
    rwa [show xs.length=d.length from hd.length_eq.symm] at hblk

/-- Append-only use. After inserting `xs`, the array has its length, reads back each of its
blocks, and has the least capacity of the schedule that holds them, all of it allocated. Each
insertion stored inside the payload of its time, moved the storage exactly at the full counts,
and left an earlier address valid exactly when no full count was crossed since. -/
theorem append_refines_list {elementSize initialCapacity : ℕ} (he : 1≤elementSize)
    {xs : List (List UInt8)} (hx : ∀ x ∈ xs, x.length=elementSize)
    (hfit : ∃ k, xs.length ≤ initialCount initialCapacity*2^k ∧
      sizeofDynamic+initialCount initialCapacity*2^k*elementSize<2^64) :
    ∃ d₀ d, dynamic elementSize initialCapacity=some d₀ ∧ run dynamicInsert d₀ xs=some d ∧
      dynamicSize d=xs.length ∧
      (∀ i (hi : i<xs.length), load d (dynamicGet d i) elementSize=some (xs[i].map some)) ∧
      (∃ k, IsLeast {k | xs.length ≤ initialCount initialCapacity*2^k} k ∧
        dynamicCapacity d=initialCount initialCapacity*2^k) ∧
      d.cells.length=dynamicCapacity d*elementSize ∧
      (∀ n, n<xs.length → ∃ e, run dynamicInsert d₀ (xs.take n)=some e ∧ e.length=n ∧
        n*elementSize+elementSize≤(dynamicGrow e).cells.length ∧
        ((dynamicGrow e).block≠e.block ↔ ∃ j, n=initialCount initialCapacity*2^j)) ∧
      ∀ m n, m≤n → n≤xs.length → ∃ a b, run dynamicInsert d₀ (xs.take m)=some a ∧
        run dynamicInsert d₀ (xs.take n)=some b ∧ ∀ i (hi : i<xs.length), i < m →
        (Crossed (initialCount initialCapacity) m n → load b (dynamicGet a i) elementSize=none) ∧
        (¬Crossed (initialCount initialCapacity) m n →
          load b (dynamicGet a i) elementSize=some (xs[i].map some)) := by
  have hc := initialCount_pos initialCapacity
  obtain ⟨d₀,hd,hstate⟩ := append_state he hx hfit
  obtain ⟨d,hrun,hes,hrep⟩ := hstate xs.length
  rw [List.take_length] at hrun hrep
  refine ⟨d₀,d,hd,hrun,hrep.length_eq,?_,?_,?_,?_,?_⟩
  · intro i hi
    have hload := hrep.holds.load (i := i) (by simpa using hi)
    rw [hes] at hload
    simpa using hload
  · refine ⟨doublings (initialCount initialCapacity) xs.length,⟨?_,?_⟩,hrep.capacity_eq⟩
    · exact le_bound hc _
    · exact fun j hj => (le_mul_pow_iff hc _ j).mp hj
  · rw [hrep.holds.cells_length,hrep.holds.size_eq,hes]
    rfl
  · intro n hn
    obtain ⟨e,hrune,hese,hrepe⟩ := hstate n
    obtain ⟨f,-,hesf,hrepf⟩ := hstate (n+1)
    have hlen : e.length=n := by
      rw [hrepe.length_eq,Slots.filled_length,List.length_take]
      omega
    rw [List.take_succ_eq_append_getElem hn] at hrepf
    have hstep := append_step hc hrepe (growthFits_of_next hrepe hrepf (hese.trans hesf.symm))
    rw [hlen,hese] at hstep
    exact ⟨e,hrune,hlen,hstep⟩
  · intro m n hmn hn
    obtain ⟨a,hruna,hesa,hrepa⟩ := hstate m
    obtain ⟨b,hrunb,hesb,hrepb⟩ := hstate n
    refine ⟨a,b,hruna,hrunb,fun i hi him => ?_⟩
    have hsplit : xs.take n=xs.take m++(xs.take n).drop m := by
      conv_lhs => rw [← List.take_append_drop m (xs.take n),List.take_take,min_eq_left hmn]
    have hm : (xs.take m).length=m := by simp only [List.length_take]; omega
    have hn' : (xs.take n).length=n := by simp only [List.length_take]; omega
    rw [hsplit] at hrepb
    have hlater := load_later hc hrepa hrepb (hesa.trans hesb.symm) (i := i) (by omega)
    rw [← hsplit] at hlater
    simpa only [List.getElem_take,hm,hn',hesb] using hlater

/-- Three blocks of two bytes in an array of initial capacity two. -/
theorem append_refines_list_three :
    ∃ d₀ d, dynamic 2 2=some d₀ ∧ run dynamicInsert d₀ [[1,2],[3,4],[5,6]]=some d ∧
      dynamicSize d=3 ∧ dynamicCapacity d=4 ∧ d.cells.length=8 ∧
      load d (dynamicGet d 2) 2=some [some 5,some 6] := by
  obtain ⟨d₀,d,hd,hrun,hlen,hload,⟨k,hk,hcap⟩,hcells,-,-⟩ :=
    @append_refines_list 2 2 (by decide) [[1,2],[3,4],[5,6]] (by decide) ⟨1,by decide,by decide⟩
  have hk1 : k=1 := by
    apply le_antisymm
    · exact hk.2 (show 3 ≤ initialCount 2*2^1 by decide)
    · by_contra h
      have h0 : k=0 := by omega
      have := hk.1
      rw [h0] at this
      exact absurd this (by decide)
  subst hk1
  have hcap' : dynamicCapacity d=4 := hcap
  rw [hcap'] at hcells
  exact ⟨d₀,d,hd,hrun,hlen,hcap',hcells,hload 2 (by decide)⟩

end Dynamic
end NeOs
