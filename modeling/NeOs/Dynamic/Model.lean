import NeOs.Library.Run
import NeOs.Library.Window

/-! The growable array of `lib/dynamic.c`, at the level of its header fields and payload bytes.
`size_t` is a natural number, reduced modulo `2^64` after every operation that can leave the
range. A payload byte that was never written is `none`, and each `realloc` yields a new block.
`malloc` and `realloc` are assumed to succeed, and `realloc` to preserve the old bytes. -/
namespace NeOs
open Library

/-- A `size_t` value. -/
def sizeT (n : ℕ) : ℕ := n%2^64

theorem sizeT_eq {n : ℕ} (h : n<2^64) : sizeT n=n := Nat.mod_eq_of_lt h

/-- `sizeof(DYNAMIC)`: four `size_t` fields. -/
def sizeofDynamic : ℕ := 32

/-- `DYNAMIC_DEFAULT_CAPACITY`. -/
def dynamicDefaultCapacity : ℕ := 32

/-- The header, together with the heap block it heads. -/
structure Dynamic where
  length : ℕ
  capacity : ℕ
  size : ℕ
  elementSize : ℕ
  /-- The byte count last passed to `malloc` or `realloc`. -/
  requested : ℕ
  /-- The bytes of the block behind the header. -/
  cells : List (Option UInt8)
  /-- How many blocks the array has had before this one. -/
  block : ℕ
  /-- Cleared by `dynamic_free`. -/
  live : Bool
  deriving Repr, DecidableEq

/-- An address inside the payload of one particular block. -/
structure Address where
  block : ℕ
  offset : ℕ
  deriving Repr, DecidableEq

def initialCount (initialCapacity : ℕ) : ℕ :=
  if initialCapacity=0 then dynamicDefaultCapacity else initialCapacity

def dynamic (elementSize initialCapacity : ℕ) : Option Dynamic :=
  if elementSize<1 ∨ elementSize=0 then none
  else
    let count := initialCount initialCapacity
    let size := sizeT (count*elementSize)
    let requested := sizeT (sizeofDynamic+size)
    some { length := 0, capacity := count, size := size, elementSize := elementSize,
           requested := requested, cells := List.replicate (requested-sizeofDynamic) none,
           block := 0, live := true }

def dynamicSize (d : Dynamic) : ℕ := d.length
def dynamicCapacity (d : Dynamic) : ℕ := d.capacity

/-- `realloc(p_dynamic, sizeof(DYNAMIC) + p_dynamic->size)`. -/
def dynamicRealloc (d : Dynamic) : Dynamic :=
  let requested := sizeT (sizeofDynamic+d.size)
  { d with requested := requested, cells := Window.resize none d.cells (requested-sizeofDynamic),
           block := d.block+1 }

def dynamicGrow (d : Dynamic) : Dynamic :=
  let p := if d.length=d.capacity then
      dynamicRealloc { d with size := sizeT (d.size*2), capacity := sizeT (d.capacity*2) }
    else d
  { p with length := sizeT (p.length+1) }

/-- `memcpy` into the payload. A store outside the block is undefined. -/
def store (d : Dynamic) (offset : ℕ) (element : List UInt8) : Option Dynamic :=
  if offset+element.length≤d.cells.length then
    some { d with cells := Window.patch d.cells offset (element.map some) }
  else none

/-- The offset is computed before the growth and used after it. The list `element` is the
`element_size` bytes found at the pointer. -/
def dynamicInsert (d : Dynamic) (element : List UInt8) : Option Dynamic :=
  if d.live then store (dynamicGrow d) (sizeT (d.length*d.elementSize)) element else none

def dynamicGet (d : Dynamic) (idx : ℕ) : Address := ⟨d.block,sizeT (idx*d.elementSize)⟩

/-- Read `n` bytes at an address. It is undefined when the block has been freed or replaced. -/
def load (d : Dynamic) (a : Address) (n : ℕ) : Option (List (Option UInt8)) :=
  if d.live ∧ a.block=d.block ∧ a.offset+n≤d.cells.length then
    some ((d.cells.drop a.offset).take n)
  else none

def dynamicShrinkToFit (d : Dynamic) : Option Dynamic :=
  if d.live then
    if d.capacity=d.length then some d
    else
      some (dynamicRealloc
        { d with capacity := d.length, size := sizeT (d.elementSize*d.length) })
  else none

def dynamicFree (d : Dynamic) : Option Dynamic :=
  if d.live then some { d with live := false } else none

def dynamicResize (d : Dynamic) (size : ℕ) : Option Dynamic :=
  if d.live then
    if d.capacity=size then some d
    else if size=0 then dynamicFree d
    else
      let length := min d.length size
      some (dynamicRealloc
        { d with capacity := size, length := length, size := sizeT (length*d.elementSize) })
  else none

namespace Dynamic

/-- The representation invariant: the length fits the capacity, the `size` field is the capacity
in bytes, and it is also the number of payload bytes that were allocated. -/
structure Tied (d : Dynamic) : Prop where
  live : d.live=true
  elementSize_pos : 1≤d.elementSize
  length_le : d.length≤d.capacity
  size_eq : d.size=d.capacity*d.elementSize
  bytes_lt : sizeofDynamic+d.size<2^64
  requested_eq : d.requested=sizeofDynamic+d.size
  cells_length : d.cells.length=d.size

/-- The array holds exactly the blocks `xs`, in order. -/
structure Holds (d : Dynamic) (xs : List (List UInt8)) : Prop extends Tied d where
  length_eq : d.length=xs.length
  blocks : ∀ x ∈ xs, x.length=d.elementSize
  content : d.cells.take (d.length*d.elementSize)=xs.flatten.map some

/-- Doubling a full array stays below the range of `size_t`. -/
def GrowthFits (d : Dynamic) : Prop :=
  d.length=d.capacity → sizeofDynamic+d.capacity*2*d.elementSize<2^64

variable {d : Dynamic}

theorem Tied.used_le (h : Tied d) : d.length*d.elementSize≤d.cells.length := by
  rw [h.cells_length,h.size_eq]
  exact Nat.mul_le_mul_right _ h.length_le

theorem Tied.capacity_le_size (h : Tied d) : d.capacity≤d.size := by
  rw [h.size_eq]
  exact Nat.le_mul_of_pos_right _ h.elementSize_pos

/-- A block obtained from `realloc` has as many payload bytes as the `size` field says. The
invariant is then a matter of the header fields. -/
theorem tied_realloc (hlive : d.live=true) (hpos : 1≤d.elementSize) (hle : d.length≤d.capacity)
    (hsize : d.size=d.capacity*d.elementSize) (hbytes : sizeofDynamic+d.size<2^64) :
    Tied (dynamicRealloc d) := by
  refine ⟨hlive,hpos,hle,hsize,hbytes,sizeT_eq hbytes,?_⟩
  change (Window.resize none d.cells (sizeT (sizeofDynamic+d.size)-sizeofDynamic)).length=d.size
  rw [Window.resize_length,sizeT_eq hbytes,Nat.add_sub_cancel_left]

theorem take_realloc {n : ℕ} (hbytes : sizeofDynamic+d.size<2^64) (hn : n≤d.size)
    (hc : n≤d.cells.length) : (dynamicRealloc d).cells.take n=d.cells.take n := by
  change (Window.resize none d.cells (sizeT (sizeofDynamic+d.size)-sizeofDynamic)).take n=_
  rw [sizeT_eq hbytes,Nat.add_sub_cancel_left]
  exact Window.take_resize _ hn hc

/-- The header of a full array after its two fields have been doubled. -/
def doubled (d : Dynamic) : Dynamic :=
  { d with size := sizeT (d.size*2), capacity := sizeT (d.capacity*2) }

theorem Tied.doubled_fields (h : Tied d) (hroom : sizeofDynamic+d.capacity*2*d.elementSize<2^64) :
    (doubled d).capacity=d.capacity*2 ∧ (doubled d).size=d.capacity*2*d.elementSize := by
  have hmono : d.capacity*2≤d.capacity*2*d.elementSize :=
    Nat.le_mul_of_pos_right _ h.elementSize_pos
  have hd : d.size*2=d.capacity*2*d.elementSize := by rw [h.size_eq]; ring
  constructor
  · exact sizeT_eq (by omega)
  · change sizeT (d.size*2)=_
    rw [hd]
    exact sizeT_eq (by omega)

theorem Tied.length_succ (h : Tied d) : sizeT (d.length+1)=d.length+1 := by
  have hle := h.length_le
  have hcap := h.capacity_le_size
  have hbytes := h.bytes_lt
  simp only [sizeofDynamic] at hbytes
  exact sizeT_eq (by omega)

theorem Tied.grow_full (h : Tied d) (hfull : d.length=d.capacity) :
    dynamicGrow d={ dynamicRealloc (doubled d) with length := d.length+1 } := by
  simp only [dynamicGrow,if_pos hfull]
  change { dynamicRealloc (doubled d) with length := sizeT (d.length+1) }=_
  rw [h.length_succ]

theorem Tied.grow_room (h : Tied d) (hfull : d.length≠d.capacity) :
    dynamicGrow d={ d with length := d.length+1 } := by
  simp only [dynamicGrow,if_neg hfull,h.length_succ]

/-- What one growth does to the counters: only a full array changes its block. -/
theorem Tied.grow_fields (h : Tied d) (hf : GrowthFits d) :
    (dynamicGrow d).length=d.length+1 ∧
    (dynamicGrow d).capacity=(if d.length=d.capacity then d.capacity*2 else d.capacity) ∧
    (dynamicGrow d).block=(if d.length=d.capacity then d.block+1 else d.block) ∧
    (dynamicGrow d).elementSize=d.elementSize := by
  by_cases hfull : d.length=d.capacity
  · rw [h.grow_full hfull,if_pos hfull,if_pos hfull]
    exact ⟨rfl,(h.doubled_fields (hf hfull)).1,rfl,rfl⟩
  · rw [h.grow_room hfull,if_neg hfull,if_neg hfull]
    exact ⟨rfl,rfl,rfl,rfl⟩

/-- A growth keeps the invariant. This is where the capacity must not be zero: doubling zero
makes no room. -/
theorem Tied.grow (h : Tied d) (hc : 1≤d.capacity) (hf : GrowthFits d) :
    Tied (dynamicGrow d) := by
  have hle := h.length_le
  by_cases hfull : d.length=d.capacity
  · obtain ⟨hcap,hsize⟩ := h.doubled_fields (hf hfull)
    have ht : Tied (dynamicRealloc (doubled d)) := by
      apply tied_realloc (d := doubled d) h.live h.elementSize_pos
      · rw [hcap]
        change d.length≤_
        omega
      · rw [hsize,hcap]
        rfl
      · rw [hsize]
        exact hf hfull
    rw [h.grow_full hfull]
    refine ⟨ht.live,ht.elementSize_pos,?_,ht.size_eq,ht.bytes_lt,ht.requested_eq,ht.cells_length⟩
    change d.length+1≤(doubled d).capacity
    omega
  · rw [h.grow_room hfull]
    refine ⟨h.live,h.elementSize_pos,?_,h.size_eq,h.bytes_lt,h.requested_eq,h.cells_length⟩
    change d.length+1≤d.capacity
    omega

/-- A growth preserves the bytes in use. -/
theorem Tied.take_grow (h : Tied d) (hf : GrowthFits d) :
    (dynamicGrow d).cells.take (d.length*d.elementSize)=d.cells.take (d.length*d.elementSize) := by
  by_cases hfull : d.length=d.capacity
  · obtain ⟨-,hsize⟩ := h.doubled_fields (hf hfull)
    rw [h.grow_full hfull]
    apply take_realloc
    · rw [hsize]
      exact hf hfull
    · rw [hsize,hfull,Nat.mul_comm d.capacity 2,Nat.mul_assoc]
      omega
    · exact h.used_le
  · rw [h.grow_room hfull]

/-- What one insertion does to an array that is tied and whose growth fits: it succeeds, and the
new element follows the old ones. -/
theorem Tied.insert (h : Tied d) (hc : 1≤d.capacity) (hf : GrowthFits d) {x : List UInt8}
    (hx : x.length=d.elementSize) :
    ∃ e, dynamicInsert d x=some e ∧ Tied e ∧ e.length=d.length+1 ∧
      e.capacity=(if d.length=d.capacity then d.capacity*2 else d.capacity) ∧
      e.block=(if d.length=d.capacity then d.block+1 else d.block) ∧
      e.elementSize=d.elementSize ∧
      e.cells.take (e.length*e.elementSize)=
        d.cells.take (d.length*d.elementSize)++x.map some := by
  obtain ⟨hl,hcap,hblk,hes⟩ := h.grow_fields hf
  have ht := h.grow hc hf
  have hoff : sizeT (d.length*d.elementSize)=d.length*d.elementSize := by
    apply sizeT_eq
    have hu := h.used_le
    have hb := h.bytes_lt
    have hcl := h.cells_length
    omega
  have hend : (dynamicGrow d).length*(dynamicGrow d).elementSize=
      d.length*d.elementSize+(x.map some).length := by
    rw [hl,hes,List.length_map,hx]
    ring
  have hroom : d.length*d.elementSize+(x.map some).length≤(dynamicGrow d).cells.length := by
    rw [← hend]
    exact ht.used_le
  have hstore : dynamicInsert d x=some { dynamicGrow d with
      cells := Window.patch (dynamicGrow d).cells (d.length*d.elementSize) (x.map some) } := by
    rw [List.length_map] at hroom
    simp only [dynamicInsert,h.live,if_true,hoff,store,if_pos hroom]
  refine ⟨_,hstore,?_,hl,hcap,hblk,hes,?_⟩
  · exact ⟨ht.live,ht.elementSize_pos,ht.length_le,ht.size_eq,ht.bytes_lt,
      ht.requested_eq,(Window.patch_length hroom).trans ht.cells_length⟩
  · change (Window.patch _ _ _).take ((dynamicGrow d).length*(dynamicGrow d).elementSize)=_
    rw [hend,Window.take_patch hroom,h.take_grow hf]

/-- An insertion appends one block to the contents. -/
theorem Holds.insert {xs : List (List UInt8)} (h : Holds d xs) (hc : 1≤d.capacity)
    (hf : GrowthFits d) {x : List UInt8} (hx : x.length=d.elementSize) :
    ∃ e, dynamicInsert d x=some e ∧ Holds e (xs++[x]) ∧
      e.capacity=(if d.length=d.capacity then d.capacity*2 else d.capacity) ∧
      e.block=(if d.length=d.capacity then d.block+1 else d.block) ∧
      e.elementSize=d.elementSize := by
  obtain ⟨e,he,ht,hl,hcap,hblk,hes,hcontent⟩ := h.toTied.insert hc hf hx
  refine ⟨e,he,⟨ht,?_,?_,?_⟩,hcap,hblk,hes⟩
  · rw [hl,h.length_eq,List.length_append,List.length_singleton]
  · intro y hy
    rw [hes]
    rcases List.mem_append.mp hy with hy | hy
    · exact h.blocks y hy
    · rw [List.mem_singleton.mp hy]
      exact hx
  · rw [hcontent,h.content]
    simp

/-- Reading slot `i` through `dynamic_get` gives the bytes of element `i`. -/
theorem Holds.load {xs : List (List UInt8)} (h : Holds d xs) {i : ℕ} (hi : i<xs.length) :
    load d (dynamicGet d i) d.elementSize=some (xs[i].map some) := by
  have hused := h.used_le
  have hcl := h.cells_length
  have hb := h.bytes_lt
  have hslot : (i+1)*d.elementSize≤d.length*d.elementSize :=
    Nat.mul_le_mul_right _ (by rw [h.length_eq]; omega)
  rw [Nat.add_mul,Nat.one_mul] at hslot
  have hoff : sizeT (i*d.elementSize)=i*d.elementSize := sizeT_eq (by omega)
  have hin : d.live=true ∧ (dynamicGet d i).block=d.block ∧
      (dynamicGet d i).offset+d.elementSize≤d.cells.length := by
    refine ⟨h.live,rfl,?_⟩
    change sizeT (i*d.elementSize)+_≤_
    omega
  rw [NeOs.load,if_pos hin]
  change some ((d.cells.drop (sizeT (i*d.elementSize))).take d.elementSize)=_
  rw [hoff]
  congr 1
  calc (d.cells.drop (i*d.elementSize)).take d.elementSize
      = ((d.cells.take (d.length*d.elementSize)).drop (i*d.elementSize)).take d.elementSize := by
        rw [List.drop_take,List.take_take,min_eq_left (by omega)]
    _ = ((xs.flatten.drop (i*d.elementSize)).take d.elementSize).map some := by
        rw [h.content,← List.map_drop,← List.map_take]
    _ = xs[i].map some := by rw [Window.window_flatten h.blocks hi]

end Dynamic
end NeOs
