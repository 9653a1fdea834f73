import Mathlib

/-! Windows of a list of cells: overwriting a window, changing the number of cells, and reading
one of several blocks of equal width that are laid end to end. -/
namespace NeOs.Library
namespace Window
variable {α : Type*}

/-- Overwrite the cells from `offset` on with `xs`. -/
def patch (cells : List α) (offset : ℕ) (xs : List α) : List α :=
  cells.take offset++xs++cells.drop (offset+xs.length)

theorem patch_length {cells xs : List α} {offset : ℕ} (h : offset+xs.length≤cells.length) :
    (patch cells offset xs).length=cells.length := by
  simp only [patch,List.length_append,List.length_take,List.length_drop]
  omega

/-- The cells up to the end of the window are the old ones followed by the new ones. -/
theorem take_patch {cells xs : List α} {offset : ℕ} (h : offset+xs.length≤cells.length) :
    (patch cells offset xs).take (offset+xs.length)=cells.take offset++xs := by
  apply List.take_left'
  simp only [List.length_append,List.length_take]
  omega

/-- Keep the first `n` cells, or fill up to `n` cells. -/
def resize (fill : α) (cells : List α) (n : ℕ) : List α :=
  cells.take n++List.replicate (n-cells.length) fill

@[simp] theorem resize_length (fill : α) (cells : List α) (n : ℕ) :
    (resize fill cells n).length=n := by
  simp only [resize,List.length_append,List.length_take,List.length_replicate]
  omega

theorem take_resize (fill : α) {cells : List α} {m n : ℕ} (hn : m≤n) (hc : m≤cells.length) :
    (resize fill cells n).take m=cells.take m := by
  rw [resize,List.take_append_of_le_length,List.take_take,min_eq_left hn]
  simp only [List.length_take]
  omega

theorem patch_nil (cells : List α) (offset : ℕ) : patch cells offset []=cells := by
  simp [patch]

/-- Overwriting a window cell by cell. -/
theorem patch_cons {cells : List α} {offset : ℕ} (h : offset<cells.length) (x : α) (xs : List α) :
    patch cells offset (x::xs)=patch (cells.set offset x) (offset+1) xs := by
  have hdrop : (cells.set offset x).drop (offset+1+xs.length)=cells.drop (offset+1+xs.length) :=
    List.drop_set_of_lt (by omega)
  have htake : (cells.set offset x).take (offset+1)=cells.take offset++[x] := by
    rw [List.take_set,List.take_succ_eq_append_getElem h,List.set_append_right _ _ (by simp)]
    simp [min_eq_left (Nat.le_of_lt h)]
  rw [patch,patch,hdrop,htake,List.length_cons]
  simp [Nat.add_comm,Nat.add_left_comm]

section Overlay

/-- Write `s` over the beginning of `t`. -/
def overlay (t s : List α) : List α := s++t.drop s.length

@[simp] theorem overlay_nil (t : List α) : overlay t []=t := rfl

@[simp] theorem nil_overlay (s : List α) : overlay [] s=s := by simp [overlay]

@[simp] theorem overlay_length (t s : List α) : (overlay t s).length=max t.length s.length := by
  simp only [overlay,List.length_append,List.length_drop]
  omega

/-- Only a text that is at least as long hides what it is written over. -/
theorem overlay_eq_right_iff {t s : List α} : overlay t s=s ↔ t.length ≤ s.length := by
  rw [overlay,List.append_right_eq_self,List.drop_eq_nil_iff]

theorem mem_overlay {t s : List α} {a : α} (h : a ∈ overlay t s) : a ∈ s ∨ a ∈ t := by
  rcases List.mem_append.mp h with h | h
  · exact Or.inl h
  · exact Or.inr (List.mem_of_mem_drop h)

/-- `n` cells that begin with `t` and end in filling. -/
def padded (fill : α) (n : ℕ) (t : List α) : List α := t++List.replicate (n-t.length) fill

theorem padded_length {fill : α} {n : ℕ} {t : List α} (h : t.length≤n) :
    (padded fill n t).length=n := by
  simp only [padded,List.length_append,List.length_replicate]
  omega

/-- Overwriting the beginning of padded cells overlays their text. -/
theorem patch_padded (fill : α) {n : ℕ} {t s : List α} (ht : t.length≤n) (hs : s.length≤n) :
    patch (padded fill n t) 0 s=padded fill n (overlay t s) := by
  have hrest : n-t.length-(s.length-t.length)=n-max t.length s.length := by omega
  have hright : padded fill n (overlay t s)=
      overlay t s++List.replicate (n-max t.length s.length) fill := by
    rw [padded,overlay_length]
  rw [hright,padded,patch,overlay,List.take_zero,List.nil_append,Nat.zero_add,List.drop_append,
    List.drop_replicate,List.append_assoc,hrest]

theorem takeWhile_padded [DecidableEq α] {fill : α} {n : ℕ} {t : List α} (h : fill ∉ t) :
    (padded fill n t).takeWhile (· ≠ fill)=t := by
  have hne : ∀ a ∈ t, decide (a≠fill)=true := by
    intro a ha
    exact decide_eq_true fun he => h (he ▸ ha)
  rw [padded,List.takeWhile_append_of_pos hne,List.takeWhile_replicate]
  simp

/-- Writing strings one over another never yields more than the longest of them. -/
theorem foldl_overlay_length_le (t : List α) (ss : List (List α)) :
    (ss.foldl overlay t).length ≤ max t.length ss.flatten.length := by
  induction ss generalizing t with
  | nil => simp
  | cons s ss ih =>
    have h := ih (overlay t s)
    simp only [List.foldl_cons,List.flatten_cons,List.length_append,overlay_length] at h ⊢
    omega

theorem foldl_overlay_length_lt {t : List α} (ht : t≠[]) {ss : List (List α)}
    (h : ∃ s ∈ ss, s≠[]) : (ss.foldl overlay t).length<t.length+ss.flatten.length := by
  induction ss generalizing t with
  | nil => simp at h
  | cons s ss ih =>
    have htp := List.length_pos_iff.mpr ht
    by_cases hs : s=[]
    · subst hs
      have hrest : ∃ s ∈ ss, s≠[] := by simpa using h
      simpa using ih ht hrest
    · have hsp := List.length_pos_iff.mpr hs
      have hle := foldl_overlay_length_le (overlay t s) ss
      simp only [List.foldl_cons,List.flatten_cons,List.length_append,overlay_length] at hle ⊢
      omega

theorem foldl_overlay_of_nil {t : List α} {ss : List (List α)} (h : ∀ s ∈ ss, s=[]) :
    ss.foldl overlay t=t := by
  induction ss with
  | nil => rfl
  | cons s ss ih =>
    rw [List.foldl_cons,h s (by simp),overlay_nil]
    exact ih fun b hb => h b (by simp [hb])

/-- The strings written one over another are all there, in order, only when at most one of them
is not empty. -/
theorem foldl_overlay_eq_flatten_iff (ss : List (List α)) :
    ss.foldl overlay []=ss.flatten ↔ (ss.filter (fun s => !s.isEmpty)).length≤1 := by
  induction ss with
  | nil => simp
  | cons s ss ih =>
    cases s with
    | nil => simpa using ih
    | cons a s =>
      have hcount : ((a::s)::ss).filter (fun s => !s.isEmpty)=
          (a::s)::ss.filter (fun s => !s.isEmpty) := by simp
      rw [hcount,List.length_cons,List.foldl_cons,nil_overlay]
      constructor
      · intro he
        by_contra hlen
        have hne : ss.filter (fun s => !s.isEmpty)≠[] := by
          intro h0
          simp [h0] at hlen
        obtain ⟨b,hb⟩ := List.exists_mem_of_ne_nil _ hne
        obtain ⟨hmem,hb'⟩ := List.mem_filter.mp hb
        have hlt := foldl_overlay_length_lt (t := a::s) (by simp) ⟨b,hmem,by simpa using hb'⟩
        rw [he,List.flatten_cons,List.length_append] at hlt
        omega
      · intro hlen
        have h0 : ss.filter (fun s => !s.isEmpty)=[] := List.length_eq_zero_iff.mp (by omega)
        have hnil : ∀ b ∈ ss, b=[] := by
          intro b hb
          by_contra hne
          have : b ∈ ss.filter (fun s => !s.isEmpty) :=
            List.mem_filter.mpr ⟨hb,by simpa using hne⟩
          rw [h0] at this
          simp at this
        have hflat : ss.flatten=[] := List.flatten_eq_nil_iff.mpr hnil
        rw [List.flatten_cons,hflat,foldl_overlay_of_nil hnil,List.append_nil]

end Overlay

section Blocks
variable {xs : List (List α)} {w : ℕ}

/-- Block `i` occupies the `w` cells from `i*w` on. -/
theorem window_flatten (h : ∀ x ∈ xs, x.length=w) {i : ℕ} (hi : i<xs.length) :
    (xs.flatten.drop (i*w)).take w=xs[i] := by
  induction xs generalizing i with
  | nil => simp at hi
  | cons x xs ih =>
    have hx := h x (by simp)
    have ht : ∀ y ∈ xs, y.length=w := fun y hy => h y (by simp [hy])
    cases i with
    | zero => simp [← hx]
    | succ i =>
      have hd : (i+1)*w=x.length+i*w := by rw [hx]; ring
      simp only [List.flatten_cons,List.getElem_cons_succ,hd]
      rw [← List.drop_drop,List.drop_left]
      exact ih ht (by simpa using hi)

end Blocks

end Window
end NeOs.Library
