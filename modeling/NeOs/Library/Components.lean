import Mathlib

/-! The non-empty pieces of a list between separators, and paths as lists of such pieces. -/
namespace NeOs.Library
variable {α : Type*}

section Pieces
variable [DecidableEq α]

def components (sep : α) (s : List α) : List (List α) :=
  (s.splitOn sep).filter fun c => !c.isEmpty

@[simp] theorem components_nil (sep : α) : components sep []=[] := by
  simp [components,List.splitOn]

/-- A separator separates. -/
theorem components_append_cons (sep : α) (s t : List α) :
    components sep (s++sep::t)=components sep s++components sep t := by
  rw [components,List.splitOn_append_cons_self,List.filter_append]
  rfl

theorem components_cons (sep : α) (t : List α) : components sep (sep::t)=components sep t := by
  simpa using components_append_cons sep [] t

theorem components_append_singleton (sep : α) (s : List α) :
    components sep (s++[sep])=components sep s := by
  simpa using components_append_cons sep s []

/-- A piece without separators is its own only component. -/
theorem components_of_not_mem {sep : α} {s : List α} (hs : s≠[]) (h : sep ∉ s) :
    components sep s=[s] := by
  rw [components,List.splitOn_eq_singleton h]
  simp [hs]

end Pieces

section Below
variable {β : Type*}

/-- Is the second path one step below the first? -/
def isChild [DecidableEq α] (ns ms : List α) : Bool := ms≠[] ∧ ms.dropLast=ns

theorem isChild_iff [DecidableEq α] {ns ms : List α} : isChild ns ms=true ↔ ∃ n, ms=ns++[n] := by
  simp only [isChild,decide_eq_true_eq]
  constructor
  · rintro ⟨hne,rfl⟩
    exact ⟨ms.getLast hne,(List.dropLast_concat_getLast hne).symm⟩
  · rintro ⟨n,rfl⟩
    simp

/-- A child is one step longer. -/
theorem isChild_of_length_ne [DecidableEq α] {ns ms : List α} (h : ms.length≠ns.length+1) :
    isChild ns ms=false := by
  rw [← Bool.not_eq_true,isChild_iff]
  rintro ⟨n,rfl⟩
  simp at h

/-- What lies below two entries of one path lies below one entry. -/
theorem eq_of_common_extension {ns ms : List α} {a b : α} (ha : ns++[a] <+: ms)
    (hb : ns++[b] <+: ms) : a=b := by
  have hpre : ns++[a] <+: ns++[b] := List.prefix_of_prefix_length_le ha hb (by simp)
  have heq := hpre.eq_of_length (by simp)
  simpa using heq

/-- If only one element contributes, its part is everything. -/
theorem flatMap_of_unique {l : List α} (hl : l.Nodup) {a : α} (ha : a ∈ l) {f : α → List β}
    (h : ∀ b ∈ l, b≠a → f b=[]) : l.flatMap f=f a := by
  induction l with
  | nil => cases ha
  | cons b l ih =>
    obtain ⟨hb,hl⟩ := List.nodup_cons.mp hl
    rw [List.flatMap_cons]
    rcases List.mem_cons.mp ha with rfl | ha
    · rw [List.flatMap_eq_nil_iff.mpr,List.append_nil]
      intro c hc
      exact h c (by simp [hc]) fun he => hb (he ▸ hc)
    · rw [h b (by simp) fun he => hb (he ▸ ha),List.nil_append,
        ih hl ha fun c hc => h c (by simp [hc])]

end Below

end NeOs.Library
