import Mathlib

/-! A heap of blocks. They are numbered in the order of their allocation, and no number is used
twice. -/
namespace NeOs.Library

/-- The blocks that are allocated, each with its size, and the number of the next one. -/
structure Blocks where
  live : Multiset (ℕ × ℕ)
  next : ℕ
  below : ∀ b ∈ live.map Prod.fst, b < next
  nodup : (live.map Prod.fst).Nodup

namespace Blocks

def empty : Blocks := ⟨0,0,by simp,by simp⟩

def IsLive (s : Blocks) (b : ℕ) : Prop := b ∈ s.live.map Prod.fst

instance (s : Blocks) (b : ℕ) : Decidable (s.IsLive b) :=
  inferInstanceAs (Decidable (b ∈ s.live.map Prod.fst))

/-- The block has been allocated and released. -/
def Dead (s : Blocks) (b : ℕ) : Prop := b < s.next ∧ ¬s.IsLive b

theorem next_not_live (s : Blocks) : ¬s.IsLive s.next := fun h => lt_irrefl _ (s.below _ h)

/-- Allocate a block. Its number is `next`. -/
def alloc (s : Blocks) (size : ℕ) : Blocks where
  live := (s.next,size) ::ₘ s.live
  next := s.next+1
  below b h := by
    rcases Multiset.mem_cons.mp (Multiset.map_cons Prod.fst _ _ ▸ h) with rfl | h
    · exact Nat.lt_succ_self _
    · exact Nat.lt_succ_of_lt (s.below b h)
  nodup := by
    rw [Multiset.map_cons,Multiset.nodup_cons]
    exact ⟨s.next_not_live,s.nodup⟩

/-- Release a block. -/
def release (s : Blocks) (b : ℕ) : Blocks where
  live := s.live.filter fun c => c.1≠b
  next := s.next
  below c h := s.below c (Multiset.mem_of_le (Multiset.map_le_map (Multiset.filter_le _ _)) h)
  nodup := Multiset.nodup_of_le (Multiset.map_le_map (Multiset.filter_le _ _)) s.nodup

@[simp] theorem alloc_live (s : Blocks) (size : ℕ) :
    (s.alloc size).live=(s.next,size) ::ₘ s.live := rfl

theorem isLive_alloc {s : Blocks} {size b : ℕ} : (s.alloc size).IsLive b ↔ b=s.next ∨ s.IsLive b := by
  rw [IsLive,alloc_live,Multiset.map_cons,Multiset.mem_cons]
  rfl

theorem isLive_of_eq {s : Blocks} {b n : ℕ} {M : Multiset (ℕ × ℕ)} (h : s.live=(b,n) ::ₘ M) :
    s.IsLive b := by
  rw [IsLive,h,Multiset.map_cons]
  exact Multiset.mem_cons_self _ _

theorem release_live {s : Blocks} {b n : ℕ} {M : Multiset (ℕ × ℕ)} (h : s.live=(b,n) ::ₘ M) :
    (s.release b).live=M := by
  have hnodup := s.nodup
  rw [h,Multiset.map_cons,Multiset.nodup_cons] at hnodup
  have hrest : ∀ c ∈ M, c.1≠b := fun c hc hcb =>
    hnodup.1 (Multiset.mem_map.mpr ⟨c,hc,hcb⟩)
  change s.live.filter (fun c => c.1≠b)=M
  rw [h,Multiset.filter_cons_of_neg _ (by simp),Multiset.filter_eq_self]
  exact hrest

/-- A released block is dead. -/
theorem release_dead {s : Blocks} {b : ℕ} (h : s.IsLive b) : (s.release b).Dead b := by
  refine ⟨s.below b h,fun hb => ?_⟩
  obtain ⟨c,hc,rfl⟩ := Multiset.mem_map.mp hb
  exact (Multiset.mem_filter.mp hc).2 rfl

/-- From `s` to `t` no dead block has come back. -/
structure Later (s t : Blocks) : Prop where
  next_le : s.next ≤ t.next
  live_of : ∀ b < s.next, t.IsLive b → s.IsLive b

namespace Later
variable {s t u : Blocks}

theorem refl (s : Blocks) : s.Later s := ⟨le_rfl,fun _ _ h => h⟩

theorem trans (h : s.Later t) (h' : t.Later u) : s.Later u :=
  ⟨h.next_le.trans h'.next_le,fun b hb hu =>
    h.live_of b hb (h'.live_of b (hb.trans_le h.next_le) hu)⟩

theorem alloc (s : Blocks) (size : ℕ) : s.Later (s.alloc size) := by
  refine ⟨Nat.le_succ _,fun b hb h => ?_⟩
  rcases isLive_alloc.mp h with rfl | h
  · exact absurd hb (lt_irrefl _)
  · exact h

theorem release (s : Blocks) (b : ℕ) : s.Later (s.release b) :=
  ⟨le_rfl,fun _ _ h => Multiset.mem_of_le (Multiset.map_le_map (Multiset.filter_le _ _)) h⟩

theorem dead (h : s.Later t) {b : ℕ} (hb : s.Dead b) : t.Dead b :=
  ⟨hb.1.trans_le h.next_le,fun ht => hb.2 (h.live_of b hb.1 ht)⟩

end Later

theorem mem_add {b : ℕ} {M : Multiset (ℕ × ℕ)} (hb : b ∈ M.map Prod.fst) (L : Multiset (ℕ × ℕ)) :
    b ∈ (L+M).map Prod.fst := by
  rw [Multiset.map_add]
  exact Multiset.mem_add.mpr (Or.inr hb)

theorem isLive_of_mem {s : Blocks} {L M : Multiset (ℕ × ℕ)} (h : s.live=L+M) {b : ℕ}
    (hb : b ∈ M.map Prod.fst) : s.IsLive b := by
  rw [IsLive,h]
  exact mem_add hb L

end Blocks
end NeOs.Library
