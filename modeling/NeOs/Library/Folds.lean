import Mathlib

/-! Folds from left to right over a state with several fields, of which each action assigns some. -/
namespace NeOs.Library
variable {σ α β : Type*} {step : σ → α → σ}

/-- A field that some actions assign holds the value of the last of them. -/
theorem foldl_assign {field : σ → β} {value : α → Option β}
    (h : ∀ s a, field (step s a)=(value a).getD (field s)) (s : σ) (as : List α) :
    field (as.foldl step s)=(as.filterMap value).getLast?.getD (field s) := by
  induction as generalizing s with
  | nil => rfl
  | cons a as ih =>
    rw [List.foldl_cons,ih,h]
    cases hv : value a with
    | none => rw [List.filterMap_cons_none hv,Option.getD_none]
    | some b =>
      rw [List.filterMap_cons_some hv,List.getLast?_cons,Option.getD_some]
      cases (as.filterMap value).getLast? <;> rfl

/-- A flag that some actions raise, and that none takes back, is up if one of them occurs. -/
theorem foldl_raise {field : σ → Bool} {raises : α → Prop}
    (h : ∀ s a, field (step s a)=true ↔ field s=true ∨ raises a) (s : σ) (as : List α) :
    field (as.foldl step s)=true ↔ field s=true ∨ ∃ a ∈ as, raises a := by
  induction as generalizing s with
  | nil => simp
  | cons a as ih => rw [List.foldl_cons,ih,h,List.exists_mem_cons_iff,or_assoc]

end NeOs.Library
