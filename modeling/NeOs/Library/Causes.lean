import Mathlib

/-! Sequences of events in which every event is either allowed at any time or has a cause before it. -/
namespace NeOs.Library
variable {ε : Type*}

/-- Each event of the sequence is one of `R`, or an earlier one is a cause of it. -/
def Caused (R : ε → Prop) (C : ε → ε → Prop) (es : List ε) : Prop :=
  ∀ pre e post, es=pre++e::post → R e ∨ ∃ d ∈ pre, C d e

namespace Caused
variable {R R' : ε → Prop} {C : ε → ε → Prop} {es es' : List ε}

theorem of_forall (h : ∀ e ∈ es, R e) : Caused R C es := by
  rintro pre e post rfl
  exact Or.inl (h e (by simp))

theorem nil : Caused R C [] := of_forall (by simp)

theorem mono (h : Caused R C es) (hR : ∀ e, R e → R' e) : Caused R' C es :=
  fun pre e post he => (h pre e post he).imp_left (hR e)

/-- What the events of the first part cause is allowed in the second one. -/
theorem append (h : Caused R C es) (h' : Caused (fun e => R e ∨ ∃ d ∈ es, C d e) C es') :
    Caused R C (es++es') := by
  intro pre e post he
  rcases List.append_eq_append_iff.mp he with ⟨mid,rfl,htail⟩ | ⟨mid,rfl,htail⟩
  · rcases h' mid e post htail with (hR | ⟨d,hd,hC⟩) | ⟨d,hd,hC⟩
    · exact Or.inl hR
    · exact Or.inr ⟨d,by simp [hd],hC⟩
    · exact Or.inr ⟨d,by simp [hd],hC⟩
  · cases mid with
    | nil =>
      rcases h' [] e post (by simpa using htail.symm) with (hR | hC) | ⟨d,hd,-⟩
      · exact Or.inl hR
      · exact Or.inr (by simpa using hC)
      · cases hd
    | cons b mid =>
      rw [List.cons_append,List.cons.injEq] at htail
      obtain ⟨rfl,-⟩ := htail
      exact h pre e mid rfl

theorem append_of (h : Caused R C es) (h' : Caused R C es') : Caused R C (es++es') :=
  h.append (h'.mono fun _ => Or.inl)

/-- What is true of the events that are allowed, and of everything that they cause, is true of all. -/
theorem forall_mem {P : ε → Prop} (h : Caused R C es) (hR : ∀ e, R e → P e)
    (hC : ∀ d e, P d → C d e → P e) : ∀ e ∈ es, P e := by
  have hprefix : ∀ n ≤ es.length, ∀ e ∈ es.take n, P e := by
    intro n
    induction n with
    | zero => simp
    | succ n ih =>
      intro hn e he
      rw [List.take_succ_eq_append_getElem (by omega),List.mem_append,List.mem_singleton] at he
      rcases he with he | rfl
      · exact ih (by omega) e he
      · have hsplit : es=es.take n++es[n]::es.drop (n+1) := by
          rw [← List.drop_eq_getElem_cons,List.take_append_drop]
        rcases h _ _ _ hsplit with hr | ⟨d,hd,hc⟩
        · exact hR _ hr
        · exact hC d _ (ih (by omega) d hd) hc
  intro e he
  exact hprefix es.length le_rfl e (by rwa [List.take_length])

end Caused
end NeOs.Library
