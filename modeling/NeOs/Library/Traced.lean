import Mathlib

/-! Computations that emit events and may fault. The events emitted before a fault are kept. -/
namespace NeOs.Library

structure Traced (ε φ α : Type) where
  events : List ε
  result : Except φ α

namespace Traced
variable {ε φ α β : Type}

/-- A computation that runs to its end. -/
def done (es : List ε) (a : α) : Traced ε φ α := ⟨es,.ok a⟩

def fail (e : φ) : Traced ε φ α := ⟨[],.error e⟩

def emit (e : ε) : Traced ε φ Unit := done [e] ()

def andThen (x : Traced ε φ α) (f : α → Traced ε φ β) : Traced ε φ β :=
  match x.result with
  | .ok a => ⟨x.events++(f a).events,(f a).result⟩
  | .error e => ⟨x.events,.error e⟩

instance : Monad (Traced ε φ) where
  pure := done []
  bind := andThen

theorem andThen_done (x : Traced ε φ α) : andThen x (done [])=x := by
  obtain ⟨es,_ | a⟩ := x
  · rfl
  · simp [andThen,done]

theorem andThen_assoc {γ : Type} (x : Traced ε φ α) (f : α → Traced ε φ β) (g : β → Traced ε φ γ) :
    andThen (andThen x f) g=andThen x fun a => andThen (f a) g := by
  obtain ⟨es,_ | a⟩ := x
  · rfl
  · simp only [andThen]
    cases (f a).result with
    | error e => rfl
    | ok b => simp only [List.append_assoc]

instance : LawfulMonad (Traced ε φ) :=
  LawfulMonad.mk' (Traced ε φ) andThen_done (fun _ _ => rfl) andThen_assoc

theorem pure_eq (a : α) : (pure a : Traced ε φ α)=done [] a := rfl

@[simp] theorem done_bind (es : List ε) (a : α) (f : α → Traced ε φ β) :
    (done es a >>= f)=⟨es++(f a).events,(f a).result⟩ := rfl

theorem done_nil_bind (a : α) (f : α → Traced ε φ β) : (done [] a >>= f)=f a := rfl

theorem done_bind_done {es es' : List ε} {a : α} {b : β} {f : α → Traced ε φ β}
    (h : f a=done es' b) : (done es a >>= f)=done (es++es') b := by
  rw [done_bind,h]
  rfl

theorem done_bind_pure {es : List ε} {a : α} {b : β} {f : α → Traced ε φ β}
    (h : f a=done [] b) : (done es a >>= f)=done es b := by
  rw [done_bind_done h,List.append_nil]

/-- A sequence ends well only if both of its parts do. -/
theorem bind_ok {x : Traced ε φ α} {f : α → Traced ε φ β} {b : β}
    (h : (x >>= f).result=.ok b) :
    ∃ a, x.result=.ok a ∧ (f a).result=.ok b ∧ (x >>= f).events=x.events++(f a).events := by
  obtain ⟨es,r⟩ := x
  cases r with
  | error e => cases h
  | ok a => exact ⟨a,rfl,h,rfl⟩

/-- A loop whose rounds all end emits what its rounds emit. -/
theorem forM_done {l : List α} {f : α → Traced ε φ PUnit} {g : α → List ε}
    (h : ∀ a ∈ l, f a=done (g a) ⟨⟩) : forM l f=done (l.flatMap g) ⟨⟩ := by
  induction l with
  | nil => rfl
  | cons a l ih =>
    rw [List.forM_cons,h a (by simp),List.flatMap_cons]
    exact done_bind_done (ih fun b hb => h b (by simp [hb]))

/-- A counting loop that emits nothing runs through the states `s 0`, …, `s n`. -/
theorem foldlM_range_done {σ : Type} {f : σ → ℕ → Traced ε φ σ} {s : ℕ → σ} {n : ℕ}
    (h : ∀ k < n, f (s k) k=done [] (s (k+1))) : (List.range n).foldlM f (s 0)=done [] (s n) := by
  induction n with
  | zero => rfl
  | succ n ih =>
    rw [List.range_succ,List.foldlM_append,ih fun k hk => h k (by omega),done_nil_bind,
      List.foldlM_cons,h n (by omega)]
    rfl

end Traced
end NeOs.Library
