-- Two scripts over two stores that run in step: from related stores both end
-- in the same way, with related values, and the stores are related again.
import Panqueue.Lib.Script

namespace Script

variable {ε σ τ α β γ δ : Type} {R : σ → τ → Prop} {V : α → β → Prop} {W : γ → δ → Prop}

/-- A part of the store. -/
def reads (get : τ → β) : Script ε τ β := fun t => .ok (get t) t

/-- An update of the store. -/
def writes (put : τ → τ) : Script ε τ Unit := fun t => .ok () (put t)

@[simp] theorem run_reads (get : τ → β) (t : τ) :
    (reads get : Script ε τ β) t = .ok (get t) t := rfl

@[simp] theorem run_writes (put : τ → τ) (t : τ) :
    (writes put : Script ε τ Unit) t = .ok () (put t) := rfl

/-- Two results that match: values in `V`, or one error, and stores in `R`. -/
inductive Alike (R : σ → τ → Prop) (V : α → β → Prop) :
    EStateM.Result ε σ α → EStateM.Result ε τ β → Prop
  | ok {a : α} {b : β} {s : σ} {t : τ} (value : V a b) (stores : R s t) :
    Alike R V (.ok a s) (.ok b t)
  | error {e : ε} {s : σ} {t : τ} (stores : R s t) : Alike R V (.error e s) (.error e t)

/-- From related stores, the scripts end alike. -/
def Simulates (R : σ → τ → Prop) (V : α → β → Prop) (x : Script ε σ α) (y : Script ε τ β) : Prop :=
  ∀ s t, R s t → Alike R V (x s) (y t)

namespace Simulates

theorem pure {a : α} {b : β} (h : V a b) :
    Simulates R V (Pure.pure a : Script ε σ α) (Pure.pure b : Script ε τ β) :=
  fun _ _ hR => .ok h hR

theorem throw (e : ε) :
    Simulates R V (throw e : Script ε σ α) (MonadExcept.throw e : Script ε τ β) :=
  fun _ _ hR => .error hR

/-- The two ways in which related scripts end. -/
theorem ends {x : Script ε σ α} {y : Script ε τ β} (h : Simulates R V x y) {s : σ} {t : τ}
    (hR : R s t) :
    (∃ a b s' t', x s = .ok a s' ∧ y t = .ok b t' ∧ V a b ∧ R s' t') ∨
      ∃ e s' t', x s = .error e s' ∧ y t = .error e t' ∧ R s' t' := by
  have hend := h s t hR
  generalize hx : x s = r at hend
  generalize hy : y t = r' at hend
  cases hend with
  | ok value stores => exact Or.inl ⟨_, _, _, _, rfl, rfl, value, stores⟩
  | error stores => exact Or.inr ⟨_, _, _, rfl, rfl, stores⟩

/-- A script that gives what `get` reads, and leaves the store alone. -/
theorem reads {x : Script ε σ α} {get : τ → β}
    (h : ∀ s t, R s t → ∃ a, x s = .ok a s ∧ V a (get t)) :
    Simulates R V x (Script.reads get) := by
  intro s t hR
  obtain ⟨a, hx, hV⟩ := h s t hR
  rw [hx]
  exact .ok hV hR

theorem bind {x : Script ε σ α} {y : Script ε τ β} {f : α → Script ε σ γ}
    {g : β → Script ε τ δ} (hx : Simulates R V x y)
    (hf : ∀ a b, V a b → Simulates R W (f a) (g b)) : Simulates R W (x >>= f) (y >>= g) := by
  intro s t hR
  rcases hx.ends hR with ⟨a, b, s', t', h1, h2, hV, hR'⟩ | ⟨e, s', t', h1, h2, hR'⟩
  · rw [bind_ok h1, bind_ok h2]
    exact hf a b hV s' t' hR'
  · rw [bind_error h1, bind_error h2]
    exact .error hR'

/-- The rest of two scripts whose first steps give one value. -/
theorem andThen {x : Script ε σ α} {y : Script ε τ α} {f : α → Script ε σ γ}
    {g : α → Script ε τ δ} (hx : Simulates R Eq x y)
    (hf : ∀ a, Simulates R W (f a) (g a)) : Simulates R W (x >>= f) (y >>= g) := by
  apply hx.bind
  rintro a b rfl
  exact hf a

theorem ite {c : Prop} [Decidable c] {x x' : Script ε σ α} {y y' : Script ε τ β}
    (h : c → Simulates R V x y) (h' : ¬ c → Simulates R V x' y') :
    Simulates R V (if c then x else x') (if c then y else y') := by
  split
  · rename_i hc
    exact h hc
  · rename_i hc
    exact h' hc

theorem forEach {f : γ → Script ε σ Unit} {g : γ → Script ε τ Unit} {l : List γ}
    (h : ∀ c ∈ l, Simulates R Eq (f c) (g c)) :
    Simulates R Eq (Script.forEach l f) (Script.forEach l g) := by
  induction l with
  | nil => exact pure rfl
  | cons c l ih =>
    refine (h c List.mem_cons_self).andThen fun _ => ?_
    exact ih fun d hd => h d (List.mem_cons_of_mem c hd)

/-- The stores after two scripts that end alike. -/
theorem after {x : Script ε σ α} {y : Script ε τ β} (h : Simulates R V x y) {s : σ} {t : τ}
    (hR : R s t) : R (Script.after x s) (Script.after y t) := by
  rcases h.ends hR with ⟨a, b, s', t', h1, h2, -, hR'⟩ | ⟨e, s', t', h1, h2, hR'⟩
  · rw [after_ok h1, after_ok h2]
    exact hR'
  · rw [after_error h1, after_error h2]
    exact hR'

end Simulates

end Script
