-- One program text over two monads. A coupling relates the programs of the two
-- monads, and it is closed under the ways to build a program. So whatever the
-- text is, its two versions are related as soon as their primitives are.
import Panqueue.Lib.Simulation

/-- A relation between the programs of two monads that give one type of result.
`Holds Q x y` speaks of results in `Q`. -/
structure Coupling (m n : Type → Type) [Monad m] [Monad n] where
  Holds {α : Type} (Q : α → Prop) (x : m α) (y : n α) : Prop
  pure {α : Type} {Q : α → Prop} {a : α} (h : Q a) : Holds Q (Pure.pure a) (Pure.pure a)
  bind {α β : Type} {P : α → Prop} {Q : β → Prop} {x : m α} {y : n α} {f : α → m β} {g : α → n β}
    (h : Holds P x y) (hf : ∀ a, P a → Holds Q (f a) (g a)) : Holds Q (x >>= f) (y >>= g)

namespace Coupling

variable {m n : Type → Type} [Monad m] [Monad n] (L : Coupling m n) {α β : Type} {Q : α → Prop}

/-- The programs are related, and nothing is said of their result. -/
abbrev Always (x : m α) (y : n α) : Prop := L.Holds (fun _ => True) x y

variable {L}

theorem done (a : α) : L.Always (Pure.pure a : m α) (Pure.pure a) := L.pure trivial

/-- A first step, and then the rest. -/
theorem andThen {x : m α} {y : n α} {f : α → m β} {g : α → n β} {Q : β → Prop}
    (h : L.Always x y) (hf : ∀ a, L.Holds Q (f a) (g a)) : L.Holds Q (x >>= f) (y >>= g) :=
  L.bind h fun a _ => hf a

theorem ite {c : Prop} [Decidable c] {x x' : m α} {y y' : n α} (h : c → L.Holds Q x y)
    (h' : ¬ c → L.Holds Q x' y') : L.Holds Q (if c then x else x') (if c then y else y') := by
  by_cases hc : c
  · rw [if_pos hc, if_pos hc]
    exact h hc
  · rw [if_neg hc, if_neg hc]
    exact h' hc

theorem forEach {f : β → m Unit} {g : β → n Unit} {l : List β}
    (h : ∀ b ∈ l, L.Always (f b) (g b)) :
    L.Always (Script.forEach l f) (Script.forEach l g) := by
  induction l with
  | nil => exact L.done ()
  | cons b l ih =>
    refine andThen (h b List.mem_cons_self) fun _ => ?_
    exact ih fun c hc => h c (List.mem_cons_of_mem b hc)

end Coupling

namespace Script

variable {ε σ τ α β : Type}

/-! ## Two stores -/

theorem Simulates.same_bind {R : σ → τ → Prop} {P : α → Prop} {Q : β → Prop} {x : Script ε σ α}
    {y : Script ε τ α} {f : α → Script ε σ β} {g : α → Script ε τ β}
    (h : Simulates R (fun a b => a = b ∧ P a) x y)
    (hf : ∀ a, P a → Simulates R (fun a b => a = b ∧ Q a) (f a) (g a)) :
    Simulates R (fun a b => a = b ∧ Q a) (x >>= f) (y >>= g) := by
  apply Simulates.bind h
  rintro a _ ⟨rfl, ha⟩
  exact hf a ha

/-- Scripts that run in step over related stores, with equal results. -/
def inStep (R : σ → τ → Prop) : Coupling (Script ε σ) (Script ε τ) where
  Holds Q := Simulates R fun a b => a = b ∧ Q a
  pure h := Simulates.pure ⟨rfl, h⟩
  bind := Simulates.same_bind

theorem inStep_always {R : σ → τ → Prop} {x : Script ε σ α} {y : Script ε τ α} :
    (inStep R).Always x y ↔ Simulates R Eq x y := by
  have heq : (fun a b : α => a = b ∧ True) = Eq := by
    funext a b
    exact and_true _
  change Simulates R (fun a b => a = b ∧ True) x y ↔ _
  rw [heq]

/-! ## A script that may stop early -/

/-- The first script does what the second does, with a result in `Q`, or it
stops with an error in `E`. -/
def UpTo (E : ε → Prop) (Q : α → Prop) (x y : Script ε σ α) : Prop :=
  ∀ s, (x s = y s ∧ ∀ a t, x s = .ok a t → Q a) ∨ ∃ e t, E e ∧ x s = .error e t

theorem UpTo.pure {E : ε → Prop} {Q : α → Prop} {a : α} (h : Q a) :
    UpTo E Q (Pure.pure a : Script ε σ α) (Pure.pure a) := by
  intro s
  refine Or.inl ⟨rfl, ?_⟩
  rintro _ _ ⟨⟩
  exact h

theorem UpTo.bind {E : ε → Prop} {P : α → Prop} {Q : β → Prop} {x y : Script ε σ α}
    {f g : α → Script ε σ β} (h : UpTo E P x y) (hf : ∀ a, P a → UpTo E Q (f a) (g a)) :
    UpTo E Q (x >>= f) (y >>= g) := by
  intro s
  rcases h s with ⟨hxy, hP⟩ | ⟨e, t, he, hx⟩
  · rcases hx : x s with ⟨a, t⟩ | ⟨e, t⟩
    · have hy : y s = .ok a t := hxy.symm.trans hx
      rw [bind_ok hx, bind_ok hy]
      exact hf a (hP a t hx) t
    · have hy : y s = .error e t := hxy.symm.trans hx
      rw [bind_error hx, bind_error hy]
      refine Or.inl ⟨rfl, ?_⟩
      rintro _ _ ⟨⟩
  · exact Or.inr ⟨e, t, he, bind_error hx⟩

/-- Scripts over one store of which the first does what the second does, or
stops with an error in `E`. -/
def upTo (E : ε → Prop) : Coupling (Script ε σ) (Script ε σ) where
  Holds := UpTo E
  pure := UpTo.pure
  bind := UpTo.bind

/-- A script is itself, as far as it goes. -/
theorem UpTo.refl (E : ε → Prop) (x : Script ε σ α) : UpTo E (fun _ => True) x x := fun _ =>
  Or.inl ⟨rfl, fun _ _ _ => trivial⟩

end Script
