-- Runs: transition systems whose steps show events, machines that answer
-- each input with a reply, and the rule that a machine refines a system.

/-! ## Transition systems -/

/-- From `s`, some steps that show the events `es` in this order end in `t`. -/
inductive Reaches {S E : Type} (step : S → List E → S → Prop) (s : S) : List E → S → Prop
  | start : Reaches step s [] s
  | next {es fs : List E} {t u : S} :
      Reaches step s es t → step t fs u → Reaches step s (es ++ fs) u

namespace Reaches

variable {S E : Type} {step : S → List E → S → Prop} {s t u : S} {es fs : List E}

theorem single (h : step s es t) : Reaches step s es t := by
  simpa using Reaches.next .start h

theorem trans (h1 : Reaches step s es t) (h2 : Reaches step t fs u) :
    Reaches step s (es ++ fs) u := by
  induction h2 with
  | start => simpa using h1
  | next _ hs ih =>
    rw [← List.append_assoc]
    exact ih.next hs

/-- A fact about the events so far and the state holds in a whole run when it
holds at the start and every step keeps it. -/
theorem invariant {P : List E → S → Prop} (h0 : P [] s)
    (hs : ∀ es t fs u, P es t → step t fs u → P (es ++ fs) u) (h : Reaches step s es t) :
    P es t := by
  induction h with
  | start => exact h0
  | next _ hst ih => exact hs _ _ _ _ ih hst

/-- In a system whose steps show at most one event each, a run splits at its first event. -/
theorem uncons (h1 : ∀ s es t, step s es t → es.length ≤ 1) {e : E}
    (h : Reaches step s (e :: es) u) :
    ∃ a b, Reaches step s [] a ∧ step a [e] b ∧ Reaches step b es u := by
  generalize hl : e :: es = l at h
  induction h generalizing es with
  | start => cases hl
  | @next gs fs t u hr hst ih =>
    rcases gs with _ | ⟨g, gs⟩
    · -- the last step shows the event
      have hfs : fs = [e] := by
        have hlen := h1 _ _ _ hst
        rw [List.nil_append] at hl
        rw [← hl] at hlen ⊢
        simpa using hlen
      have hes : es = [] := by simpa [hfs] using hl
      subst hfs hes
      exact ⟨t, u, hr, hst, .start⟩
    · simp only [List.cons_append, List.cons.injEq] at hl
      obtain ⟨rfl, rfl⟩ := hl
      obtain ⟨a, b, ha, hab, hb⟩ := ih rfl
      exact ⟨a, b, ha, hab, hb.next hst⟩

/-- A run splits wherever its events split. -/
theorem split (h1 : ∀ s es t, step s es t → es.length ≤ 1) (h : Reaches step s (es ++ fs) u) :
    ∃ t, Reaches step s es t ∧ Reaches step t fs u := by
  induction es generalizing s with
  | nil => exact ⟨s, .start, h⟩
  | cons e es ih =>
    obtain ⟨a, b, ha, hab, hb⟩ := uncons h1 h
    obtain ⟨t, ht, hu⟩ := ih hb
    exact ⟨t, by simpa using (ha.trans (single hab)).trans ht, hu⟩

/-- A run of a system is one of its part `f`, when each step is a step of the part
or shows nothing and leaves it alone. -/
theorem part {T : Type} {step' : T → List E → T → Prop} (f : S → T)
    (hs : ∀ s es t, step s es t → step' (f s) es (f t) ∨ es = [] ∧ f t = f s)
    (h : Reaches step s es t) : Reaches step' (f s) es (f t) := by
  induction h with
  | start => exact .start
  | next _ hst ih =>
    rcases hs _ _ _ hst with hst' | ⟨rfl, hf⟩
    · exact ih.next hst'
    · rw [List.append_nil, hf]
      exact ih

/-- A clock that a step moves by one at most shows every time between two that it shows. -/
theorem passes {clock : S → Nat} (hs : ∀ s es t, step s es t → clock t ≤ clock s + 1)
    (h : Reaches step s es t) {n : Nat} (hn : clock s ≤ n) (hle : n ≤ clock t) :
    ∃ pre post m, es = pre ++ post ∧ Reaches step s pre m ∧ Reaches step m post t ∧
      clock m = n := by
  induction h with
  | start => exact ⟨[], [], s, rfl, .start, .start, Nat.le_antisymm hn hle⟩
  | @next es fs t u hr hst ih =>
    by_cases hbefore : n ≤ clock t
    · obtain ⟨pre, post, m, rfl, hpre, hpost, hm⟩ := ih hbefore
      exact ⟨pre, post ++ fs, m, List.append_assoc _ _ _, hpre, hpost.next hst, hm⟩
    · have hone := hs _ _ _ hst
      refine ⟨es ++ fs, [], u, (List.append_nil _).symm, hr.next hst, .start, ?_⟩
      omega

end Reaches

/-! ## Machines with replies -/

namespace Machine

variable {ι ρ σ : Type}

/-- The state after the inputs. -/
def finish (step : ι → σ → ρ × σ) (s : σ) : List ι → σ
  | [] => s
  | i :: is => finish step (step i s).2 is

/-- The inputs, each with its reply. -/
def trace (step : ι → σ → ρ × σ) (s : σ) : List ι → List (ι × ρ)
  | [] => []
  | i :: is => (i, (step i s).1) :: trace step (step i s).2 is

variable {step : ι → σ → ρ × σ}

@[simp] theorem finish_nil (s : σ) : finish step s [] = s := rfl

@[simp] theorem trace_nil (s : σ) : trace step s [] = [] := rfl

theorem finish_append (s : σ) (is js : List ι) :
    finish step s (is ++ js) = finish step (finish step s is) js := by
  induction is generalizing s with
  | nil => rfl
  | cons i is ih => exact ih _

theorem trace_append (s : σ) (is js : List ι) :
    trace step s (is ++ js) = trace step s is ++ trace step (finish step s is) js := by
  induction is generalizing s with
  | nil => rfl
  | cons i is ih =>
    simp only [List.cons_append, trace, finish]
    rw [ih]

theorem finish_snoc (s : σ) (is : List ι) (i : ι) :
    finish step s (is ++ [i]) = (step i (finish step s is)).2 := by
  rw [finish_append]
  rfl

theorem trace_snoc (s : σ) (is : List ι) (i : ι) :
    trace step s (is ++ [i]) = trace step s is ++ [(i, (step i (finish step s is)).1)] := by
  rw [trace_append]
  rfl

/-- A trace shows the inputs of the run. -/
theorem trace_map_fst (s : σ) (is : List ι) : (trace step s is).map Prod.fst = is := by
  induction is generalizing s with
  | nil => rfl
  | cons i is ih =>
    unfold trace
    rw [List.map_cons, ih]

/-- In a trace, each reply is the one to its input after the inputs before it. -/
theorem reply_of_trace {s : σ} {is : List ι} {as bs : List (ι × ρ)} {i : ι} {r : ρ}
    (h : trace step s is = as ++ (i, r) :: bs) :
    r = (step i (finish step s (as.map Prod.fst))).1 := by
  induction as generalizing s is with
  | nil =>
    cases is with
    | nil => cases h
    | cons j is =>
      cases h
      rfl
  | cons a as ih =>
    cases is with
    | nil => cases h
    | cons j is =>
      simp only [trace, List.cons_append, List.cons.injEq] at h
      obtain ⟨rfl, h⟩ := h
      exact ih h

/-- A machine that reads its inputs through `f` has the trace of the read inputs. -/
theorem trace_map {κ : Type} (f : κ → ι) (s : σ) (ks : List κ) :
    trace step s (ks.map f) =
      (trace (fun k => step (f k)) s ks).map fun x => (f x.1, x.2) := by
  induction ks generalizing s with
  | nil => rfl
  | cons k ks ih =>
    simp only [List.map_cons, trace]
    rw [ih]

theorem mem_of_mem_trace {s : σ} {is : List ι} {x : ι × ρ} (h : x ∈ trace step s is) :
    x.1 ∈ is := by
  have hm := List.mem_map_of_mem (f := Prod.fst) h
  rwa [trace_map_fst] at hm

/-- What holds at the start and is kept by every admitted input holds after every run. -/
theorem finish_invariant {P : σ → Prop} {C : ι → Prop} {s : σ} {is : List ι} (h0 : P s)
    (hs : ∀ i s, C i → P s → P (step i s).2) (hok : ∀ i ∈ is, C i) : P (finish step s is) := by
  induction is generalizing s with
  | nil => exact h0
  | cons i is ih =>
    exact ih (hs i s (hok i (by simp)) h0) fun j hj => hok j (by simp [hj])

/-- The refinement rule: when each input from related states is matched by
abstract steps that show its label, each run is matched by abstract steps that
show the labels of its trace. -/
theorem refines {A E : Type} {astep : A → List E → A → Prop} {R : σ → A → Prop}
    {label : ι × ρ → List E} {C : ι → Prop}
    (hs : ∀ i s a, C i → R s a →
      ∃ a', R (step i s).2 a' ∧ Reaches astep a (label (i, (step i s).1)) a')
    {s : σ} {a : A} {is : List ι} (h0 : R s a) (hok : ∀ i ∈ is, C i) :
    ∃ a', R (finish step s is) a' ∧ Reaches astep a ((trace step s is).flatMap label) a' := by
  induction is generalizing s a with
  | nil => exact ⟨a, h0, .start⟩
  | cons i is ih =>
    obtain ⟨b, hb, hab⟩ := hs i s a (hok i (by simp)) h0
    obtain ⟨c, hc, hbc⟩ := ih hb fun j hj => hok j (by simp [hj])
    refine ⟨c, hc, ?_⟩
    simpa [trace] using hab.trans hbc

/-! ## Work that is left -/

variable {μ : σ → Nat} {P : σ → Prop} {C : ι → Prop} {Good : ι → ρ → Prop}

/-- Each good input lowers what is left, so a good run is no longer than that. -/
theorem finish_lowers (hP : ∀ i s, C i → P s → P (step i s).2)
    (hlt : ∀ i s, C i → P s → Good i (step i s).1 → μ (step i s).2 < μ s)
    {s : σ} {is : List ι} (h0 : P s) (hok : ∀ i ∈ is, C i)
    (hgood : ∀ x ∈ trace step s is, Good x.1 x.2) :
    is.length + μ (finish step s is) ≤ μ s := by
  induction is generalizing s with
  | nil =>
    rw [List.length_nil, Nat.zero_add]
    exact Nat.le_refl _
  | cons i is ih =>
    have hi := hok i List.mem_cons_self
    have hlow := hlt i s hi h0 (hgood _ List.mem_cons_self)
    have hrest := ih (hP i s hi h0) (fun j hj => hok j (List.mem_cons_of_mem _ hj))
      fun x hx => hgood x (List.mem_cons_of_mem _ hx)
    rw [List.length_cons, finish]
    omega

/-- Where a good input is there as long as something is left, good inputs finish it all. -/
theorem drains (hP : ∀ i s, C i → P s → Good i (step i s).1 → P (step i s).2)
    (hlt : ∀ i s, C i → P s → Good i (step i s).1 → μ (step i s).2 < μ s)
    (hgo : ∀ s, P s → μ s ≠ 0 → ∃ i, C i ∧ Good i (step i s).1) {s : σ} (h0 : P s) :
    ∃ is, (∀ i ∈ is, C i) ∧ (∀ x ∈ trace step s is, Good x.1 x.2) ∧ μ (finish step s is) = 0 := by
  generalize hn : μ s = n
  induction n using Nat.strongRecOn generalizing s with
  | ind n ih =>
    by_cases h : μ s = 0
    · exact ⟨[], fun _ hi => (List.not_mem_nil hi).elim, fun _ hx => (List.not_mem_nil hx).elim, h⟩
    · obtain ⟨i, hi, hgood⟩ := hgo s h0 h
      have hlow := hlt i s hi h0 hgood
      obtain ⟨is, hok, hall, hend⟩ := ih _ (hn ▸ hlow) (hP i s hi h0 hgood) rfl
      refine ⟨i :: is, ?_, ?_, hend⟩
      · intro j hj
        rcases List.mem_cons.mp hj with rfl | hj
        · exact hi
        · exact hok j hj
      · intro x hx
        unfold trace at hx
        rcases List.mem_cons.mp hx with rfl | hx
        · exact hgood
        · exact hall x hx

end Machine
