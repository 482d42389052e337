-- A register with versions: every write carries a value and a version. The
-- highest version wins, and among the writes of one version the first one.
-- A later write of that version is told whether it agrees.
import Mathlib.Data.List.Induction
import Mathlib.Order.Lattice
import Panqueue.Lib.Runs

namespace Register

/-- A write of a value under a version. -/
structure Write (α ν : Type) where
  value : α
  version : ν
  deriving DecidableEq

/-- What a register makes of a write. -/
inductive Verdict
  | written
  | ignored
  | unchanged
  | conflict
  deriving DecidableEq

variable {α ν : Type} [LinearOrder ν]

/-! ## The winner -/

/-- `w` is the first of the writes with the highest version. -/
def Wins (w : Write α ν) (ws : List (Write α ν)) : Prop :=
  ∃ as bs, ws = as ++ w :: bs ∧ (∀ v ∈ as, v.version < w.version) ∧
    ∀ v ∈ bs, v.version ≤ w.version

theorem Wins.mem {w : Write α ν} {ws : List (Write α ν)} (h : Wins w ws) : w ∈ ws := by
  obtain ⟨as, bs, rfl, -, -⟩ := h
  simp

theorem Wins.top {w : Write α ν} {ws : List (Write α ν)} (h : Wins w ws) :
    ∀ v ∈ ws, v.version ≤ w.version := by
  obtain ⟨as, bs, rfl, has, hbs⟩ := h
  intro v hv
  rcases List.mem_append.mp hv with hv | hv
  · exact le_of_lt (has v hv)
  · rcases List.mem_cons.mp hv with rfl | hv
    · exact le_refl _
    · exact hbs v hv

/-- The writes of the highest version agree on the value. -/
def TopsAgree (ws : List (Write α ν)) : Prop :=
  ∀ v ∈ ws, ∀ w ∈ ws, (∀ u ∈ ws, u.version ≤ v.version) → (∀ u ∈ ws, u.version ≤ w.version) →
    v.value = w.value

/-! ## One write -/

variable [DecidableEq α]

/-- One write, with the verdict and the register after it. -/
def offer (w : Write α ν) : Option (Write α ν) → Verdict × Option (Write α ν)
  | none => (.written, some w)
  | some s =>
    if s.version < w.version then (.written, some w)
    else if w.version < s.version then (.ignored, some s)
    else if w.value = s.value then (.unchanged, some s)
    else (.conflict, some s)

/-- The register after some writes, from an empty one. -/
def settle (ws : List (Write α ν)) : Option (Write α ν) := Machine.finish offer none ws

theorem settle_snoc (ws : List (Write α ν)) (w : Write α ν) :
    settle (ws ++ [w]) = (offer w (settle ws)).2 := Machine.finish_snoc _ _ _

theorem offer_some (w s : Write α ν) :
    (offer w (some s)).2 = some (if s.version < w.version then w else s) := by
  simp only [offer]
  split_ifs <;> rfl

/-- A register that is full stays full, and its version does not decrease. -/
theorem offer_grows (w s : Write α ν) :
    ∃ s', (offer w (some s)).2 = some s' ∧ s.version ≤ s'.version := by
  refine ⟨_, offer_some w s, ?_⟩
  split_ifs with h
  · exact le_of_lt h
  · exact le_refl _

/-- After a write, the register is at its version or above. -/
theorem le_version_of_offer {w s : Write α ν} {r : Option (Write α ν)}
    (h : (offer w r).2 = some s) : w.version ≤ s.version := by
  cases r with
  | none =>
    cases h
    exact le_refl _
  | some t =>
    rw [offer_some, Option.some.injEq] at h
    subst h
    split_ifs with hlt
    · exact le_refl _
    · exact le_of_not_gt hlt

/-- A write of the version that the register then holds is told whether it agrees. -/
theorem conflict_iff {w s : Write α ν} {r : Option (Write α ν)} (h : (offer w r).2 = some s)
    (hv : s.version = w.version) : (offer w r).1 = .conflict ↔ w.value ≠ s.value := by
  cases r with
  | none =>
    cases h
    simp [offer]
  | some t =>
    rw [offer_some, Option.some.injEq] at h
    subst h
    split_ifs at hv ⊢ with hlt
    · simp [offer, hlt]
    · by_cases he : w.value = t.value
      · simp [offer, hv, he]
      · simp [offer, hv, he]

/-! ## Runs of writes -/

/-- The version of a register never decreases. -/
theorem finish_grows (s : Write α ν) (ws : List (Write α ν)) :
    ∃ s', Machine.finish offer (some s) ws = some s' ∧ s.version ≤ s'.version := by
  induction ws generalizing s with
  | nil => exact ⟨s, rfl, le_refl _⟩
  | cons w ws ih =>
    obtain ⟨t, ht, hst⟩ := offer_grows w s
    obtain ⟨u, hu, htu⟩ := ih t
    refine ⟨u, ?_, le_trans hst htu⟩
    rw [Machine.finish, ht, hu]

/-- No write of a version up to the stored one changes the register. -/
theorem finish_stays {s : Write α ν} {ws : List (Write α ν)}
    (h : ∀ w ∈ ws, w.version ≤ s.version) : Machine.finish offer (some s) ws = some s := by
  induction ws with
  | nil => rfl
  | cons w ws ih =>
    have hw : ¬ s.version < w.version := not_lt_of_ge (h w List.mem_cons_self)
    rw [Machine.finish, offer_some, if_neg hw]
    exact ih fun v hv => h v (List.mem_cons_of_mem _ hv)

/-- The register holds the winner of the writes so far. -/
theorem settle_wins (ws : List (Write α ν)) :
    (ws = [] ∧ settle ws = none) ∨ ∃ w, settle ws = some w ∧ Wins w ws := by
  induction ws using List.reverseRecOn with
  | nil => exact Or.inl ⟨rfl, rfl⟩
  | append_singleton ws w ih =>
    right
    rw [settle_snoc]
    rcases ih with ⟨rfl, hs⟩ | ⟨s, hs, hw⟩
    · rw [hs]
      exact ⟨w, rfl, [], [], rfl, by simp, by simp⟩
    · rw [hs, offer_some]
      split_ifs with hlt
      · refine ⟨w, rfl, ws, [], rfl, fun v hv => (hw.top v hv).trans_lt hlt, by simp⟩
      · obtain ⟨as, bs, rfl, has, hbs⟩ := hw
        refine ⟨s, rfl, as, bs ++ [w], by simp, has, ?_⟩
        intro v hv
        rcases List.mem_append.mp hv with hv | hv
        · exact hbs v hv
        · rw [List.mem_singleton.mp hv]
          exact le_of_not_gt hlt

theorem settle_of_mem {ws : List (Write α ν)} {v : Write α ν} (hv : v ∈ ws) :
    ∃ w, settle ws = some w ∧ Wins w ws := by
  rcases settle_wins ws with ⟨rfl, -⟩ | h
  · cases hv
  · exact h

/-! ## Orders of the same writes -/

/-- Two orders of the same writes settle on one version. -/
theorem settle_version_perm {ws ws' : List (Write α ν)} (h : ws.Perm ws') :
    (settle ws).map Write.version = (settle ws').map Write.version := by
  rcases settle_wins ws with ⟨rfl, hs⟩ | ⟨w, hs, hw⟩
  · rw [List.nil_perm.mp h]
  · obtain ⟨w', hs', hw'⟩ := settle_of_mem (h.mem_iff.mp hw.mem)
    have h1 : w.version ≤ w'.version := hw'.top w (h.mem_iff.mp hw.mem)
    have h2 : w'.version ≤ w.version := hw.top w' (h.mem_iff.mpr hw'.mem)
    rw [hs, hs', Option.map_some, Option.map_some, le_antisymm h1 h2]

/-- Two orders settle on one value too, when the writes of the highest version agree. -/
theorem settle_perm {ws ws' : List (Write α ν)} (h : ws.Perm ws') (ha : TopsAgree ws) :
    settle ws = settle ws' := by
  rcases settle_wins ws with ⟨rfl, hs⟩ | ⟨w, hs, hw⟩
  · rw [List.nil_perm.mp h]
  · obtain ⟨w', hs', hw'⟩ := settle_of_mem (h.mem_iff.mp hw.mem)
    have hversion := settle_version_perm h
    have hvalue : w.value = w'.value := by
      apply ha w hw.mem w' (h.mem_iff.mpr hw'.mem) hw.top
      intro u hu
      exact hw'.top u (h.mem_iff.mp hu)
    rw [hs, hs', Option.map_some, Option.map_some, Option.some.injEq] at hversion
    rw [hs, hs']
    cases w
    cases w'
    simp_all

/-- After a write of the highest version, the register stays as it is. -/
theorem settle_top {as bs : List (Write α ν)} {w s : Write α ν}
    (htop : ∀ v ∈ as ++ w :: bs, v.version ≤ w.version) (hs : (offer w (settle as)).2 = some s) :
    settle (as ++ w :: bs) = some s ∧ s.version = w.version := by
  have hle : w.version ≤ s.version := le_version_of_offer hs
  have hbs : ∀ v ∈ bs, v.version ≤ s.version := fun v hv => le_trans (htop v (by simp [hv])) hle
  have hend : settle (as ++ w :: bs) = Machine.finish offer (offer w (settle as)).2 bs :=
    Machine.finish_append _ _ _
  rw [hs, finish_stays hbs] at hend
  have hmem : w ∈ as ++ w :: bs := by simp
  obtain ⟨s', hs', hw⟩ := settle_of_mem hmem
  obtain rfl : s' = s := Option.some.inj (hs'.symm.trans hend)
  exact ⟨hend, le_antisymm (htop s' hw.mem) hle⟩

/-- The first of the writes with the highest version is what the register ends with. -/
theorem Wins.settle {w : Write α ν} {ws : List (Write α ν)} (h : Wins w ws) :
    settle ws = some w := by
  have htop := h.top
  obtain ⟨as, bs, rfl, has, -⟩ := h
  refine (settle_top htop ?_).1
  rcases settle_wins as with ⟨_, hs⟩ | ⟨s, hs, hw⟩
  · rw [hs]
    rfl
  · rw [hs, offer_some, if_pos (has s hw.mem)]

end Register
