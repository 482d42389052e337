-- Sorted sets: each member has one score, and the members stand in the order
-- of their scores, and members with the same score in the order of the
-- members. The operations are those of a Redis ZSET.
import Mathlib.Data.Finset.Max
import Mathlib.Data.Finset.Sort
import Mathlib.Data.List.Sort
import Mathlib.Data.Prod.Lex

/-- A set whose members carry a score. The list is ascending in (score, member),
and no member stands in it twice. -/
structure SortedSet (σ α : Type) [LinearOrder σ] [LinearOrder α] where
  entries : List (σ ×ₗ α)
  sorted : entries.Pairwise (· ≤ ·)
  nodup : (entries.map fun e => (ofLex e).2).Nodup

namespace SortedSet

variable {σ α : Type} [LinearOrder σ] [LinearOrder α]

instance : DecidableEq (SortedSet σ α) := fun x y =>
  decidable_of_iff (x.entries = y.entries) (by cases x; cases y; simp)

/-! ## The operations -/

def empty : SortedSet σ α := ⟨[], List.Pairwise.nil, List.nodup_nil⟩

/-- The members, lowest score first. -/
def members (z : SortedSet σ α) : List α := z.entries.map fun e => (ofLex e).2

/-- ZCARD. -/
def card (z : SortedSet σ α) : Nat := z.entries.length

/-- ZSCORE. -/
def score (z : SortedSet σ α) (a : α) : Option σ :=
  (z.entries.find? fun e => (ofLex e).2 == a).map fun e => (ofLex e).1

/-- A sublist of the entries is a sorted set again. -/
def restrict (z : SortedSet σ α) (l : List (σ ×ₗ α)) (h : l.Sublist z.entries) :
    SortedSet σ α :=
  ⟨l, z.sorted.sublist h, z.nodup.sublist (h.map _)⟩

/-- Only the entries that pass the test stay. -/
def keep (z : SortedSet σ α) (p : σ → α → Bool) : SortedSet σ α :=
  z.restrict (z.entries.filter fun e => p (ofLex e).1 (ofLex e).2) List.filter_sublist

/-- ZREM. -/
def remove (z : SortedSet σ α) (a : α) : SortedSet σ α := z.keep fun _ b => b != a

/-- ZREMRANGEBYRANK from rank 0, for the first `k` entries. -/
def dropFirst (z : SortedSet σ α) (k : Nat) : SortedSet σ α :=
  z.restrict (z.entries.drop k) (List.drop_sublist k _)

/-- ZRANGE from rank 0, for the first `k` entries. -/
def firstMembers (z : SortedSet σ α) (k : Nat) : List α := z.members.take k

/-- ZRANGEBYSCORE. -/
def rangeByScore (z : SortedSet σ α) (lo hi : σ) : List α :=
  (z.entries.filter fun e => decide (lo ≤ (ofLex e).1 ∧ (ofLex e).1 ≤ hi)).map
    fun e => (ofLex e).2

/-- ZREMRANGEBYSCORE. -/
def removeByScore (z : SortedSet σ α) (lo hi : σ) : SortedSet σ α :=
  z.keep fun s _ => !decide (lo ≤ s ∧ s ≤ hi)

theorem not_mem_members_remove (z : SortedSet σ α) (a : α) : a ∉ (z.remove a).members := by
  simp [members, remove, keep, restrict]

/-- ZADD: a member that stands in the set already moves to its new score. -/
def add (z : SortedSet σ α) (s : σ) (a : α) : SortedSet σ α where
  entries := (z.remove a).entries.orderedInsert (· ≤ ·) (toLex (s, a))
  sorted := (z.remove a).sorted.orderedInsert _ _
  nodup := by
    have hp := (List.perm_orderedInsert (· ≤ ·) (toLex (s, a)) (z.remove a).entries).map
      fun e => (ofLex e).2
    apply hp.nodup_iff.mpr
    rw [List.map_cons, List.nodup_cons]
    exact ⟨not_mem_members_remove z a, (z.remove a).nodup⟩

/-! ## Scores -/

theorem score_eq_some {z : SortedSet σ α} {a : α} {s : σ} :
    z.score a = some s ↔ toLex (s, a) ∈ z.entries := by
  unfold score
  constructor
  · intro h
    obtain ⟨e, he, hs⟩ := Option.map_eq_some_iff.mp h
    have hm := List.find?_some he
    simp only [beq_iff_eq] at hm
    rw [← hs, ← hm]
    exact List.mem_of_find?_eq_some he
  · intro h
    rcases he : z.entries.find? fun e => (ofLex e).2 == a with _ | e
    · have := List.find?_eq_none.mp he _ h
      simp at this
    · have hm := List.find?_some he
      simp only [beq_iff_eq] at hm
      -- two entries with one member are one entry
      have := List.inj_on_of_nodup_map z.nodup (List.mem_of_find?_eq_some he) h hm
      rw [he, this]
      rfl

theorem score_isSome {z : SortedSet σ α} {a : α} : (z.score a).isSome ↔ a ∈ z.members := by
  rw [Option.isSome_iff_exists]
  constructor
  · rintro ⟨s, hs⟩
    exact List.mem_map.mpr ⟨_, score_eq_some.mp hs, rfl⟩
  · intro h
    obtain ⟨e, he, rfl⟩ := List.mem_map.mp h
    exact ⟨(ofLex e).1, score_eq_some.mpr he⟩

theorem score_eq_none {z : SortedSet σ α} {a : α} : z.score a = none ↔ a ∉ z.members := by
  rw [← score_isSome, Bool.not_eq_true, Option.isSome_eq_false_iff, Option.isNone_iff_eq_none]

theorem mem_members_of_score {z : SortedSet σ α} {a : α} {s : σ} (h : z.score a = some s) :
    a ∈ z.members := score_isSome.mp (by simp [h])

theorem members_nodup (z : SortedSet σ α) : z.members.Nodup := z.nodup

@[simp] theorem members_length (z : SortedSet σ α) : z.members.length = z.card := by
  simp [members, card]

theorem score_keep (z : SortedSet σ α) (p : σ → α → Bool) (a : α) :
    (z.keep p).score a = (z.score a).filter fun s => p s a := by
  ext s
  rw [score_eq_some, Option.filter_eq_some_iff, score_eq_some]
  exact List.mem_filter

@[simp] theorem score_remove_self (z : SortedSet σ α) (a : α) : (z.remove a).score a = none := by
  rw [remove, score_keep]
  cases z.score a <;> simp [Option.filter]

theorem score_remove_ne (z : SortedSet σ α) {a b : α} (h : b ≠ a) :
    (z.remove a).score b = z.score b := by
  rw [remove, score_keep]
  cases z.score b <;> simp [Option.filter, h]

theorem mem_add {z : SortedSet σ α} {s : σ} {a : α} {e : σ ×ₗ α} :
    e ∈ (z.add s a).entries ↔ e = toLex (s, a) ∨ e ∈ (z.remove a).entries :=
  List.mem_orderedInsert _

@[simp] theorem score_add_self (z : SortedSet σ α) (s : σ) (a : α) :
    (z.add s a).score a = some s :=
  score_eq_some.mpr (mem_add.mpr (Or.inl rfl))

theorem score_add_ne (z : SortedSet σ α) (s : σ) {a b : α} (h : b ≠ a) :
    (z.add s a).score b = z.score b := by
  rw [← score_remove_ne z h]
  ext t
  rw [score_eq_some, score_eq_some, mem_add]
  have hne : toLex (t, b) ≠ toLex (s, a) := fun he => h (congrArg (fun e => (ofLex e).2) he)
  simp [hne]

theorem score_removeByScore (z : SortedSet σ α) (lo hi : σ) (a : α) :
    (z.removeByScore lo hi).score a =
      (z.score a).filter fun s => !decide (lo ≤ s ∧ s ≤ hi) := score_keep _ _ _

/-- An entry past rank `k` keeps its score, and one of the first `k` is gone. -/
theorem score_dropFirst (z : SortedSet σ α) (k : Nat) (a : α) :
    (z.dropFirst k).score a = if a ∈ z.firstMembers k then none else z.score a := by
  have hsplit : z.members = z.firstMembers k ++ (z.dropFirst k).members := by
    simp [members, firstMembers, dropFirst, restrict, List.map_drop]
  have hd : ∀ x ∈ z.firstMembers k, x ∉ (z.dropFirst k).members := by
    have := z.members_nodup
    rw [hsplit, List.nodup_append] at this
    exact fun x hx hx' => this.2.2 x hx x hx' rfl
  split
  · rename_i ha
    exact score_eq_none.mpr (hd a ha)
  · rename_i ha
    rcases hs : z.score a with _ | s
    · rw [score_eq_none, hsplit, List.mem_append] at hs
      exact score_eq_none.mpr fun h => hs (Or.inr h)
    · have hm := score_eq_some.mp hs
      rw [score_eq_some]
      rw [← List.take_append_drop k z.entries, List.mem_append] at hm
      rcases hm with hm | hm
      · exact absurd (List.mem_map_of_mem (f := fun e => (ofLex e).2) hm)
          (by simpa [firstMembers, members, List.map_take] using ha)
      · exact hm

theorem mem_rangeByScore {z : SortedSet σ α} {lo hi : σ} {a : α} :
    a ∈ z.rangeByScore lo hi ↔ ∃ s, z.score a = some s ∧ lo ≤ s ∧ s ≤ hi := by
  unfold rangeByScore
  constructor
  · intro h
    obtain ⟨e, he, rfl⟩ := List.mem_map.mp h
    have := List.mem_filter.mp he
    exact ⟨(ofLex e).1, score_eq_some.mpr this.1, by simpa using this.2⟩
  · rintro ⟨s, hs, hr⟩
    exact List.mem_map.mpr ⟨toLex (s, a), List.mem_filter.mpr
      ⟨score_eq_some.mp hs, decide_eq_true hr⟩, rfl⟩

theorem rangeByScore_nodup (z : SortedSet σ α) (lo hi : σ) : (z.rangeByScore lo hi).Nodup :=
  z.nodup.sublist (List.filter_sublist.map _)

theorem mem_of_mem_firstMembers {z : SortedSet σ α} {k : Nat} {a : α}
    (h : a ∈ z.firstMembers k) : a ∈ z.members := List.mem_of_mem_take h

theorem mem_of_mem_restrict {z : SortedSet σ α} {l : List (σ ×ₗ α)} {h : l.Sublist z.entries}
    {a : α} (ha : a ∈ (z.restrict l h).members) : a ∈ z.members :=
  (h.map fun e => (ofLex e).2).subset ha

theorem mem_of_mem_keep {z : SortedSet σ α} {p : σ → α → Bool} {a : α}
    (h : a ∈ (z.keep p).members) : a ∈ z.members := mem_of_mem_restrict h

theorem mem_of_mem_dropFirst {z : SortedSet σ α} {k : Nat} {a : α}
    (h : a ∈ (z.dropFirst k).members) : a ∈ z.members := mem_of_mem_restrict h

theorem mem_members_add {z : SortedSet σ α} {s : σ} {a b : α} :
    b ∈ (z.add s a).members ↔ b = a ∨ b ∈ z.members := by
  rw [← score_isSome, ← score_isSome]
  by_cases h : b = a
  · subst h
    simp
  · rw [score_add_ne z s h]
    simp [h]

/-! ## Cardinality -/

theorem card_remove_le (z : SortedSet σ α) (a : α) : (z.remove a).card ≤ z.card :=
  List.length_filter_le _ _

theorem eq_empty_of_card {z : SortedSet σ α} (h : z.card = 0) : z = .empty := by
  cases z with
  | mk entries sorted nodup =>
    have hnil : entries = [] := List.eq_nil_of_length_eq_zero h
    subst hnil
    rfl

theorem remove_of_not_mem {z : SortedSet σ α} {a : α} (h : z.score a = none) :
    z.remove a = z := by
  have hall : ∀ e ∈ z.entries, ((ofLex e).2 != a) = true := by
    intro e he
    have hm := score_eq_none.mp h
    simp only [bne_iff_ne, ne_eq]
    exact fun hea => hm (hea ▸ List.mem_map_of_mem he)
  cases z
  simp only [remove, keep, restrict, SortedSet.mk.injEq]
  exact List.filter_eq_self.mpr hall

theorem card_add (z : SortedSet σ α) (s : σ) (a : α) :
    (z.add s a).card = (z.remove a).card + 1 := List.orderedInsert_length _ _ _

theorem card_add_le (z : SortedSet σ α) (s : σ) (a : α) : (z.add s a).card ≤ z.card + 1 := by
  rw [card_add]
  exact Nat.add_le_add_right (card_remove_le z a) 1

theorem card_remove (z : SortedSet σ α) {a : α} {s : σ} (h : z.score a = some s) :
    (z.remove a).card + 1 = z.card := by
  have he : (z.remove a).members = z.members.erase a := by
    rw [z.members_nodup.erase_eq_filter]
    simp [members, remove, keep, restrict, List.filter_map, Function.comp_def]
  rw [← members_length, ← members_length, he,
    List.length_erase_of_mem (mem_members_of_score h)]
  have := List.length_pos_of_mem (mem_members_of_score h)
  omega

/-- A new score for a member of the set leaves the number of members as it was. -/
theorem card_add_of_mem (z : SortedSet σ α) (t : σ) {a : α} {s : σ} (h : z.score a = some s) :
    (z.add t a).card = z.card := by
  rw [card_add, card_remove z h]

theorem card_le_card_add (z : SortedSet σ α) (t : σ) (a : α) : z.card ≤ (z.add t a).card := by
  rcases h : z.score a with _ | s
  · rw [card_add, remove_of_not_mem h]
    omega
  · rw [card_add_of_mem z t h]

/-! ## The entries as a finite set -/

/-- The entries, without their order. -/
def toFinset (z : SortedSet σ α) : Finset (σ ×ₗ α) := z.entries.toFinset

theorem entries_nodup (z : SortedSet σ α) : z.entries.Nodup := List.Nodup.of_map _ z.nodup

theorem mem_toFinset {z : SortedSet σ α} {s : σ} {a : α} :
    toLex (s, a) ∈ z.toFinset ↔ z.score a = some s := by
  rw [toFinset, List.mem_toFinset, score_eq_some]

@[simp] theorem card_toFinset (z : SortedSet σ α) : z.toFinset.card = z.card :=
  List.toFinset_card_of_nodup z.entries_nodup

/-- Two sorted sets with the same scores have the same entries. -/
theorem toFinset_congr {z z' : SortedSet σ α} (h : ∀ a, z.score a = z'.score a) :
    z.toFinset = z'.toFinset := by
  ext e
  obtain ⟨⟨s, a⟩, rfl⟩ := toLex.surjective e
  rw [mem_toFinset, mem_toFinset, h]

theorem toFinset_add {z : SortedSet σ α} (s : σ) {a : α} (h : z.score a = none) :
    (z.add s a).toFinset = insert (toLex (s, a)) z.toFinset := by
  ext e
  rw [Finset.mem_insert, toFinset, toFinset, List.mem_toFinset, List.mem_toFinset, mem_add,
    remove_of_not_mem h]

theorem toFinset_keep (z : SortedSet σ α) (p : σ → α → Bool) :
    (z.keep p).toFinset = z.toFinset.filter fun e => p (ofLex e).1 (ofLex e).2 :=
  List.toFinset_filter z.entries _

/-- Without those that fail a test, the finite set sorts to the entries that pass it. -/
theorem sort_toFinset (z : SortedSet σ α) (p : σ ×ₗ α → Prop) [DecidablePred p] :
    (z.toFinset.filter p).sort = z.entries.filter p := by
  have hf : z.toFinset.filter p = (z.entries.filter p).toFinset := by
    simp [toFinset, List.toFinset_filter]
  rw [hf, List.toFinset_sort _ (z.entries_nodup.filter _)]
  exact z.sorted.filter _

/-- A sorted set is its scores. -/
theorem ext_score {z z' : SortedSet σ α} (h : ∀ a, z.score a = z'.score a) : z = z' := by
  have hz := z.sort_toFinset (fun _ => True)
  have hz' := z'.sort_toFinset (fun _ => True)
  rw [toFinset_congr h] at hz
  have he := hz.symm.trans hz'
  cases z
  cases z'
  simpa using he

/-- The range up to a score comes first in the range up to a greater one. -/
theorem rangeByScore_prefix (z : SortedSet σ α) (lo : σ) {hi hi' : σ} (h : hi ≤ hi') :
    z.rangeByScore lo hi <+: z.rangeByScore lo hi' := by
  unfold rangeByScore
  apply List.IsPrefix.map
  have hs := z.sorted
  generalize z.entries = l at hs ⊢
  induction l with
  | nil => exact List.prefix_refl []
  | cons e l ih =>
    obtain ⟨hle, hl⟩ := List.pairwise_cons.mp hs
    rw [List.filter_cons, List.filter_cons]
    by_cases hin : lo ≤ (ofLex e).1 ∧ (ofLex e).1 ≤ hi
    · rw [if_pos (decide_eq_true hin), if_pos (decide_eq_true ⟨hin.1, hin.2.trans h⟩)]
      exact (List.prefix_cons_inj e).mpr (ih hl)
    · rw [if_neg (by simpa using hin)]
      by_cases hlo : lo ≤ (ofLex e).1
      · -- the score is past the range, and so are the ones after it
        have hnone : l.filter (fun e => decide (lo ≤ (ofLex e).1 ∧ (ofLex e).1 ≤ hi)) = [] := by
          refine List.filter_eq_nil_iff.mpr fun x hx hp => hin ⟨hlo, ?_⟩
          have hfst : (ofLex e).1 ≤ (ofLex x).1 := Prod.Lex.monotone_fst _ _ (hle x hx)
          exact hfst.trans (of_decide_eq_true hp).2
        rw [hnone]
        exact List.nil_prefix
      · rw [if_neg (by simp [hlo])]
        exact ih hl

theorem rangeByScore_keep (z : SortedSet σ α) (lo hi : σ) (p : α → Bool) :
    (z.keep fun _ => p).rangeByScore lo hi = (z.rangeByScore lo hi).filter p := by
  unfold rangeByScore keep restrict
  rw [List.filter_map, List.filter_filter, List.filter_filter]
  simp only [Function.comp_def, Bool.and_comm]

/-- The `n` greatest elements of a finite set: fewer than `n` others are above them. -/
def greatest {β : Type} [LinearOrder β] (n : ℕ) (s : Finset β) : Finset β :=
  s.filter fun b => (s.filter (b < ·)).card < n

theorem greatest_subset {β : Type} [LinearOrder β] (n : ℕ) (s : Finset β) : greatest n s ⊆ s :=
  Finset.filter_subset _ _

theorem card_greatest_le {β : Type} [LinearOrder β] (n : ℕ) (s : Finset β) :
    (greatest n s).card ≤ n := by
  rcases (greatest n s).eq_empty_or_nonempty with h | h
  · rw [h, Finset.card_empty]
    exact Nat.zero_le n
  · -- the least of them has the others above it
    have hm := Finset.min'_mem _ h
    have hlt := (Finset.mem_filter.mp hm).2
    have hsub : (greatest n s).erase ((greatest n s).min' h) ⊆
        s.filter ((greatest n s).min' h < ·) := by
      intro b hb
      obtain ⟨hne, hb⟩ := Finset.mem_erase.mp hb
      refine Finset.mem_filter.mpr ⟨greatest_subset n s hb, ?_⟩
      exact lt_of_le_of_ne (Finset.min'_le _ b hb) hne.symm
    have hcard := Finset.card_le_card hsub
    rw [Finset.card_erase_of_mem hm] at hcard
    omega

example : greatest 1 ({toLex (1, 4), toLex (1, 7)} : Finset (ℕ ×ₗ ℕ)) = {toLex (1, 7)} := by
  decide

/-- Without the first entries, as many as are over `n`, the `n` greatest stay. -/
theorem toFinset_dropFirst (z : SortedSet σ α) (n : ℕ) :
    (z.dropFirst (z.card - n)).toFinset = greatest n z.toFinset := by
  let m := z.card - n
  have hsplit : z.entries = z.entries.take m ++ z.entries.drop m :=
    (List.take_append_drop m z.entries).symm
  have hlen : (z.entries.drop m).length = z.card - m := List.length_drop
  have hnodup : (z.entries.drop m).Nodup := z.entries_nodup.sublist (List.drop_sublist m _)
  have hlt : z.entries.Pairwise (· < ·) :=
    (z.sorted.and z.entries_nodup).imp fun h => lt_of_le_of_ne h.1 h.2
  rw [hsplit] at hlt
  obtain ⟨-, -, habove⟩ := List.pairwise_append.mp hlt
  ext e
  rw [greatest, Finset.mem_filter, toFinset, toFinset, List.mem_toFinset, List.mem_toFinset]
  change e ∈ z.entries.drop m ↔ _
  constructor
  · intro he
    refine ⟨List.mem_of_mem_drop he, ?_⟩
    have hsub : z.entries.toFinset.filter (e < ·) ⊆ (z.entries.drop m).toFinset.erase e := by
      intro x hx
      obtain ⟨hx, hex⟩ := Finset.mem_filter.mp hx
      rw [Finset.mem_erase, List.mem_toFinset]
      refine ⟨hex.ne', ?_⟩
      rw [List.mem_toFinset, hsplit, List.mem_append] at hx
      rcases hx with hx | hx
      · exact absurd (habove x hx e he) hex.asymm
      · exact hx
    have hcard := Finset.card_le_card hsub
    rw [Finset.card_erase_of_mem (List.mem_toFinset.mpr he),
      List.toFinset_card_of_nodup hnodup, hlen] at hcard
    have hpos := List.length_pos_of_mem he
    omega
  · rintro ⟨he, hcard⟩
    rw [hsplit, List.mem_append] at he
    rcases he with he | he
    · -- all the entries that stay are above one that goes
      have hsub : (z.entries.drop m).toFinset ⊆ z.entries.toFinset.filter (e < ·) := by
        intro x hx
        rw [List.mem_toFinset] at hx
        rw [Finset.mem_filter, List.mem_toFinset]
        exact ⟨List.mem_of_mem_drop hx, habove e he x hx⟩
      have hle := Finset.card_le_card hsub
      rw [List.toFinset_card_of_nodup hnodup, hlen] at hle
      have hpos := List.length_pos_of_mem he
      rw [List.length_take] at hpos
      omega
    · exact he

end SortedSet
