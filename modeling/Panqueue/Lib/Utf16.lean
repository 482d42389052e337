-- JavaScript strings: lists of UTF-16 code units, in which a surrogate may stand
-- alone. An encoder to UTF-8 writes U+FFFD for such a unit, so the text that it
-- sends tells two strings apart only if they are well formed.
import Mathlib.Data.String.Basic

/-- A JavaScript string. -/
abbrev Utf16 := List UInt16

namespace Utf16

/-- The first unit of a surrogate pair. -/
def IsHigh (u : UInt16) : Prop := 0xD800 ≤ u.toNat ∧ u.toNat < 0xDC00

/-- The second unit of a surrogate pair. -/
def IsLow (u : UInt16) : Prop := 0xDC00 ≤ u.toNat ∧ u.toNat < 0xE000

instance : DecidablePred IsHigh := fun _ => inferInstanceAs (Decidable (_ ∧ _))

instance : DecidablePred IsLow := fun _ => inferInstanceAs (Decidable (_ ∧ _))

/-- The character of a unit that is in no pair. -/
def single (u : UInt16) : Char :=
  if IsHigh u ∨ IsLow u then '\uFFFD' else Char.ofNat u.toNat

/-- The character of a pair. -/
def pair (u v : UInt16) : Char :=
  Char.ofNat (0x10000 + (u.toNat - 0xD800) * 0x400 + (v.toNat - 0xDC00))

/-- The characters of a string, U+FFFD for a surrogate that stands alone. -/
def chars : Utf16 → List Char
  | [] => []
  | [u] => [single u]
  | u :: v :: rest =>
    if IsHigh u ∧ IsLow v then pair u v :: chars rest else single u :: chars (v :: rest)

/-- The text of a string, as an encoder to UTF-8 writes it. -/
def text (a : Utf16) : String := String.ofList a.chars

/-- No surrogate stands alone: `String.prototype.isWellFormed`. -/
def WellFormed : Utf16 → Prop
  | [] => True
  | [u] => ¬ IsHigh u ∧ ¬ IsLow u
  | u :: v :: rest =>
    if IsHigh u ∧ IsLow v then WellFormed rest
    else ¬ IsHigh u ∧ ¬ IsLow u ∧ WellFormed (v :: rest)

def decidableWellFormed : (a : Utf16) → Decidable a.WellFormed
  | [] => inferInstanceAs (Decidable True)
  | [_] => inferInstanceAs (Decidable (_ ∧ _))
  | u :: v :: rest =>
    have := decidableWellFormed rest
    have := decidableWellFormed (v :: rest)
    inferInstanceAs (Decidable (if IsHigh u ∧ IsLow v then _ else _ ∧ _ ∧ _))

instance : DecidablePred WellFormed := decidableWellFormed

/-! ## Characters of units -/

variable {u v u' v' : UInt16} {a b rest : Utf16}

theorem toNat_ofNat {n : ℕ} (h : n.isValidChar) : (Char.ofNat n).toNat = n := by
  rw [Char.ofNat, dif_pos h]
  rfl

theorem single_toNat (h : ¬ IsHigh u ∧ ¬ IsLow u) : (single u).toNat = u.toNat := by
  have hlt : u.toNat < 65536 := u.toNat_lt
  unfold single
  rw [if_neg (not_or.mpr h)]
  apply toNat_ofNat
  unfold IsHigh IsLow at h
  unfold Nat.isValidChar
  omega

theorem pair_toNat (hu : IsHigh u) (hv : IsLow v) :
    (pair u v).toNat = 0x10000 + (u.toNat - 0xD800) * 0x400 + (v.toNat - 0xDC00) := by
  unfold pair
  apply toNat_ofNat
  unfold IsHigh at hu
  unfold IsLow at hv
  unfold Nat.isValidChar
  omega

/-- A unit in no pair is told by its character. -/
theorem single_inj (h : ¬ IsHigh u ∧ ¬ IsLow u) (h' : ¬ IsHigh u' ∧ ¬ IsLow u')
    (he : single u = single u') : u = u' := by
  have hn := congrArg Char.toNat he
  rw [single_toNat h, single_toNat h'] at hn
  exact UInt16.toNat_inj.mp hn

/-- A pair is told by its character. -/
theorem pair_inj (hu : IsHigh u) (hv : IsLow v) (hu' : IsHigh u') (hv' : IsLow v')
    (he : pair u v = pair u' v') : u = u' ∧ v = v' := by
  have hn := congrArg Char.toNat he
  rw [pair_toNat hu hv, pair_toNat hu' hv'] at hn
  unfold IsHigh at hu hu'
  unfold IsLow at hv hv'
  exact ⟨UInt16.toNat_inj.mp (by omega), UInt16.toNat_inj.mp (by omega)⟩

/-- No pair has the character of a unit that is in none. -/
theorem pair_ne_single (hu : IsHigh u) (hv : IsLow v) (h' : ¬ IsHigh u' ∧ ¬ IsLow u') :
    pair u v ≠ single u' := by
  intro he
  have hn := congrArg Char.toNat he
  have hlt : u'.toNat < 65536 := u'.toNat_lt
  rw [pair_toNat hu hv, single_toNat h'] at hn
  omega

/-! ## The text tells well formed strings apart -/

theorem chars_pair (h : IsHigh u ∧ IsLow v) : chars (u :: v :: rest) = pair u v :: chars rest := by
  rw [chars, if_pos h]

theorem wellFormed_pair (h : IsHigh u ∧ IsLow v) :
    WellFormed (u :: v :: rest) ↔ WellFormed rest := by
  rw [WellFormed, if_pos h]

/-- A string that does not begin with a pair begins with a unit in none. -/
theorem chars_single (h : ¬ IsHigh u) : chars (u :: rest) = single u :: chars rest := by
  cases rest with
  | nil => rfl
  | cons v rest => rw [chars, if_neg (not_and_of_not_left _ h)]

theorem WellFormed.single (h : WellFormed (u :: rest)) (hu : ¬ IsHigh u) :
    ¬ IsLow u ∧ WellFormed rest := by
  cases rest with
  | nil => exact ⟨h.2, trivial⟩
  | cons v rest =>
    rw [WellFormed, if_neg (not_and_of_not_left _ hu)] at h
    exact h.2

theorem WellFormed.pair (h : WellFormed (u :: rest)) (hu : IsHigh u) :
    ∃ v rest', rest = v :: rest' ∧ IsLow v ∧ WellFormed rest' := by
  cases rest with
  | nil => exact absurd hu h.1
  | cons v rest =>
    by_cases hv : IsLow v
    · exact ⟨v, rest, rfl, hv, (wellFormed_pair ⟨hu, hv⟩).mp h⟩
    · rw [WellFormed, if_neg (not_and_of_not_right _ hv)] at h
      exact absurd hu h.1

/-- Two well formed strings with the same characters are the same. -/
theorem chars_inj (ha : a.WellFormed) (hb : b.WellFormed) (h : a.chars = b.chars) : a = b := by
  induction hn : a.length using Nat.strong_induction_on generalizing a b with
  | _ n ih =>
    subst hn
    cases a with
    | nil =>
      cases b with
      | nil => rfl
      | cons u' rest' =>
        by_cases hu' : IsHigh u'
        · obtain ⟨v', rest', rfl, hv', -⟩ := hb.pair hu'
          rw [chars_pair ⟨hu', hv'⟩] at h
          cases h
        · rw [chars_single hu'] at h
          cases h
    | cons u rest =>
      cases b with
      | nil =>
        by_cases hu : IsHigh u
        · obtain ⟨v, rest, rfl, hv, -⟩ := ha.pair hu
          rw [chars_pair ⟨hu, hv⟩] at h
          cases h
        · rw [chars_single hu] at h
          cases h
      | cons u' rest' =>
        by_cases hu : IsHigh u
        · obtain ⟨v, rest, rfl, hv, hrest⟩ := ha.pair hu
          rw [chars_pair ⟨hu, hv⟩] at h
          by_cases hu' : IsHigh u'
          · obtain ⟨v', rest', rfl, hv', hrest'⟩ := hb.pair hu'
            rw [chars_pair ⟨hu', hv'⟩] at h
            obtain ⟨hhead, htail⟩ := List.cons.inj h
            obtain ⟨rfl, rfl⟩ := pair_inj hu hv hu' hv' hhead
            rw [ih _ (by simp only [List.length_cons]; omega) hrest hrest' htail rfl]
          · rw [chars_single hu'] at h
            exact absurd (List.cons.inj h).1 (pair_ne_single hu hv ⟨hu', (hb.single hu').1⟩)
        · rw [chars_single hu] at h
          obtain ⟨hlow, hrest⟩ := ha.single hu
          by_cases hu' : IsHigh u'
          · obtain ⟨v', rest', rfl, hv', -⟩ := hb.pair hu'
            rw [chars_pair ⟨hu', hv'⟩] at h
            exact absurd (List.cons.inj h).1.symm (pair_ne_single hu' hv' ⟨hu, hlow⟩)
          · rw [chars_single hu'] at h
            obtain ⟨hlow', hrest'⟩ := hb.single hu'
            obtain ⟨hhead, htail⟩ := List.cons.inj h
            rw [single_inj ⟨hu, hlow⟩ ⟨hu', hlow'⟩ hhead,
              ih _ (by simp only [List.length_cons]; omega) hrest hrest' htail rfl]

theorem text_inj (ha : a.WellFormed) (hb : b.WellFormed) (h : a.text = b.text) : a = b := by
  apply chars_inj ha hb
  have hl := congrArg String.toList h
  simpa [text] using hl

/-! ## Texts put together -/

/-- A unit that is no surrogate parts the text. -/
theorem chars_append_cons (hu : ¬ IsHigh u ∧ ¬ IsLow u) (a b : Utf16) :
    chars (a ++ u :: b) = chars a ++ single u :: chars b := by
  induction hn : a.length using Nat.strong_induction_on generalizing a with
  | _ n ih =>
    subst hn
    rcases a with _ | ⟨x, _ | ⟨y, rest⟩⟩
    · exact chars_single hu.1
    · change chars (x :: u :: b) = [single x] ++ single u :: chars b
      rw [chars, if_neg (not_and_of_not_right _ hu.2), chars_single hu.1]
      rfl
    · have hrest := ih rest.length (by simp only [List.length_cons]; omega) rest rfl
      have hcons := ih (y :: rest).length (by simp only [List.length_cons]; omega) (y :: rest) rfl
      by_cases h : IsHigh x ∧ IsLow y
      · rw [chars_pair h, List.cons_append, List.cons_append, chars_pair h, hrest]
        rfl
      · rw [List.cons_append, List.cons_append, chars, if_neg h, chars, if_neg h,
          ← List.cons_append, hcons]
        rfl

theorem text_append_cons (hu : ¬ IsHigh u ∧ ¬ IsLow u) (a b : Utf16) :
    text (a ++ u :: b) = text a ++ String.ofList [single u] ++ text b := by
  rw [text, chars_append_cons hu, text, text, ← String.ofList_append, ← String.ofList_append,
    List.append_assoc, List.singleton_append]

/-- The string of an ASCII text. -/
def ascii (s : String) : Utf16 := s.toList.map fun c => UInt16.ofNat c.toNat

end Utf16
