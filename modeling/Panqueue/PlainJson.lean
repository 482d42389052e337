-- The payload validator against plain JSON: what it accepts, and what
-- JSON.stringify would drop of that.
import Panqueue.Lib.Walks
import Panqueue.Serialization

namespace Panqueue

variable {α β Ref : Type} {heap : Heap Ref} {v w : JsValue Ref} {r : Ref} {m n : ℕ}

/-! ## Two readers -/

def Property.map (f : α → β) (p : Property α) : Property β := ⟨p.key, p.enumerable, f p.value⟩

def Slot.map (f : α → β) : Slot α → Slot β
  | own enumerable value => own enumerable (f value)
  | inherited value => inherited (f value)
  | hole => hole

def Cell.map (f : α → β) : Cell α → Cell β
  | array proto slots others => array proto (slots.map (Slot.map f)) (others.map (Property.map f))
  | object proto properties => object proto (properties.map (Property.map f))
  | view proto => view proto

/-- The arrays and objects as the validator gets them. -/
def seen (objects : Ref → Cell (Content Ref)) : Heap Ref := fun r => (objects r).map Content.first

/-- The same as JSON.stringify gets them, after the validator. -/
def written (objects : Ref → Cell (Content Ref)) : Heap Ref := fun r =>
  (objects r).map Content.later

/-- An array whose prototype is `Array.prototype` and whose own enumerable
properties are its indices, or an object whose prototype is `Object.prototype`
or null. -/
def Cell.Plain : Cell (JsValue Ref) → Prop
  | array proto slots others =>
    proto = .arrayPrototype ∧ (∀ s ∈ slots, ∃ v, s = .own true v) ∧
      ∀ p ∈ others, p.enumerable = false
  | object proto _ => proto = .objectPrototype ∨ proto = .null
  | view _ => False

/-- Every element and every property value. -/
def Cell.parts : Cell (JsValue Ref) → List (JsValue Ref)
  | array _ slots others => slots.map Slot.read ++ others.map Property.value
  | object _ properties => properties.map Property.value
  | view _ => []

/-- Plain JSON, by the number of levels that a value may have. -/
def PlainJson (heap : Heap Ref) : ℕ → JsValue Ref → Prop
  | 0, _ => False
  | levels + 1, value =>
    match value with
    | .null | .string _ | .boolean _ => True
    | .number x => x.isFinite = true
    | .ref r => (heap r).Plain ∧ ∀ part ∈ (heap r).parts, PlainJson heap levels part
    | .undefined | .function | .symbol | .bigint _ => False

/-! ## What JSON.stringify drops -/

/-- JSON.stringify writes every own property: there is no hole, no extra
property of an array, and no property of an object that is hidden or under a symbol. -/
def Cell.KeepsAll : Cell (JsValue Ref) → Prop
  | array _ slots others => others = [] ∧ ∀ s ∈ slots, s ≠ .hole
  | object _ properties => ∀ p ∈ properties, p.enumerable = true ∧ ∃ key, p.key = .string key
  | view _ => True

/-- JSON.stringify neither drops the value nor turns it into null, and it
writes all own properties. -/
def Kept (heap : Heap Ref) : JsValue Ref → Prop
  | .undefined | .function | .symbol => False
  | .number x => x.isFinite = true
  | .ref r => (heap r).KeepsAll
  | .null | .string _ | .boolean _ | .bigint _ => True

/-- The edges that a reader follows. -/
def followed (heap : Heap Ref) : JsValue Ref → List (JsValue Ref)
  | .ref r => (heap r).followed
  | _ => []

theorem mem_entries {properties : List (Property (JsValue Ref))} {key : String} {w : JsValue Ref} :
    (key, w) ∈ entries properties ↔ ⟨.string key, true, w⟩ ∈ properties := by
  rw [entries, List.mem_filterMap]
  constructor
  · rintro ⟨⟨k, e, x⟩, hp, h⟩
    cases k with
    | symbol => cases h
    | string s =>
      cases e with
      | false => cases h
      | true =>
        cases h
        exact hp
  · intro h
    exact ⟨_, h, rfl⟩

theorem Cell.followed_subset (c : Cell (JsValue Ref)) : c.followed ⊆ c.parts := by
  intro w hw
  cases c with
  | array proto slots others => exact List.mem_append_left _ hw
  | object proto properties =>
    obtain ⟨⟨key, w⟩, he, rfl⟩ := List.mem_map.mp hw
    exact List.mem_map.mpr ⟨_, mem_entries.mp he, rfl⟩
  | view proto => cases hw

theorem Cell.Plain.passes {c : Cell (JsValue Ref)} (h : c.Plain) : c.Passes := by
  cases c with
  | array proto slots others =>
    obtain ⟨rfl, -⟩ := h
    exact ⟨fun b => rfl, rfl, Or.inl rfl⟩
  | object proto properties =>
    refine ⟨fun b => ?_, rfl, Or.inr h⟩
    rcases h with rfl | rfl
    · rfl
    · rfl
  | view proto => exact h.elim

theorem PlainJson.loose (h : PlainJson heap n v) : Loose heap n v := by
  induction n generalizing v with
  | zero => exact h
  | succ n ih =>
    cases v with
    | ref r =>
      obtain ⟨hplain, hparts⟩ := h
      exact ⟨hplain.passes, fun part hp => ih (hparts part ((heap r).followed_subset hp))⟩
    | _ => exact h

/-! ## Along a walk -/

/-- Each edge that the validator follows costs a level. -/
theorem Loose.walk (h : Loose heap n v) (hw : Walk (followed heap) m v w) :
    ∃ k, n = m + k ∧ Loose heap k w := by
  induction hw generalizing n with
  | refl v => exact ⟨n, (Nat.zero_add n).symm, h⟩
  | step hedge _ ih =>
    rename_i u x y _
    cases u with
    | ref r =>
      cases n with
      | zero => cases h
      | succ n =>
        obtain ⟨k, rfl, hk⟩ := ih (h.2 _ hedge)
        exact ⟨k, by omega, hk⟩
    | _ => cases hedge

theorem PlainJson.walk (h : PlainJson heap n v) (hw : Walk (followed heap) m v w) :
    ∃ k, PlainJson heap k w := by
  induction hw generalizing n with
  | refl v => exact ⟨n, h⟩
  | step hedge _ ih =>
    rename_i u x y _
    cases u with
    | ref r =>
      cases n with
      | zero => cases h
      | succ n => exact ih (h.2 _ ((heap r).followed_subset hedge))
    | _ => cases hedge

/-! ## Exact arrays and objects -/

/-- An array with the prototype `Array.prototype` and no own property but its
indices, each of them own and enumerable, or an object whose own properties are
all enumerable and under strings. -/
def Cell.Exact : Cell (JsValue Ref) → Prop
  | array proto slots others =>
    proto = .arrayPrototype ∧ (∀ s ∈ slots, ∃ v, s = .own true v) ∧ others = []
  | object _ properties => ∀ p ∈ properties, p.enumerable = true ∧ ∃ key, p.key = .string key
  | view _ => True

theorem Cell.Exact.plain {c : Cell (JsValue Ref)} (h : c.Exact) (hp : c.Passes) : c.Plain := by
  cases c with
  | array proto slots others =>
    obtain ⟨hproto, hslots, rfl⟩ := h
    exact ⟨hproto, hslots, by simp⟩
  | object proto properties => exact hp.2.2.resolve_left (by simp [isArray])
  | view proto => exact absurd hp.2.1 (by simp [isView])

theorem Cell.Exact.parts {c : Cell (JsValue Ref)} (h : c.Exact) : c.parts ⊆ c.followed := by
  intro w hw
  cases c with
  | array proto slots others =>
    obtain ⟨-, -, rfl⟩ := h
    simpa [Cell.parts, Cell.followed] using hw
  | object proto properties =>
    obtain ⟨⟨k, e, w⟩, hp, rfl⟩ := List.mem_map.mp hw
    obtain ⟨rfl, key, rfl⟩ := h _ hp
    exact List.mem_map.mpr ⟨(key, w), mem_entries.mpr hp, rfl⟩
  | view proto => cases hw

theorem Cell.Exact.keepsAll {c : Cell (JsValue Ref)} (h : c.Exact) : c.KeepsAll := by
  cases c with
  | array proto slots others =>
    obtain ⟨-, hslots, rfl⟩ := h
    refine ⟨rfl, fun s hs => ?_⟩
    obtain ⟨v, rfl⟩ := hslots s hs
    simp
  | object proto properties => exact h
  | view proto => trivial

theorem Loose.kept (h : Loose heap n v) (hexact : ∀ r, v = .ref r → (heap r).Exact) :
    Kept heap v := by
  cases n with
  | zero => cases h
  | succ n =>
    cases v with
    | ref r => exact (hexact r rfl).keepsAll
    | number x => exact h
    | undefined | function | symbol => exact h.elim
    | _ => trivial

/-! ## Getters -/

section Getters

variable {objects : Ref → Cell (Content Ref)} {u : JsValue Ref}

end Getters

/-! ## The validator -/

end Panqueue
