-- The payload validator of serialization.ts, on a heap of arrays and objects
-- that may refer to each other in any way. Proxies are not modelled.
import Panqueue.Lib.Double

namespace Panqueue

/-! ## JavaScript values -/

/-- The built-in classes that the validator asks for with `instanceof`. -/
inductive Builtin
  | date
  | regExp
  | map
  | set
  | arrayBuffer
  deriving DecidableEq

/-- The prototype of an object. `other` is an object that is none of the
built-in ones, with a prototype of its own. -/
inductive Proto
  | null
  | objectPrototype
  | arrayPrototype
  | builtin (b : Builtin)
  | other (next : Proto)
  deriving DecidableEq

/-- `instanceof`: the prototype of the class is on the chain. -/
def Proto.instanceOf (b : Builtin) : Proto → Bool
  | builtin b' => decide (b = b')
  | other next => next.instanceOf b
  | null | objectPrototype | arrayPrototype => false

inductive JsValue (Ref : Type)
  | null
  | undefined
  | boolean (b : Bool)
  | number (x : Double)
  | string (s : String)
  | bigint (n : ℤ)
  | function
  | symbol
  | ref (r : Ref)
  deriving DecidableEq

inductive PropertyKey
  | string (s : String)
  | symbol
  deriving DecidableEq

/-- What a property holds: the value of a data property, or the getter of an
accessor property, by what it returns to the validator and, later, to JSON.stringify. -/
inductive Content (Ref : Type)
  | data (value : JsValue Ref)
  | accessor (first later : JsValue Ref)
  deriving DecidableEq

/-- What the validator reads. -/
def Content.first {Ref : Type} : Content Ref → JsValue Ref
  | data value => value
  | accessor first _ => first

/-- What JSON.stringify reads after it. -/
def Content.later {Ref : Type} : Content Ref → JsValue Ref
  | data value => value
  | accessor _ later => later

/-- An own property, with its content or with what a reader gets from it. -/
structure Property (α : Type) where
  key : PropertyKey
  enumerable : Bool
  value : α
  deriving DecidableEq

/-- What stands under an index of an array: an own property, one of the
prototype chain, or nothing. -/
inductive Slot (α : Type)
  | own (enumerable : Bool) (value : α)
  | inherited (value : α)
  | hole
  deriving DecidableEq

/-- `value[i]`. -/
def Slot.read {Ref : Type} : Slot (JsValue Ref) → JsValue Ref
  | own _ value => value
  | inherited value => value
  | hole => .undefined

/-- An array with its indices and its other own properties, an object with its
own properties in their order, or a view of an ArrayBuffer. -/
inductive Cell (α : Type)
  | array (proto : Proto) (slots : List (Slot α)) (others : List (Property α))
  | object (proto : Proto) (properties : List (Property α))
  | view (proto : Proto)
  deriving DecidableEq

/-- The arrays and objects, as a reader gets their properties. -/
abbrev Heap (Ref : Type) := Ref → Cell (JsValue Ref)

section Cell

variable {α Ref : Type}

/-- `Object.getPrototypeOf`. -/
def Cell.proto : Cell α → Proto
  | array proto _ _ => proto
  | object proto _ => proto
  | view proto => proto

/-- `Array.isArray`. -/
def Cell.isArray : Cell α → Bool
  | array _ _ _ => true
  | _ => false

/-- `ArrayBuffer.isView`. -/
def Cell.isView : Cell α → Bool
  | view _ => true
  | _ => false

/-- `Object.entries`: the own enumerable properties with a string for a key. -/
def entries (properties : List (Property (JsValue Ref))) : List (String × JsValue Ref) :=
  properties.filterMap fun p =>
    match p.key with
    | .string key => if p.enumerable then some (key, p.value) else none
    | .symbol => none

/-- The values that the validator looks at next, each with its path. -/
def Cell.children (path : String) : Cell (JsValue Ref) → List (JsValue Ref × String)
  | array _ slots _ =>
    slots.zipIdx.map fun s => (s.1.read, path ++ "[" ++ toString s.2 ++ "]")
  | object _ properties => (entries properties).map fun e => (e.2, path ++ "." ++ e.1)
  | view _ => []

end Cell

/-! ## serialization.ts -/

/-- Max nesting depth. -/
def MAX_DEPTH : ℕ := 64

section Validator

variable {Ref : Type}

/-- The checks of an array or an object before its parts: the message of the first that fails. -/
def rejection (path : String) (c : Cell (JsValue Ref)) : Option String :=
  if c.proto.instanceOf .date then some (path ++ " contains a Date instance")
  else if c.proto.instanceOf .regExp then some (path ++ " contains a RegExp instance")
  else if c.proto.instanceOf .map ∨ c.proto.instanceOf .set then
    some (path ++ " contains a " ++ (if c.proto.instanceOf .map then "Map" else "Set") ++
      " instance")
  else if c.isView ∨ c.proto.instanceOf .arrayBuffer then
    some (path ++ " contains a binary data view or ArrayBuffer")
  else if c.isArray then none
  else if c.proto ≠ .objectPrototype ∧ c.proto ≠ .null then
    some (path ++ " contains a class instance")
  else none

/-- A loop of checks. It ends at the first one that throws, or that has no stack left. -/
def assertEach {β : Type} (check : β → Option (Except String Unit)) :
    List β → Option (Except String Unit)
  | [] => some (.ok ())
  | b :: bs =>
    match check b with
    | some (.ok ()) => assertEach check bs
    | result => result

/-- `_assertImpl`, with room for `frames` of its calls on the stack. The result
is none when they are not enough. -/
def assertImpl (heap : Heap Ref) :
    ℕ → JsValue Ref → String → ℕ → Option (Except String Unit)
  | 0, _, _, _ => none
  | frames + 1, value, path, depth =>
    if MAX_DEPTH < depth then
      some (.error (path ++ " exceeds maximum nesting depth of " ++ toString MAX_DEPTH))
    else
      match value with
      | .null => some (.ok ())
      | .string _ => some (.ok ())
      | .boolean _ => some (.ok ())
      | .number x =>
        if x.isFinite then some (.ok ())
        else some (.error (path ++ " contains a non-finite number (NaN or Infinity)"))
      | .undefined => some (.error (path ++ " contains undefined"))
      | .function => some (.error (path ++ " contains a function"))
      | .symbol => some (.error (path ++ " contains a symbol"))
      | .bigint _ => some (.error (path ++ " contains a BigInt"))
      | .ref r =>
        match rejection path (heap r) with
        | some message => some (.error message)
        | none =>
          assertEach (fun child => assertImpl heap frames child.1 child.2 (depth + 1))
            ((heap r).children path)

/-- `assertJsonSerializable`. -/
def assertJsonSerializable (heap : Heap Ref) (frames : ℕ) (value : JsValue Ref) :
    Option (Except String Unit) :=
  assertImpl heap frames value "payload" 0

/-- With some stack, the validator returns normally. -/
def Accepts (heap : Heap Ref) (value : JsValue Ref) : Prop :=
  ∃ frames, assertJsonSerializable heap frames value = some (.ok ())

/-! ## What the validator walks through -/

/-- The values that the validator looks at next. -/
def Cell.followed : Cell (JsValue Ref) → List (JsValue Ref)
  | array _ slots _ => slots.map Slot.read
  | object _ properties => (entries properties).map Prod.snd
  | view _ => []

theorem Cell.children_fst (path : String) (c : Cell (JsValue Ref)) :
    (c.children path).map Prod.fst = c.followed := by
  cases c with
  | array proto slots others =>
    have hslots : slots.zipIdx.map Prod.fst = slots := List.zipIdx_map_fst 0 slots
    rw [followed, ← hslots, List.map_map, children, List.map_map]
    rw [hslots]
    rfl
  | object proto properties => simp [children, followed, Function.comp_def]
  | view proto => rfl

/-- The array or object passes the checks before its parts. -/
def Cell.Passes (c : Cell (JsValue Ref)) : Prop :=
  (∀ b, c.proto.instanceOf b = false) ∧ c.isView = false ∧
    (c.isArray = true ∨ c.proto = .objectPrototype ∨ c.proto = .null)

theorem Builtin.forall {P : Builtin → Prop} :
    (∀ b, P b) ↔ P .date ∧ P .regExp ∧ P .map ∧ P .set ∧ P .arrayBuffer := by
  refine ⟨fun h => ⟨h _, h _, h _, h _, h _⟩, ?_⟩
  rintro ⟨h1, h2, h3, h4, h5⟩ b
  cases b <;> assumption

theorem rejection_eq_none {path : String} {c : Cell (JsValue Ref)} :
    rejection path c = none ↔ c.Passes := by
  rw [Cell.Passes, Builtin.forall, rejection]
  by_cases h1 : c.proto.instanceOf .date = true
  · simp [h1]
  by_cases h2 : c.proto.instanceOf .regExp = true
  · simp [h1, h2]
  by_cases h3 : c.proto.instanceOf .map = true ∨ c.proto.instanceOf .set = true
  · rcases h3 with h3 | h3 <;> simp [h1, h2, h3]
  by_cases h4 : c.isView = true ∨ c.proto.instanceOf .arrayBuffer = true
  · rcases h4 with h4 | h4 <;> simp [h1, h2, h3, h4]
  obtain ⟨h3m, h3s⟩ := not_or.mp h3
  obtain ⟨h4v, h4a⟩ := not_or.mp h4
  by_cases h5 : c.isArray = true
  · simp [h1, h2, h3m, h3s, h4v, h4a, h5]
  · simp [h1, h2, h3m, h3s, h4v, h4a, h5, or_iff_not_imp_left]

variable {heap : Heap Ref} {v w : JsValue Ref}

/-- A call that is too deep throws, whatever its value is. -/
theorem assertImpl_deep {depth : ℕ} (h : MAX_DEPTH < depth) (frames : ℕ) (v : JsValue Ref)
    (path : String) : assertImpl heap (frames + 1) v path depth =
      some (.error (path ++ " exceeds maximum nesting depth of " ++ toString MAX_DEPTH)) := by
  cases v <;> exact if_pos h

/-- The loop goes through if and only if each of its checks does. -/
theorem assertEach_ok {β : Type} {check : β → Option (Except String Unit)} {l : List β} :
    assertEach check l = some (.ok ()) ↔ ∀ b ∈ l, check b = some (.ok ()) := by
  induction l with
  | nil => simp [assertEach]
  | cons b l ih =>
    rw [assertEach]
    rcases hb : check b with _ | (e | u)
    · simp [hb]
    · simp [hb]
    · simp [hb, ih]

/-- A loop whose checks all give a result gives one. -/
theorem assertEach_result {β : Type} {check : β → Option (Except String Unit)} {l : List β}
    (h : ∀ b ∈ l, ∃ r, check b = some r) : ∃ r, assertEach check l = some r := by
  induction l with
  | nil => exact ⟨_, rfl⟩
  | cons b l ih =>
    obtain ⟨r, hr⟩ := h b List.mem_cons_self
    rw [assertEach, hr]
    rcases r with e | u
    · exact ⟨_, rfl⟩
    · exact ih fun b hb => h b (List.mem_cons_of_mem _ hb)

/-- A loop gives the result again when each of its checks does. -/
theorem assertEach_mono {β : Type} {check check' : β → Option (Except String Unit)} {l : List β}
    {r : Except String Unit} (h : ∀ b r, check b = some r → check' b = some r)
    (hr : assertEach check l = some r) : assertEach check' l = some r := by
  induction l with
  | nil => exact hr
  | cons b l ih =>
    rw [assertEach] at hr ⊢
    rcases hb : check b with _ | (e | u)
    · rw [hb] at hr
      cases hr
    · rw [hb] at hr
      rw [h b _ hb]
      exact hr
    · rw [hb] at hr
      rw [h b _ hb]
      exact ih hr

/-- A result stays with more stack. -/
theorem assertImpl_mono {frames frames' depth : ℕ} {path : String} {r : Except String Unit}
    (h : assertImpl heap frames v path depth = some r) (hle : frames ≤ frames') :
    assertImpl heap frames' v path depth = some r := by
  induction frames generalizing frames' v path depth r with
  | zero => cases h
  | succ frames ih =>
    cases frames' with
    | zero => cases hle
    | succ frames' =>
      have hle' : frames ≤ frames' := Nat.le_of_succ_le_succ hle
      cases v with
      | ref r =>
        rw [assertImpl] at h ⊢
        by_cases hdeep : MAX_DEPTH < depth
        · rw [if_pos hdeep] at h ⊢
          exact h
        · rw [if_neg hdeep] at h ⊢
          rcases hr : rejection path (heap r) with _ | message
          · simp only [hr] at h ⊢
            exact assertEach_mono (fun child r hc => ih hc hle') h
          · simp only [hr] at h ⊢
            exact h
      | _ => exact h

/-- The recursion ends at depth 65, so a call at depth `d` needs the frames down to there. -/
theorem assertImpl_total {frames depth : ℕ} (h : MAX_DEPTH + 2 ≤ frames + depth)
    (hd : depth ≤ MAX_DEPTH + 1) (path : String) :
    ∃ r, assertImpl heap frames v path depth = some r := by
  induction frames generalizing v path depth with
  | zero => omega
  | succ frames ih =>
    by_cases hdeep : MAX_DEPTH < depth
    · exact ⟨_, assertImpl_deep hdeep frames v path⟩
    · cases v with
      | ref r =>
        rw [assertImpl, if_neg hdeep]
        rcases rejection path (heap r) with _ | message
        · exact assertEach_result fun child _ => ih (by omega) (by omega) child.2
        · exact ⟨_, rfl⟩
      | number x =>
        rw [assertImpl, if_neg hdeep]
        by_cases hx : x.isFinite = true
        · exact ⟨_, if_pos hx⟩
        · exact ⟨_, if_neg hx⟩
      | _ =>
        rw [assertImpl, if_neg hdeep]
        exact ⟨_, rfl⟩

/-- What the validator lets through, by the number of levels that a value may
have: null, a boolean, a string or a finite number, or an array or object that
passes the checks, with parts of one level less. -/
def Loose (heap : Heap Ref) : ℕ → JsValue Ref → Prop
  | 0, _ => False
  | levels + 1, value =>
    match value with
    | .null | .string _ | .boolean _ => True
    | .number x => x.isFinite = true
    | .ref r => (heap r).Passes ∧ ∀ part ∈ (heap r).followed, Loose heap levels part
    | .undefined | .function | .symbol | .bigint _ => False

/-- With enough stack, a call returns normally if and only if its value is loose
within the levels that are left. -/
theorem assertImpl_ok {frames depth : ℕ} (h : MAX_DEPTH + 2 ≤ frames + depth) (path : String) :
    assertImpl heap frames v path depth = some (.ok ()) ↔
      Loose heap (MAX_DEPTH + 1 - depth) v := by
  induction frames generalizing v path depth with
  | zero =>
    have hlevels : MAX_DEPTH + 1 - depth = 0 := by omega
    rw [hlevels]
    simp [assertImpl, Loose]
  | succ frames ih =>
    by_cases hdeep : MAX_DEPTH < depth
    · have hlevels : MAX_DEPTH + 1 - depth = 0 := by omega
      rw [hlevels, assertImpl_deep hdeep]
      simp [Loose]
    · have hlevels : MAX_DEPTH + 1 - depth = MAX_DEPTH - depth + 1 := by omega
      rw [hlevels]
      cases v with
      | ref r =>
        simp only [assertImpl, if_neg hdeep, Loose]
        rcases hr : rejection path (heap r) with _ | message
        · have hpart : ∀ child : JsValue Ref × String,
              assertImpl heap frames child.1 child.2 (depth + 1) = some (.ok ()) ↔
                Loose heap (MAX_DEPTH - depth) child.1 := by
            intro child
            have hnext : MAX_DEPTH + 1 - (depth + 1) = MAX_DEPTH - depth := by omega
            rw [ih (by omega), hnext]
          simp only [assertEach_ok, hpart, rejection_eq_none.mp hr, true_and]
          rw [← Cell.children_fst path, List.forall_mem_map]
        · apply iff_of_false (by simp)
          rintro ⟨hpasses, -⟩
          rw [rejection_eq_none.mpr hpasses] at hr
          cases hr
      | number x => simp [assertImpl, hdeep, Loose]
      | _ => simp [assertImpl, hdeep, Loose]

/-- The validator returns normally if and only if the value is loose within 65 levels. -/
theorem accepts_iff : Accepts heap v ↔ Loose heap (MAX_DEPTH + 1) v := by
  constructor
  · rintro ⟨frames, h⟩
    have hmore := assertImpl_mono h (Nat.le_add_right frames (MAX_DEPTH + 2))
    exact (assertImpl_ok (by omega) "payload").mp hmore
  · intro h
    exact ⟨MAX_DEPTH + 2, (assertImpl_ok (by omega) "payload").mpr h⟩

end Validator

end Panqueue
