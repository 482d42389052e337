-- A refused payload: the validator throws at the first value in document order
-- that it refuses by itself, and its message begins with the path to that value.
import Panqueue.Serialization

namespace Panqueue

variable {Ref : Type} {heap : Heap Ref} {v w : JsValue Ref} {levels : ℕ}

/-! ## Paths -/

/-- One step into an array or an object. -/
inductive Accessor
  | index (i : ℕ)
  | key (s : String)
  deriving DecidableEq

def Accessor.text : Accessor → String
  | index i => "[" ++ toString i ++ "]"
  | key s => "." ++ s

/-- A path from the root, as the messages write it. -/
def pathText (path : List Accessor) : String :=
  path.foldl (fun text a => text ++ a.text) "payload"

theorem pathText_snoc (path : List Accessor) (a : Accessor) :
    pathText (path ++ [a]) = pathText path ++ a.text := by
  unfold pathText
  rw [List.foldl_append]
  rfl

/-- The values that the validator looks at next, each with its accessor. -/
def Cell.steps : Cell (JsValue Ref) → List (Accessor × JsValue Ref)
  | array _ slots _ => slots.zipIdx.map fun s => (.index s.2, s.1.read)
  | object _ properties => (entries properties).map fun e => (.key e.1, e.2)
  | view _ => []

theorem Cell.children_eq (path : String) (c : Cell (JsValue Ref)) :
    c.children path = c.steps.map fun s => (s.2, path ++ s.1.text) := by
  unfold Cell.children Cell.steps
  cases c with
  | array proto slots others =>
    rw [List.map_map]
    apply List.map_congr_left
    intro s _
    simp [Accessor.text, String.append_assoc]
  | object proto properties =>
    rw [List.map_map]
    apply List.map_congr_left
    intro e _
    simp [Accessor.text, String.append_assoc]
  | view proto => rfl

/-- The path leads from one value to another. -/
inductive Leads (heap : Heap Ref) : JsValue Ref → List Accessor → JsValue Ref → Prop
  | here (v : JsValue Ref) : Leads heap v [] v
  | step {r : Ref} {a : Accessor} {u w : JsValue Ref} {path : List Accessor} :
    (a, u) ∈ (heap r).steps → Leads heap u path w → Leads heap (.ref r) (a :: path) w

/-! ## Document order -/

/-- The values within some levels, in document order, each with its path, which continues `path`. -/
def preorder (heap : Heap Ref) :
    ℕ → JsValue Ref → List Accessor → List (List Accessor × JsValue Ref)
  | 0, _, _ => []
  | levels + 1, v, path =>
    (path, v) ::
      match v with
      | .ref r => (heap r).steps.flatMap fun s => preorder heap levels s.2 (path ++ [s.1])
      | _ => []

theorem mem_preorder {path path' : List Accessor} :
    (path', w) ∈ preorder heap levels v path ↔
      ∃ rest, path' = path ++ rest ∧ rest.length < levels ∧ Leads heap v rest w := by
  induction levels generalizing v path with
  | zero => simp [preorder]
  | succ levels ih =>
    unfold preorder
    rw [List.mem_cons]
    constructor
    · rintro (he | hmem)
      · obtain ⟨hp, rfl⟩ := Prod.mk.inj he
        rw [hp]
        exact ⟨[], (List.append_nil path).symm, Nat.succ_pos _, .here w⟩
      · cases v with
        | ref r =>
          obtain ⟨⟨a, u⟩, hs, hmem⟩ := List.mem_flatMap.mp hmem
          obtain ⟨rest, rfl, hlt, hleads⟩ := ih.mp hmem
          refine ⟨a :: rest, ?_, Nat.succ_lt_succ hlt, .step hs hleads⟩
          rw [List.append_assoc, List.singleton_append]
        | _ => cases hmem
    · rintro ⟨rest, rfl, hlt, hleads⟩
      cases hleads with
      | here => exact Or.inl (by rw [List.append_nil])
      | step hs hleads =>
        refine Or.inr (List.mem_flatMap.mpr
          ⟨_, hs, ih.mpr ⟨_, ?_, Nat.lt_of_succ_lt_succ hlt, hleads⟩⟩)
        rw [List.append_assoc, List.singleton_append]

/-- Why a value is refused by itself, as the message says it after the path. -/
def unfit (heap : Heap Ref) : JsValue Ref → Option String
  | .null | .string _ | .boolean _ => none
  | .number x => if x.isFinite then none else some " contains a non-finite number (NaN or Infinity)"
  | .undefined => some " contains undefined"
  | .function => some " contains a function"
  | .symbol => some " contains a symbol"
  | .bigint _ => some " contains a BigInt"
  | .ref r => rejection "" (heap r)

/-- The same at a depth. -/
def refusal (heap : Heap Ref) (depth : ℕ) (v : JsValue Ref) : Option String :=
  if MAX_DEPTH < depth then some (" exceeds maximum nesting depth of " ++ toString MAX_DEPTH)
  else unfit heap v

theorem rejection_eq (path : String) (c : Cell (JsValue Ref)) :
    rejection path c = (rejection "" c).map (path ++ ·) := by
  unfold rejection
  split
  · simp
  split
  · simp
  split
  · split <;> simp [String.append_assoc]
  split
  · simp
  split
  · rfl
  split
  · simp
  · rfl

/-- The message that a value is refused with by itself. -/
def offence (heap : Heap Ref) (x : List Accessor × JsValue Ref) : Option String :=
  (refusal heap x.1.length x.2).map (pathText x.1 ++ ·)

/-- The validator throws what it found, if anything. -/
def thrown : Option String → Except String Unit
  | none => .ok ()
  | some message => .error message

/-! ## The first value that is refused -/

theorem findSome?_flatMap {α β γ : Type} (f : β → Option γ) (g : α → List β) (l : List α) :
    (l.flatMap g).findSome? f = l.findSome? fun a => (g a).findSome? f := by
  induction l with
  | nil => rfl
  | cons a l ih =>
    rw [List.flatMap_cons, List.findSome?_append, List.findSome?_cons, ih]
    cases (g a).findSome? f <;> rfl

/-- A loop throws what the first of its checks throws. -/
theorem assertEach_thrown {β : Type} {check : β → Option (Except String Unit)}
    {found : β → Option String} {l : List β}
    (h : ∀ b ∈ l, check b = some (thrown (found b))) :
    assertEach check l = some (thrown (l.findSome? found)) := by
  induction l with
  | nil => rfl
  | cons b l ih =>
    unfold assertEach
    rw [h b List.mem_cons_self, List.findSome?_cons]
    cases found b with
    | none => exact ih fun c hc => h c (List.mem_cons_of_mem _ hc)
    | some message => rfl

theorem assertEach_map {β γ : Type} (check : γ → Option (Except String Unit)) (f : β → γ)
    (l : List β) : assertEach check (l.map f) = assertEach (fun b => check (f b)) l := by
  induction l with
  | nil => rfl
  | cons b l ih =>
    simp only [List.map_cons, assertEach, ih]

/-- The validator throws at the first value in document order that is refused by itself. -/
theorem assertImpl_thrown {path : List Accessor} (h : MAX_DEPTH + 2 ≤ levels + path.length)
    (hd : path.length ≤ MAX_DEPTH + 1) :
    assertImpl heap levels v (pathText path) path.length =
      some (thrown ((preorder heap levels v path).findSome? (offence heap))) := by
  induction levels generalizing v path with
  | zero => omega
  | succ levels ih =>
    unfold preorder
    rw [List.findSome?_cons]
    by_cases hdeep : MAX_DEPTH < path.length
    · have ho : offence heap (path, v) =
          some (pathText path ++ (" exceeds maximum nesting depth of " ++ toString MAX_DEPTH)) := by
        unfold offence refusal
        rw [if_pos hdeep]
        rfl
      rw [assertImpl_deep hdeep, ho, String.append_assoc]
      rfl
    · have ho : offence heap (path, v) = (unfit heap v).map (pathText path ++ ·) := by
        unfold offence refusal
        rw [if_neg hdeep]
      rw [ho]
      cases v with
      | ref r =>
        have hu : unfit heap (.ref r) = rejection "" (heap r) := rfl
        rw [assertImpl, if_neg hdeep, rejection_eq, hu]
        rcases rejection "" (heap r) with _ | reason
        · -- the parts come next, in their order
          change assertEach _ _ = some (thrown (List.findSome? _ (List.flatMap _ _)))
          rw [Cell.children_eq, assertEach_map, findSome?_flatMap]
          apply assertEach_thrown
          intro s _
          have hs := @ih s.2 (path ++ [s.1])
          rw [pathText_snoc, List.length_append, List.length_singleton] at hs
          exact hs (by omega) (by omega)
        · rfl
      | number x =>
        have hu : unfit heap (.number x) = if x.isFinite then none else
            some " contains a non-finite number (NaN or Infinity)" := rfl
        rw [assertImpl, if_neg hdeep, hu]
        by_cases hx : x.isFinite = true
        · rw [if_pos hx, if_pos hx]
          rfl
        · rw [if_neg hx, if_neg hx]
          rfl
      | _ =>
        rw [assertImpl, if_neg hdeep]
        rfl

/-- The validator accepts a payload if and only if it refuses no value on any
path of at most 65 steps by itself. Otherwise it throws at the first such value
in document order, and its message is the path to that value and the reason. -/
theorem a_refusal_names_the_first_offender (heap : Heap Ref) (v : JsValue Ref) {frames : ℕ}
    (h : MAX_DEPTH + 2 ≤ frames) :
    (assertJsonSerializable heap frames v = some (.ok ()) ↔
      ∀ path w, Leads heap v path w → path.length ≤ MAX_DEPTH + 1 →
        refusal heap path.length w = none) ∧
    ∀ message, assertJsonSerializable heap frames v = some (.error message) ↔
      ∃ before path w after reason,
        preorder heap (MAX_DEPTH + 2) v [] = before ++ (path, w) :: after ∧
        (∀ x ∈ before, refusal heap x.1.length x.2 = none) ∧
        refusal heap path.length w = some reason ∧
        Leads heap v path w ∧ message = pathText path ++ reason := by
  have hrun : assertJsonSerializable heap frames v =
      some (thrown ((preorder heap (MAX_DEPTH + 2) v []).findSome? (offence heap))) := by
    have hbase := @assertImpl_thrown Ref heap v (MAX_DEPTH + 2) [] (by simp) (by simp)
    exact assertImpl_mono hbase h
  have hnone : ∀ x : List Accessor × JsValue Ref,
      offence heap x = none ↔ refusal heap x.1.length x.2 = none := fun x => Option.map_eq_none_iff
  rw [hrun]
  refine ⟨?_, ?_⟩
  · have hthrown : ∀ o, some (thrown o) = some (.ok ()) ↔ o = none := by
      intro o
      cases o <;> simp [thrown]
    rw [hthrown, List.findSome?_eq_none_iff]
    constructor
    · intro hall path w hleads hlen
      apply (hnone (path, w)).mp
      apply hall
      exact mem_preorder.mpr ⟨path, rfl, by omega, hleads⟩
    · rintro hall ⟨path, w⟩ hx
      obtain ⟨rest, rfl, hlt, hleads⟩ := mem_preorder.mp hx
      apply (hnone _).mpr
      exact hall _ w hleads (by simpa using Nat.le_of_lt_succ hlt)
  · intro message
    have hthrown : ∀ o, some (thrown o) = some (.error message) ↔ o = some message := by
      intro o
      cases o <;> simp [thrown]
    rw [hthrown, List.findSome?_eq_some_iff]
    constructor
    · rintro ⟨before, ⟨path, w⟩, after, hsplit, ho, hbefore⟩
      obtain ⟨reason, hr, rfl⟩ := Option.map_eq_some_iff.mp ho
      have hmem : (path, w) ∈ preorder heap (MAX_DEPTH + 2) v [] := by
        rw [hsplit]
        exact List.mem_append_right _ List.mem_cons_self
      obtain ⟨rest, rfl, -, hleads⟩ := mem_preorder.mp hmem
      exact ⟨before, _, w, after, reason, hsplit, fun x hx => (hnone x).mp (hbefore x hx), hr,
        hleads, rfl⟩
    · rintro ⟨before, path, w, after, reason, hsplit, hbefore, hr, -, rfl⟩
      refine ⟨before, (path, w), after, hsplit, ?_, fun x hx => (hnone x).mpr (hbefore x hx)⟩
      unfold offence
      rw [hr]
      rfl

/-- An object with an array whose second element is missing. -/
def sampleHole : Heap Bool
  | true => .object .objectPrototype [⟨.string "a", true, .ref false⟩]
  | false => .array .arrayPrototype [.own true .null, .hole, .hole] []

/-- The message names the second element: it is read as undefined. -/
theorem sample_hole_is_named :
    ∃ path w reason, Leads sampleHole (.ref true) path w ∧
      refusal sampleHole path.length w = some reason ∧
      "payload.a[1] contains undefined" = pathText path ++ reason := by
  have hthrows : assertJsonSerializable sampleHole (MAX_DEPTH + 2) (.ref true) =
      some (.error "payload.a[1] contains undefined") := by decide +kernel
  obtain ⟨-, path, w, -, reason, -, -, hr, hleads, hmessage⟩ :=
    ((a_refusal_names_the_first_offender sampleHole (.ref true) (Nat.le_refl _)).2 _).mp hthrows
  exact ⟨path, w, reason, hleads, hr, hmessage⟩

end Panqueue
