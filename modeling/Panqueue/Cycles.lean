-- The payload validator on heaps with shared parts and cycles: it always ends,
-- and it lets no cycle through to JSON.stringify.
import Panqueue.PlainJson

namespace Panqueue

variable {Ref : Type} {heap : Heap Ref} {v w : JsValue Ref} {m n : ℕ}

/-! ## JSON.stringify -/

/-- The walk of JSON.stringify, with room for `frames` of its calls. It throws
on an array or object that it is still in the middle of, which `stack` lists.
`toJSON` methods are not modelled. -/
def stringifyWalk [DecidableEq Ref] (heap : Heap Ref) :
    ℕ → List Ref → JsValue Ref → Option (Except String Unit)
  | 0, _, _ => none
  | frames + 1, stack, value =>
    match value with
    | .ref r =>
      if r ∈ stack then some (.error "Converting circular structure to JSON")
      else assertEach (stringifyWalk heap frames (r :: stack)) (heap r).followed
    | .bigint _ => some (.error "Do not know how to serialize a BigInt")
    | _ => some (.ok ())

/-! ## What is accepted has no cycle -/

/-- Below a value that is loose within `n` levels, no walk has `n` edges. -/
theorem Loose.walk_lt (h : Loose heap n v) (hw : Walk (followed heap) m v w) : m < n := by
  obtain ⟨k, rfl, hk⟩ := h.walk hw
  cases k with
  | zero => cases hk
  | succ k => omega

theorem Loose.no_cycle (h : Loose heap n v) (hc : Walk (followed heap) m v v) : m = 0 :=
  Walk.no_cycle (fun _ _ hw => (h.walk_lt hw).le) (.refl v) hc

/-- The walk of JSON.stringify goes through a loose value: each array or object
on its stack reaches the value, so the value is none of them. -/
theorem Loose.stringifyWalk [DecidableEq Ref] {stack : List Ref} (h : Loose heap n v)
    (hstack : ∀ r ∈ stack, ∃ m, Walk (followed heap) (m + 1) (.ref r) v) :
    Panqueue.stringifyWalk heap n stack v = some (.ok ()) := by
  induction n generalizing stack v with
  | zero => exact h.elim
  | succ n ih =>
    cases v with
    | ref r =>
      have hnew : r ∉ stack := by
        intro hr
        obtain ⟨m, hm⟩ := hstack r hr
        cases h.no_cycle hm
      rw [Panqueue.stringifyWalk, if_neg hnew, assertEach_ok]
      intro part hp
      have hedge : part ∈ followed heap (.ref r) := hp
      apply ih (h.2 part hp)
      intro s hs
      rcases List.mem_cons.mp hs with rfl | hs
      · exact ⟨0, .single hedge⟩
      · obtain ⟨m, hm⟩ := hstack s hs
        exact ⟨m + 1, hm.snoc hedge⟩
    | bigint k => exact h.elim
    | _ => rfl

/-! ## The validator -/

/-- The validator always ends, with 66 calls on the stack at most: the root and
65 below it. If it returns normally, each walk along the edges that it follows
has at most 64 edges and comes to no cycle, and JSON.stringify, which follows
the same edges, meets no circular structure. -/
theorem the_validator_ends_and_passes_no_cycle [DecidableEq Ref] (heap : Heap Ref)
    (v : JsValue Ref) :
    (∃ r, ∀ frames ≥ MAX_DEPTH + 2, assertJsonSerializable heap frames v = some r) ∧
    (Accepts heap v →
      (∀ n w, Walk (followed heap) n v w → n ≤ MAX_DEPTH) ∧
      (∀ m n w, Walk (followed heap) m v w → Walk (followed heap) n w w → n = 0) ∧
      stringifyWalk heap (MAX_DEPTH + 1) [] v = some (.ok ())) := by
  constructor
  · obtain ⟨r, hr⟩ : ∃ r, assertImpl heap (MAX_DEPTH + 2) v "payload" 0 = some r :=
      assertImpl_total (by omega) (by omega) "payload"
    exact ⟨r, fun frames hle => assertImpl_mono hr hle⟩
  · intro haccepts
    have hloose := accepts_iff.mp haccepts
    have hbound : ∀ n w, Walk (followed heap) n v w → n ≤ MAX_DEPTH := fun n w hw =>
      Nat.le_of_lt_succ (hloose.walk_lt hw)
    refine ⟨hbound, fun m n w hm hn => Walk.no_cycle hbound hm hn, ?_⟩
    exact hloose.stringifyWalk (by simp)

/-- Two references to one object, and no cycle. -/
def sampleShared : Heap Bool
  | true => .object .objectPrototype
    [⟨.string "a", true, .ref false⟩, ⟨.string "b", true, .ref false⟩]
  | false => .array .arrayPrototype [] []

/-- An object with two references to one array is accepted, and its walks are short. -/
theorem sample_shared_has_no_cycle :
    Accepts sampleShared (.ref true) ∧
      ∀ n w, Walk (followed sampleShared) n (.ref true) w → n ≤ MAX_DEPTH := by
  have haccepts : Accepts sampleShared (.ref true) := ⟨3, by decide⟩
  exact ⟨haccepts,
    ((the_validator_ends_and_passes_no_cycle sampleShared (.ref true)).2 haccepts).1⟩

end Panqueue
