-- Corrupt jobs: a pointer without a hash is reported once and is gone for
-- good. A hash that does not decode is reported as corrupt too, but the script
-- has made its job active by then.
import Panqueue.Isolation

namespace Panqueue

variable {δ : Type} {q q' : Queue} {t : RedisTime} {i x : String}

/-! ## The sweep with its pointers -/

/-- The body of the recover loop, with its pointer. -/
def recoverPointer (t : RedisTime) (a : RecoverArgs) (limited : Bool) (jobId : String) :
    QueueScript (List (String × RecoverEntry)) :=
  List.map (Prod.mk jobId) <$> recoverOne t a limited jobId

/-- The recover loop, with the pointer that each entry came from. -/
def recoverPointers (t : RedisTime) (a : RecoverArgs) (limited : Bool) (ids : List String) :
    QueueScript (List (String × RecoverEntry)) :=
  Lua.recoverEach (recoverPointer t a limited) ids

/-- The recover loop is the loop with pointers, with the pointers left out. -/
theorem recoverLoop_eq_pointers (a : RecoverArgs) (limited : Bool) (ids : List String) :
    recoverLoop t a limited ids = List.map Prod.snd <$> recoverPointers t a limited ids := by
  rw [recoverPointers, ← recoverEach_map]
  unfold recoverLoop
  congr 1
  funext i
  simp only [recoverPointer, Functor.map_map, List.map_map, Function.comp_def, List.map_id',
    id_map']

theorem recoverPointers_cons (a : RecoverArgs) (limited : Bool) (i : String) (ids : List String) :
    recoverPointers t a limited (i :: ids) = (do
      let entry ← recoverOne t a limited i
      let recovered ← recoverPointers t a limited ids
      pure (entry.map (Prod.mk i) ++ recovered)) := by
  simp only [recoverPointers, Lua.recoverEach, recoverPointer, bind_map_left]

/-- `RECOVER_SCRIPT`, with the pointer that each entry came from. -/
def recoverBatchPointers (t : RedisTime) (a : RecoverArgs) :
    QueueScript (List (String × RecoverEntry)) :=
  Lua.recoverBatch Redis.commands (recoverPointer t a) t a

theorem recover_eq_pointers (t : RedisTime) (a : RecoverArgs) :
    recover t a = List.map Prod.snd <$> recoverBatchPointers t a := by
  unfold recover Lua.recover recoverBatchPointers Lua.recoverBatch
  simp only [recoverLoop_eq_pointers, map_bind, recoverPointers]

/-! ## Pointers that a reply speaks of -/

variable (sha1hex : String → String)

/-- The pointers whose entries a script gives back. A script that breaks off gives none. -/
def given {α : Type} (x : QueueScript (List (String × α))) (q : Queue) : List String :=
  match x q with
  | .ok ps _ => ps.map Prod.fst
  | .error _ _ => []

/-- The pointers that the entries of a reply came from: only a claim and a sweep
give back entries. -/
def answered (op : Call × RedisTime) (q : Queue) : List String :=
  match op.1 with
  | .claimGlobalBatch a => given (claimGlobalBatchPointers .unbounded sha1hex op.2 a) q
  | .recover a => given (recoverBatchPointers op.2 a) q
  | _ => []

/-- A batch on a queue that lists no id twice: a pointer without a hash is nowhere after it. -/
theorem ClaimedBatch.absent {now n : ℕ} {ps : List (String × ClaimEntry)} {e : ClaimEntry}
    (h : ClaimedBatch sha1hex now n ps q q') (hnodup : (q.waiting ++ q.active.members).Nodup)
    (hmem : (x, e) ∈ ps) (hkey : q.jobs x = none) : q'.Absent x := by
  have hpopped : x ∈ (ps.map Prod.fst).reverse :=
    List.mem_reverse.mpr (List.mem_map_of_mem (f := Prod.fst) hmem)
  obtain ⟨hw, -, hdisj⟩ := List.nodup_append.mp hnodup
  rw [h.waiting] at hw hdisj
  refine ⟨?_, SortedSet.score_eq_none.mpr ?_, ?_⟩
  · intro hx
    exact (List.nodup_append.mp hw).2.2 x hx x hpopped rfl
  · rw [h.active]
    rintro (hx | ⟨y, hy⟩)
    · exact hdisj x (List.mem_append_right _ hpopped) x hx rfl
    · rcases h.entries x _ hy with ⟨_, he⟩ | ⟨z, -, -, hz, -⟩
      · cases he
      · rw [hkey] at hz
        cases hz
  · rw [← Option.not_isSome_iff_eq_none, h.keys, hkey]
    simp

end Panqueue
