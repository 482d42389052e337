-- Bad stored data in a claim: a batch hands over each pointer that it popped,
-- unless one of their job keys makes HINCRBY fail. There is no rollback, so
-- then the jobs before it stay active and nobody hears of them.
import Panqueue.Pointers

namespace Panqueue

variable {δ : Type} {q q' : Queue} {t : RedisTime} {i : String} (w : Counters)
  (sha1hex : String → String) (parse : String → Except String δ)

/-! ## The batch with its pointers -/

/-- `CLAIM_GLOBAL_BATCH_SCRIPT`, with the pointer that each entry came from. -/
def claimGlobalBatchPointers (t : RedisTime) (a : ClaimGlobalBatchArgs) :
    QueueScript (List (String × ClaimEntry)) :=
  Lua.claimBatch (Redis.commandsOf w) (claimPointer w sha1hex t.now) t a

theorem claimGlobalBatch_eq_pointers (t : RedisTime) (a : ClaimGlobalBatchArgs) :
    Lua.claimGlobalBatch (Redis.commandsOf w) sha1hex t a =
      List.map Prod.snd <$> claimGlobalBatchPointers w sha1hex t a := by
  unfold Lua.claimGlobalBatch claimGlobalBatchPointers Lua.claimBatch
  simp only [claimEach_eq_pointers, map_bind, claimPointers]

theorem claimGlobalBatchPointers_run (t : RedisTime) (a : ClaimGlobalBatchArgs) (q : Queue) :
    claimGlobalBatchPointers w sha1hex t a q = claimPointers w sha1hex t.now
      (a.leaseMs.plus t.now) (claimCount q.limit q.active.card a.count) q := rfl

/-- A claim call answers with its entries, or with the error that broke it off. -/
theorem execOf_claim (t : RedisTime) (a : ClaimGlobalBatchArgs) (q : Queue) :
    execOf w sha1hex (.claimGlobalBatch a, t) q =
      match claimGlobalBatchPointers w sha1hex t a q with
      | .ok ps q' => (.claimGlobalBatch (ps.map Prod.snd), q')
      | .error e q' => (.error e, q') := by
  simp only [execOf, Lua.exec, runScript, claimGlobalBatch_eq_pointers]
  rw [map_eq_pure_bind, Script.run_bind]
  rcases claimGlobalBatchPointers w sha1hex t a q with ⟨ps, q'⟩ | ⟨e, q'⟩
  · rfl
  · rfl

theorem exec_claim (t : RedisTime) (a : ClaimGlobalBatchArgs) (q : Queue) :
    exec sha1hex (.claimGlobalBatch a, t) q =
      match claimGlobalBatchPointers .unbounded sha1hex t a q with
      | .ok ps q' => (.claimGlobalBatch (ps.map Prod.snd), q')
      | .error e q' => (.error e, q') :=
  execOf_claim .unbounded sha1hex t a q

/-! ## Popped and accounted for -/

/-- The ids that a claim popped: those that left the right end of the waiting list, in order. -/
def popped (q q' : Queue) : List String := (q.waiting.drop q'.waiting.length).reverse

/-- The runner gets the popped id as a job of that id that is active now, with
the lock that this claim put on it, or it gets a corrupt entry of that id. -/
def Accounted (now : ℕ) (q' : Queue) (i : String) (e : ClaimEntry) : Prop :=
  (i ∈ q'.active.members ∧ ∃ h runs job, e = .job h ∧
    h.lockToken = some (sha1hex (tokenText i now runs)) ∧
    decodeClaimEntry parse e = .job job ∧ job.id = i) ∨
  decodeClaimEntry parse e = .corrupt i

variable {now n : ℕ} {ps : List (String × ClaimEntry)}

/-- A parser that takes every text. -/
def sampleParse (s : String) : Except String String := .ok s

end Panqueue
