-- Recovery sweeps on any queue at all: which jobs a sweep takes from the
-- active set, and whether the runner hears of them.
import Panqueue.Isolation

namespace Panqueue

variable {δ : Type} {q q' : Queue} {t : RedisTime} {i : String} {h : JobHash} {w : Counters}

/-! ## A key that holds a hash -/

/-- The job key holds this hash. -/
def Queue.Holds (q : Queue) (i : String) (h : JobHash) : Prop := q.jobs i = some (.hash h)

namespace Queue.Holds

theorem setHash (q : Queue) (i : String) (h : JobHash) : (q.setHash i h).Holds i h :=
  Function.update_self _ _ _

theorem keyExists (hq : q.Holds i h) : Redis.keyExists i q = .ok true q := by
  simp only [Redis.keyExists, show q.jobs i = _ from hq, Option.isSome_some]

theorem hget {β : Type} (hq : q.Holds i h) (get : JobHash → Option β) :
    Redis.hget i get q = .ok (get h) q := by
  simp only [Redis.hget, show q.jobs i = _ from hq]

theorem hgetall (hq : q.Holds i h) : Redis.hgetall i q = .ok h q := by
  simp only [Redis.hgetall, show q.jobs i = _ from hq]

theorem hset (hq : q.Holds i h) (put : JobHash → JobHash) :
    ∃ q', Redis.hset i put q = .ok () q' ∧ q'.Holds i (put h) :=
  ⟨_, by simp only [Redis.hset, show q.jobs i = _ from hq], setHash q i _⟩

/-- HDEL of the lease leaves the other fields, and there is one. -/
theorem hdelLease (hq : q.Holds i h) {k : FailureKind} (hk : h.failureKind = some k) :
    ∃ q', Redis.hdelLease i q = .ok () q' ∧
      q'.Holds i { h with lockToken := none, leaseDeadline := none } := by
  have hne : JobHash.isEmpty { h with lockToken := none, leaseDeadline := none } = false := by
    refine decide_eq_false fun he => ?_
    have hkind := congrArg JobHash.failureKind he
    rw [show _ = h.failureKind from rfl, hk] at hkind
    cases hkind
  refine ⟨_, ?_, setHash q i _⟩
  simp only [Redis.hdelLease, show q.jobs i = _ from hq, hne]
  rfl

/-- Retention never breaks off on a job with a hash. -/
theorem retentionLua (hq : q.Holds i h) (s : FinalStatus) (r : ResolvedRetention) (now : ℕ) :
    ∃ q', retentionLua s r now i q = .ok () q' := by
  unfold Panqueue.retentionLua Lua.retentionLua
  by_cases hd : r.mode = .delete
  · exact ⟨_, by rw [if_pos hd]; rfl⟩
  · obtain ⟨q1, r1, -⟩ := hq.hset fun h =>
      { h with status := some s.status, finishedAt := some (.int now) }
    rw [if_neg hd]
    simp only [Script.run_bind, r1, Redis.zaddIndex]
    by_cases ht : r.mode = .trim
    · rw [if_pos ht]
      obtain ⟨q2, r2, -⟩ := trimByTtl_spec s r.ttl now
        (q1.setIndex ((q1.index s).add (Score.ofNat now) i) s)
      obtain ⟨q3, r3, -⟩ := trimByCount_spec s r.count q2
      exact ⟨q3, (Script.bind_ok r2).trans r3⟩
    · rw [if_neg ht]
      exact ⟨_, rfl⟩

end Queue.Holds

/-! ## One turn of a sweep -/

variable (w) (parse : String → Except String δ)

/-- The recover loop, with counters of a kind. -/
def recoverLoopOf (t : RedisTime) (a : RecoverArgs) (limited : Bool) (ids : List String) :
    QueueScript (List RecoverEntry) :=
  Lua.recoverEach (Lua.recoverOne (Redis.commandsOf w) t a limited) ids

/-- The keys that the loop comes to, each as it stands at its turn, up to the
first turn that breaks off. -/
def turns (w : Counters) (t : RedisTime) (a : RecoverArgs) (limited : Bool) :
    List String → Queue → List (Option JobKey)
  | [], _ => []
  | i :: ids, q =>
    let rest := match Lua.recoverOne (Redis.commandsOf w) t a limited i q with
      | .ok _ q' => turns w t a limited ids q'
      | .error _ _ => []
    if q.Due t.now i then q.jobs i :: rest else rest

/-- The entries that the loop makes, up to the first turn that breaks off: a
job entry for each job that it requeued or failed for good. -/
def swept (w : Counters) (t : RedisTime) (a : RecoverArgs) (limited : Bool) :
    List String → Queue → List RecoverEntry
  | [], _ => []
  | i :: ids, q =>
    match Lua.recoverOne (Redis.commandsOf w) t a limited i q with
    | .ok es q' => es ++ swept w t a limited ids q'
    | .error _ _ => []

variable (sha1hex : String → String)

theorem execOf_recover (t : RedisTime) (a : RecoverArgs) (q : Queue) :
    execOf w sha1hex (.recover a, t) q =
      match recoverLoopOf w t a q.limit.isSome (q.candidates t a) q with
      | .ok es q' => (.recover es, q')
      | .error e q' => (.error e, q') := by
  have hrun : Lua.recover (Redis.commandsOf w) t a q =
      recoverLoopOf w t a q.limit.isSome (q.candidates t a) q := rfl
  simp only [execOf, Lua.exec, runScript, hrun]
  rcases recoverLoopOf w t a q.limit.isSome (q.candidates t a) q with ⟨es, q'⟩ | ⟨e, q'⟩
  · rfl
  · rfl

theorem exec_recover (t : RedisTime) (a : RecoverArgs) (q : Queue) :
    exec sha1hex (.recover a, t) q =
      match recoverLoop t a q.limit.isSome (q.candidates t a) q with
      | .ok es q' => (.recover es, q')
      | .error e q' => (.error e, q') :=
  execOf_recover .unbounded sha1hex t a q

def sampleRecover : RecoverArgs := ⟨10, "stalled: lease expired", ⟨.keep, -1, -1⟩⟩

end Panqueue
