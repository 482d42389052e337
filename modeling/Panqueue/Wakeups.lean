-- No wakeup is lost: runners on one queue, with their claim calls and the
-- notifications on their way, under any interleaving with other scripts.
import Panqueue.Announce
import Panqueue.Handshake

namespace Panqueue

variable {δ : Type}

/-! ## Claim replies -/

variable (sha1hex : String → String) {q q' : Queue}

/-- The stored limit is a whole number, as the pool checks it before it declares one. -/
def Queue.LimitIsWhole (q : Queue) : Prop := ∀ limit ∈ q.limit, ∃ n : ℕ, limit = .ofNat n

/-- With a whole limit, a claim that may take nothing finds no capacity. -/
theorem not_claimable_of_claimCount {count : ℕ} (hw : q.LimitIsWhole) (hc : 0 < count)
    (h : claimCount q.limit q.active.card count = 0) : ¬ q.Claimable := by
  rintro ⟨_, hcap⟩
  rcases hl : q.limit with _ | limit
  · rw [hl] at h
    simp only [claimCount] at h
    omega
  · obtain ⟨n, rfl⟩ := hw limit hl
    have hlt : q.active.card < n := Double.ofNat_lt.mp (hcap _ hl)
    have hle : (q.active.card : ℚ) + 1 ≤ n := by exact_mod_cast hlt
    have hfloor : 1 ≤ ⌊(n : ℚ) + -(q.active.card : ℚ)⌋ :=
      Int.le_floor.mpr (by push_cast; linarith)
    rw [hl] at h
    simp only [claimCount, Double.ofNat, Double.addRat_ofRat, Double.ofRat_lt,
      Double.rounds_ofRat] at h
    split at h
    · rename_i hfree
      push_cast at hfree
      linarith
    · split at h
      · omega
      · omega

/-- A claim call that got an empty reply left nothing to claim. -/
theorem empty_claim {t : RedisTime} {a : ClaimGlobalBatchArgs} (hw : q.LimitIsWhole)
    (hc : 0 < a.count)
    (h : exec sha1hex (.claimGlobalBatch a, t) q = (.claimGlobalBatch [], q')) :
    ¬ q'.Claimable := by
  simp only [exec, Lua.exec, runScript] at h
  split at h
  · rename_i es q1 hrun
    cases h
    simp only [Lua.claimGlobalBatch, Lua.claimBatch, Script.run_bind, Redis.hgetLimit,
      Redis.zcardActive] at hrun
    obtain ⟨-, hnil⟩ := claimLoop_reply sha1hex hrun
    obtain ⟨rfl, hnone | hnone⟩ := hnil rfl
    · exact not_claimable_of_claimCount hw hc hnone
    · exact fun hclaim => hclaim.1 hnone
  · cases h

/-- A call that leaves the concurrency hash as it is announces what it makes claimable. -/
theorem exec_announces {op : Call × RedisTime} (hq : q.Readable)
    (hc : (exec sha1hex op q).2.concurrency = q.concurrency) :
    ∃ new, (exec sha1hex op q).2.notify = q.notify ++ new ∧
      (new = [] → (exec sha1hex op q).2.Claimable → q.Claimable) := by
  have hf := (exec_flow sha1hex op hq).2
  obtain ⟨call, t⟩ := op
  cases call with
  | claimGlobalBatch a =>
    exact ⟨[], by rw [Takes.notify hf, List.append_nil], fun _ => Takes.claimable hf⟩
  | declareConcurrencyLimit a =>
    rcases hf with he | ⟨_, he⟩
    · rw [he]
      exact ⟨[], (List.append_nil _).symm, fun _ => id⟩
    · -- the declared limit is the one that was stored
      have hsame : (exec sha1hex (.declareConcurrencyLimit a, t) q).2 = q := by
        rw [he] at hc ⊢
        simp only at hc
        rw [hc]
      rw [hsame]
      exact ⟨[], (List.append_nil _).symm, fun _ => id⟩
  | _ => exact Frees.notify hf

/-! ## Runners on one queue -/

/-- A runner, the reply of its claim call when the script has run and the reply
is on its way, and the number of notifications that were delivered to it. -/
structure Node (δ : Type) where
  runner : Runner δ
  reply : Option (List ClaimEntry) := none
  delivered : ℕ

/-- Runners that subscribed to the notify channel of one queue. -/
structure Cluster (ι δ : Type) where
  queue : Queue
  nodes : ι → Node δ

inductive ClusterEvent (ι δ : Type)
  | script (op : Call × RedisTime)
  | claim (k : ι) (t : RedisTime)
  | reply (k : ι)
  | notification (k : ι)
  | runner (k : ι) (x : RunnerInput δ)

variable {ι : Type} [DecidableEq ι] (parse : String → Except String δ)

def Cluster.setNode (s : Cluster ι δ) (k : ι) (node : Node δ) : Cluster ι δ :=
  { s with nodes := Function.update s.nodes k node }

/-- One step of the cluster: a script run by anyone that leaves the concurrency
hash alone, the claim script of a runner, its reply, the next notification of a
runner, or an own step of a runner. A claim call that fails has no step: every
claim call gets its reply. -/
inductive ClusterStep : Cluster ι δ → List (ClusterEvent ι δ) → Cluster ι δ → Prop
  | script (s : Cluster ι δ) (op : Call × RedisTime)
      (hc : (exec sha1hex op s.queue).2.concurrency = s.queue.concurrency) :
      ClusterStep s [.script op] { s with queue := (exec sha1hex op s.queue).2 }
  | claim (s : Cluster ι δ) (k : ι) (t : RedisTime) (n : ℕ) (es : List ClaimEntry) (q' : Queue)
      (hl : (s.nodes k).runner.loop = .claiming n) (hr : (s.nodes k).reply = none)
      (hx : exec sha1hex (.claimGlobalBatch ⟨(s.nodes k).runner.leaseMs, n⟩, t) s.queue =
        (.claimGlobalBatch es, q')) :
      ClusterStep s [.claim k t]
        (Cluster.setNode { s with queue := q' } k { s.nodes k with reply := some es })
  | reply (s : Cluster ι δ) (k : ι) (es : List ClaimEntry) (hr : (s.nodes k).reply = some es) :
      ClusterStep s [.reply k]
        (s.setNode k
          { s.nodes k with
            runner := (s.nodes k).runner.step
              (.claimReply (Reply.claimed parse (.claimGlobalBatch es)))
            reply := none })
  | notification (s : Cluster ι δ) (k : ι)
      (hd : (s.nodes k).delivered < s.queue.notify.length) :
      ClusterStep s [.notification k]
        (s.setNode k
          { s.nodes k with
            runner := (s.nodes k).runner.step .wake
            delivered := (s.nodes k).delivered + 1 })
  | runner (s : Cluster ι δ) (k : ι) (x : RunnerInput δ) (hx : (s.nodes k).runner.Admits x)
      (hno : ∀ reply, x ≠ .claimReply reply) :
      ClusterStep s [.runner k x]
        (s.setNode k { s.nodes k with runner := (s.nodes k).runner.step x })

/-- A cluster at the start: a reachable queue with a whole limit or none, and
runners that have subscribed. -/
structure Cluster.Initial (s : Cluster ι δ) : Prop where
  queue : ∃ ops, s.queue = run sha1hex ops
  limit : s.queue.LimitIsWhole
  nodes : ∀ k, (∃ options retention, Runner.new options retention = .ok (s.nodes k).runner) ∧
    (s.nodes k).reply = none ∧ (s.nodes k).delivered = s.queue.notify.length

/-! ## The invariant -/

/-- A runner that sleeps, or is about to, on a claimable queue has a wake on its way. -/
structure Node.Alert (q : Queue) (node : Node δ) : Prop where
  reachable : node.runner.Reachable
  delivered : node.delivered ≤ q.notify.length
  reply : ∀ es, node.reply = some es → ∃ n, node.runner.loop = .claiming n ∧ es.length ≤ n
  parked : node.runner.loop = .parked → q.Claimable → node.delivered < q.notify.length
  empty : node.reply = some [] → q.Claimable →
    node.delivered < q.notify.length ∨ node.runner.wakePending = true

structure Cluster.Alert (s : Cluster ι δ) : Prop where
  readable : s.queue.Readable
  limit : s.queue.LimitIsWhole
  nodes : ∀ k, (s.nodes k).Alert s.queue

variable {node : Node δ}

/-- A script that announces what it makes claimable keeps a runner alert. -/
theorem Node.Alert.queue (h : node.Alert q) {new : List String}
    (hn : q'.notify = q.notify ++ new) (hc : new = [] → q'.Claimable → q.Claimable) :
    node.Alert q' := by
  have hlen : q'.notify.length = q.notify.length + new.length := by rw [hn, List.length_append]
  have hd := h.delivered
  -- with no message nothing became claimable, and a message is still on its way
  have hkey : ∀ P : Prop, (q.Claimable → node.delivered < q.notify.length ∨ P) →
      q'.Claimable → node.delivered < q'.notify.length ∨ P := by
    intro P hP hq'
    rcases hnew : new with _ | ⟨i, rest⟩
    · exact (hP (hc hnew hq')).imp_left fun hlt => by omega
    · left
      rw [hnew, List.length_cons] at hlen
      omega
  refine ⟨h.reachable, by omega, h.reply, ?_, ?_⟩
  · intro hp hq'
    simpa using hkey False (fun hq => Or.inl (h.parked hp hq)) hq'
  · intro hr hq'
    exact hkey _ (h.empty hr) hq'

/-- An own step of a runner keeps it alert. -/
theorem Node.Alert.runner (h : node.Alert q) {x : RunnerInput δ} (hx : node.runner.Admits x)
    (hno : ∀ reply, x ≠ .claimReply reply) :
    Node.Alert q { node with runner := node.runner.step x } := by
  obtain ⟨N, hb, -, hf⟩ := h.reachable.books
  have ha := Runner.attentive_step hb hf hno
  refine ⟨h.reachable.step hx, h.delivered, ?_, fun hp => h.parked (ha.parked hp), ?_⟩
  · intro es hr
    obtain ⟨n, hl, hlen⟩ := h.reply es hr
    exact ⟨n, ha.stays hl trivial, hlen⟩
  · intro hr hq
    exact (h.empty hr hq).imp_right ha.pending

/-- A delivered notification wakes the runner, or stays as a pending wake. -/
theorem Node.Alert.notification (h : node.Alert q) (hd : node.delivered < q.notify.length) :
    Node.Alert q
      { node with runner := node.runner.step .wake, delivered := node.delivered + 1 } := by
  obtain ⟨N, hb, -, hf⟩ := h.reachable.books
  have ha := Runner.attentive_step (x := .wake) hb hf (by simp)
  have hp := hb.parked
  refine ⟨h.reachable.step (x := .wake) trivial, hd, ?_, ?_, ?_⟩
  · intro es hr
    obtain ⟨n, hl, hlen⟩ := h.reply es hr
    exact ⟨n, ha.stays hl trivial, hlen⟩
  · intro hpark
    have hw := hp.mpr (ha.parked hpark)
    simp [Runner.step, Runner.wake, hw] at hpark
  · intro hr _
    right
    obtain ⟨n, hl, -⟩ := h.reply [] hr
    have hw : node.runner.wakeResolve = false := by
      rw [← Bool.not_eq_true, hp, hl]
      simp
    simp [Runner.step, Runner.wake, hw]

/-- A claim reply parks the loop only when the reply was empty, with no wake pending. -/
theorem Node.Alert.claimReply (h : node.Alert q) {es : List ClaimEntry}
    (hr : node.reply = some es) :
    Node.Alert q
      { node with
        runner := node.runner.step (.claimReply (Reply.claimed parse (.claimGlobalBatch es)))
        reply := none } := by
  obtain ⟨n, hl, hlen⟩ := h.reply es hr
  have hadm : node.runner.Admits (.claimReply (Reply.claimed parse (.claimGlobalBatch es))) := by
    refine ⟨n, hl, fun jobs hj => ?_⟩
    cases hj
    simpa using hlen
  refine ⟨h.reachable.step hadm, h.delivered, by simp, ?_, by simp⟩
  intro hp hq
  simp only [Runner.step, hl, Reply.claimed] at hp
  obtain ⟨hnil, hw⟩ := Runner.parked_of_claimReply hp
  rw [List.map_eq_nil_iff] at hnil
  rw [hnil] at hr
  rcases h.empty hr hq with hlt | hpend
  · exact hlt
  · rw [hw] at hpend
    cases hpend

theorem Cluster.Alert.setNode {s : Cluster ι δ} (h : s.Alert) {k : ι}
    (hk : node.Alert s.queue) : (s.setNode k node).Alert := by
  refine ⟨h.readable, h.limit, fun j => ?_⟩
  by_cases hj : j = k
  · subst hj
    simpa [Cluster.setNode] using hk
  · simpa [Cluster.setNode, hj] using h.nodes j

/-- The step lemma. -/
theorem Cluster.Alert.step {s s' : Cluster ι δ} {es : List (ClusterEvent ι δ)} (h : s.Alert)
    (hs : ClusterStep sha1hex parse s es s') : s'.Alert := by
  cases hs with
  | script op hc =>
    obtain ⟨new, hn, hclaim⟩ := exec_announces sha1hex h.readable hc
    refine ⟨(exec_flow sha1hex op h.readable).1, ?_, fun k => (h.nodes k).queue hn hclaim⟩
    intro limit hlimit
    exact h.limit limit (by rw [← limit_congr hc]; exact hlimit)
  | claim k t n es q' hl hr hx =>
    have hf := exec_flow sha1hex
      (.claimGlobalBatch ⟨(s.nodes k).runner.leaseMs, n⟩, t) h.readable
    rw [hx] at hf
    have hc := Takes.concurrency hf.2
    have hn : q'.notify = s.queue.notify ++ [] := by rw [Takes.notify hf.2, List.append_nil]
    have hall : Cluster.Alert { s with queue := q' } := by
      refine ⟨hf.1, ?_, fun j => (h.nodes j).queue hn fun _ => Takes.claimable hf.2⟩
      intro limit hlimit
      exact h.limit limit (by rw [← limit_congr hc]; exact hlimit)
    obtain ⟨N, hb, -, -⟩ := (h.nodes k).reachable.books
    have hpos : 0 < n := by
      have hask := hb.asks
      rw [hl] at hask
      rcases n with _ | n
      · exact absurd rfl hask
      · exact Nat.succ_pos n
    have hk := hall.nodes k
    refine hall.setNode ⟨hk.reachable, hk.delivered, ?_, hk.parked, ?_⟩
    · intro es' he
      cases he
      exact ⟨n, hl, claim_reply_length sha1hex hx⟩
    · intro he hq
      cases he
      exact absurd hq (empty_claim sha1hex h.limit hpos hx)
  | reply k es hr => exact h.setNode ((h.nodes k).claimReply parse hr)
  | notification k hd => exact h.setNode ((h.nodes k).notification hd)
  | runner k x hx hno => exact h.setNode ((h.nodes k).runner hx hno)

omit [DecidableEq ι] in
theorem Cluster.Initial.alert {s : Cluster ι δ} (h : s.Initial sha1hex) : s.Alert := by
  obtain ⟨ops, hq⟩ := h.queue
  refine ⟨?_, h.limit, fun k => ?_⟩
  · rw [hq]
    exact readable_run sha1hex ops
  · obtain ⟨⟨options, retention, hnew⟩, hr, hd⟩ := h.nodes k
    have hreach : (s.nodes k).runner.Reachable :=
      ⟨options, retention, (s.nodes k).runner, [], hnew, .start⟩
    refine ⟨hreach, Nat.le_of_eq hd, by simp [hr], ?_, by simp [hr]⟩
    intro hp
    rw [Runner.new_loop hnew] at hp
    cases hp

/-- No wakeup is lost. Whatever the runners and the scripts of others do, a
runner that is parked with no notification on its way to it sleeps over a queue
with nothing to claim. -/
theorem no_wakeup_is_lost (s₀ s : Cluster ι δ) (es : List (ClusterEvent ι δ))
    (h₀ : s₀.Initial sha1hex) (hs : Reaches (ClusterStep sha1hex parse) s₀ es s) (k : ι)
    (hp : (s.nodes k).runner.loop = .parked ∧ (s.nodes k).runner.wakeResolve = true)
    (hd : (s.nodes k).delivered = s.queue.notify.length) :
    s.queue.waiting = [] ∨
      ∃ limit, s.queue.limit = some limit ∧ limit ≤ .ofNat s.queue.active.card := by
  have halert : s.Alert := Reaches.invariant (P := fun _ s => s.Alert) (h₀.alert sha1hex)
    (fun _ _ _ _ h hst => h.step sha1hex parse hst) hs
  have hno : ¬ s.queue.Claimable := by
    intro hq
    have hlt := (halert.nodes k).parked hp.1 hq
    omega
  by_cases hw : s.queue.waiting = []
  · exact Or.inl hw
  · right
    by_contra hfull
    refine hno ⟨hw, fun limit hlimit => ?_⟩
    obtain ⟨n, rfl⟩ := halert.limit limit hlimit
    by_contra hle
    rw [Double.ofNat_lt, Nat.not_lt] at hle
    exact hfull ⟨_, hlimit, Double.ofNat_le.mpr hle⟩

/-- A queue with a limit of one job. -/
def sampleSingle : List (Call × RedisTime) :=
  [(.declareConcurrencyLimit ⟨.ofNat 1, .ofNat 1⟩, ⟨0, 0⟩)]

/-- One runner on it. -/
def sampleCluster : Cluster Unit String where
  queue := run id sampleSingle
  nodes := fun _ => { runner := sampleRunner, delivered := 0 }

/-- Two jobs come between the empty reply of a claim and the wait of the loop, whose
wake stays pending, and another worker claims the first. The next claim finds the
limit reached, and the runner parks over a job that waits. -/
theorem sample_runner_parks : ∃ s : Cluster Unit String,
    (s.nodes ()).runner.loop = .parked ∧ s.queue.waiting = ["k"] ∧
      s.queue.notify = ["j", "k"] ∧ (s.nodes ()).delivered = 2 ∧
      (s.queue.waiting = [] ∨
        ∃ limit, s.queue.limit = some limit ∧ limit ≤ .ofNat s.queue.active.card) := by
  have h₀ : sampleCluster.Initial id := by
    refine ⟨⟨sampleSingle, rfl⟩, ?_, fun _ => ⟨⟨{ concurrency := 2 }, _, rfl⟩, rfl, rfl⟩⟩
    intro limit hlimit
    exact ⟨1, Option.some.inj (Eq.symm hlimit)⟩
  have h1 : Reaches (ClusterStep id Except.ok) sampleCluster _ _ :=
    Reaches.start.next (.runner _ () .start trivial (by simp))
  have h2 := h1.next (.runner _ () .resume trivial (by simp))
  have h3 := h2.next (.claim _ () ⟨1, 0⟩ 2 [] _ (by decide +kernel) rfl
    (Prod.ext (by decide +kernel) rfl))
  have h4 := h3.next (.script _ (.enqueue sampleJob, ⟨2, 0⟩) (by decide +kernel))
  have h5 := h4.next (.script _ (.claimGlobalBatch ⟨.ofNat 30000, 1⟩, ⟨3, 0⟩) (by decide +kernel))
  have h6 := h5.next (.script _ (.enqueue { sampleJob with jobId := "k" }, ⟨4, 0⟩)
    (by decide +kernel))
  have h7 := h6.next (.notification _ () (by decide +kernel))
  have h8 := h7.next (.notification _ () (by decide +kernel))
  have h9 := h8.next (.reply _ () [] rfl)
  have h10 := h9.next (.runner _ () .resume trivial (by simp))
  have h11 := h10.next (.runner _ () .resume trivial (by simp))
  have h12 := h11.next (.claim _ () ⟨5, 0⟩ 2 [] _ (by decide +kernel) rfl
    (Prod.ext (by decide +kernel) rfl))
  have h13 := h12.next (.reply _ () [] rfl)
  exact ⟨_, by decide +kernel, by decide +kernel, by decide +kernel, by decide +kernel,
    no_wakeup_is_lost id Except.ok sampleCluster _ _ h₀ h13 () (by decide +kernel)
      (by decide +kernel)⟩

end Panqueue
