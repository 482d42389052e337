-- A queue never wedges: as long as a job waits or is active, a claim or the
-- complete of a claim gets on with it, and such calls alone bring the queue to
-- its end, in any order.
import Panqueue.Declarations
import Panqueue.Entries
import Panqueue.Singly

namespace Panqueue

variable {q q' : Queue} {i : String} {p p' : Place} {issue : ℕ → ℕ → String}
  {sha1hex : String → String} {op : Call × RedisTime} {es : List Act}

/-! ## Work -/

/-- The calls that are left: a claim and a complete for each waiting job, and a
complete for each active one. -/
def Queue.work (q : Queue) : ℕ := 2 * q.waiting.length + q.active.card

/-- The call did a piece of the work: it claimed jobs, or it completed one. -/
inductive Works : Call × RedisTime → Reply → Prop
  | claim (a : ClaimGlobalBatchArgs) (t : RedisTime) (e : ClaimEntry) (es : List ClaimEntry) :
      Works (.claimGlobalBatch a, t) (.claimGlobalBatch (e :: es))
  | complete (a : CompleteArgs) (t : RedisTime) : Works (.complete a, t) (.complete .completed)

/-- Every call of the run from `q` did a piece of the work. -/
def Working (sha1hex : String → String) (q : Queue) (ops : List (Call × RedisTime)) : Prop :=
  ∀ x ∈ Machine.trace (exec sha1hex) q ops, Works x.1 x.2

/-- The stored limit, if any, leaves room for one job. -/
def Queue.Grants (q : Queue) : Prop := ∀ l ∈ q.limit, Double.ofNat 1 ≤ l

theorem Works.declares {r : Reply} (h : Works op r) : op.1.declares = none := by
  cases h <;> rfl

theorem Works.grants {r : Reply} (h : Works op r) (hg : q.Grants) :
    (exec sha1hex op q).2.Grants := by
  unfold Queue.Grants
  rw [limit_congr (exec_other sha1hex h.declares q)]
  exact hg

/-! ## Acts of the work -/

/-- A claim, or a complete. -/
def Act.IsWork : Act → Prop
  | claim _ _ _ => True
  | complete _ _ => True
  | _ => False

theorem Works.acts {r : Reply} (h : Works op r) {e : Act} (he : e ∈ actsOf i (op, r)) :
    e.IsWork := by
  have hof := of_mem_actsOf he
  cases h with
  | claim a t x xs =>
    cases e with
    | claim _ _ _ => trivial
    | enqueue _ _ => cases hof.1
    | _ => obtain ⟨b, hb⟩ := hof; simp at hb
  | complete a t =>
    cases e with
    | complete _ _ => trivial
    | enqueue _ _ => cases hof.1
    | _ => obtain ⟨b, hb⟩ := hof; simp at hb

/-- A job that is over gets no further act of the work. -/
theorem work_after_the_end (hp : ¬ p.Pending) (h : Reaches (JobStep issue) p es p')
    (hes : ∀ e ∈ es, e.IsWork) : es = [] ∧ ¬ p'.Pending := by
  refine Reaches.invariant (P := fun es p' => (∀ e ∈ es, e.IsWork) → es = [] ∧ ¬ p'.Pending)
    (fun _ => ⟨rfl, hp⟩) ?_ h hes
  intro es t fs u ih hst hall
  obtain ⟨rfl, ht⟩ := ih fun e he => hall e (List.mem_append_left _ he)
  have hfs : ∀ e ∈ fs, e.IsWork := fun e he => hall e (List.mem_append_right _ he)
  cases hst with
  | evict s j now => exact ⟨rfl, id⟩
  | enqueue a now => exact (hfs _ (List.mem_singleton_self _)).elim
  | _ => exact absurd trivial ht

/-- The work on an active job is its complete. -/
theorem work_on_active {j : Job} {token : String} {d : Score}
    (h : Reaches (JobStep issue) (.active j token d) es p') (hes : ∀ e ∈ es, e.IsWork) :
    es = [] ∧ p' = .active j token d ∨ (∃ now, es = [.complete token now]) ∧ ¬ p'.Pending := by
  cases es with
  | nil => exact Or.inl ⟨rfl, Place.Pending.silent (p := .active j token d) trivial h⟩
  | cons e es =>
    obtain ⟨b, hst, hrest⟩ := Place.Pending.uncons (p := .active j token d) trivial h
    have he := hes e List.mem_cons_self
    cases hst with
    | complete j token d now =>
      obtain ⟨rfl, hp'⟩ := work_after_the_end (p := .finished .completed j now) id hrest
        fun e he => hes e (List.mem_cons_of_mem _ he)
      exact Or.inr ⟨⟨now, rfl⟩, hp'⟩
    | _ => exact he.elim

/-- The work on a waiting job is its claim, and then its complete. -/
theorem work_on_waiting {j : Job} (h : Reaches (JobStep issue) (.waiting j) es p')
    (hes : ∀ e ∈ es, e.IsWork) :
    es = [] ∧ p' = .waiting j ∨
      (∃ token now d, es = [.claim token now d]) ∧ (∃ j' token d, p' = .active j' token d) ∨
      (∃ token now d now', es = [.claim token now d, .complete token now']) ∧ ¬ p'.Pending := by
  cases es with
  | nil => exact Or.inl ⟨rfl, Place.Pending.silent (p := .waiting j) trivial h⟩
  | cons e es =>
    right
    obtain ⟨b, hst, hrest⟩ := Place.Pending.uncons (p := .waiting j) trivial h
    have he := hes e List.mem_cons_self
    cases hst with
    | claim j now d =>
      rcases work_on_active hrest fun e he => hes e (List.mem_cons_of_mem _ he) with
        ⟨rfl, rfl⟩ | ⟨⟨now', rfl⟩, hp'⟩
      · exact Or.inl ⟨⟨_, now, _, rfl⟩, _, _, _, rfl⟩
      · exact Or.inr ⟨⟨_, now, _, now', rfl⟩, hp'⟩

/-! ## A piece of the work -/

theorem At.mem_waiting (h : At q i p) : i ∈ q.waiting ↔ ∃ j, p = .waiting j := by
  apply (h.lists .waiting).trans
  rcases p with _ | j | ⟨j, token, d⟩ | ⟨_ | _, j, n⟩ <;>
    simp [Place.hash, Place.status, FinalStatus.status]

theorem At.mem_active (h : At q i p) :
    i ∈ q.active.members ↔ ∃ j token d, p = .active j token d := by
  apply (h.lists .active).trans
  rcases p with _ | j | ⟨j, token, d⟩ | ⟨_ | _, j, n⟩ <;>
    simp [Place.hash, Place.status, FinalStatus.status]

theorem Sound.waiting_nodup (hq : Sound q) : q.waiting.Nodup :=
  List.nodup_iff_count_le_one.mpr hq.placed.once

/-- A claim of `k` jobs takes them from the waiting list and makes `k` more active at most. -/
theorem claim_lowers (t : RedisTime) {a : ClaimGlobalBatchArgs} (ha : a.leaseMs ≠ .nan)
    (hq : Sound q) {e : ClaimEntry} {es : List ClaimEntry}
    (hr : (exec sha1hex (.claimGlobalBatch a, t) q).1 = .claimGlobalBatch (e :: es)) :
    (exec sha1hex (.claimGlobalBatch a, t) q).2.work < q.work := by
  obtain ⟨ps, d, hd, hreply, hb, hps⟩ := exec_claim_sound sha1hex (t := t) ha hq
  generalize (exec sha1hex (.claimGlobalBatch a, t) q).2 = q' at hb hps ⊢
  rw [hr] at hreply
  have hne : 0 < ps.length := by
    rw [← List.length_map (f := Prod.snd), ← Reply.claimGlobalBatch.inj hreply]
    exact Nat.succ_pos _
  have hw : q.waiting.length = q'.waiting.length + ps.length := by
    rw [hb.waiting, List.length_append, List.length_reverse, List.length_map]
  have hc : q'.active.card ≤ q.active.card + ps.length := by
    rw [← SortedSet.members_length, ← SortedSet.members_length,
      ← @List.length_map _ _ ps Prod.fst, ← List.length_append]
    apply (List.subperm_of_subset (SortedSet.members_nodup _) ?_).length_le
    intro k hk
    rw [List.mem_append]
    rcases (hb.active k).mp hk with h | ⟨x, hx⟩
    · exact Or.inl h
    · exact Or.inr (List.mem_map_of_mem hx)
  unfold Queue.work
  omega

/-- An accepted complete takes its job from the active set, and the others stay. -/
theorem complete_lowers (t : RedisTime) {a : CompleteArgs} (hq : Sound q)
    (hr : (exec sha1hex (.complete a, t) q).1 = .complete .completed) :
    (exec sha1hex (.complete a, t) q).2.work < q.work := by
  obtain ⟨hm, -⟩ := exec_moves sha1hex (.complete a, t) trivial hq
  rw [hr] at hm
  generalize (exec sha1hex (.complete a, t) q).2 = q' at hm ⊢
  replace hm : Moves sha1hex
    (fun k => if a.jobId = k then [.complete a.lockToken t.now] else []) q q' := hm
  have hq' := hm.sound hq
  -- the job was active, and it is over
  obtain ⟨p, hp⟩ := hq a.jobId
  obtain ⟨p', hp', hs⟩ := hm a.jobId p hp
  simp only [if_true] at hs
  have hwork : ∀ e ∈ [Act.complete a.lockToken t.now], e.IsWork := by
    intro e he
    rw [List.mem_singleton.mp he]
    trivial
  have hover : ¬ p'.Pending ∧ ∃ j token d, p = .active j token d := by
    cases p with
    | waiting j =>
      rcases work_on_waiting hs hwork with ⟨h, -⟩ | ⟨⟨_, _, _, h⟩, -⟩ | ⟨⟨_, _, _, _, h⟩, -⟩ <;>
        cases h
    | active j token d =>
      rcases work_on_active hs hwork with ⟨h, -⟩ | ⟨-, h⟩
      · cases h
      · exact ⟨h, j, token, d, rfl⟩
    | gone => cases (work_after_the_end (p := .gone) id hs hwork).1
    | finished s j n => cases (work_after_the_end (p := .finished s j n) id hs hwork).1
  have hgone : a.jobId ∉ q'.active.members ∧ a.jobId ∉ q'.waiting := by
    rw [hp'.mem_active, hp'.mem_waiting]
    refine ⟨?_, ?_⟩
    · rintro ⟨j, token, d, rfl⟩
      exact hover.1 trivial
    · rintro ⟨j, rfl⟩
      exact hover.1 trivial
  have hw : q'.waiting.length ≤ q.waiting.length := by
    apply (List.subperm_of_subset hq'.waiting_nodup ?_).length_le
    intro k hk
    have hne : a.jobId ≠ k := fun he => hgone.2 (he ▸ hk)
    obtain ⟨r, hr⟩ := hq' k
    obtain ⟨j, rfl⟩ := hr.mem_waiting.mp hk
    have hwas : At q k (.waiting j) := hm.stood hq (if_neg hne) trivial hr
    exact hwas.mem_waiting.mpr ⟨j, rfl⟩
  have hc : q'.active.card + 1 ≤ q.active.card := by
    rw [← SortedSet.members_length, ← SortedSet.members_length]
    have hnodup : (a.jobId :: q'.active.members).Nodup :=
      List.nodup_cons.mpr ⟨hgone.1, SortedSet.members_nodup _⟩
    apply (List.subperm_of_subset hnodup ?_).length_le
    · intro k hk
      rcases List.mem_cons.mp hk with rfl | hk
      · exact hp.mem_active.mpr hover.2
      · have hne : a.jobId ≠ k := fun he => hgone.1 (he ▸ hk)
        obtain ⟨r, hr⟩ := hq' k
        obtain ⟨j, token, d, rfl⟩ := hr.mem_active.mp hk
        have hwas : At q k (.active j token d) := hm.stood hq (if_neg hne) trivial hr
        exact hwas.mem_active.mpr ⟨j, token, d, rfl⟩
  unfold Queue.work
  omega

theorem works_lower (hop : op.1.LeaseIsNumber) (hq : Sound q)
    (h : Works op (exec sha1hex op q).1) : (exec sha1hex op q).2.work < q.work := by
  generalize hr : (exec sha1hex op q).1 = r at h
  cases h with
  | claim a t e es => exact claim_lowers t hop hq hr
  | complete a t => exact complete_lowers t hq hr

/-! ## Work is always there to be done -/

/-- The claim of one job without a lease time, and the complete that keeps nothing. -/
theorem work_goes_on (hq : Sound q) (hg : q.Grants) (h : q.work ≠ 0) :
    ∃ op : Call × RedisTime, op.1.LeaseIsNumber ∧ Works op (exec sha1hex op q).1 := by
  rcases hm : q.active.members with _ | ⟨i, is⟩
  · -- no job is active, so a permit is free
    have hc : q.active.card = 0 := by
      rw [← SortedSet.members_length, hm]
      rfl
    have hw : q.waiting ≠ [] := by
      intro hw
      apply h
      unfold Queue.work
      rw [hc, hw]
      rfl
    refine ⟨(.claimGlobalBatch ⟨.ofNat 0, 1⟩, ⟨0, 0⟩), by unfold Call.LeaseIsNumber; decide, ?_⟩
    obtain ⟨ps, d, -, hreply, hb, -⟩ := exec_claim_sound sha1hex (t := ⟨0, 0⟩)
      (a := ⟨.ofNat 0, 1⟩) (by decide) hq
    have hone : claimCount q.limit q.active.card 1 ≠ 0 := by
      intro h0
      obtain ⟨l, hl, hlt⟩ := claimCount_one_eq_zero.mp h0
      rw [hc, Nat.cast_zero, neg_zero, Double.addRat_zero] at hlt
      exact Double.lt_irrefl _ (Double.lt_of_le_of_lt (hg l hl) hlt)
    rw [hreply]
    cases ps with
    | nil =>
      have hlen := congrArg List.length hb.popped
      rw [List.map_nil, List.length_take, List.length_reverse] at hlen
      have hpos := List.length_pos_of_ne_nil hw
      change 0 = min (claimCount q.limit q.active.card 1) _ at hlen
      omega
    | cons x ps => exact .claim _ _ _ _
  · obtain ⟨p, hp⟩ := hq i
    obtain ⟨j, token, d, rfl⟩ := hp.mem_active.mp (by rw [hm]; exact List.mem_cons_self)
    refine ⟨(.complete ⟨i, token, ⟨.delete, -1, -1⟩⟩, ⟨0, 0⟩), trivial, ?_⟩
    obtain ⟨q', hrun, hret⟩ := complete_retires (t := ⟨0, 0⟩)
      (a := ⟨i, token, ⟨.delete, -1, -1⟩⟩) hp.locked
    have hr : (exec sha1hex (.complete ⟨i, token, ⟨.delete, -1, -1⟩⟩, ⟨0, 0⟩) q).1 =
        .complete .completed := by
      simp only [exec, Lua.exec, runScript, hrun]
    rw [hr]
    exact .complete _ _

/-! ## Working schedules -/

theorem Declares.grants {ops : List (Call × RedisTime)} {ds : List QueueConcurrencyLimit}
    (h : Declares ops ds) : (run sha1hex ops).Grants := by
  have hs : (run sha1hex ops).Stores {} (Register.settle (ds.map QueueConcurrencyLimit.write)) :=
    stores_settled sha1hex rfl h
  intro l hl
  rcases Register.settle_wins (ds.map QueueConcurrencyLimit.write) with
    ⟨-, hr⟩ | ⟨w, hr, hwins⟩
  · rw [hr] at hs
    have hnone : (run sha1hex ops).limit = none := by
      unfold Queue.limit
      rw [show (run sha1hex ops).concurrency = {} from hs]
      rfl
    rw [hnone] at hl
    cases hl
  · rw [hr] at hs
    rw [hs.limit] at hl
    obtain rfl := Option.mem_some_iff.mp hl
    obtain ⟨d, -, rfl⟩ := List.mem_map.mp hwins.mem
    exact Double.ofNat_le.mpr d.one_le_limit

/-- Work declares no limit. -/
theorem Working.declares {ops post : List (Call × RedisTime)} {ds : List QueueConcurrencyLimit}
    (hd : Declares ops ds) (hw : Working sha1hex q post) : Declares (ops ++ post) ds := by
  have hnone : (post.filterMap fun op => op.1.declares) = [] := by
    rw [List.filterMap_eq_nil_iff]
    intro op hop
    have hmap : (Machine.trace (exec sha1hex) q post).map Prod.fst = post :=
      Machine.trace_map_fst q post
    rw [← hmap] at hop
    obtain ⟨x, hx, rfl⟩ := List.mem_map.mp hop
    exact (hw x hx).declares
  unfold Declares
  rw [List.filterMap_append, hnone, List.append_nil]
  exact hd

theorem Queue.over (h : q.work = 0) (hp : At q i p) : ¬ p.Pending := by
  unfold Queue.work at h
  have hw : q.waiting = [] := List.eq_nil_of_length_eq_zero (by omega)
  have ha : q.active.members = [] := by
    apply List.eq_nil_of_length_eq_zero
    rw [SortedSet.members_length]
    omega
  intro hpend
  cases p with
  | waiting j =>
    have hm := hp.mem_waiting.mpr ⟨j, rfl⟩
    rw [hw] at hm
    cases hm
  | active j token d =>
    have hm := hp.mem_active.mpr ⟨j, token, d, rfl⟩
    rw [ha] at hm
    cases hm
  | _ => exact hpend

/-- In a working schedule that is over, what was done to a job that stood at this place. -/
def Place.WorkedOff : Place → List Act → Prop
  | waiting _, es => ∃ token now d now', es = [.claim token now d, .complete token now']
  | active _ token _, es => ∃ now, es = [.complete token now]
  | _, es => es = []

/-- A queue never wedges. Claims that take a job and completes that are accepted
lower the work that is left, whoever makes them and in whatever order, and from
every point of such a schedule some more of them bring the queue to its end.
Then each job that waited has been claimed once and completed with the token of
that claim, each active job has been completed with its own token, and nothing
happened to any other job. -/
theorem a_queue_never_wedges {ops : List (Call × RedisTime)} {ds : List QueueConcurrencyLimit}
    (hl : LeasesAreNumbers ops) (hd : Declares ops ds) {post : List (Call × RedisTime)}
    (hpost : LeasesAreNumbers post) (hw : Working sha1hex (run sha1hex ops) post) :
    post.length + (run sha1hex (ops ++ post)).work ≤ (run sha1hex ops).work ∧
    (∃ more, LeasesAreNumbers more ∧ Working sha1hex (run sha1hex ops) (post ++ more) ∧
      (run sha1hex (ops ++ (post ++ more))).work = 0) ∧
    ((run sha1hex (ops ++ post)).work = 0 → ∀ i p, At (run sha1hex ops) i p →
      p.WorkedOff (history i (Machine.trace (exec sha1hex) (run sha1hex ops) post))) := by
  have hq := sound_run sha1hex hl
  have hl' : LeasesAreNumbers (ops ++ post) := by
    intro op hop
    rcases List.mem_append.mp hop with hop | hop
    · exact hl op hop
    · exact hpost op hop
  refine ⟨?_, ?_, ?_⟩
  · rw [run_append]
    exact Machine.finish_lowers (P := Sound) (C := fun op => op.1.LeaseIsNumber)
      (fun op q hop hq => (exec_moves sha1hex op hop hq).1.sound hq)
      (fun op q hop hq => works_lower hop hq) hq (fun op h => hpost op h) hw
  · have hgo : ∃ more, (∀ op ∈ more, op.1.LeaseIsNumber) ∧
        Working sha1hex (run sha1hex (ops ++ post)) more ∧
        (Machine.finish (exec sha1hex) (run sha1hex (ops ++ post)) more).work = 0 :=
      Machine.drains (P := fun q => Sound q ∧ q.Grants)
        (fun op q hop hq hx => ⟨(exec_moves sha1hex op hop hq.1).1.sound hq.1, hx.grants hq.2⟩)
        (fun op q hop hq => works_lower hop hq.1) (fun q hq => work_goes_on hq.1 hq.2)
        ⟨sound_run sha1hex hl', (hw.declares hd).grants⟩
    obtain ⟨more, hok, hgood, hend⟩ := hgo
    rw [run_append] at hgood hend
    refine ⟨more, hok, ?_, ?_⟩
    · unfold Working
      rw [Machine.trace_append]
      intro x hx
      rcases List.mem_append.mp hx with hx | hx
      · exact hw x hx
      · exact hgood x hx
    · rw [run_append, Machine.finish_append]
      exact hend
  · intro hend i p hp
    obtain ⟨p', ⟨-, hp'⟩, hs⟩ := finish_refines sha1hex hq hpost hp
    rw [← run_append] at hp'
    have hover := Queue.over hend hp'
    have hwork : ∀ e ∈ history i (Machine.trace (exec sha1hex) (run sha1hex ops) post),
        e.IsWork := by
      intro e he
      obtain ⟨x, hx, he⟩ := List.mem_flatMap.mp he
      exact (hw x hx).acts he
    cases p with
    | waiting j =>
      rcases work_on_waiting hs hwork with ⟨-, rfl⟩ | ⟨-, _, _, _, rfl⟩ | ⟨h, -⟩
      · exact absurd trivial hover
      · exact absurd trivial hover
      · exact h
    | active j token d =>
      rcases work_on_active hs hwork with ⟨-, rfl⟩ | ⟨h, -⟩
      · exact absurd trivial hover
      · exact h
    | gone => exact (work_after_the_end (p := .gone) id hs hwork).1
    | finished s j n => exact (work_after_the_end (p := .finished s j n) id hs hwork).1

def sampleWork : List (Call × RedisTime) :=
  [(.complete ⟨"j", "j:2000:1", ⟨.delete, -1, -1⟩⟩, ⟨3, 0⟩)]

/-- The job of the small run is active, and its complete is all the work that is left. -/
theorem sample_queue_is_worked_off :
    (∃ more, Working id (run id sampleOps) (sampleWork ++ more)) ∧
      ∀ p, At (run id sampleOps) "j" p →
        p.WorkedOff (history "j" (Machine.trace (exec id) (run id sampleOps) sampleWork)) := by
  have hreply : (exec id (.complete ⟨"j", "j:2000:1", ⟨.delete, -1, -1⟩⟩, ⟨3, 0⟩)
      (run id sampleOps)).1 = .complete .completed := by decide +kernel
  have hw : Working id (run id sampleOps) sampleWork := by
    intro x hx
    obtain rfl := List.mem_singleton.mp hx
    rw [hreply]
    exact .complete _ _
  have hd : Declares sampleOps [] := rfl
  obtain ⟨-, ⟨more, -, hmore, -⟩, hdone⟩ := a_queue_never_wedges (by decide) hd (by decide) hw
  exact ⟨⟨more, hmore⟩, hdone (by decide +kernel) "j"⟩

end Panqueue
