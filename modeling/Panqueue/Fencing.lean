-- The laws of the lock token: only the holder of the live claim has an effect,
-- no token is issued twice, and each claim ends at most once.
import Panqueue.Runs

namespace Panqueue

variable (sha1hex : String → String) {i : String}

/-! ## The fence of a history -/

/-- A history read forward: the token of the live claim, the tokens issued so
far, and the claims ended so far, each with the act that ended it. -/
structure Fence where
  live : Option String := none
  issued : List String := []
  ended : List (Option String × Act) := []

def Fence.act (f : Fence) : Act → Fence
  | .enqueue _ _ => f
  | .extend _ _ => f
  | .claim token _ _ => { f with live := some token, issued := f.issued ++ [token] }
  | e => { f with live := none, ended := f.ended ++ [(f.live, e)] }

def fence (es : List Act) : Fence := es.foldl Fence.act {}

/-- The acts that end a claim. -/
def Act.EndsClaim : Act → Prop
  | complete _ _ | retry _ _ _ | fail _ _ _ | stall _ _ | stallOut _ _ | requeue _ _ _ => True
  | enqueue _ _ | claim _ _ _ | extend _ _ => False

/-- The act presented this token, or it is one of a sweep, which presents none. -/
def Act.By (token : String) : Act → Prop
  | complete t _ => t = token
  | retry t _ _ => t = token
  | fail t _ _ => t = token
  | requeue t _ _ => t = token
  | stall _ _ => True
  | stallOut _ _ => True
  | _ => False

theorem fence_snoc (es : List Act) (e : Act) : fence (es ++ [e]) = (fence es).act e := by
  rw [fence, List.foldl_append]
  rfl

theorem fence_append (es fs : List Act) : fence (es ++ fs) = fs.foldl Fence.act (fence es) :=
  List.foldl_append

/-- The token that an act issues. -/
def Act.issues : Act → Option String
  | claim token _ _ => some token
  | _ => none

theorem Fence.issued_foldl (fs : List Act) (f : Fence) :
    (fs.foldl Fence.act f).issued = f.issued ++ fs.filterMap Act.issues := by
  induction fs generalizing f with
  | nil => simp
  | cons e fs ih =>
    rw [List.foldl_cons, ih]
    cases e with
    | claim t now d => simp [Fence.act, Act.issues]
    | _ => simp [Fence.act, Act.issues, List.filterMap_cons]

/-- A live claim was live before, or is one of the new acts. -/
theorem Fence.live_foldl {fs : List Act} {f : Fence} {token : String}
    (h : (fs.foldl Fence.act f).live = some token) :
    f.live = some token ∨ token ∈ fs.filterMap Act.issues := by
  induction fs generalizing f with
  | nil => exact Or.inl h
  | cons e fs ih =>
    rcases ih h with hl | hm
    · cases e with
      | enqueue a now => exact Or.inl hl
      | extend t d => exact Or.inl hl
      | claim t now d =>
        cases hl
        simp [Act.issues]
      | _ => cases hl
    · right
      rw [List.filterMap_cons]
      split
      · exact hm
      · exact List.mem_cons_of_mem _ hm

/-- An ended claim had ended before, or one of the new acts ended it. -/
theorem Fence.ended_foldl {fs : List Act} {f : Fence} {x : Option String × Act}
    (h : x ∈ (fs.foldl Fence.act f).ended) : x ∈ f.ended ∨ x.2 ∈ fs := by
  induction fs generalizing f with
  | nil => exact Or.inl h
  | cons e fs ih =>
    rcases ih h with hx | hx
    · cases e with
      | enqueue a now => exact Or.inl hx
      | extend t d => exact Or.inl hx
      | claim t now d => exact Or.inl hx
      | _ =>
        rcases List.mem_append.mp hx with hx | hx
        · exact Or.inl hx
        · rw [List.mem_singleton.mp hx]
          exact Or.inr List.mem_cons_self
    · exact Or.inr (List.mem_cons_of_mem _ hx)

theorem Act.EndsClaim.act {e : Act} (he : e.EndsClaim) (f : Fence) :
    f.act e = { f with live := none, ended := f.ended ++ [(f.live, e)] } := by
  cases e <;> first | rfl | cases he

/-- An act that ends a claim was the holder's or a sweep's, and leaves no claim. -/
theorem JobStep.closes {issue : ℕ → ℕ → String} {p p' : Place} {e : Act}
    (h : JobStep issue p [e] p') (he : e.EndsClaim) :
    (∃ token, p.token = some token ∧ e.By token) ∧ p'.token = none ∧
      ∀ j', p'.job = some j' → ∃ j, p.job = some j ∧ j'.runs = j.runs := by
  cases h with
  | enqueue | claim | extend => cases he
  | stall j token d reason now hd hm | stallOut j token d reason now hd hm =>
    exact ⟨⟨token, rfl, trivial⟩, rfl, fun j' hj' => ⟨j, rfl, by cases hj'; rfl⟩⟩
  | complete j token d now | retry j token d error now hm | fail j token d error now hm
  | requeue j token d reason now =>
    exact ⟨⟨token, rfl, rfl⟩, rfl, fun j' hj' => ⟨j, rfl, by cases hj'; rfl⟩⟩

/-- The live claim is the one that the place of the job shows. -/
theorem live_token {issue : ℕ → ℕ → String} {es : List Act} {p : Place}
    (h : Reaches (JobStep issue) .gone es p) : p.token = (fence es).live := by
  refine Reaches.invariant (P := fun es p => p.token = (fence es).live) rfl ?_ h
  intro es t fs u ih hst
  cases hst with
  | evict s j now => simpa [Place.token] using ih
  | enqueue a now => simpa [fence_snoc, Fence.act, Place.token] using ih
  | extend j token d d' => simpa [fence_snoc, Fence.act, Place.token] using ih
  | _ => simp [fence_snoc, Fence.act, Place.token]

/-! ## Issued tokens -/

/-- In one life, the tokens are those of claims `1` to `runs`, each of another
number, and the ended claims are claims of before, each ended once. -/
structure Fenced (issue : ℕ → ℕ → String) (runs : ℕ) (f : Fence) : Prop where
  issued : ∀ token ∈ f.issued, ∃ now n, n ≤ runs ∧ token = issue now n
  nodup : f.issued.Nodup
  live : ∀ token, f.live = some token → token ∈ f.issued ∧ some token ∉ f.ended.map Prod.fst
  ended : ∀ x ∈ f.ended, ∃ token ∈ f.issued, x.1 = some token ∧ x.2.By token
  once : (f.ended.map Prod.fst).Nodup
  covered : ∀ token ∈ f.issued, f.live = some token ∨ some token ∈ f.ended.map Prod.fst

namespace Fenced

variable {issue : ℕ → ℕ → String} {runs : ℕ} {f : Fence}

theorem empty : Fenced issue 0 {} := by
  constructor <;> simp

theorem claim (h : Fenced issue runs f) (hl : f.live = none)
    (hinj : ∀ now now' n n', issue now n = issue now' n' → n = n') (now : ℕ) (d : Double) :
    Fenced issue (runs + 1) (f.act (.claim (issue now (runs + 1)) now d)) := by
  have hnew : issue now (runs + 1) ∉ f.issued := by
    intro hmem
    obtain ⟨now', n, hn, he⟩ := h.issued _ hmem
    have := hinj _ _ _ _ he
    omega
  refine ⟨?_, ?_, ?_, ?_, h.once, ?_⟩
  · intro token ht
    rcases List.mem_append.mp ht with ht | ht
    · obtain ⟨now', n, hn, he⟩ := h.issued token ht
      exact ⟨now', n, by omega, he⟩
    · exact ⟨now, runs + 1, Nat.le_refl _, List.mem_singleton.mp ht⟩
  · exact List.nodup_append.mpr ⟨h.nodup, List.nodup_singleton _, fun a ha b hb hab =>
      hnew (List.mem_singleton.mp hb ▸ hab ▸ ha)⟩
  · intro token ht
    cases ht
    refine ⟨List.mem_append_right _ (List.mem_singleton_self _), fun hmem => ?_⟩
    obtain ⟨x, hx, he⟩ := List.mem_map.mp hmem
    obtain ⟨token', ht', he', -⟩ := h.ended x hx
    rw [he'] at he
    exact hnew (Option.some.inj he ▸ ht')
  · intro x hx
    obtain ⟨token, ht, he⟩ := h.ended x hx
    exact ⟨token, List.mem_append_left _ ht, he⟩
  · intro token ht
    rcases List.mem_append.mp ht with ht | ht
    · right
      rcases h.covered token ht with hlive | hend
      · rw [hl] at hlive
        cases hlive
      · exact hend
    · rw [List.mem_singleton.mp ht]
      exact Or.inl rfl

theorem close (h : Fenced issue runs f) {token : String} (hl : f.live = some token) {e : Act}
    (he : e.By token) :
    Fenced issue runs { f with live := none, ended := f.ended ++ [(f.live, e)] } := by
  obtain ⟨hmem, hnot⟩ := h.live token hl
  refine ⟨h.issued, h.nodup, ?_, ?_, ?_, ?_⟩
  · intro _ ht
    cases ht
  · intro x hx
    rcases List.mem_append.mp hx with hx | hx
    · exact h.ended x hx
    · rw [List.mem_singleton.mp hx]
      exact ⟨token, hmem, hl, he⟩
  · rw [List.map_append]
    refine List.nodup_append.mpr ⟨h.once, List.nodup_singleton _, fun a ha b hb hab => ?_⟩
    rw [List.map_cons, List.map_nil, List.mem_singleton] at hb
    have hat : a = some token := by rw [hab, hb, hl]
    exact hnot (hat ▸ ha)
  · intro t ht
    right
    rw [List.map_append]
    rcases h.covered t ht with hlive | hend
    · exact List.mem_append_right _ (List.mem_singleton.mpr hlive.symm)
    · exact List.mem_append_left _ hend

end Fenced

/-- One life keeps its fence. -/
theorem life_fenced {issue : ℕ → ℕ → String}
    (hinj : ∀ now now' n n', issue now n = issue now' n' → n = n') {a : EnqueueArgs} {now : ℕ}
    {es : List Act} {p : Place}
    (h : Reaches (LifeStep issue) (.waiting (.enqueued a now)) es p) :
    ∃ runs, Fenced issue runs (fence es) ∧ p.token = (fence es).live ∧
      ∀ j, p.job = some j → j.runs = runs := by
  refine Reaches.invariant (P := fun es p => ∃ runs, Fenced issue runs (fence es) ∧
    p.token = (fence es).live ∧ ∀ j, p.job = some j → j.runs = runs) ?_ ?_ h
  · refine ⟨0, Fenced.empty, rfl, fun j hj => ?_⟩
    cases hj
    rfl
  · rintro es t fs u ⟨runs, hf, hl, hr⟩ ⟨hne, hst⟩
    by_cases hc : ∃ e, fs = [e] ∧ e.EndsClaim
    · obtain ⟨e, rfl, he⟩ := hc
      obtain ⟨⟨token, ht, hby⟩, ht', hj⟩ := hst.closes he
      rw [fence_snoc, he.act]
      refine ⟨runs, hf.close (hl ▸ ht) hby, ht', fun j' hj' => ?_⟩
      obtain ⟨j, hjt, hruns⟩ := hj j' hj'
      rw [hruns, hr j hjt]
    · cases hst with
      | enqueue a now => exact absurd rfl hne
      | claim j now d =>
        have hj := hr j rfl
        rw [fence_snoc, hj]
        refine ⟨runs + 1, hf.claim hl.symm hinj now _, rfl, fun j' hj' => ?_⟩
        cases hj'
        rw [← hj]
        rfl
      | extend j token d d' =>
        rw [fence_snoc]
        exact ⟨runs, hf, hl, hr⟩
      | evict s j now =>
        rw [List.append_nil]
        refine ⟨runs, hf, hl, fun j hj => ?_⟩
        cases hj
      | _ => exact absurd ⟨_, rfl, trivial⟩ hc

/-! ## The text of a token -/

/-- Two texts that end in `c` and a part without `c` are the same text in both parts. -/
theorem append_cons_inj {α : Type} {c : α} {l m r s : List α} (hr : c ∉ r) (hs : c ∉ s)
    (h : l ++ c :: r = m ++ c :: s) : l = m ∧ r = s := by
  rcases List.append_eq_append_iff.mp h with ⟨t, hm, ht⟩ | ⟨t, hl, ht⟩
  · cases t with
    | nil =>
      rw [List.nil_append, List.cons.injEq] at ht
      exact ⟨by rw [hm, List.append_nil], ht.2⟩
    | cons x t =>
      rw [List.cons_append, List.cons.injEq] at ht
      exact absurd (ht.2 ▸ List.mem_append_right _ List.mem_cons_self) hr
  · cases t with
    | nil =>
      rw [List.nil_append, List.cons.injEq] at ht
      exact ⟨by rw [hl, List.append_nil], ht.2.symm⟩
    | cons x t =>
      rw [List.cons_append, List.cons.injEq] at ht
      exact absurd (ht.2 ▸ List.mem_append_right _ List.mem_cons_self) hs

theorem colon_notMem_toDigits (n : ℕ) : ':' ∉ Nat.toDigits 10 n := by
  intro h
  exact absurd (Nat.isDigit_of_mem_toDigits (by decide) (by decide) h) (by decide)

theorem toDigits_inj {m n : ℕ} (h : Nat.toDigits 10 m = Nat.toDigits 10 n) : m = n := by
  simpa using congrArg (fun digits => Nat.ofDigitChars 10 digits 0) h

/-- The text tells the job, the clock and the number of the claim, whatever the job id holds. -/
theorem tokenText_inj {i i' : String} {now now' n n' : ℕ}
    (h : tokenText i now n = tokenText i' now' n') : i = i' ∧ now = now' ∧ n = n' := by
  have hl : ∀ (i : String) (now n : ℕ), (tokenText i now n).toList =
      (i.toList ++ ':' :: Nat.toDigits 10 now) ++ ':' :: Nat.toDigits 10 n := by
    intro i now n
    have hn : (Int.repr n).toList = Nat.toDigits 10 n := Nat.toList_repr
    simp [tokenText, hn]
  have h' := congrArg String.toList h
  rw [hl, hl] at h'
  obtain ⟨h1, h2⟩ := append_cons_inj (colon_notMem_toDigits n) (colon_notMem_toDigits n') h'
  obtain ⟨h3, h4⟩ := append_cons_inj (colon_notMem_toDigits now) (colon_notMem_toDigits now') h1
  exact ⟨String.toList_inj.mp h3, toDigits_inj h4, toDigits_inj h2⟩

theorem issued_inj {sha1hex : String → String} (hsha : Function.Injective sha1hex)
    {i i' : String} {now now' n n' : ℕ} (h : issued sha1hex i now n = issued sha1hex i' now' n') :
    i = i' ∧ n = n' := by
  obtain ⟨h1, -, h2⟩ := tokenText_inj (hsha h)
  exact ⟨h1, h2⟩

/-! ## Calls with a token -/

/-- The job and the token that a call presents. -/
def Call.presents : Call → Option (String × String)
  | .complete a => some (a.jobId, a.lockToken)
  | .fail a => some (a.jobId, a.lockToken)
  | .requeueActive a => some (a.jobId, a.lockToken)
  | .extendLock a => some (a.jobId, a.lockToken)
  | _ => none

def Act.OfSweep : Act → Prop
  | stall _ _ => True
  | stallOut _ _ => True
  | _ => False

/-- An act with a token is a sweep's, or of a call that presents the token and is no renewal. -/
theorem by_of_mem_actsOf {op : Call × RedisTime} {r : Reply} {e : Act} {token : String}
    (h : e ∈ actsOf i (op, r)) (hb : e.By token) :
    e.OfSweep ∨ op.1.presents = some (i, token) ∧ ∀ a, op.1 ≠ .extendLock a := by
  have ho := of_mem_actsOf h
  cases e with
  | stall | stallOut => exact Or.inl trivial
  | enqueue | claim | extend => cases hb
  | complete t now =>
    obtain ⟨a, hop, -, ha, rfl, -⟩ := ho
    cases hb
    rw [hop]
    exact Or.inr ⟨by rw [← ha]; rfl, fun _ h => by cases h⟩
  | retry t error now | fail t error now | requeue t reason now =>
    obtain ⟨a, hop, -, ha, rfl, -⟩ := ho
    cases hb
    rw [hop]
    exact Or.inr ⟨by rw [← ha]; rfl, fun _ h => by cases h⟩

/-- The reply says that the call took effect. -/
def Reply.Effective : Reply → Prop
  | .complete .completed => True
  | .fail .waiting | .fail .failed => True
  | .requeueActive .waiting => True
  | .extendLock .extended => True
  | _ => False

/-- The reply says `stale` or `missing`. -/
def Reply.Refused : Reply → Prop
  | .complete .stale | .complete .missing => True
  | .fail .stale | .fail .missing => True
  | .requeueActive .stale | .requeueActive .missing => True
  | .extendLock .stale | .extendLock .missing => True
  | _ => False

/-- The call of a holder takes effect, and shows one act, which ends the claim
unless the call is a renewal. -/
theorem exec_holder {q : Queue} {op : Call × RedisTime} {token : String} {j : Job} {d : Score}
    (hop : op.1.LeaseIsNumber) (hp : op.1.presents = some (i, token))
    (h : At q i (.active j token d)) :
    (exec sha1hex op q).1.Effective ∧
      ((∃ a, op.1 = .extendLock a) ∨
        ∃ e, actsOf i (op, (exec sha1hex op q).1) = [e] ∧ e.EndsClaim) := by
  obtain ⟨call, t⟩ := op
  cases call with
  | complete a =>
    cases hp
    obtain ⟨q', hrun, -⟩ := complete_holder sha1hex (t := t) h
    simp only [exec, Lua.exec, runScript, hrun]
    exact ⟨trivial, Or.inr ⟨.complete a.lockToken t.now, by simp [actsOf], trivial⟩⟩
  | fail a =>
    cases hp
    rcases fail_holder sha1hex (t := t) h with ⟨-, q', hrun, -⟩ | ⟨-, q', hrun, -⟩
    · simp only [exec, Lua.exec, runScript, hrun]
      exact ⟨trivial, Or.inr ⟨.retry a.lockToken a.error t.now, by simp [actsOf], trivial⟩⟩
    · simp only [exec, Lua.exec, runScript, hrun]
      exact ⟨trivial, Or.inr ⟨.fail a.lockToken a.error t.now, by simp [actsOf], trivial⟩⟩
  | requeueActive a =>
    cases hp
    obtain ⟨q', hrun, -⟩ := requeueActive_holder sha1hex (t := t) h
    simp only [exec, Lua.exec, runScript, hrun]
    exact ⟨trivial, Or.inr ⟨.requeue a.lockToken a.reason t.now, by simp [actsOf], trivial⟩⟩
  | extendLock a =>
    cases hp
    obtain ⟨d', hd'⟩ := Call.deadline hop t.now
    obtain ⟨q', hrun, -⟩ := extendLock_holder sha1hex (t := t) h hd'
    simp only [exec, Lua.exec, runScript, hrun]
    exact ⟨trivial, Or.inl ⟨a, rfl⟩⟩
  | _ => cases hp

theorem exec_refused {q : Queue} {op : Call × RedisTime} {token : String} {p : Place}
    (hp : op.1.presents = some (i, token)) (h : At q i p) (hne : p.token ≠ some token) :
    (exec sha1hex op q).1.Refused ∧ (exec sha1hex op q).2 = q := by
  obtain ⟨call, t⟩ := op
  cases call with
  | complete a =>
    cases hp
    simp only [exec, Lua.exec, runScript, Lua.complete, Lua.completeWith, h.refused hne]
    split <;> exact ⟨trivial, trivial⟩
  | fail a =>
    cases hp
    simp only [exec, Lua.exec, runScript, Lua.fail, Lua.failWith, h.refused hne]
    split <;> exact ⟨trivial, trivial⟩
  | requeueActive a =>
    cases hp
    simp only [exec, Lua.exec, runScript, Lua.requeueActive, h.refused hne]
    split <;> exact ⟨trivial, trivial⟩
  | extendLock a =>
    cases hp
    simp only [exec, Lua.exec, runScript, Lua.extendLock, h.refused hne]
    split <;> exact ⟨trivial, trivial⟩
  | _ => cases hp

/-- A place without a claim gets none in silence. -/
theorem silent_token {issue : ℕ → ℕ → String} {p p' : Place}
    (h : Reaches (JobStep issue) p [] p') (hp : p.token = none) : p'.token = none := by
  generalize hes : ([] : List Act) = es at h
  induction h with
  | start => exact hp
  | next _ hst ih =>
    obtain ⟨h1, h2⟩ := List.append_eq_nil_iff.mp hes.symm
    have ht := ih h1.symm
    cases hst with
    | evict s j now => rfl
    | _ => cases h2

/-- A call of the holder, other than a renewal, leaves the job without a claim. -/
theorem claim_is_ended {q : Queue} {op : Call × RedisTime} {token : String} {j : Job} {d : Score}
    {p' : Place} (hop : op.1.LeaseIsNumber) (hp : op.1.presents = some (i, token))
    (hne : ∀ a, op.1 ≠ .extendLock a) (h : At q i (.active j token d))
    (hs : Reaches (JobStep (issued sha1hex i)) (.active j token d)
      (actsOf i (op, (exec sha1hex op q).1)) p') :
    p'.token = none := by
  obtain ⟨a, ha⟩ | ⟨e, he, hend⟩ := (exec_holder sha1hex hop hp h).2
  · exact absurd ha (hne a)
  rw [he] at hs
  obtain ⟨b, hb, hrest⟩ := Place.Pending.uncons (p := .active j token d) trivial hs
  exact silent_token hrest (hb.closes hend).2.1

/-- After a call that presents a token, other than a renewal, no live claim has it. -/
theorem presented_token_is_dead {q : Queue} {op : Call × RedisTime} {token : String} {p p' : Place}
    (hop : op.1.LeaseIsNumber) (hp : op.1.presents = some (i, token))
    (hne : ∀ a, op.1 ≠ .extendLock a) (h : At q i p) (h' : At (exec sha1hex op q).2 i p')
    (hs : Reaches (JobStep (issued sha1hex i)) p (actsOf i (op, (exec sha1hex op q).1)) p') :
    p'.token ≠ some token := by
  rcases p.holder_or token with ⟨j, d, rfl⟩ | hfree
  · rw [claim_is_ended sha1hex hop hp hne h hs]
    simp
  · obtain ⟨-, hq⟩ := exec_refused sha1hex hp h hfree
    rw [hq] at h'
    rw [← h.unique h']
    exact hfree

/-! ## The laws -/

/-- The lock token that the hash of a job holds. -/
def Queue.lockToken (q : Queue) (i : String) : Option String :=
  match q.jobs i with
  | some (.hash h) => h.lockToken
  | _ => none

theorem At.lockToken {q : Queue} {p : Place} (h : At q i p) : q.lockToken i = p.token := by
  rw [Queue.lockToken, h.key]
  cases p <;> rfl

/-- What an accepted call that presented `token` did to job `i`. A renewal gave
the job a new deadline and touched no other job. Every other call ended the
claim. -/
def Accepted (op : Call × RedisTime) (i token : String) (q q' : Queue) : Prop :=
  match op.1 with
  | .extendLock a =>
    ∃ j d d', a.leaseMs.plus op.2.now = .val d' ∧ At q i (.active j token d) ∧
      At q' i (.active j token d') ∧ ∀ k ≠ i, q'.sight k = q.sight k
  | _ => q'.lockToken i = none

theorem exec_accepted {ops : List (Call × RedisTime)} (hl : LeasesAreNumbers ops)
    {op : Call × RedisTime} (hop : op.1.LeaseIsNumber) {token : String} {j : Job} {d : Score}
    (hp : op.1.presents = some (i, token)) (h : At (run sha1hex ops) i (.active j token d)) :
    Accepted op i token (run sha1hex ops) (exec sha1hex op (run sha1hex ops)).2 := by
  obtain ⟨call, t⟩ := op
  cases call with
  | extendLock a =>
    cases hp
    obtain ⟨d', hd'⟩ := Call.deadline hop t.now
    obtain ⟨q', hrun, hat, hothers⟩ := extendLock_renews (t := t) h hd'
    simp only [Accepted, exec, Lua.exec, runScript, hrun]
    exact ⟨j, d, d', hd', h, hat, hothers⟩
  | complete a | fail a | requeueActive a =>
    obtain ⟨p', hat', hs⟩ := exec_refines sha1hex hl hop h
    unfold Accepted
    rw [hat'.lockToken]
    exact claim_is_ended sha1hex hop hp (by simp) h hs
  | _ => cases hp

/-- The fence of a job after a run. -/
def fenceOf (ops : List (Call × RedisTime)) (i : String) : Fence :=
  fence (history i (trace sha1hex ops))

theorem fenceOf_snoc (ops : List (Call × RedisTime)) (op : Call × RedisTime) (i : String) :
    fenceOf sha1hex (ops ++ [op]) i =
      (actsOf i (op, (exec sha1hex op (run sha1hex ops)).1)).foldl Fence.act
        (fenceOf sha1hex ops i) := by
  rw [fenceOf, trace_snoc, history_append, fence_append, fenceOf]
  simp only [history, List.flatMap_cons, List.flatMap_nil, List.append_nil]

variable {sha1hex}

theorem fenceOf_live {ops : List (Call × RedisTime)} (hl : LeasesAreNumbers ops) {p : Place}
    (hp : At (run sha1hex ops) i p) : p.token = (fenceOf sha1hex ops i).live := by
  obtain ⟨p', hp', hr⟩ := run_refines sha1hex hl i
  rw [hp.unique hp']
  exact live_token hr

/-- The hash holds the token of the live claim. -/
theorem lockToken_run {ops : List (Call × RedisTime)} (hl : LeasesAreNumbers ops) (i : String) :
    (run sha1hex ops).lockToken i = (fenceOf sha1hex ops i).live := by
  obtain ⟨p, hp⟩ := sound_run sha1hex hl i
  rw [hp.lockToken, fenceOf_live hl hp]

theorem fenceOf_fenced (hsha : Function.Injective sha1hex) {ops : List (Call × RedisTime)}
    (hl : LeasesAreNumbers ops) (hids : IdsNotReused (trace sha1hex ops)) (i : String) :
    ∃ runs, Fenced (issued sha1hex i) runs (fenceOf sha1hex ops i) := by
  obtain ⟨p, -, hr⟩ := run_refines sha1hex hl i
  have hinj : ∀ now now' n n', issued sha1hex i now n = issued sha1hex i now' n' → n = n' :=
    fun _ _ _ _ h => (issued_inj hsha h).2
  rcases one_life hr (hids i) with ⟨he, -⟩ | ⟨a, now, fs, he, hlife⟩
  · rw [fenceOf, he]
    exact ⟨0, Fenced.empty⟩
  · obtain ⟨runs, hf, -⟩ := life_fenced hinj hlife
    rw [fenceOf, he]
    exact ⟨runs, hf⟩

theorem not_effective_of_refused {r : Reply} (h : r.Refused) : ¬ r.Effective := by
  intro he
  rcases r with r | r | r | r | r | r | r | r | r <;> cases r <;>
    simp_all [Reply.Refused, Reply.Effective]

/-- A token that was issued is not issued again. -/
theorem live_of_issued (hsha : Function.Injective sha1hex) {ops : List (Call × RedisTime)}
    {op : Call × RedisTime} (hl : LeasesAreNumbers (ops ++ [op]))
    (hids : IdsNotReused (trace sha1hex (ops ++ [op]))) {token : String}
    (ht : token ∈ (fenceOf sha1hex ops i).issued)
    (h : (fenceOf sha1hex (ops ++ [op]) i).live = some token) :
    (fenceOf sha1hex ops i).live = some token := by
  obtain ⟨runs, hf⟩ := fenceOf_fenced hsha hl hids i
  have hn := hf.nodup
  rw [fenceOf_snoc, Fence.issued_foldl] at hn
  rw [fenceOf_snoc] at h
  rcases Fence.live_foldl h with hlive | hnew
  · exact hlive
  · exact absurd rfl ((List.nodup_append.mp hn).2.2 token ht token hnew)

/-- Two jobs share no issued token. -/
theorem issued_once (hsha : Function.Injective sha1hex) {ops : List (Call × RedisTime)}
    (hl : LeasesAreNumbers ops) (hids : IdsNotReused (trace sha1hex ops)) {k token : String}
    (hi : token ∈ (fenceOf sha1hex ops i).issued) (hk : token ∈ (fenceOf sha1hex ops k).issued) :
    i = k := by
  obtain ⟨_, hfi⟩ := fenceOf_fenced hsha hl hids i
  obtain ⟨_, hfk⟩ := fenceOf_fenced hsha hl hids k
  obtain ⟨_, _, -, he⟩ := hfi.issued token hi
  obtain ⟨_, _, -, he'⟩ := hfk.issued token hk
  exact (issued_inj hsha (he.symm.trans he')).1

variable (sha1hex) in
/-- The lock token fences every lease operation. The hash holds the token of
the live claim. A call takes effect if and only if it presents that token: a
renewal moves the deadline, the others end the claim. Every other call is
refused and changes nothing. No token is issued twice. Each claim ends at most
once, by a call of its holder or by one sweep. -/
theorem the_lock_token_fences (hsha : Function.Injective sha1hex)
    (ops : List (Call × RedisTime)) (hl : LeasesAreNumbers ops)
    (hids : IdsNotReused (trace sha1hex ops)) :
    (∀ i, (run sha1hex ops).lockToken i = (fenceOf sha1hex ops i).live) ∧
    (∀ (op : Call × RedisTime) (i token : String), op.1.LeaseIsNumber →
      op.1.presents = some (i, token) →
      ((exec sha1hex op (run sha1hex ops)).1.Effective ↔
        (fenceOf sha1hex ops i).live = some token) ∧
      ((fenceOf sha1hex ops i).live = some token →
        Accepted op i token (run sha1hex ops) (exec sha1hex op (run sha1hex ops)).2) ∧
      ((fenceOf sha1hex ops i).live ≠ some token →
        (exec sha1hex op (run sha1hex ops)).1.Refused ∧
          (exec sha1hex op (run sha1hex ops)).2 = run sha1hex ops)) ∧
    (∀ i, (fenceOf sha1hex ops i).issued.Nodup) ∧
    (∀ i k token, token ∈ (fenceOf sha1hex ops i).issued →
      token ∈ (fenceOf sha1hex ops k).issued → i = k) ∧
    ∀ i, ((fenceOf sha1hex ops i).ended.map Prod.fst).Nodup ∧
      ∀ x ∈ (fenceOf sha1hex ops i).ended,
        ∃ token ∈ (fenceOf sha1hex ops i).issued, x.1 = some token ∧ x.2.By token := by
  have hq := sound_run sha1hex hl
  refine ⟨lockToken_run hl, fun op i token hop hp => ?_, fun i => ?_, fun i k token hi hk => ?_,
    fun i => ?_⟩
  · obtain ⟨p, hat⟩ := hq i
    rw [← fenceOf_live hl hat]
    refine ⟨⟨fun he => ?_, fun ht => ?_⟩, fun ht => ?_, exec_refused sha1hex hp hat⟩
    · by_contra hne
      exact not_effective_of_refused (exec_refused sha1hex hp hat hne).1 he
    · rcases p.holder_or token with ⟨j, d, rfl⟩ | hne
      · exact (exec_holder sha1hex hop hp hat).1
      · exact absurd ht hne
    · rcases p.holder_or token with ⟨j, d, rfl⟩ | hne
      · exact exec_accepted sha1hex hl hop hp hat
      · exact absurd ht hne
  · obtain ⟨runs, hf⟩ := fenceOf_fenced hsha hl hids i
    exact hf.nodup
  · exact issued_once hsha hl hids hi hk
  · obtain ⟨runs, hf⟩ := fenceOf_fenced hsha hl hids i
    exact ⟨hf.once, hf.ended⟩

theorem sample_token_fences :
    (exec id (.complete ⟨"j", "j:2000:1", ⟨.delete, -1, -1⟩⟩, ⟨3, 0⟩)
      (run id sampleOps)).1.Effective ∧
    Accepted (.extendLock ⟨"j", "j:2000:1", .ofNat 30000⟩, ⟨3, 0⟩) "j" "j:2000:1" (run id sampleOps)
      (exec id (.extendLock ⟨"j", "j:2000:1", .ofNat 30000⟩, ⟨3, 0⟩) (run id sampleOps)).2 := by
  have h := the_lock_token_fences id Function.injective_id sampleOps (by decide)
    (idsNotReused_of_nodup id (by decide))
  have hlive : (fenceOf id sampleOps "j").live = some "j:2000:1" := by decide +kernel
  have hcomplete := h.2.1 (.complete ⟨"j", "j:2000:1", ⟨.delete, -1, -1⟩⟩, ⟨3, 0⟩) "j" "j:2000:1"
    trivial rfl
  have hextend := h.2.1 (.extendLock ⟨"j", "j:2000:1", .ofNat 30000⟩, ⟨3, 0⟩) "j" "j:2000:1"
    (by decide) rfl
  exact ⟨hcomplete.1.mpr hlive, hextend.2.1 hlive⟩

end Panqueue
