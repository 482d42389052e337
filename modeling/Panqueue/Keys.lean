-- The key names of keys.ts: each queue has a hash tag of its own, and each
-- role and each job of a queue has a key of its own.
import Mathlib.Data.List.Basic
import Panqueue.Lib.Utf16

namespace Panqueue

/-! ## keys.ts -/

/-- The hash-tag prefix shared by every key of a queue (e.g. `{q:emails}`). -/
def queueHashTag (queueId : String) : String := "\x7bq:" ++ queueId ++ "\x7d"

def queueKey (queueId suffix : String) : String := queueHashTag queueId ++ ":" ++ suffix

def waitingKey (queueId : String) : String := queueKey queueId "waiting"

def activeKey (queueId : String) : String := queueKey queueId "active"

def completedKey (queueId : String) : String := queueKey queueId "completed"

def failedKey (queueId : String) : String := queueKey queueId "failed"

def delayedKey (queueId : String) : String := queueKey queueId "delayed"

def jobKey (queueId jobId : String) : String := queueKey queueId ("job:" ++ jobId)

def notifyKey (queueId : String) : String := queueKey queueId "notify"

def concurrencyKey (queueId : String) : String := queueKey queueId "concurrency"

/-- The full set of Redis keys for a single queue. -/
structure QueueKeys where
  waiting : String
  active : String
  completed : String
  failed : String
  delayed : String
  notify : String
  concurrency : String

def queueKeys (queueId : String) : QueueKeys where
  waiting := waitingKey queueId
  active := activeKey queueId
  completed := completedKey queueId
  failed := failedKey queueId
  delayed := delayedKey queueId
  notify := notifyKey queueId
  concurrency := concurrencyKey queueId

/-- The job key that a script builds from its tag argument. -/
theorem lua_jobKey (queueId jobId : String) :
    queueHashTag queueId ++ ":job:" ++ jobId = jobKey queueId jobId := by
  simp only [jobKey, queueKey, String.append_assoc]
  rfl

/-! ## The roles of a queue -/

/-- What a key or a channel of a queue is for. -/
inductive Role
  | waiting
  | active
  | completed
  | failed
  | delayed
  | notify
  | concurrency
  | job (jobId : String)
  deriving DecidableEq

namespace Role

def suffix : Role → String
  | waiting => "waiting"
  | active => "active"
  | completed => "completed"
  | failed => "failed"
  | delayed => "delayed"
  | notify => "notify"
  | concurrency => "concurrency"
  | job jobId => "job:" ++ jobId

/-- The key or the channel of a role in a queue. -/
def key (r : Role) (queueId : String) : String :=
  match r with
  | waiting => (queueKeys queueId).waiting
  | active => (queueKeys queueId).active
  | completed => (queueKeys queueId).completed
  | failed => (queueKeys queueId).failed
  | delayed => (queueKeys queueId).delayed
  | notify => (queueKeys queueId).notify
  | concurrency => (queueKeys queueId).concurrency
  | job jobId => jobKey queueId jobId

theorem key_eq (r : Role) (queueId : String) : r.key queueId = queueKey queueId r.suffix := by
  cases r <;> rfl

end Role

/-- A job id without a closing brace. The ids that the library makes are UUIDs. -/
def Plain (jobId : String) : Prop := '}' ∉ jobId.toList

instance : DecidablePred Plain := fun _ => inferInstanceAs (Decidable (¬ _))

/-- A role whose job id, if it has one, is plain. -/
def Role.Plain (r : Role) : Prop := ∀ jobId, r = .job jobId → Panqueue.Plain jobId

theorem Role.suffix_plain {r : Role} (hr : r.Plain) : '}' ∉ r.suffix.toList := by
  cases r with
  | job jobId =>
    have hj : '}' ∉ jobId.toList := hr jobId rfl
    simp [suffix, String.toList_append, hj]
  | _ => decide

/-- Only the suffixes of jobs start with a `j`. -/
theorem Role.suffix_head {r : Role} (hr : ∀ jobId, r ≠ .job jobId) :
    r.suffix.toList.head? ≠ some 'j' := by
  cases r with
  | job jobId => exact absurd rfl (hr jobId)
  | _ => decide

theorem Role.suffix_job_head (jobId : String) :
    (Role.job jobId).suffix.toList.head? = some 'j' := by
  rw [suffix, String.toList_append]
  rfl

/-- The roles of a queue have different suffixes. -/
theorem Role.suffix_injective : Function.Injective Role.suffix := by
  intro r r' h
  by_cases hr : ∀ jobId, r ≠ .job jobId
  · by_cases hr' : ∀ jobId, r' ≠ .job jobId
    · cases r with
      | job jobId => exact absurd rfl (hr jobId)
      | _ =>
        cases r' with
        | job jobId => exact absurd rfl (hr' jobId)
        | _ => first | rfl | exact absurd h (by decide)
    · push Not at hr'
      obtain ⟨jobId, rfl⟩ := hr'
      exact absurd (h ▸ suffix_job_head jobId) (suffix_head hr)
  · push Not at hr
    obtain ⟨jobId, rfl⟩ := hr
    by_cases hr' : ∀ jobId, r' ≠ .job jobId
    · exact absurd (h ▸ suffix_job_head jobId) (suffix_head hr')
    · push Not at hr'
      obtain ⟨jobId', rfl⟩ := hr'
      have htail := congrArg String.toList h
      simp only [suffix, String.toList_append, List.append_cancel_left_eq] at htail
      rw [String.toList_inj.mp htail]

/-! ## Different keys -/

section Braces

variable {α : Type} {c : α} {x x' z z' l : List α}

/-- A text without `c` after its first letter has no second `c`. -/
theorem eq_nil_of_cons_eq (hz : c ∉ z) (h : c :: z = l ++ c :: z') : l = [] := by
  cases l with
  | nil => rfl
  | cons b l =>
    have htail : z = l ++ c :: z' := (List.cons.inj h).2
    exact absurd (by simp [htail]) hz

/-- Two equal texts have the same last `c`. -/
theorem append_cons_inj_last (hz : c ∉ z) (hz' : c ∉ z') (h : x ++ c :: z = x' ++ c :: z') :
    x = x' ∧ z = z' := by
  rcases List.append_eq_append_iff.mp h with ⟨l, hx, hl⟩ | ⟨l, hx, hl⟩
  · have hnil := eq_nil_of_cons_eq hz hl
    subst hnil
    exact ⟨by simpa using hx.symm, (List.cons.inj hl).2⟩
  · have hnil := eq_nil_of_cons_eq hz' hl
    subst hnil
    exact ⟨by simpa using hx, (List.cons.inj hl).2.symm⟩

/-- What stands before the first `c` does not depend on what comes after it. -/
theorem takeWhile_append_cons [DecidableEq α] (x z : List α) (c : α) :
    (x ++ c :: z).takeWhile (fun a => decide (a ≠ c)) =
      (x ++ [c]).takeWhile (fun a => decide (a ≠ c)) := by
  induction x with
  | nil => simp
  | cons b x ih =>
    by_cases hb : b = c
    · simp [hb]
    · simpa [hb] using ih

end Braces

/-- No two queues share a key, and no two roles of a queue do: the last closing
brace of a key ends its hash tag. -/
theorem key_injective {a b : String} {r r' : Role} (hr : r.Plain) (hr' : r'.Plain)
    (h : r.key a = r'.key b) : a = b ∧ r = r' := by
  have hlist := congrArg String.toList h
  simp only [Role.key_eq, queueKey, queueHashTag, String.toList_append, List.append_assoc,
    List.append_cancel_left_eq] at hlist
  have hcut : a.toList ++ '}' :: ':' :: r.suffix.toList =
      b.toList ++ '}' :: ':' :: r'.suffix.toList := hlist
  have hrest : ∀ {r : Role}, r.Plain → '}' ∉ ':' :: r.suffix.toList := fun hr => by
    simp [Role.suffix_plain hr]
  obtain ⟨htag, hsuffix⟩ := append_cons_inj_last (hrest hr) (hrest hr') hcut
  exact ⟨String.toList_inj.mp htag,
    Role.suffix_injective (String.toList_inj.mp (List.cons.inj hsuffix).2)⟩

/-! ## The hash tag of Redis Cluster -/

/-- The text between the first opening brace and the first closing brace after it. -/
def hashTag (key : String) : Option String :=
  match key.toList.dropWhile (fun c => decide (c ≠ '{')) with
  | [] => none
  | _ :: rest =>
    if '}' ∈ rest then some (String.ofList (rest.takeWhile fun c => decide (c ≠ '}'))) else none

/-- The keys of a queue have one hash tag, and it is not empty. It is the queue
id up to its first closing brace, after `q:`. -/
theorem hashTag_key (queueId : String) :
    ∃ tag ≠ "", ∀ r : Role, hashTag (r.key queueId) = some tag := by
  let text := 'q' :: ':' :: queueId.toList
  refine ⟨String.ofList ((text ++ ['}']).takeWhile fun c => decide (c ≠ '}')), ?_, fun r => ?_⟩
  · intro h
    have hlist := congrArg String.toList h
    simp [text] at hlist
  · have hkey : (r.key queueId).toList = '{' :: (text ++ '}' :: ':' :: r.suffix.toList) := by
      simp only [Role.key_eq, queueKey, queueHashTag, String.toList_append, List.append_assoc]
      rfl
    rw [hashTag, hkey]
    simp only [ne_eq, not_true_eq_false, decide_false, List.dropWhile_cons, Bool.false_eq_true,
      if_false]
    rw [if_pos (by simp)]
    congr 2
    exact takeWhile_append_cons text _ '}'

/-! ## Queue ids in JavaScript -/

/-- `queueKey` on JavaScript strings, as keys.ts builds it. -/
def jsQueueKey (queueId suffix : Utf16) : Utf16 :=
  Utf16.ascii "\x7bq:" ++ queueId ++ Utf16.ascii "\x7d" ++ Utf16.ascii ":" ++ suffix

/-- The key that the client sends is the key of what it would send for the id. -/
theorem text_jsQueueKey (queueId suffix : Utf16) :
    (jsQueueKey queueId suffix).text = queueKey queueId.text suffix.text := by
  have hplain : ∀ u : UInt16, u.toNat < 0xD800 → ¬ Utf16.IsHigh u ∧ ¬ Utf16.IsLow u := by
    intro u hu
    unfold Utf16.IsHigh Utf16.IsLow
    omega
  have hsplit : jsQueueKey queueId suffix = Utf16.ascii "\x7bq" ++ (58 : UInt16) ::
      (queueId ++ (125 : UInt16) :: ([] ++ (58 : UInt16) :: suffix)) := by
    unfold jsQueueKey
    simp only [List.append_assoc]
    rfl
  rw [hsplit, Utf16.text_append_cons (hplain 58 (by decide)),
    Utf16.text_append_cons (hplain 125 (by decide)), Utf16.text_append_cons (hplain 58 (by decide))]
  unfold queueKey queueHashTag
  apply String.toList_inj.mp
  simp only [String.toList_append, List.append_assoc]
  rfl

/-- A queue id without a surrogate that stands alone. -/
structure QueueId where
  units : Utf16
  wellFormed : units.WellFormed
  deriving DecidableEq

/-- The id as it reaches Redis. -/
def QueueId.text (id : QueueId) : String := id.units.text

theorem QueueId.text_inj {a b : QueueId} (h : a.text = b.text) : a = b := by
  obtain ⟨a, ha⟩ := a
  obtain ⟨b, hb⟩ := b
  cases Utf16.text_inj ha hb h
  rfl

end Panqueue
