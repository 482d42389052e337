-- The per-job hash of packages/core: its fields (types.ts), the text that a
-- numeric field holds, and how the worker decodes a hash (job-hash.ts).
import Mathlib.Data.Fintype.Pi
import Panqueue.Lib.Double

namespace Panqueue

/-- Status of a job in the queue lifecycle. -/
inductive JobStatus
  | waiting
  | delayed
  | active
  | completed
  | failed
  deriving DecidableEq, Repr

/-- Kind of the most recent durable failure signal. -/
inductive FailureKind
  | handler
  | stalled
  deriving DecidableEq, Repr

/-! ## Numeric fields -/

/-- The text of a numeric field, by what its readers make of it: an integer in
plain digits, or another text with what Lua's `tonumber` and JavaScript's
`Number` read in it. They differ on `inf` and on the empty text. -/
inductive Numeral
  | int (n : ℤ)
  | other (lua : Option Double) (js : Double)
  deriving DecidableEq

namespace Numeral

/-- Lua's `tonumber`. -/
def tonumber : Numeral → Option Double
  | int n => some (Double.ofInt n)
  | other lua _ => lua

/-- A natural number in plain digits. -/
def ofNat (n : ℕ) : Numeral := int n

/-- JavaScript's `Number`. -/
def toNumber : Numeral → Double
  | int n => Double.ofInt n
  | other _ js => js

/-- The text that JavaScript's `String` writes for a number. A whole number is
written in plain digits. -/
def ofDouble : Double → Numeral
  | .val (some (some q)) =>
    if q.den = 1 then int q.num else other (some (Double.ofRat q)) (Double.ofRat q)
  | x => other (some x) x

/-- The text that Redis writes for a number of a Lua script. Lua calls the
infinities `inf` and `-inf`, which JavaScript does not read. -/
def ofLua : Double → Numeral
  | .val ⊥ => other (some (.val ⊥)) .nan
  | .val (some ⊤) => other (some (.val (some ⊤))) .nan
  | x => ofDouble x

@[simp] theorem tonumber_int (n : ℤ) : (int n).tonumber = some (Double.ofInt n) := rfl

@[simp] theorem ofNat_inj {m n : ℕ} : ofNat m = ofNat n ↔ m = n := by
  simp [ofNat]

theorem ofDouble_rat (q : ℚ) : ofDouble (Double.ofRat q) =
    if q.den = 1 then int q.num else other (some (Double.ofRat q)) (Double.ofRat q) := rfl

@[simp] theorem tonumber_ofDouble (x : Double) : (ofDouble x).tonumber = some x := by
  rcases x with _ | (_ | _ | q)
  · rfl
  · rfl
  · rfl
  · have h := ofDouble_rat q
    by_cases hden : q.den = 1
    · rw [if_pos hden] at h
      refine (congrArg tonumber h).trans (congrArg some ?_)
      rw [Double.ofInt, Rat.coe_int_num_of_den_eq_one hden]
      rfl
    · rw [if_neg hden] at h
      exact congrArg tonumber h

@[simp] theorem tonumber_ofLua (x : Double) : (ofLua x).tonumber = some x := by
  rcases x with _ | (_ | _ | q)
  · rfl
  · rfl
  · rfl
  · exact tonumber_ofDouble (.val (some (some q)))

@[simp] theorem toNumber_ofDouble (x : Double) : (ofDouble x).toNumber = x := by
  rcases x with _ | (_ | _ | q)
  · rfl
  · rfl
  · rfl
  · have h := ofDouble_rat q
    by_cases hden : q.den = 1
    · rw [if_pos hden] at h
      apply (congrArg toNumber h).trans
      rw [toNumber, Double.ofInt, Rat.coe_int_num_of_den_eq_one hden]
      rfl
    · rw [if_neg hden] at h
      exact congrArg toNumber h

@[simp] theorem ofDouble_inj {x y : Double} : ofDouble x = ofDouble y ↔ x = y :=
  ⟨fun h => by simpa using congrArg tonumber h, congrArg ofDouble⟩

@[simp] theorem ofLua_inj {x y : Double} : ofLua x = ofLua y ↔ x = y :=
  ⟨fun h => by simpa using congrArg tonumber h, congrArg ofLua⟩

end Numeral

/-! ## The hash -/

/-- A job hash: the fields of `JobData`, and the payload as the opaque string
it is stored as. A field may be absent. -/
structure JobHash where
  id : Option String := none
  queueId : Option String := none
  payload : Option String := none
  status : Option JobStatus := none
  runs : Option Numeral := none
  failures : Option Numeral := none
  stalls : Option Numeral := none
  maxRetries : Option Numeral := none
  maxStalls : Option Numeral := none
  createdAt : Option Numeral := none
  lastStartedAt : Option Numeral := none
  lastFailedAt : Option Numeral := none
  lastStalledAt : Option Numeral := none
  lastRequeuedAt : Option Numeral := none
  lastRequeueReason : Option String := none
  finishedAt : Option Numeral := none
  failureKind : Option FailureKind := none
  failedReason : Option String := none
  lastError : Option String := none
  lockToken : Option String := none
  leaseDeadline : Option Numeral := none
  deriving DecidableEq

/-- A hash with no field. Redis keeps no such key. -/
def JobHash.isEmpty (h : JobHash) : Bool := h = {}

theorem JobHash.not_isEmpty {h : JobHash} {s : JobStatus} (hs : h.status = some s) :
    h.isEmpty = false := by
  apply decide_eq_false
  rintro rfl
  cases hs

/-- The numeric fields of a hash, `NUMERIC_JOB_FIELDS`. -/
inductive NumericField
  | runs
  | failures
  | stalls
  | maxRetries
  | maxStalls
  | createdAt
  | lastStartedAt
  | lastFailedAt
  | lastStalledAt
  | lastRequeuedAt
  | finishedAt
  | leaseDeadline
  deriving DecidableEq

/-- The fields of a hash that hold free text. -/
inductive TextField
  | id
  | queueId
  | payload
  | lastRequeueReason
  | failedReason
  | lastError
  | lockToken
  deriving DecidableEq

def JobHash.numeric (h : JobHash) : NumericField → Option Numeral
  | .runs => h.runs
  | .failures => h.failures
  | .stalls => h.stalls
  | .maxRetries => h.maxRetries
  | .maxStalls => h.maxStalls
  | .createdAt => h.createdAt
  | .lastStartedAt => h.lastStartedAt
  | .lastFailedAt => h.lastFailedAt
  | .lastStalledAt => h.lastStalledAt
  | .lastRequeuedAt => h.lastRequeuedAt
  | .finishedAt => h.finishedAt
  | .leaseDeadline => h.leaseDeadline

def JobHash.text (h : JobHash) : TextField → Option String
  | .id => h.id
  | .queueId => h.queueId
  | .payload => h.payload
  | .lastRequeueReason => h.lastRequeueReason
  | .failedReason => h.failedReason
  | .lastError => h.lastError
  | .lockToken => h.lockToken

/-- One field of a hash with its value. -/
inductive JobField
  | text (f : TextField) (v : String)
  | numeric (f : NumericField) (v : Numeral)
  | status (v : JobStatus)
  | failureKind (v : FailureKind)
  deriving DecidableEq

def textFields : List TextField :=
  [.id, .queueId, .payload, .lastRequeueReason, .failedReason, .lastError, .lockToken]

def numericFields : List NumericField :=
  [.runs, .failures, .stalls, .maxRetries, .maxStalls, .createdAt, .lastStartedAt,
    .lastFailedAt, .lastStalledAt, .lastRequeuedAt, .finishedAt, .leaseDeadline]

theorem mem_textFields : ∀ f : TextField, f ∈ textFields := by
  intro f
  cases f <;> decide

theorem mem_numericFields : ∀ f : NumericField, f ∈ numericFields := by
  intro f
  cases f <;> decide

instance : Fintype NumericField := Fintype.ofList numericFields mem_numericFields

/-- HGETALL: each field that is there, with its value. -/
def JobHash.hgetall (h : JobHash) : List JobField :=
  (textFields.filterMap fun f => (h.text f).map (.text f)) ++
    (numericFields.filterMap fun f => (h.numeric f).map (.numeric f)) ++
    (h.status.map .status).toList ++ (h.failureKind.map .failureKind).toList

/-! ## Decoding -/

/-- The record that `deserializeJobHash` fills, with the payload aside. -/
structure JobRecord where
  payload : Option String := none
  text : TextField → Option String := fun _ => none
  numeric : NumericField → Option Double := fun _ => none
  status : Option JobStatus := none
  failureKind : Option FailureKind := none

/-- The full job record that a handler gets. -/
structure JobData (δ : Type) where
  id : String
  queueId : String
  status : JobStatus
  data : δ
  numeric : NumericField → Option Double
  lastRequeueReason : Option String
  failureKind : Option FailureKind
  failedReason : Option String
  lastError : Option String
  lockToken : Option String
  deriving DecidableEq

/-- One turn of the loop of `deserializeJobHash`. A numeric field is coerced
with `Number`, and the payload is put aside. -/
def JobRecord.set (r : JobRecord) : JobField → JobRecord
  | .text .payload v => { r with payload := some v }
  | .text f v => { r with text := Function.update r.text f (some v) }
  | .numeric f v => { r with numeric := Function.update r.numeric f (some v.toNumber) }
  | .status v => { r with status := some v }
  | .failureKind v => { r with failureKind := some v }

variable {δ : Type}

/-- `deserializeJobHash`. `parse` is `JSON.parse`, which may throw. -/
def deserializeJobHash (parse : String → Except String δ) (flat : List JobField) :
    Except String (JobData δ) :=
  if flat.isEmpty then .error "Cannot deserialize an empty job hash"
  else
    let record := flat.foldl JobRecord.set {}
    match record.text .id, record.text .queueId, record.status with
    | some id, some queueId, some status =>
      match record.payload with
      | none => .error s!"Job {id} hash is missing its payload"
      | some payload => (parse payload).map fun data =>
        { id, queueId, status, data
          numeric := record.numeric
          lastRequeueReason := record.text .lastRequeueReason
          failureKind := record.failureKind
          failedReason := record.text .failedReason
          lastError := record.text .lastError
          lockToken := record.text .lockToken }
    | _, _, _ => .error "Job hash is missing required identity fields (id, queueId, status)"

/-- The record of a hash. -/
def JobHash.record (h : JobHash) : JobRecord where
  payload := h.payload
  text f := if f = .payload then none else h.text f
  numeric f := (h.numeric f).map Numeral.toNumber
  status := h.status
  failureKind := h.failureKind

theorem foldl_numeric (h : JobHash) (fs : List NumericField) (r : JobRecord) :
    (fs.filterMap fun f => (h.numeric f).map (JobField.numeric f)).foldl JobRecord.set r =
      { r with numeric := fun f =>
          if f ∈ fs then (h.record.numeric f).or (r.numeric f) else r.numeric f } := by
  induction fs generalizing r with
  | nil => simp
  | cons g fs ih =>
    rcases hg : h.numeric g with _ | v
    · simp only [List.filterMap_cons, hg, Option.map_none, ih]
      congr 1
      funext f
      by_cases hf : f = g
      · subst hf; simp [JobHash.record, hg]
      · simp [hf]
    · simp only [List.filterMap_cons, hg, Option.map_some, List.foldl_cons, ih, JobRecord.set]
      congr 1
      funext f
      by_cases hf : f = g
      · subst hf; simp [JobHash.record, hg]
      · simp [hf]

theorem foldl_text (h : JobHash) (fs : List TextField) (r : JobRecord) :
    (fs.filterMap fun f => (h.text f).map (JobField.text f)).foldl JobRecord.set r =
      { r with
        payload := if .payload ∈ fs then h.payload.or r.payload else r.payload
        text := fun f => if f ∈ fs then (h.record.text f).or (r.text f) else r.text f } := by
  induction fs generalizing r with
  | nil => simp
  | cons g fs ih =>
    rcases hg : h.text g with _ | v
    · simp only [List.filterMap_cons, hg, Option.map_none, ih]
      congr 1
      · cases g <;> simp_all [JobHash.text]
      · funext f
        by_cases hf : f = g
        · subst hf; simp [JobHash.record, hg]
        · simp [hf]
    · simp only [List.filterMap_cons, hg, Option.map_some, List.foldl_cons, ih]
      by_cases hp : g = .payload
      · subst hp
        have hpay : h.payload = some v := hg
        congr 1
        · simp [JobRecord.set, hpay]
        · funext f
          by_cases hf : f = .payload
          · subst hf; simp [JobRecord.set, JobHash.record]
          · simp [hf, JobRecord.set]
      · have hset : r.set (.text g v) = { r with text := Function.update r.text g (some v) } := by
          cases g <;> first | rfl | exact absurd rfl hp
        rw [hset]
        congr 1
        · simp [Ne.symm hp]
        · funext f
          by_cases hf : f = g
          · subst hf; simp [JobHash.record, hg, hp]
          · simp [hf]

/-- The loop over the fields of a hash gives its record. -/
theorem foldl_hgetall (h : JobHash) : h.hgetall.foldl JobRecord.set {} = h.record := by
  simp only [JobHash.hgetall, List.foldl_append, foldl_text, foldl_numeric, mem_textFields,
    mem_numericFields, if_true, Option.or_none]
  rcases hs : h.status with _ | s <;> rcases hk : h.failureKind with _ | k <;>
    simp [JobRecord.set, JobHash.record, hs, hk]

/-- A hash with its identity and a payload that parses decodes to its record. -/
theorem deserializeJobHash_hgetall (parse : String → Except String δ) (h : JobHash)
    {i q p : String} {s : JobStatus} {d : δ} (hi : h.id = some i) (hq : h.queueId = some q)
    (hs : h.status = some s) (hp : h.payload = some p) (hd : parse p = .ok d) :
    deserializeJobHash parse h.hgetall = .ok
      { id := i, queueId := q, status := s, data := d
        numeric := h.record.numeric
        lastRequeueReason := h.lastRequeueReason
        failureKind := h.failureKind
        failedReason := h.failedReason
        lastError := h.lastError
        lockToken := h.lockToken } := by
  have hne : h.hgetall.isEmpty = false := by
    simp [JobHash.hgetall, textFields, JobHash.text, hi]
  simp [deserializeJobHash, hne, foldl_hgetall, JobHash.record, JobHash.text, hi, hq, hs, hp, hd,
    Except.map]

/-- A hash that decodes has an identity and a payload that parses, and the
record keeps them. -/
theorem fields_of_deserializeJobHash {parse : String → Except String δ} {h : JobHash}
    {j : JobData δ} (hd : deserializeJobHash parse h.hgetall = .ok j) :
    h.id = some j.id ∧ h.queueId = some j.queueId ∧ h.status = some j.status ∧
      ∃ p, h.payload = some p ∧ parse p = .ok j.data := by
  unfold deserializeJobHash at hd
  split at hd
  · cases hd
  · rw [foldl_hgetall] at hd
    simp only at hd
    split at hd
    · rename_i id queueId status hid hqueue hstatus
      split at hd
      · cases hd
      · rename_i payload hpayload
        rcases hp : parse payload with e | d
        · rw [hp] at hd
          cases hd
        · rw [hp] at hd
          cases hd
          exact ⟨hid, hqueue, hstatus, payload, hpayload, hp⟩
    · cases hd

/-- A hash that decodes has an id, and the record keeps it. -/
theorem id_of_deserializeJobHash {parse : String → Except String δ} {h : JobHash} {j : JobData δ}
    (hd : deserializeJobHash parse h.hgetall = .ok j) : h.id = some j.id :=
  (fields_of_deserializeJobHash hd).1

/-! ## The order of the fields -/

variable {h : JobHash}

theorem mem_hgetall {x : JobField} : x ∈ h.hgetall ↔ match x with
    | .text f v => h.text f = some v
    | .numeric f v => h.numeric f = some v
    | .status v => h.status = some v
    | .failureKind v => h.failureKind = some v := by
  cases x <;> simp [JobHash.hgetall, mem_textFields, mem_numericFields]

theorem JobRecord.set_payload (r : JobRecord) (v : String) :
    r.set (.text .payload v) = { r with payload := some v } := rfl

theorem JobRecord.set_text (r : JobRecord) {f : TextField} (hf : f ≠ .payload) (v : String) :
    r.set (.text f v) = { r with text := Function.update r.text f (some v) } := by
  cases f <;> first | rfl | exact absurd rfl hf

/-- Two fields of one hash can be read in either order. -/
theorem JobRecord.set_comm {x y : JobField} (hx : x ∈ h.hgetall) (hy : y ∈ h.hgetall)
    (r : JobRecord) : (r.set x).set y = (r.set y).set x := by
  rw [mem_hgetall] at hx hy
  cases x with
  | text f v =>
    cases y with
    | text g w =>
      by_cases hfg : f = g
      · subst hfg
        cases Option.some.inj (hx.symm.trans hy)
        rfl
      · by_cases hf : f = .payload
        · subst hf
          simp [set_payload, set_text _ (Ne.symm hfg)]
        · by_cases hg : g = .payload
          · subst hg
            simp [set_payload, set_text _ hf]
          · simp [set_text _ hf, set_text _ hg, Function.update_comm hfg]
    | _ =>
      cases f <;> rfl
  | numeric f v =>
    cases y with
    | numeric g w =>
      by_cases hfg : f = g
      · subst hfg
        cases Option.some.inj (hx.symm.trans hy)
        rfl
      · simp [JobRecord.set, Function.update_comm hfg]
    | text g w => cases g <;> rfl
    | _ => rfl
  | status v =>
    cases y with
    | status w =>
      cases Option.some.inj (hx.symm.trans hy)
      rfl
    | text g w => cases g <;> rfl
    | _ => rfl
  | failureKind v =>
    cases y with
    | failureKind w =>
      cases Option.some.inj (hx.symm.trans hy)
      rfl
    | text g w => cases g <;> rfl
    | _ => rfl

/-- The order in which HGETALL lists the fields of a hash does not matter. -/
theorem deserializeJobHash_perm (parse : String → Except String δ) {flat : List JobField}
    (hp : flat.Perm h.hgetall) :
    deserializeJobHash parse flat = deserializeJobHash parse h.hgetall := by
  have hfold : flat.foldl JobRecord.set {} = h.hgetall.foldl JobRecord.set {} :=
    hp.foldl_eq' (fun x hx y hy r => (JobRecord.set_comm (hp.subset hx) (hp.subset hy) r)) {}
  have hempty : flat.isEmpty = h.hgetall.isEmpty := by
    rw [Bool.eq_iff_iff, List.isEmpty_iff_length_eq_zero, List.isEmpty_iff_length_eq_zero,
      hp.length_eq]
  rw [deserializeJobHash, deserializeJobHash, hfold, hempty]

end Panqueue
