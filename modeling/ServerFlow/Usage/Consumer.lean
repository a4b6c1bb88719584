import ServerFlow.Lib.GoMap
import ServerFlow.Lib.Machine
import ServerFlow.Protocol.Event

/-!
# Usage.Consumer

The usage consumer (`internal/usage`): it reads lifecycle events from a topic, writes the terminal
ones to the database and commits the offsets it has read.

A step is one interaction with the outside: a record is delivered, the store answers a call or its
answer is lost, the offsets are committed or not, the process dies and is started again. What the
database holds and the committed offsets survive a restart; everything else is lost.

`decode` is a parameter: the consumer is modelled over any codec. The topic is one, so a record's
coordinates are its partition and its offset.
-/

namespace ServerFlow.Usage

open Protocol
open Resilience (Time)

/-! ### Records, rows and rejects -/

/-- What the consumer asks of `pkg/protocol` and `encoding/json` about a record's bytes. -/
structure Codec (V : Type) where
  len : V → Nat
  decode : V → Except DecodeErr DecodedEvent
  jsonValid : V → Bool

structure Message (V : Type) where
  part : Nat
  offset : Nat
  value : V

inductive Outcome
  | completed
  | failed

/-- One usage record. -/
structure Row where
  eventID : String
  requestID : String
  tenantID : String
  apiKeyID : String
  model : String
  workerID : String
  outcome : Outcome
  failureClass : Option FailureClass
  httpStatus : Int
  inputTokens : Option Int
  outputTokens : Option Int
  tokensSource : TokensSource
  estimatedCostTokens : Int
  attempts : Nat
  ttftMS : Int
  durationMS : Int
  occurredAt : Time
  part : Nat
  offset : Nat

inductive RejectReason
  | decode
  | invalid
  | version
  | oversize

structure Reject where
  part : Nat
  offset : Nat
  reason : RejectReason

/-- The reject of a row whose content the database has refused. -/
def Row.refusal (r : Row) : Reject := ⟨r.part, r.offset, .invalid⟩

inductive Class
  | row (r : Row)
  | reject (j : Reject)
  | skip

section Consumer

variable {V : Type} (codec : Codec V)

/-- The row of a terminal event. -/
def rowOf (m : Message V) (e : Event) (t : TerminalData) : Row where
  eventID := e.eventID
  requestID := e.requestID
  tenantID := e.tenantID
  apiKeyID := e.apiKeyID
  model := e.model
  workerID := e.workerID
  outcome := if e.eventType = .failed then .failed else .completed
  failureClass := t.failureClass
  httpStatus := t.httpStatus
  inputTokens := t.inputTokens
  outputTokens := t.outputTokens
  tokensSource := t.tokensSource
  estimatedCostTokens := t.estimatedCostTokens
  attempts := t.attempts.length
  ttftMS := t.ttftMS
  durationMS := t.durationMS
  occurredAt := e.timestamp
  part := m.part
  offset := m.offset

/-- `classify`: a row, a reject, or a skip. -/
def classify (m : Message V) : Class :=
  if codec.len m.value > maxEventBytes then .reject ⟨m.part, m.offset, .oversize⟩
  else
    match codec.decode m.value with
    | .error .versionUnsupported => .reject ⟨m.part, m.offset, .version⟩
    | .error .tooLarge => .reject ⟨m.part, m.offset, .oversize⟩
    | .error .invalid =>
      if codec.jsonValid m.value then .reject ⟨m.part, m.offset, .invalid⟩
      else .reject ⟨m.part, m.offset, .decode⟩
    | .ok e =>
      if h : isTerminalEventType e.1.eventType = true then .row (rowOf m e.1 (e.terminal h))
      else .skip

/-! ### One batch -/

/-- A batch in hand, with what `process` has made of it. -/
structure Job (V : Type) where
  batch : List (Message V)
  rows : List Row
  rejects : List Reject
  skipped : Nat
  /-- The next offset to read, by partition. -/
  next : GoMap Nat Nat

/-- The first loop of `process`, for one message. -/
def Job.add (job : Job V) (m : Message V) : Job V :=
  let next :=
    match job.next.lookup m.part with
    | none => job.next.insert m.part (m.offset + 1)
    | some o => if m.offset + 1 > o then job.next.insert m.part (m.offset + 1) else job.next
  match classify codec m with
  | .row r => { job with next := next, rows := job.rows ++ [r] }
  | .reject j => { job with next := next, rejects := job.rejects ++ [j] }
  | .skip => { job with next := next, skipped := job.skipped + 1 }

def plan (batch : List (Message V)) : Job V := batch.foldl (Job.add codec) ⟨batch, [], [], 0, ∅⟩

/-! ### The database -/

/-- The usage table, by event, and the table of rejected records, by coordinates. -/
structure Db where
  usage : GoMap String Row
  rejects : GoMap (Nat × Nat) Reject

/-- `InsertUsage`: rows whose event is there are ignored; it says how many were new. -/
def Db.insertUsage (db : Db) : List Row → Db × Nat
  | [] => (db, 0)
  | r :: rs =>
    if r.eventID ∈ db.usage then db.insertUsage rs
    else
      let (db', n) := Db.insertUsage { db with usage := db.usage.insert r.eventID r } rs
      (db', n + 1)

def Db.recordReject (db : Db) (j : Reject) : Db :=
  if (j.part, j.offset) ∈ db.rejects then db
  else { db with rejects := db.rejects.insert (j.part, j.offset) j }

/-- `RecordRejects`: repeating one is harmless. -/
def Db.recordRejects (db : Db) (js : List Reject) : Db := js.foldl Db.recordReject db

/-! ### The consumer and its surroundings -/

/-- Where `Run` is. -/
inductive Phase (V : Type)
  | collecting (batch : List (Message V))
  /-- In `retry` of `RecordRejects`. -/
  | rejecting (job : Job V)
  /-- In `retry` of `InsertUsage` for the whole batch. -/
  | inserting (job : Job V)
  /-- Row by row, with the number of new rows and the refused ones so far. -/
  | rowByRow (job : Job V) (inserted : Nat) (bad : List Reject) (r : Row) (todo : List Row)
  /-- In `retry` of `RecordRejects` for the refused rows. -/
  | rejectingBad (job : Job V) (inserted : Nat) (bad : List Reject)
  /-- In `commit`. -/
  | committing (job : Job V) (attempt : Nat)
  /-- `Run` has returned. -/
  | stopped

/-- What `process` adds to the counters for one batch. -/
structure Counts where
  size : Nat
  inserted : Int
  duplicate : Int
  skipped : Int
  rejected : Int

structure Sys (V : Type) where
  db : Db
  committed : Nat → Nat
  /-- What the source delivers next, by partition. -/
  pos : Nat → Nat
  phase : Phase V
  /-- The rows the database has refused when they came alone. -/
  refused : List Row
  processed : List Counts

def Sys.start : Sys V := ⟨⟨∅, ∅⟩, fun _ => 0, fun _ => 0, .collecting [], [], []⟩

/-- What becomes of a call of the store. -/
inductive Reply
  | ok
  /-- An error that is not about the data: the write may have been made, and the caller's context
  may have ended. -/
  | error (applied giveUp : Bool)
  | badData

inductive Act
  /-- The source delivers the record at the offset. -/
  | deliver (p o : Nat)
  /-- The batch is full, its time is over, or the context has ended. -/
  | endCollect
  /-- The store answers the call that is being made. -/
  | store (reply : Reply)
  | commitOk
  /-- The commit fails; it may have been made for some of the partitions. -/
  | commitFailed (parts : List Nat)
  /-- The source starts a partition again at its committed offset. -/
  | seek (p : Nat)
  /-- The process has died, or has stopped, and is started. -/
  | restart

/-- The end of `process` but for the commit: the counters. -/
def Sys.finish (s : Sys V) (job : Job V) (inserted : Nat) (bad : List Reject) : Sys V :=
  { s with
    phase := .committing job 0
    processed :=
      ⟨job.batch.length, inserted, (job.rows.length : Int) - bad.length - inserted, job.skipped,
        job.rejects.length + bad.length⟩ :: s.processed }

/-- `insert`, which has nothing to do for no rows. -/
def Sys.insert (s : Sys V) (job : Job V) : Sys V :=
  if job.rows = [] then s.finish job 0 [] else { s with phase := .inserting job }

def Sys.process (s : Sys V) (job : Job V) : Sys V :=
  if job.rejects = [] then s.insert job else { s with phase := .rejecting job }

/-- The loop over the rows, and what follows it. -/
def Sys.nextRow (s : Sys V) (job : Job V) (inserted : Nat) (bad : List Reject) : List Row → Sys V
  | r :: todo => { s with phase := .rowByRow job inserted bad r todo }
  | [] =>
    if bad = [] then s.finish job inserted []
    else { s with phase := .rejectingBad job inserted bad }

/-- `retry` after an error: again, unless the context has ended. -/
def Sys.failed (s : Sys V) (giveUp : Bool) (db : Db) : Sys V :=
  { s with db := db, phase := if giveUp then .stopped else s.phase }

/-- The call of the store that is being made gets its reply. -/
def Sys.answer (s : Sys V) (reply : Reply) : Option (Sys V) :=
  match s.phase, reply with
  | .rejecting job, .ok => some ({ s with db := s.db.recordRejects job.rejects }.insert job)
  | .rejecting job, .error applied giveUp =>
    some (s.failed giveUp (if applied then s.db.recordRejects job.rejects else s.db))
  | .rejecting _, .badData => some { s with phase := .stopped }
  | .inserting job, .ok =>
    let (db, n) := s.db.insertUsage job.rows
    some ({ s with db := db }.finish job n [])
  | .inserting job, .error applied giveUp =>
    some (s.failed giveUp (if applied then (s.db.insertUsage job.rows).1 else s.db))
  | .inserting job, .badData => some (s.nextRow job 0 [] job.rows)
  | .rowByRow job inserted bad r todo, .ok =>
    let (db, one) := s.db.insertUsage [r]
    some ({ s with db := db }.nextRow job (inserted + one) bad todo)
  | .rowByRow _ _ _ r _, .error applied giveUp =>
    some (s.failed giveUp (if applied then (s.db.insertUsage [r]).1 else s.db))
  | .rowByRow job inserted bad r todo, .badData =>
    some (Sys.nextRow { s with refused := r :: s.refused } job inserted (bad ++ [r.refusal]) todo)
  | .rejectingBad job inserted bad, .ok =>
    some ({ s with db := s.db.recordRejects bad }.finish job inserted bad)
  | .rejectingBad _ _ bad, .error applied giveUp =>
    some (s.failed giveUp (if applied then s.db.recordRejects bad else s.db))
  | .rejectingBad _ _ _, .badData => some { s with phase := .stopped }
  | _, _ => none

/-- The offsets after a commit that is made for the partitions `made`. -/
def commitOffsets (next : GoMap Nat Nat) (made : Nat → Bool) (committed : Nat → Nat) : Nat → Nat :=
  fun p => if made p then (next.lookup p).getD (committed p) else committed p

variable (batchSize : Nat) (log : Nat → Nat → Option V)

/-- The source delivers the first record of the partition that it has not delivered. -/
def Sys.mayDeliver (s : Sys V) (p o : Nat) : Bool :=
  decide (s.pos p ≤ o ∧ ∀ o' < o, s.pos p ≤ o' → (log p o').isNone = true)

def Sys.step (s : Sys V) : Act → Option (Sys V)
  | .deliver p o =>
    match s.phase, log p o with
    | .collecting batch, some v =>
      if batch.length < batchSize ∧ s.mayDeliver log p o = true then
        some { s with
          phase := .collecting (batch ++ [⟨p, o, v⟩])
          pos := Function.update s.pos p (o + 1) }
      else none
    | _, _ => none
  | .endCollect =>
    match s.phase with
    | .collecting (m :: ms) => some (s.process (plan codec (m :: ms)))
    | _ => none
  | .store reply => s.answer reply
  | .commitOk =>
    match s.phase with
    | .committing job _ =>
      some { s with
        committed := commitOffsets job.next (fun _ => true) s.committed
        phase := .collecting [] }
    | _ => none
  | .commitFailed parts =>
    match s.phase with
    | .committing job attempt =>
      some { s with
        committed := commitOffsets job.next (fun p => decide (p ∈ parts)) s.committed
        phase := if attempt + 1 < 3 then .committing job (attempt + 1) else .collecting [] }
    | _ => none
  | .seek p => some { s with pos := Function.update s.pos p (s.committed p) }
  | .restart => some { s with pos := s.committed, phase := .collecting [] }

end Consumer

end ServerFlow.Usage
