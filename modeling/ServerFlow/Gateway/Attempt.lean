import ServerFlow.Resilience.Breaker

/-!
# Gateway.Attempt

What comes back from one attempt, and what is made of it: which failures may be retried on another
worker (`RetryPolicy`), what the worker's breaker is told (`AttemptRun.verdictOf`) and what the
client gets (`mapUpstreamError`). Of an error only the questions that the code asks of it are kept.
-/

namespace ServerFlow.Gateway

open Resilience

/-! ### Errors -/

/-- What `errors.Is` and `errors.As` say about an error of the transport or of a body. -/
structure ErrorFacts where
  canceled : Bool
  connRefused : Bool
  dns : Bool
  /-- A `net.OpError` whose operation is `dial`. -/
  dial : Bool
  connReset : Bool
  brokenPipe : Bool
  eof : Bool
  unexpectedEOF : Bool
  serverClosedIdle : Bool
  /-- A `net.Error` whose `Timeout()` is true. -/
  timeout : Bool

/-- The error of an attempt: the worker's, or one of the gateway's own. -/
inductive AttemptError
  | upstream (facts : ErrorFacts)
  | headerTimeout
  | deadline
  | idleTimeout
  | unexpectedStatus

def AttemptError.facts : AttemptError → ErrorFacts
  | .upstream facts => facts
  | .headerTimeout | .deadline | .idleTimeout =>
    ⟨false, false, false, false, false, false, false, false, false, true⟩
  | .unexpectedStatus => ⟨false, false, false, false, false, false, false, false, false, false⟩

/-- Attempt error classes. `none` is the empty one. -/
inductive AttemptClass
  | none
  | connect
  | reset
  | emptyStream
  | panic
  | deadline
  | status (code : Int)
  deriving Repr, DecidableEq

/-- The API errors that an attempt's error may become. -/
inductive UpstreamCode
  | workerUnavailable
  | upstreamTimeout
  | inferenceFailed

/-- The connection was not made. -/
def ErrorFacts.notConnected (e : ErrorFacts) : Bool := e.connRefused || e.dns || e.dial

def mapUpstreamError (e : AttemptError) : UpstreamCode :=
  if e.facts.notConnected then .workerUnavailable
  else if e.facts.timeout then .upstreamTimeout
  else .inferenceFailed

/-! ### The retry policy -/

structure RetryPolicy where
  max : Int
  statuses : List Int

namespace RetryPolicy

def status (p : RetryPolicy) (code : Int) : AttemptClass × Bool :=
  if code ∈ p.statuses then (.status code, true) else (.none, false)

def transportError (e : AttemptError) : AttemptClass × Bool :=
  if e.facts.canceled then (.none, false)
  else if e.facts.notConnected then (.connect, true)
  else if e.facts.connReset || e.facts.brokenPipe || e.facts.eof || e.facts.unexpectedEOF then
    (.reset, true)
  else if e.facts.serverClosedIdle then (.reset, true)
  else (.none, false)

def firstChunkError (e : AttemptError) : AttemptClass × Bool :=
  if e.facts.canceled then (.none, false)
  else if e.facts.timeout then (.none, false)
  else (.emptyStream, true)

end RetryPolicy

/-! ### The attempt -/

structure Response where
  statusCode : Int

/-- What an attempt has in hand. -/
structure AttemptRun where
  resp : Option Response
  err : Option AttemptError
  cls : AttemptClass
  retryable : Bool

inductive VerdictLabel
  | ok
  | fault
  | neutral

namespace AttemptRun

def new : AttemptRun := ⟨none, none, .none, false⟩

/-- `markDeadline`. -/
def markDeadline (run : AttemptRun) : AttemptRun :=
  { run with resp := none, err := some .deadline, cls := .deadline, retryable := false }

/-- What the attempt's goroutine does next. -/
inductive Next
  /-- `sendOnce` returns. -/
  | back
  /-- The response is there. -/
  | arrived
  /-- A 200 waits for its first byte. -/
  | firstByte

/-- The part of `sendOnce` from the answer of `Do` to the first read of the body. -/
def answered (p : RetryPolicy) (clientLeft : Bool) (run : AttemptRun) :
    Except AttemptError Response → AttemptRun × Next
  | .error e =>
    if clientLeft then ({ run with err := some e }, .back)
    else
      ({ run with err := some e, cls := (RetryPolicy.transportError e).1, retryable := (RetryPolicy.transportError e).2 },
        .back)
  | .ok resp =>
    if resp.statusCode < 200 ∨
      599 < resp.statusCode then ({ run with err := some .unexpectedStatus }, .back)
    else if (p.status resp.statusCode).2 then
      ({ run with resp := some resp, cls := (p.status resp.statusCode).1, retryable := true },
        .arrived)
    else if resp.statusCode ≠ 200 then ({ run with resp := some resp }, .arrived)
    else ({ run with resp := some resp }, .firstByte)

/-- The part of `sendOnce` after a body that failed before its first byte. -/
def firstByteFailed (clientLeft ctxDone : Bool) (run : AttemptRun) (e : AttemptError) :
    AttemptRun :=
  if clientLeft then { run with resp := none, err := some e }
  else
    let e' := if ctxDone then .idleTimeout else e
    { resp := none, err := some e', cls := (RetryPolicy.firstChunkError e').1,
      retryable := (RetryPolicy.firstChunkError e').2 }

/-- `verdictOf`, given what a peek at a held 503 finds. -/
def verdictOf (clientLeft : Bool) (run : AttemptRun) (retryPossible peekIsNeutral : Bool) :
    Verdict × VerdictLabel :=
  if clientLeft ∨ run.cls = .deadline then (.neutral, .neutral)
  else if run.err.isSome then (.fault, .fault)
  else
    match run.resp with
    | none => (.neutral, .neutral)
    | some resp =>
      let code := resp.statusCode
      if 200 ≤ code ∧ code < 300 then (.ok, .ok)
      else if code = 503 then
        if retryPossible ∧ run.retryable ∧
          peekIsNeutral then (.neutral, .neutral) else (.fault, .fault)
      else if code = 502 ∨ code = 504 then (.fault, .fault)
      else if 400 ≤ code ∧ code < 500 then (.neutral, .neutral)
      else if (300 ≤ code ∧ code < 400) ∨ 500 ≤ code then (.ratioFault, .fault)
      else (.neutral, .neutral)

end AttemptRun

/-- How an attempt ends for the request. -/
inductive Fate
  /-- Another worker takes the request. -/
  | retried
  | clientClosed
  /-- The client gets an error. -/
  | failed (e : AttemptError) (code : UpstreamCode)
  /-- The client gets the worker's response. -/
  | relayed (resp : Option Response)

structure Ending where
  verdict : Verdict × VerdictLabel
  cls : AttemptClass
  fate : Fate

/-- What the loop of `forwardRegistry` and its end make of an attempt: `attemptsLeft` and
`permitted` say whether a retry is allowed, `found` whether another worker takes it. -/
def AttemptRun.settle (clientLeft attemptsLeft permitted peekIsNeutral found : Bool)
    (run : AttemptRun) : Ending :=
  let wantRetry := !clientLeft && run.retryable && attemptsLeft && permitted
  { verdict := run.verdictOf clientLeft wantRetry peekIsNeutral
    cls := run.cls
    fate :=
      if wantRetry && found then .retried
      else if clientLeft then .clientClosed
      else
        match run.err with
        | some e => .failed e (mapUpstreamError e)
        | none => .relayed run.resp }

/-! ### The two timeouts of the retryable phase -/

namespace AttemptRun

/-- An attempt that the first-byte deadline cut. -/
def deadlined : AttemptRun := new.markDeadline

/-- An attempt that the probe's header timeout cut. -/
def headerTimedOut : AttemptRun := { new with err := some .headerTimeout }

@[simp] theorem answered_headerTimeout (p : RetryPolicy) :
    answered p false new (.error .headerTimeout) = (headerTimedOut, .back) := rfl

end AttemptRun

/-- Neutral, not retried, a timeout for the client. -/
def Ending.deadlined : Ending :=
  ⟨(.neutral, .neutral), .deadline, .failed .deadline .upstreamTimeout⟩

/-- A fault, not retried, a timeout for the client. -/
def Ending.headerTimedOut : Ending :=
  ⟨(.fault, .fault), .none, .failed .headerTimeout .upstreamTimeout⟩

section Settle

variable (attemptsLeft permitted peekIsNeutral found : Bool)

theorem settle_deadlined :
    AttemptRun.deadlined.settle false attemptsLeft permitted peekIsNeutral found = .deadlined := rfl

theorem settle_headerTimedOut :
    AttemptRun.headerTimedOut.settle false attemptsLeft permitted peekIsNeutral found =
      .headerTimedOut := rfl

end Settle

end ServerFlow.Gateway
