import ServerFlow.Resilience.Window

/-!
# Protocol.Event

The inference lifecycle events (`pkg/protocol/events.go`): an envelope and one payload, selected by
the type. What is modelled here is the data; the publisher and the usage consumer are parametric in
the codec.
-/

namespace ServerFlow.Protocol

open Resilience (Time)

def maxEventBytes : Nat := 16 * 1024

inductive EventType
  | received
  | routed
  | firstToken
  | completed
  | failed
  deriving Repr, DecidableEq

def isTerminalEventType : EventType → Bool
  | .completed => true
  | .failed => true
  | _ => false

inductive FailureClass
  | noCapacity
  | workerUnavailable
  | workerError
  | timeout
  | clientClosed
  | internal

/-- How good the token counts are. -/
inductive TokensSource
  | usage
  | chunks
  | estimate

structure ReceivedData where
  stream : Bool
  estimatedCostTokens : Int

structure RoutedData where
  attemptNumber : Int
  strategy : String

structure FirstTokenData where
  ttftMS : Int

structure AttemptData where
  attemptID : String
  number : Int
  workerID : String
  outcome : String
  failureClass : String
  durationMS : Int

structure TerminalData where
  stream : Bool
  httpStatus : Int
  durationMS : Int
  ttftMS : Int
  /-- `none` is unknown, which is not zero. -/
  inputTokens : Option Int
  outputTokens : Option Int
  tokensSource : TokensSource
  estimatedCostTokens : Int
  /-- Of failed events only. -/
  failureClass : Option FailureClass
  attempts : List AttemptData

structure Event where
  eventID : String
  eventType : EventType
  schemaVersion : Int
  timestamp : Time
  source : String
  requestID : String
  attemptID : String
  tenantID : String
  apiKeyID : String
  model : String
  workerID : String
  received : Option ReceivedData
  routed : Option RoutedData
  firstToken : Option FirstTokenData
  terminal : Option TerminalData

/-- `validatePayload`, as far as it chooses the payload: there is one, and it is the one of the
type. -/
def Event.payloadMatches (e : Event) : Bool :=
  match e.eventType with
  | .received => e.received.isSome && e.routed.isNone && e.firstToken.isNone && e.terminal.isNone
  | .routed => e.routed.isSome && e.received.isNone && e.firstToken.isNone && e.terminal.isNone
  | .firstToken => e.firstToken.isSome && e.received.isNone && e.routed.isNone && e.terminal.isNone
  | .completed => e.terminal.isSome && e.received.isNone && e.routed.isNone && e.firstToken.isNone
  | .failed => e.terminal.isSome && e.received.isNone && e.routed.isNone && e.firstToken.isNone

/-- An event that has passed that check, as every decoded event has. -/
abbrev DecodedEvent := { e : Event // e.payloadMatches = true }

theorem DecodedEvent.terminal_isSome (e : DecodedEvent)
    (h : isTerminalEventType e.1.eventType = true) : e.1.terminal.isSome = true := by
  obtain ⟨e, hp⟩ := e
  simp only [Event.payloadMatches] at hp
  split at hp
  · next ht => simp [ht, isTerminalEventType] at h
  · next ht => simp [ht, isTerminalEventType] at h
  · next ht => simp [ht, isTerminalEventType] at h
  · simp only [Bool.and_eq_true] at hp
    exact hp.1.1.1
  · simp only [Bool.and_eq_true] at hp
    exact hp.1.1.1

/-- The payload of a terminal event. -/
def DecodedEvent.terminal (e : DecodedEvent) (h : isTerminalEventType e.1.eventType = true) :
    TerminalData :=
  e.1.terminal.get (e.terminal_isSome h)

/-- What `Decode` fails with. -/
inductive DecodeErr
  | versionUnsupported
  | tooLarge
  | invalid

end ServerFlow.Protocol
