import Mathlib
import ServerFlow.Lib.GoMap
import ServerFlow.Lib.Json

/-!
# Api.Chat

Validation of a chat completion request (`internal/api/chat.go`). The top level and the messages are
decoded strictly: names are matched exactly, and a duplicated name or one that differs from a known
name in case only is refused. Content parts are decoded by `encoding/json` into a struct: names are
matched in any case, the last occurrence wins, and `null` leaves the field as it is.

A body is what the decoder sees of it (`Body`). `quote` is the verb `%q` of error texts, `order` the
order in which a loop visits a map, and `round64` the nearest `float64` of a number, if it is
finite.
-/

namespace ServerFlow.Api

/-- What the decoder finds after the members it could read. -/
inductive Ending
  | closed
  /-- The rest is not valid JSON. -/
  | malformed
  /-- There is data after the object. -/
  | trailing

inductive Body
  | object (members : List (String × Json)) (ending : Ending)
  /-- Not an object, or not even the start of a value. -/
  | other

structure Limits where
  models : List String
  maxTokensLimit : Int
  anyModel : Bool
  allowed : Option (String → Bool)

structure Message where
  role : String
  content : String
  deriving Repr, DecidableEq

structure InferenceRequest where
  model : String
  messages : List Message
  stream : Bool
  maxTokens : Int
  temperature : ℚ
  deriving Repr, DecidableEq

inductive ChatError
  | invalidRequest (message : String)
  | modelNotFound (model : String)
  | modelForbidden (model : String)
  deriving Repr, DecidableEq

def requestFields : List String :=
  ["model", "messages", "stream", "max_tokens", "max_completion_tokens", "temperature"]

def messageFields : List String := ["role", "content", "tool_calls", "function_call"]

def validRoles : List String := ["system", "developer", "user", "assistant", "tool", "function"]

def maxModelLen : Nat := 128

/-- `truncate`. -/
def truncate (s : String) (n : Nat) : String :=
  if s.toList.length ≤ n then s else String.ofList (s.toList.take n) ++ "..."

/-- `unicode.ToLower`, as far as the result is an ASCII letter: besides the capitals these are the
Kelvin sign and the dotted capital I. -/
def lowerRune (c : Char) : Char :=
  if c = Char.ofNat 0x212A then 'k' else if c = Char.ofNat 0x130 then 'i' else c.toLower

/-- `strings.ToLower(key) == k`, for an ASCII name `k`. -/
def lowerIs (key k : String) : Bool := key.toList.map lowerRune = k.toList

/-- `encoding/json` takes a member for the struct field of this name. No letter of the two names of
a content part has a variant outside ASCII. -/
def foldsTo (key name : String) : Bool := key.toList.map Char.toLower = name.toList

/-! ### Strict objects -/

/-- The loop of `strictObject`. -/
def collect (quote : String → String) : GoMap String Json → List (String × Json) →
    Except String (GoMap String Json)
  | fields, [] => .ok fields
  | fields, (key, v) :: ms =>
    if (fields.lookup key).isSome then
      .error ("duplicate key " ++ quote (truncate key 64) ++ " is ambiguous")
    else collect quote (fields.insert key v) ms

/-- The first known name that the key differs from in case only. -/
def ambiguousWith (known : List String) (key : String) : Option (String × String) :=
  (known.find? fun k => lowerIs key k && decide (key ≠ k)).map fun k => (key, k)

/-- `strictObject`. -/
def strictObject (quote : String → String) (order known : List String) :
    Body → Except String (GoMap String Json)
  | .other => .error "body must be a JSON object"
  | .object members ending =>
    match collect quote ∅ members with
    | .error e => .error e
    | .ok fields =>
      match ending with
      | .malformed => .error "body is not valid JSON"
      | .trailing => .error "body has data after the JSON object"
      | .closed =>
        match (AList.rangeKeys order fields).findSome? (ambiguousWith known) with
        | some (key, k) =>
          .error ("key " ++ quote (truncate key 64) ++ " is ambiguous with " ++ quote k ++
            "; keys must be lowercase")
        | none => .ok fields

/-- A value that was already read, as a body of its own. -/
def Body.ofJson : Json → Body
  | .obj members => .object members .closed
  | _ => .other

/-! ### Values

`json.Unmarshal` into a Go value; `none` is a type error. `null` leaves the zero value. -/

def decodeString : Json → Option String
  | .str s => some s
  | .null => some ""
  | _ => none

def decodeBool : Json → Option Bool
  | .bool b => some b
  | .null => some false
  | _ => none

/-- Into an `*int`. -/
def decodeInt : Json → Option (Option Int)
  | .int n => if -2 ^ 63 ≤ n ∧ n < 2 ^ 63 then some (some n) else none
  | .null => some none
  | _ => none

/-- Into a `*float64`. -/
def decodeFloat (round64 : ℚ → Option ℚ) : Json → Option (Option ℚ)
  | .int n => (round64 n).map some
  | .dec q => (round64 q).map some
  | .null => some none
  | _ => none

/-- `decodeField`, with the value for an absent field. -/
def decodeField {β : Type} (fields : GoMap String Json) (name : String) (zero : β)
    (decode : Json → Option β) : Except ChatError β :=
  match fields.lookup name with
  | none => .ok zero
  | some raw =>
    match decode raw with
    | none => .error (.invalidRequest ("`" ++ name ++ "` has the wrong type"))
    | some v => .ok v

/-! ### Messages -/

/-- The struct of a content part. -/
structure Part where
  type : String
  text : String

/-- A string field of a struct after one more member. -/
def assign (field : String) : Json → Option String
  | .str s => some s
  | .null => some field
  | _ => none

/-- Decode the members of a content part, in order. -/
def decodePart : Part → List (String × Json) → Option Part
  | p, [] => some p
  | p, (key, v) :: ms =>
    if foldsTo key "type" then (assign p.type v).bind fun s => decodePart { p with type := s } ms
    else if foldsTo key "text" then (assign p.text v).bind fun s =>
      decodePart { p with text := s } ms
    else decodePart p ms

/-- One element of the array of content parts. -/
def partOf : Json → Option Part
  | .obj ms => decodePart ⟨"", ""⟩ ms
  | .null => some ⟨"", ""⟩
  | _ => none

/-- `messageText`. -/
def messageText : Json → Except String String
  | .str s => .ok s
  | .null => .ok ""
  | .arr xs =>
    match xs.mapM partOf with
    | some parts => .ok (String.join (parts.map Part.text))
    | none => .error "must be a string or an array of content parts"
  | _ => .error "must be a string or an array of content parts"

/-- `present`. -/
def present : Option Json → Bool
  | none => false
  | some .null => false
  | some _ => true

/-- `parseMessage`. -/
def parseMessage (quote : String → String) (order : List String) (raw : Json) :
    Except String Message :=
  match strictObject quote order messageFields (Body.ofJson raw) with
  | .error e => .error e
  | .ok fields =>
    let role := ((fields.lookup "role").bind decodeString).getD ""
    if role ∉ validRoles then .error ("role " ++ quote (truncate role 32) ++ " is not supported")
    else if present (fields.lookup "content") = false then
      -- an assistant message that carries tool calls needs no content
      if role = "assistant" ∧
          (present (fields.lookup "tool_calls") = true ∨
            present (fields.lookup "function_call") = true) then
        .ok ⟨role, ""⟩
      else .error "content is required"
    else
      match messageText ((fields.lookup "content").getD .null) with
      | .error e => .error ("content " ++ e)
      | .ok text => .ok ⟨role, text⟩

/-- The loop of `ParseChatRequest` over the messages, from index `i`. -/
def parseMessages (quote : String → String) (order : List String) :
    Nat → List Json → Except ChatError (List Message)
  | _, [] => .ok []
  | i, raw :: raws =>
    match parseMessage quote order raw with
    | .error e => .error (.invalidRequest ("messages[" ++ toString i ++ "]: " ++ e))
    | .ok m =>
      match parseMessages quote order (i + 1) raws with
      | .error e => .error e
      | .ok ms => .ok (m :: ms)

/-! ### The request -/

def parseModel (lim : Limits) (fields : GoMap String Json) : Except ChatError String :=
  match fields.lookup "model" with
  | none => .error (.invalidRequest "`model` is required")
  | some raw =>
    match decodeString raw with
    | none => .error (.invalidRequest "`model` must be a non-empty string")
    | some model =>
      if model = "" then .error (.invalidRequest "`model` must be a non-empty string")
      else if model.utf8ByteSize > maxModelLen then .error (.modelNotFound model)
      else if lim.allowed.any (fun allowed => !allowed model) then .error (.modelForbidden model)
      else if lim.anyModel = false ∧ model ∉ lim.models then .error (.modelNotFound model)
      else .ok model

/-- The raw messages: a non-empty array. -/
def rawMessages (fields : GoMap String Json) : Except ChatError (List Json) :=
  match fields.lookup "messages" with
  | some (.arr (m :: ms)) => .ok (m :: ms)
  | _ => .error (.invalidRequest "`messages` must be an array with at least one message")

/-- One of the two token fields. -/
def tokenField (lim : Limits) (fields : GoMap String Json) (name : String) :
    Except ChatError (Option Int) :=
  match decodeField fields name none decodeInt with
  | .error e => .error e
  | .ok none => .ok none
  | .ok (some n) =>
    if n ≤ 0 ∨ n > lim.maxTokensLimit then
      .error (.invalidRequest
        ("`" ++ name ++ "` must be between 1 and " ++ toString lim.maxTokensLimit))
    else .ok (some n)

def parseTemperature (round64 : ℚ → Option ℚ) (fields : GoMap String Json) :
    Except ChatError (Option ℚ) :=
  match decodeField fields "temperature" none (decodeFloat round64) with
  | .error e => .error e
  | .ok none => .ok none
  | .ok (some t) =>
    if t < 0 ∨ t > 2 then .error (.invalidRequest "`temperature` must be between 0 and 2")
    else .ok (some t)

/-- `ParseChatRequest`. -/
def parseChatRequest (quote : String → String) (round64 : ℚ → Option ℚ) (order : List String)
    (lim : Limits) (body : Body) : Except ChatError InferenceRequest := do
  let fields ← (strictObject quote order requestFields body).mapError ChatError.invalidRequest
  let model ← parseModel lim fields
  let raws ← rawMessages fields
  let messages ← parseMessages quote order 0 raws
  let stream ← decodeField fields "stream" false decodeBool
  -- the upstream may honor either token field, so the larger one is kept
  let maxTokens ← tokenField lim fields "max_tokens"
  let maxCompletionTokens ← tokenField lim fields "max_completion_tokens"
  let temperature ← parseTemperature round64 fields
  return {
    model := model
    messages := messages
    stream := stream
    maxTokens := max (max 0 (maxTokens.getD 0)) (maxCompletionTokens.getD 0)
    temperature := temperature.getD 0 }

end ServerFlow.Api
