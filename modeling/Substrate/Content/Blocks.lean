import Substrate.Types

/-!
Content blocks and messages (`types/content.py`). A media block carries the proof that
it has exactly one source. A message's `tool_calls` and its tool results are what pairs
it with others.
-/

namespace Substrate.Content

inductive Role where
  | system
  | user
  | assistant
  | tool
  deriving DecidableEq, Repr

inductive MediaType where
  | image
  | audio
  | video
  | document
  deriving DecidableEq, Repr

inductive Detail where
  | low
  | high
  | auto
  deriving DecidableEq, Repr

abbrev Bytes := List UInt8

def sources (url : Option String) (data : Option Bytes) (fileId : Option String) : Nat :=
  url.toList.length + data.toList.length + fileId.toList.length

structure MediaBlock where
  type : MediaType
  mediaType : String
  url : Option String
  data : Option Bytes
  fileId : Option String
  detail : Detail
  filename : Option String
  transcript : Option String
  storageKey : Option String
  oneSource : sources url data fileId = 1
  deriving DecidableEq, Repr

inductive ContentBlock where
  | text (body : String)
  | media (block : MediaBlock)
  | data (data : JsonObject) (schemaId : Option String)
  | error (errorType message : String) (details : Option JsonObject) (recoverable : Bool)
  | reasoning (body : String) (signature : Option String) (redacted : Bool)
  | toolUse (callId toolName : String) (arguments : JsonObject) (argumentsError : Option String)
      (extra : JsonObject)
  | toolResult (callId name : String) (content : List ContentBlock) (isError : Bool)
  | unknown (raw : JsonObject)

structure ChatMessage where
  role : Role
  content : List ContentBlock
  name : Option String := none
  metadata : JsonObject := []

namespace ContentBlock

def call? : ContentBlock → Option String
  | .toolUse callId _ _ _ _ => some callId
  | _ => none

def result? : ContentBlock → Option String
  | .toolResult callId _ _ _ => some callId
  | _ => none

def text? : ContentBlock → Option String
  | .text body => some body
  | _ => none

end ContentBlock

end Substrate.Content
