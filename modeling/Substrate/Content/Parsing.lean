import Substrate.Content.Blocks

/-!
How content is written to JSON and read again (`types/content.py`). A declared field taken
alone reads back as it was written; that is all that is assumed of the validation library
here. What it does with a whole model, and the two functions that read blocks, follow the
source.
-/

namespace Substrate.Content

/-- A declared field: what a dump in JSON mode writes, and what validation in Python mode
makes of it. -/
structure Field (α : Type) where
  dump : α → Json
  validate : Json → Option α
  validate_dump : ∀ a, validate (dump a) = some a

attribute [simp] Field.validate_dump

structure Fields where
  text : Field String
  optText : Field (Option String)
  flag : Field Bool
  bytes : Field (Option Bytes)
  object : Field JsonObject
  optObject : Field (Option JsonObject)
  detail : Field Detail
  role : Field Role

/-- What a `type` tag stands for. -/
inductive Kind where
  | text
  | media (type : MediaType)
  | data
  | error
  | reasoning
  | toolUse
  | toolResult
  | unknown
  deriving DecidableEq, Repr

def knownBlockTags : List (String × Kind) :=
  [("text", .text), ("image", .media .image), ("audio", .media .audio), ("video", .media .video),
    ("document", .media .document), ("data", .data), ("error", .error),
    ("reasoning", .reasoning), ("tool_use", .toolUse), ("tool_result", .toolResult),
    ("unknown", .unknown)]

def MediaType.tag : MediaType → String
  | .image => "image"
  | .audio => "audio"
  | .video => "video"
  | .document => "document"

/-- `BlockValidationError`, and what validation raises. -/
inductive BlockError where
  | noType (keys : List String)
  | unknownType (tag : Json)
  | unhashable
  | notAnObject
  | missing (field : String)
  | invalid (field : String)
  | sources
  deriving Repr

/-- How a field is validated: from JSON text or from Python values, and with what context. -/
structure ValidationInfo where
  json : Bool
  forwardCompatible : Bool

/-- `validate_python` and `model_validate` without a context. -/
def pythonMode : ValidationInfo := ⟨false, false⟩

def ValidationInfo.forward (info : ValidationInfo) : Bool := info.json || info.forwardCompatible

section

variable (fields : Fields)

mutual

/-- `model_dump(mode="json")`. -/
def dumpBlock : ContentBlock → Json
  | .text body => .obj [("type", .str "text"), ("text", fields.text.dump body)]
  | .media block =>
    .obj [("type", .str block.type.tag), ("media_type", fields.text.dump block.mediaType),
      ("url", fields.optText.dump block.url), ("data", fields.bytes.dump block.data),
      ("file_id", fields.optText.dump block.fileId),
      ("detail", fields.detail.dump block.detail),
      ("filename", fields.optText.dump block.filename),
      ("transcript", fields.optText.dump block.transcript),
      ("storage_key", fields.optText.dump block.storageKey)]
  | .data data schemaId =>
    .obj [("type", .str "data"), ("data", fields.object.dump data),
      ("schema_id", fields.optText.dump schemaId)]
  | .error errorType message details recoverable =>
    .obj [("type", .str "error"), ("error_type", fields.text.dump errorType),
      ("message", fields.text.dump message), ("details", fields.optObject.dump details),
      ("recoverable", fields.flag.dump recoverable)]
  | .reasoning body signature redacted =>
    .obj [("type", .str "reasoning"), ("text", fields.text.dump body),
      ("signature", fields.optText.dump signature), ("redacted", fields.flag.dump redacted)]
  | .toolUse callId toolName arguments argumentsError extra =>
    .obj [("type", .str "tool_use"), ("call_id", fields.text.dump callId),
      ("tool_name", fields.text.dump toolName), ("arguments", fields.object.dump arguments),
      ("arguments_error", fields.optText.dump argumentsError),
      ("extra", fields.object.dump extra)]
  | .toolResult callId name content isError =>
    .obj [("type", .str "tool_result"), ("call_id", fields.text.dump callId),
      ("name", fields.text.dump name), ("content", .arr (dumpBlocks content)),
      ("is_error", fields.flag.dump isError)]
  | .unknown raw => .obj [("type", .str "unknown"), ("raw", fields.object.dump raw)]

def dumpBlocks : List ContentBlock → List Json
  | [] => []
  | block :: rest => dumpBlock block :: dumpBlocks rest

end

def dumpMessage (msg : ChatMessage) : Json :=
  .obj [("role", fields.role.dump msg.role), ("content", .arr (dumpBlocks fields msg.content)),
    ("name", fields.optText.dump msg.name), ("metadata", fields.object.dump msg.metadata)]

/-- A field that has no default. -/
def required {α : Type} (field : Field α) (object : JsonObject) (key : String) :
    Except BlockError α :=
  match object.lookup key with
  | none => .error (.missing key)
  | some value =>
    match field.validate value with
    | none => .error (.invalid key)
    | some a => .ok a

/-- A field that has a default. -/
def optional {α : Type} (field : Field α) (object : JsonObject) (key : String) (default : α) :
    Except BlockError α :=
  match object.lookup key with
  | none => .ok default
  | some value =>
    match field.validate value with
    | none => .error (.invalid key)
    | some a => .ok a

/-- `MediaBlock`, with its `_validate_source`. -/
def validateMedia (type : MediaType) (object : JsonObject) : Except BlockError ContentBlock := do
  let mediaType ← optional fields.text object "media_type" "application/octet-stream"
  let url ← optional fields.optText object "url" none
  let data ← optional fields.bytes object "data" none
  let fileId ← optional fields.optText object "file_id" none
  let detail ← optional fields.detail object "detail" .auto
  let filename ← optional fields.optText object "filename" none
  let transcript ← optional fields.optText object "transcript" none
  let storageKey ← optional fields.optText object "storage_key" none
  if h : sources url data fileId = 1 then
    return .media ⟨type, mediaType, url, data, fileId, detail, filename, transcript, storageKey, h⟩
  else .error .sources

/-- A block other than a tool result; the blocks in that are read first. -/
def validateKind (kind : Kind) (object : JsonObject) (content : List ContentBlock) :
    Except BlockError ContentBlock :=
  match kind with
  | .text => do return .text (← required fields.text object "text")
  | .media type => validateMedia fields type object
  | .data => do
      let data ← required fields.object object "data"
      let schemaId ← optional fields.optText object "schema_id" none
      return .data data schemaId
  | .error => do
      let errorType ← required fields.text object "error_type"
      let message ← required fields.text object "message"
      let details ← optional fields.optObject object "details" none
      let recoverable ← optional fields.flag object "recoverable" true
      return .error errorType message details recoverable
  | .reasoning => do
      let body ← required fields.text object "text"
      let signature ← optional fields.optText object "signature" none
      let redacted ← optional fields.flag object "redacted" false
      return .reasoning body signature redacted
  | .toolUse => do
      let callId ← required fields.text object "call_id"
      let toolName ← required fields.text object "tool_name"
      let arguments ← optional fields.object object "arguments" []
      let argumentsError ← optional fields.optText object "arguments_error" none
      let extra ← optional fields.object object "extra" []
      return .toolUse callId toolName arguments argumentsError extra
  | .toolResult => do
      let callId ← required fields.text object "call_id"
      let name ← optional fields.text object "name" ""
      let isError ← optional fields.flag object "is_error" false
      return .toolResult callId name content isError
  | .unknown => do return .unknown (← optional fields.object object "raw" [])

theorem sizeOf_lookup {object : JsonObject} {key : String} {value : Json}
    (h : object.lookup key = some value) : sizeOf value < sizeOf object := by
  have hmem : (key, value) ∈ object := by
    induction object with
    | nil => cases h
    | cons entry rest ih =>
      obtain ⟨key', value'⟩ := entry
      rw [List.lookup_cons] at h
      split at h
      · next heq =>
          rw [beq_iff_eq] at heq
          cases h
          rw [heq]
          exact List.mem_cons_self
      · exact List.mem_cons_of_mem _ (ih h)
  have hsize := List.sizeOf_lt_of_mem hmem
  simp only [Prod.mk.sizeOf_spec] at hsize
  omega

mutual

def parseContentBlock (forwardCompatible : Bool) : Json → Except BlockError ContentBlock
  | .obj object =>
    match object.lookup "type" with
    | none | some .null => .error (.noType (object.map Prod.fst))
    | some (.arr _) | some (.obj _) => .error .unhashable
    | some (.str tag) =>
      match knownBlockTags.lookup tag with
      | some kind =>
        if kind = .toolResult then
          match h : object.lookup "content" with
          | none => validateKind fields kind object []
          | some value =>
            have := sizeOf_lookup h
            (coerceBlocks pythonMode value).bind (validateKind fields kind object)
        else validateKind fields kind object []
      | none =>
        if forwardCompatible then .ok (.unknown object) else .error (.unknownType (.str tag))
    | some tag =>
      if forwardCompatible then .ok (.unknown object) else .error (.unknownType tag)
  | _ => .error .notAnObject
termination_by data => 2 * sizeOf data

/-- `_coerce_blocks`, and the validation of what it leaves. -/
def coerceBlocks (info : ValidationInfo) : Json → Except BlockError (List ContentBlock)
  | .str body => .ok [.text body]
  | .obj object => (parseContentBlock info.forward (.obj object)).map fun block => [block]
  | .arr items => coerceItems info items
  | _ => .error (.invalid "content")
termination_by data => 2 * sizeOf data + 1

def coerceItems (info : ValidationInfo) : List Json → Except BlockError (List ContentBlock)
  | [] => .ok []
  | item :: rest =>
    (parseContentBlock info.forward item).bind fun block =>
      (coerceItems info rest).map fun blocks => block :: blocks
termination_by items => 2 * sizeOf items

end

/-- `ChatMessage.model_validate`. -/
def validateMessage (info : ValidationInfo) : Json → Except BlockError ChatMessage
  | .obj object => do
      let role ← required fields.role object "role"
      let content ←
        match object.lookup "content" with
        | none => .ok []
        | some value => coerceBlocks fields info value
      let name ← optional fields.optText object "name" none
      let metadata ← optional fields.object object "metadata" []
      return { role, content, name, metadata }
  | _ => .error .notAnObject

section

variable {fields}

variable {forwardCompatible : Bool} {object : JsonObject}

theorem parse_newer {tag : String} (htype : object.lookup "type" = some (.str tag))
    (hnew : knownBlockTags.lookup tag = none) :
    parseContentBlock fields forwardCompatible (.obj object) =
      if forwardCompatible then .ok (.unknown object) else .error (.unknownType (.str tag)) := by
  rw [parseContentBlock]
  simp only [htype, hnew]

theorem parse_known (tag : String) (kind : Kind) (htype : object.lookup "type" = some (.str tag))
    (hkind : knownBlockTags.lookup tag = some kind) (hne : kind ≠ .toolResult) :
    parseContentBlock fields forwardCompatible (.obj object) =
      validateKind fields kind object [] := by
  rw [parseContentBlock]
  simp only [htype, hkind, if_neg hne]

theorem parse_toolResult {value : Json} (htype : object.lookup "type" = some (.str "tool_result"))
    (hcontent : object.lookup "content" = some value) :
    parseContentBlock fields forwardCompatible (.obj object) =
      (coerceBlocks fields pythonMode value).bind (validateKind fields .toolResult object) := by
  have hkind : knownBlockTags.lookup "tool_result" = some .toolResult := by decide
  rw [parseContentBlock]
  simp only [htype, hkind, if_true]
  split
  · next hnone =>
      rw [hnone] at hcontent
      cases hcontent
  · next value' hsome =>
      rw [hsome] at hcontent
      cases hcontent
      rfl

theorem validateMedia_dump (block : MediaBlock) (head : Json) : validateMedia fields block.type
      [("type", head), ("media_type", fields.text.dump block.mediaType),
        ("url", fields.optText.dump block.url), ("data", fields.bytes.dump block.data),
        ("file_id", fields.optText.dump block.fileId),
        ("detail", fields.detail.dump block.detail),
        ("filename", fields.optText.dump block.filename),
        ("transcript", fields.optText.dump block.transcript),
        ("storage_key", fields.optText.dump block.storageKey)] = .ok (.media block) := by
  simp [validateMedia, optional, List.lookup_cons, block.oneSource, bind, Except.bind, pure, Except.pure]

mutual

theorem parse_dump : ∀ (block : ContentBlock) (forwardCompatible : Bool),
    parseContentBlock fields forwardCompatible (dumpBlock fields block) = .ok block
  | .text body, forwardCompatible => by
      unfold dumpBlock
      rw [parse_known "text" .text rfl (by decide) (by decide)]
      simp [validateKind, required, List.lookup_cons, bind, Except.bind, pure, Except.pure]
  | .media block, forwardCompatible => by
      have hkind : knownBlockTags.lookup block.type.tag = some (.media block.type) := by
        cases block.type <;> decide
      unfold dumpBlock
      rw [parse_known block.type.tag (.media block.type) rfl hkind nofun]
      exact validateMedia_dump block _
  | .data data schemaId, forwardCompatible => by
      unfold dumpBlock
      rw [parse_known "data" .data rfl (by decide) (by decide)]
      simp [validateKind, required, optional, List.lookup_cons, bind, Except.bind, pure, Except.pure]
  | .error errorType message details recoverable, forwardCompatible => by
      unfold dumpBlock
      rw [parse_known "error" .error rfl (by decide) (by decide)]
      simp [validateKind, required, optional, List.lookup_cons, bind, Except.bind, pure, Except.pure]
  | .reasoning body signature redacted, forwardCompatible => by
      unfold dumpBlock
      rw [parse_known "reasoning" .reasoning rfl (by decide) (by decide)]
      simp [validateKind, required, optional, List.lookup_cons, bind, Except.bind, pure, Except.pure]
  | .toolUse callId toolName arguments argumentsError extra, forwardCompatible => by
      unfold dumpBlock
      rw [parse_known "tool_use" .toolUse rfl (by decide) (by decide)]
      simp [validateKind, required, optional, List.lookup_cons, bind, Except.bind, pure, Except.pure]
  | .toolResult callId name content isError, forwardCompatible => by
      unfold dumpBlock
      rw [parse_toolResult rfl rfl, coerceBlocks, coerceItems_dump content pythonMode]
      simp [validateKind, required, optional, List.lookup_cons, bind, Except.bind, pure, Except.pure]
  | .unknown raw, forwardCompatible => by
      unfold dumpBlock
      rw [parse_known "unknown" .unknown rfl (by decide) (by decide)]
      simp [validateKind, optional, List.lookup_cons, bind, Except.bind, pure, Except.pure]

theorem coerceItems_dump : ∀ (blocks : List ContentBlock) (info : ValidationInfo),
    coerceItems fields info (dumpBlocks fields blocks) = .ok blocks
  | [], info => by
      unfold dumpBlocks
      rw [coerceItems]
  | block :: rest, info => by
      unfold dumpBlocks
      rw [coerceItems, parse_dump block info.forward, Except.bind, coerceItems_dump rest info]
      rfl

end

theorem validateMessage_dump (msg : ChatMessage) (info : ValidationInfo) :
    validateMessage fields info (dumpMessage fields msg) = .ok msg := by
  simp [dumpMessage, validateMessage, required, optional, List.lookup_cons, coerceBlocks,
    coerceItems_dump, bind, Except.bind, pure, Except.pure]

end

end

end Substrate.Content
