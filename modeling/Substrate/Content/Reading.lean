import Substrate.Content.Parsing

/-!
The two readers of stored content: a thread's nodes (`stores/thread_tables.py`) and the
journal's model responses (`runtime/context.py`). Both may find blocks of a type that a
newer version wrote; each takes them only as far as its way into the parser lets it.
-/

namespace Substrate.Content

inductive FinishReason where
  | stop
  | toolCalls
  | length
  | contentFilter
  | refusal
  | error
  | other
  | unspecified
  deriving DecidableEq, Repr

def FinishReason.value : FinishReason → String
  | .stop => "stop"
  | .toolCalls => "tool_calls"
  | .length => "length"
  | .contentFilter => "content_filter"
  | .refusal => "refusal"
  | .error => "error"
  | .other => "other"
  | .unspecified => "unspecified"

def finishReasons : List (String × FinishReason) :=
  [FinishReason.stop, .toolCalls, .length, .contentFilter, .refusal, .error, .other,
    .unspecified].map fun reason => (reason.value, reason)

structure Usage where
  inputTokens : Int
  cachedTokens : Int
  outputTokens : Int
  reasoningTokens : Int
  cacheWriteTokens : Int
  deriving DecidableEq, Repr

structure LLMResponse where
  content : List ContentBlock
  usage : Usage
  costUsd : Int
  finishReason : FinishReason
  responseId : Option String
  servedModel : Option String

structure JsonText (Text : Type) where
  dumps : Json → Text
  loads : Text → Option Json
  loads_dumps : ∀ value, loads (dumps value) = some value

inductive ReadError where
  | notJson
  | block (error : BlockError)
  | missing (key : String)
  | wrong (key : String)

def asRead {α : Type} (result : Except BlockError α) : Except ReadError α :=
  result.mapError .block

section

variable (fields : Fields) {Text : Type} (text : JsonText Text)

/-- `_payload`. -/
def payloadOf (msg : ChatMessage) : Text := text.dumps (dumpMessage fields msg)

/-- The payload of `_node`. -/
def readPayload (payloadJson : Text) : Except ReadError ChatMessage :=
  match text.loads payloadJson with
  | none => .error .notJson
  | some value => asRead (validateMessage fields pythonMode value)

def serialize (resp : LLMResponse) : JsonObject :=
  [("content", .arr (dumpBlocks fields resp.content)),
    ("usage", .obj [("input_tokens", .num resp.usage.inputTokens),
      ("cached_tokens", .num resp.usage.cachedTokens),
      ("output_tokens", .num resp.usage.outputTokens),
      ("reasoning_tokens", .num resp.usage.reasoningTokens),
      ("cache_write_tokens", .num resp.usage.cacheWriteTokens)]),
    ("cost_usd", .num resp.costUsd), ("finish_reason", .str resp.finishReason.value),
    ("response_id", Json.ofText? resp.responseId), ("served_model", Json.ofText? resp.servedModel)]

/-- `value[key]`, a number. -/
def number (value : JsonObject) (key : String) : Except ReadError Int :=
  match value.lookup key with
  | none => .error (.missing key)
  | some (.num n) => .ok n
  | some _ => .error (.wrong key)

/-- `value.get(key, default)`, a number. -/
def numberOr (value : JsonObject) (key : String) (default : Int) : Except ReadError Int :=
  match value.lookup key with
  | none => .ok default
  | some (.num n) => .ok n
  | some _ => .error (.wrong key)

/-- `value.get(key)`, a text. -/
def textOr (value : JsonObject) (key : String) : Except ReadError (Option String) :=
  match value.lookup key with
  | none | some .null => .ok none
  | some (.str body) => .ok (some body)
  | some _ => .error (.wrong key)

/-- `FinishReason(value.get("finish_reason", "unspecified"))`. -/
def finishReasonOf (value : JsonObject) : Except ReadError FinishReason :=
  match (value.lookup "finish_reason").getD (.str "unspecified") with
  | .str tag =>
    match finishReasons.lookup tag with
    | some reason => .ok reason
    | none => .error (.wrong "finish_reason")
  | _ => .error (.wrong "finish_reason")

def parseContent : List Json → Except ReadError (List ContentBlock)
  | [] => .ok []
  | d :: rest => do
      let block ← asRead (parseContentBlock fields true d)
      let blocks ← parseContent rest
      return block :: blocks

def deserialize (value : JsonObject) : Except ReadError LLMResponse := do
  let usage ←
    match value.lookup "usage" with
    | some (.obj usage) => .ok usage
    | none => .error (.missing "usage")
    | some _ => .error (.wrong "usage")
  let content ←
    match value.lookup "content" with
    | some (.arr items) => parseContent fields items
    | none => .error (.missing "content")
    | some _ => .error (.wrong "content")
  let inputTokens ← number usage "input_tokens"
  let cachedTokens ← number usage "cached_tokens"
  let outputTokens ← number usage "output_tokens"
  let reasoningTokens ← number usage "reasoning_tokens"
  let cacheWriteTokens ← numberOr usage "cache_write_tokens" 0
  let costUsd ← numberOr value "cost_usd" 0
  let finishReason ← finishReasonOf value
  let responseId ← textOr value "response_id"
  let servedModel ← textOr value "served_model"
  return {
    content
    usage := ⟨inputTokens, cachedTokens, outputTokens, reasoningTokens, cacheWriteTokens⟩
    costUsd, finishReason, responseId, servedModel }

structure Newer where
  raw : JsonObject
  tag : String
  type : raw.lookup "type" = some (.str tag)
  isNew : knownBlockTags.lookup tag = none

/-- A stored block: one that this version could have written, one of a newer type, or a tool
result with such blocks in it. -/
inductive Stored where
  | known (block : ContentBlock)
  | newer (block : Newer)
  | toolResult (callId name : String) (content : List Stored) (isError : Bool)

mutual

def Stored.json : Stored → Json
  | .known block => dumpBlock fields block
  | .newer block => .obj block.raw
  | .toolResult callId name content isError =>
    .obj [("type", .str "tool_result"), ("call_id", fields.text.dump callId),
      ("name", fields.text.dump name), ("content", .arr (storedJson content)),
      ("is_error", fields.flag.dump isError)]

def storedJson : List Stored → List Json
  | [] => []
  | stored :: rest => stored.json :: storedJson rest

end

mutual

def Stored.block : Stored → ContentBlock
  | .known block => block
  | .newer block => .unknown block.raw
  | .toolResult callId name content isError =>
    .toolResult callId name (storedBlocks content) isError

def storedBlocks : List Stored → List ContentBlock
  | [] => []
  | stored :: rest => stored.block :: storedBlocks rest

end

mutual

def Stored.hasNewer : Stored → Bool
  | .known _ => false
  | .newer _ => true
  | .toolResult _ _ content _ => anyNewer content

def anyNewer : List Stored → Bool
  | [] => false
  | stored :: rest => stored.hasNewer || anyNewer rest

end

def Stored.hasNewerWithin : Stored → Bool
  | .toolResult _ _ content _ => anyNewer content
  | _ => false

structure StoredMessage where
  role : Role
  content : List Stored
  name : Option String
  metadata : JsonObject

def StoredMessage.json (stored : StoredMessage) : Json :=
  .obj [("role", fields.role.dump stored.role), ("content", .arr (storedJson fields stored.content)),
    ("name", fields.optText.dump stored.name), ("metadata", fields.object.dump stored.metadata)]

def StoredMessage.message (stored : StoredMessage) : ChatMessage :=
  ⟨stored.role, storedBlocks stored.content, stored.name, stored.metadata⟩

/-- A stored response: what is in it beside the blocks is that of a response. -/
structure StoredResponse where
  content : List Stored
  rest : LLMResponse

def StoredResponse.response (stored : StoredResponse) : LLMResponse :=
  { stored.rest with content := storedBlocks stored.content }

def StoredResponse.json (stored : StoredResponse) : JsonObject :=
  ("content", .arr (storedJson fields stored.content)) :: (serialize fields stored.rest).tail

/-- The result is this value, unless something is in the way, and then it is an error. -/
structure Reads {ε α : Type} (blocked : Bool) (result : Except ε α) (value : α) : Prop where
  ok : blocked = false → result = .ok value
  error : blocked = true → ∃ e, result = .error e

variable {ε α β : Type} {blocked : Bool}

theorem Reads.ok_iff {result : Except ε α} {value : α} (h : Reads blocked result value) :
    result = .ok value ↔ blocked = false := by
  constructor
  · intro hok
    cases hblocked : blocked with
    | false => rfl
    | true =>
      obtain ⟨e, he⟩ := h.error hblocked
      rw [he] at hok
      cases hok
  · exact h.ok

theorem Reads.bind {blocked' : Bool} {result : Except ε α} {value : α} {next : α → Except ε β}
    {value' : β} (h : Reads blocked result value) (hnext : Reads blocked' (next value) value') :
    Reads (blocked || blocked') (result.bind next) value' := by
  constructor
  · intro hclear
    rw [Bool.or_eq_false_iff] at hclear
    rw [h.ok hclear.1]
    exact hnext.ok hclear.2
  · intro hblocked
    cases hfirst : blocked with
    | true =>
      obtain ⟨e, he⟩ := h.error hfirst
      exact ⟨e, by rw [he]; rfl⟩
    | false =>
      rw [hfirst, Bool.false_or] at hblocked
      rw [h.ok hfirst]
      exact hnext.error hblocked

theorem Reads.pure (value : α) :
    Reads false (.ok value : Except ε α) value := ⟨fun _ => rfl, fun h => by cases h⟩

theorem Reads.map {result : Except ε α} {value : α} (h : Reads blocked result value) (f : α → β) :
    Reads blocked (result.map f) (f value) := by
  constructor
  · intro hclear
    rw [h.ok hclear]
    rfl
  · intro hblocked
    obtain ⟨e, he⟩ := h.error hblocked
    exact ⟨e, by rw [he]; rfl⟩

theorem Reads.asRead {result : Except BlockError α} {value : α} (h : Reads blocked result value) :
    Reads blocked (asRead result) value := by
  constructor
  · intro hclear
    rw [h.ok hclear]
    rfl
  · intro hblocked
    obtain ⟨e, he⟩ := h.error hblocked
    exact ⟨.block e, by rw [he]; rfl⟩

theorem Stored.hasNewer_of_within {stored : Stored} (h : stored.hasNewer = false) :
    stored.hasNewerWithin = false := by
  cases stored with
  | known block | newer block => rfl
  | toolResult callId name content isError => simpa [hasNewer, hasNewerWithin] using h

section

variable {fields}

mutual

theorem parse_stored : ∀ (stored : Stored) (forwardCompatible : Bool),
    Reads (stored.hasNewerWithin || (stored.hasNewer && !forwardCompatible))
      (parseContentBlock fields forwardCompatible (stored.json fields)) stored.block
  | .known block, forwardCompatible => by
      simp only [Stored.hasNewerWithin, Stored.hasNewer, Stored.json, Stored.block,
        parse_dump block forwardCompatible]
      exact Reads.pure block
  | .newer block, forwardCompatible => by
      simp only [Stored.hasNewerWithin, Stored.hasNewer, Stored.json, Stored.block,
        parse_newer block.type block.isNew]
      cases forwardCompatible with
      | true => exact Reads.pure _
      | false => exact ⟨nofun, fun _ => ⟨_, rfl⟩⟩
  | .toolResult callId name content isError, forwardCompatible => by
      have hcontent := coerceItems_stored content
      have hwhole : validateKind fields .toolResult
          [("type", .str "tool_result"), ("call_id", fields.text.dump callId),
            ("name", fields.text.dump name), ("content", .arr (storedJson fields content)),
            ("is_error", fields.flag.dump isError)] (storedBlocks content) =
          .ok (.toolResult callId name (storedBlocks content) isError) := by
        simp [validateKind, required, optional, List.lookup_cons, bind, Except.bind, pure, Except.pure]
      have hnext := hcontent.bind (hwhole ▸ Reads.pure _)
      have hsame : (anyNewer content || anyNewer content && !forwardCompatible) =
          (anyNewer content || false) := by
        cases anyNewer content <;> rfl
      simp only [Stored.hasNewerWithin, Stored.hasNewer, Stored.json, Stored.block]
      rw [parse_toolResult rfl rfl, coerceBlocks, hsame]
      exact hnext

theorem coerceItems_stored : ∀ stored : List Stored,
    Reads (anyNewer stored) (coerceItems fields pythonMode (storedJson fields stored))
      (storedBlocks stored)
  | [] => by
      simp only [anyNewer, storedJson, storedBlocks]
      rw [coerceItems]
      exact Reads.pure []
  | first :: rest => by
      have hfirst := parse_stored first false
      have hblocked : (first.hasNewerWithin || (first.hasNewer && !false)) = first.hasNewer := by
        cases hnewer : first.hasNewer with
        | false => rw [Stored.hasNewer_of_within hnewer]; rfl
        | true => simp
      rw [hblocked] at hfirst
      have hrest := (coerceItems_stored rest).map fun blocks => first.block :: blocks
      simp only [anyNewer, storedJson, storedBlocks]
      rw [coerceItems]
      exact hfirst.bind hrest

end

theorem parseContent_stored (stored : List Stored) :
    Reads (stored.any Stored.hasNewerWithin) (parseContent fields (storedJson fields stored))
      (storedBlocks stored) := by
  induction stored with
  | nil => exact Reads.pure []
  | cons first rest ih =>
    have hfirst := (@parse_stored fields first true).asRead
    rw [Bool.not_true, Bool.and_false, Bool.or_false] at hfirst
    have hrest : Reads (rest.any Stored.hasNewerWithin || false)
        ((parseContent fields (storedJson fields rest)).bind fun blocks =>
          .ok (first.block :: blocks)) (first.block :: storedBlocks rest) :=
      ih.bind (Reads.pure _)
    rw [Bool.or_false] at hrest
    rw [List.any_cons]
    exact hfirst.bind hrest

theorem validateMessage_stored (stored : StoredMessage) :
    Reads (anyNewer stored.content) (validateMessage fields pythonMode (stored.json fields))
      stored.message := by
  have hcontent := @coerceItems_stored fields stored.content
  constructor
  · intro hclear
    simp [StoredMessage.json, StoredMessage.message, validateMessage, required, optional,
      List.lookup_cons, coerceBlocks, hcontent.ok hclear, bind, Except.bind, pure, Except.pure]
  · intro hnewer
    obtain ⟨e, he⟩ := hcontent.error hnewer
    refine ⟨e, ?_⟩
    simp [StoredMessage.json, validateMessage, required, List.lookup_cons, coerceBlocks, he, bind,
      Except.bind]

variable {value : JsonObject}

theorem textOr_ofText {key : String} {body : Option String}
    (h : value.lookup key = some (Json.ofText? body)) : textOr value key = .ok body := by
  unfold textOr
  rw [h]
  cases body <;> rfl

theorem finishReasonOf_value {reason : FinishReason}
    (h : value.lookup "finish_reason" = some (.str reason.value)) :
    finishReasonOf value = .ok reason := by
  have hreason : finishReasons.lookup reason.value = some reason := by
    cases reason <;> decide
  unfold finishReasonOf
  simp only [h, Option.getD_some, hreason]

theorem deserialize_stored (stored : StoredResponse) :
    Reads (stored.content.any Stored.hasNewerWithin) (deserialize fields (stored.json fields))
      stored.response := by
  have hcontent := @parseContent_stored fields stored.content
  have hreason : finishReasonOf (stored.json fields) = .ok stored.rest.finishReason :=
    finishReasonOf_value rfl
  have hid : textOr (stored.json fields) "response_id" = .ok stored.rest.responseId :=
    textOr_ofText rfl
  have hserved : textOr (stored.json fields) "served_model" = .ok stored.rest.servedModel :=
    textOr_ofText rfl
  have hcost : numberOr (stored.json fields) "cost_usd" 0 = .ok stored.rest.costUsd := rfl
  have husage : (stored.json fields).lookup "usage" =
      some (.obj [("input_tokens", .num stored.rest.usage.inputTokens),
        ("cached_tokens", .num stored.rest.usage.cachedTokens),
        ("output_tokens", .num stored.rest.usage.outputTokens),
        ("reasoning_tokens", .num stored.rest.usage.reasoningTokens),
        ("cache_write_tokens", .num stored.rest.usage.cacheWriteTokens)]) := rfl
  have hblocks : (stored.json fields).lookup "content" =
      some (.arr (storedJson fields stored.content)) := rfl
  constructor
  · intro hclear
    simp only [deserialize, husage, hblocks, hcontent.ok hclear, hreason, hid, hserved, hcost]
    rfl
  · intro hnewer
    obtain ⟨e, he⟩ := hcontent.error hnewer
    refine ⟨e, ?_⟩
    simp only [deserialize, husage, hblocks, he]
    rfl

theorem storedJson_known (blocks : List ContentBlock) :
    storedJson fields (blocks.map .known) = dumpBlocks fields blocks := by
  induction blocks with
  | nil => simp only [List.map_nil, storedJson, dumpBlocks]
  | cons block rest ih => simp only [List.map_cons, storedJson, Stored.json, dumpBlocks, ih]

theorem storedBlocks_known (blocks : List ContentBlock) :
    storedBlocks (blocks.map .known) = blocks := by
  induction blocks with
  | nil => simp only [List.map_nil, storedBlocks]
  | cons block rest ih => simp only [List.map_cons, storedBlocks, Stored.block, ih]

theorem deserialize_serialize (resp : LLMResponse) :
    deserialize fields (serialize fields resp) = .ok resp := by
  have hread := @deserialize_stored fields ⟨resp.content.map .known, resp⟩
  have hjson : StoredResponse.json fields ⟨resp.content.map .known, resp⟩ =
      serialize fields resp := by
    simp only [StoredResponse.json, storedJson_known]
    rfl
  have hresponse : StoredResponse.response ⟨resp.content.map .known, resp⟩ = resp := by
    simp only [StoredResponse.response, storedBlocks_known]
  have hclear : (resp.content.map Stored.known).any Stored.hasNewerWithin = false := by
    simp [Stored.hasNewerWithin]
  have hok := hread.ok hclear
  rwa [hjson, hresponse] at hok

/-- What was written reads back as it was, and of what a newer version wrote a thread's node
is read if no block at any depth is of a newer type, and a response if none is within a tool
result. -/
theorem reads_back (fields : Fields) {Text : Type} (text : JsonText Text) :
    (∀ msg, readPayload fields text (payloadOf fields text msg) = .ok msg) ∧
      (∀ resp, deserialize fields (serialize fields resp) = .ok resp) ∧
        (∀ stored : StoredMessage,
          readPayload fields text (text.dumps (stored.json fields)) = .ok stored.message ↔
            anyNewer stored.content = false) ∧
          ∀ stored : StoredResponse,
            deserialize fields (stored.json fields) = .ok stored.response ↔
              stored.content.any Stored.hasNewerWithin = false := by
  refine ⟨?_, ?_, ?_, fun stored => (deserialize_stored stored).ok_iff⟩
  · intro msg
    unfold readPayload payloadOf
    rw [text.loads_dumps]
    simp only [validateMessage_dump]
    rfl
  · exact deserialize_serialize
  · intro stored
    unfold readPayload
    rw [text.loads_dumps]
    exact (validateMessage_stored stored).asRead.ok_iff

end

end

def plainText : Field String where
  dump := .str
  validate
    | .str body => some body
    | _ => none
  validate_dump _ := rfl

def plainOptText : Field (Option String) where
  dump := Json.ofText?
  validate
    | .str body => some (some body)
    | .null => some none
    | _ => none
  validate_dump
    | none => rfl
    | some _ => rfl

def plainFlag : Field Bool where
  dump := .bool
  validate
    | .bool flag => some flag
    | _ => none
  validate_dump _ := rfl

/-- Bytes as a text with a character for each of them. -/
def plainBytes : Field (Option Bytes) where
  dump
    | none => .null
    | some bytes => .str (String.ofList (bytes.map fun b => Char.ofNat b.toNat))
  validate
    | .null => some none
    | .str body => some (some (body.toList.map fun c => UInt8.ofNat c.toNat))
    | _ => none
  validate_dump
    | none => rfl
    | some bytes => by
        have hback : ∀ b : UInt8, UInt8.ofNat (Char.ofNat b.toNat).toNat = b := by
          intro b
          have hlt := b.toNat_lt
          have hchar : b.toNat.isValidChar := Or.inl (by omega)
          have hcode : (Char.ofNat b.toNat).toNat = b.toNat := by
            rw [Char.ofNat, dif_pos hchar]
            rfl
          rw [hcode, UInt8.ofNat_toNat]
        simp [Function.comp_def, hback]

def plainObject : Field JsonObject where
  dump := .obj
  validate
    | .obj object => some object
    | _ => none
  validate_dump _ := rfl

def plainOptObject : Field (Option JsonObject) where
  dump
    | none => .null
    | some object => .obj object
  validate
    | .obj object => some (some object)
    | .null => some none
    | _ => none
  validate_dump
    | none => rfl
    | some _ => rfl

def plainDetail : Field Detail where
  dump
    | .low => .str "low"
    | .high => .str "high"
    | .auto => .str "auto"
  validate
    | .str "low" => some .low
    | .str "high" => some .high
    | .str "auto" => some .auto
    | _ => none
  validate_dump
    | .low => rfl
    | .high => rfl
    | .auto => rfl

def plainRole : Field Role where
  dump
    | .system => .str "system"
    | .user => .str "user"
    | .assistant => .str "assistant"
    | .tool => .str "tool"
  validate
    | .str "system" => some .system
    | .str "user" => some .user
    | .str "assistant" => some .assistant
    | .str "tool" => some .tool
    | _ => none
  validate_dump
    | .system => rfl
    | .user => rfl
    | .assistant => rfl
    | .tool => rfl

def plainFields : Fields :=
  ⟨plainText, plainOptText, plainFlag, plainBytes, plainObject, plainOptObject, plainDetail,
    plainRole⟩

def plainJson : JsonText Json := ⟨id, some, fun _ => rfl⟩

def hologram : Stored := .newer ⟨[("type", .str "hologram")], "hologram", rfl, by decide⟩

/-- A newer block in a thread's node, and one in a tool result of a response, are not read. -/
theorem newer_not_read :
    (¬ ∀ stored : StoredMessage,
      readPayload plainFields plainJson (plainJson.dumps (stored.json plainFields)) =
        .ok stored.message) ∧
      ¬ ∀ stored : StoredResponse,
        deserialize plainFields (stored.json plainFields) = .ok stored.response := by
  constructor
  · intro h
    have hread : asRead (validateMessage plainFields pythonMode
        (StoredMessage.json plainFields ⟨.assistant, [hologram], none, []⟩)) = .ok _ := h _
    have hclear := (@validateMessage_stored plainFields _).asRead.ok_iff.mp hread
    exact absurd hclear (by decide)
  · intro h
    have hread := h ⟨[.toolResult "c" "look" [hologram] false],
      ⟨[], ⟨0, 0, 0, 0, 0⟩, 0, .stop, none, none⟩⟩
    have hclear := (@deserialize_stored plainFields _).ok_iff.mp hread
    exact absurd hclear (by decide)

end Substrate.Content
