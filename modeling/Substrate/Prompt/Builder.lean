import Substrate.Compaction.Strategies
import Substrate.Threads.State

/-!
The prompt window (`context/builder.py`): the system prompt, remembered blocks and the
summary of a checkpoint, and after them as much of the history as a budget of tokens
leaves room for.

How long the JSON text of a value is, how many tokens some characters are, and how
Python prints a block that is not a text are parameters.
-/

namespace Substrate.Prompt

open Content

abbrev MessageNode := Threads.MessageNode ChatMessage

structure ContextMemoryInjection where
  directives : List ContentBlock
  relevantMemories : List ContentBlock

/-- The arguments of `build`. -/
structure Request where
  nodes : List MessageNode
  checkpoint : Option Threads.HistoryCheckpoint
  tokenBudget : Option Int
  systemInstruction : Option String
  memoryInjection : Option ContextMemoryInjection

structure ContextWindow where
  messages : List ChatMessage
  leafNodeId : Option String
  checkpointId : Option String
  estimatedTokens : Int

/-- What Python takes for true. -/
def truthy : Json → Bool
  | .null => false
  | .bool value => value
  | .num value => value ≠ 0
  | .str value => value ≠ ""
  | .arr items => ¬ items.isEmpty
  | .obj fields => ¬ fields.isEmpty

def flagged (key : String) (msg : ChatMessage) : Bool := (msg.metadata.lookup key).any truthy

def isSystem (msg : ChatMessage) : Bool := msg.role = .system

def isTool (msg : ChatMessage) : Bool := msg.role = .tool

def isSummary (msg : ChatMessage) : Bool := flagged "is_checkpoint_summary" msg

def isMemory (msg : ChatMessage) : Bool := flagged "is_memory_context" msg

structure Measure where
  jsonChars : Json → Nat
  tokensOf : Nat → Nat
  shown : ContentBlock → String

/-- `estimate_tokens`. -/
def Measure.cost (m : Measure) (messages : List ChatMessage) : Int :=
  Compaction.estimateTokens m.jsonChars (fun chars => (m.tokensOf chars : Int)) messages

namespace Request

variable (m : Measure) (r : Request)

def history : List ChatMessage := r.nodes.map Threads.MessageNode.payload

/-- The nodes after the one that the checkpoint is anchored on. -/
def workingNodes : List MessageNode :=
  match r.checkpoint with
  | none => r.nodes
  | some checkpoint =>
    match r.nodes.findIdx? fun node => node.id = checkpoint.anchorMessageId with
    | none => r.nodes
    | some anchor => r.nodes.drop (anchor + 1)

def delta : List ChatMessage := r.workingNodes.map Threads.MessageNode.payload

def leafId : Option String :=
  match r.workingNodes.getLast? with
  | some node => some node.id
  | none =>
    match r.checkpoint with
    | some checkpoint => some checkpoint.anchorMessageId
    | none => (r.nodes.getLast?).map Threads.MessageNode.id

def summaryMessage : Option ChatMessage :=
  (r.checkpoint.filter fun checkpoint => Compaction.strip checkpoint.summary ≠ "").map
    fun checkpoint =>
      { role := .user
        content := [.text s!"[Conversation Summary]:\n{checkpoint.summary}"]
        metadata := [("is_checkpoint_summary", .bool true), ("checkpoint_id", .str checkpoint.id),
          ("anchor_message_id", .str checkpoint.anchorMessageId)] }

def memoryMessage : Option ChatMessage :=
  (r.memoryInjection.filter fun injection => ¬ injection.relevantMemories.isEmpty).map
    fun injection =>
      { role := .user
        content := injection.relevantMemories
        metadata := [("is_memory_context", .bool true)] }

def directivesText (injection : ContextMemoryInjection) : String :=
  "\n\n".intercalate (injection.directives.map fun block => (block.text?).getD (m.shown block))

/-- The text of the system prompt, with the directives if there are some. -/
def effectiveSystem : Option String :=
  match r.memoryInjection with
  | none => r.systemInstruction
  | some injection =>
    if injection.directives.isEmpty then r.systemInstruction
    else
      let directives := directivesText m injection
      match r.systemInstruction.filter fun text => text ≠ "" with
      | some text => some s!"{text}\n\n{directives}"
      | none => some directives

def systemMessage : Option ChatMessage :=
  ((r.effectiveSystem m).filter fun text => text ≠ "").map fun text =>
    { role := .system, content := [.text text] }

def assembled : List ChatMessage :=
  let messages := r.memoryMessage.toList ++ (r.summaryMessage.toList ++ r.delta)
  if messages.head?.any isSystem then messages else (r.systemMessage m).toList ++ messages

end Request

def popIf (p : ChatMessage → Bool) (messages : List ChatMessage) :
    List ChatMessage × List ChatMessage :=
  match messages with
  | msg :: rest => if p msg then ([msg], rest) else ([], msg :: rest)
  | [] => ([], [])

def splitKept (messages : List ChatMessage) : List ChatMessage × List ChatMessage :=
  let system := popIf isSystem messages
  let summary := popIf isSummary system.2
  let memory := popIf isMemory summary.2
  (system.1 ++ summary.1 ++ memory.1, memory.2)

/-- The oldest messages go until the rest is within the budget, and with each of them the
tool messages that would come first. -/
def trim (cost : List ChatMessage → Int) (budget : Int) (kept : List ChatMessage) :
    List ChatMessage → List ChatMessage
  | [] => []
  | msg :: rest =>
    if budget < cost (kept ++ msg :: rest) then
      trim cost budget kept (rest.dropWhile isTool)
    else msg :: rest
  termination_by messages => messages.length
  decreasing_by
    have hlength := (List.dropWhile_suffix isTool (l := rest)).length_le
    simp only [List.length_cons]
    omega

/-- `DefaultContextBuilder.build`. -/
def build (m : Measure) (r : Request) : ContextWindow :=
  let window (messages : List ChatMessage) : ContextWindow :=
    ⟨messages, r.leafId, r.checkpoint.map Threads.HistoryCheckpoint.id, m.cost messages⟩
  let messages := r.assembled m
  match r.tokenBudget with
  | none => window messages
  | some budget =>
    if messages.isEmpty ∨ m.cost messages ≤ budget then window messages
    else
      let split := splitKept messages
      window (split.1 ++ trim m.cost budget split.1 split.2)

end Substrate.Prompt
