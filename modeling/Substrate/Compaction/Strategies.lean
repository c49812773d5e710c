import Substrate.Compaction.Sizes

/-!
The compaction strategies (`context/compaction/`). A message in a history is an object,
and an object that a strategy makes is a new one; so a message has, beside what it says,
its place in the history that compaction began with, if it is from there.
-/

namespace Substrate.Compaction

open Content

structure Message where
  origin : Option Nat
  chat : ChatMessage

abbrev Message.role (msg : Message) : Role := msg.chat.role

def numbered (history : List ChatMessage) : List Message :=
  history.zipIdx.map fun entry => ⟨some entry.2, entry.1⟩

/-- The slice from `-n` on. -/
def fromEnd {α : Type} (n : Int) (items : List α) : List α :=
  if 0 < n then items.drop (items.length - n.toNat) else items.drop (-n).toNat

def dropOrphanedToolResults (window : List Message) : List Message :=
  window.dropWhile fun msg => msg.role = .tool

def within {α : Type} (cost : α → Int) (limit : Int) (total : Int) : List α → List α
  | [] => []
  | item :: rest =>
    if limit < total + cost item then []
    else item :: within cost limit (total + cost item) rest

def lastWithin {α : Type} (cost : α → Int) (limit : Int) (items : List α) : List α :=
  (within cost limit 0 items.reverse).reverse

/-- `SlidingWindowCompaction`. -/
def slidingWindow (maxMessages : Int) (history : List Message) : List Message :=
  if history.length ≤ maxMessages then history
  else dropOrphanedToolResults (fromEnd maxMessages history)

/-- The limits of a `TruncationStrategy`: it refuses to be made without one. -/
structure Limits where
  maxMessages : Option Int
  maxChars : Option Int
  given : maxMessages ≠ none ∨ maxChars ≠ none

def truncateByMessages (maxMessages : Option Int) (history : List Message) : List Message :=
  match maxMessages with
  | none => history
  | some limit =>
    if limit < history.length then dropOrphanedToolResults (fromEnd limit history) else history

section

variable (jsonChars : Json → Nat)

def truncateByChars (maxChars : Option Int) (history : List Message) : List Message :=
  match maxChars with
  | none => history
  | some limit =>
    dropOrphanedToolResults
      (lastWithin (fun msg => estimateMessageChars jsonChars msg.chat) limit history)

/-- `TruncationStrategy`. -/
def truncation (limits : Limits) (history : List Message) : List Message :=
  truncateByChars jsonChars limits.maxChars (truncateByMessages limits.maxMessages history)

def isToolCallTurn (msg : Message) : Bool :=
  msg.role = .assistant && msg.chat.content.any fun block => block.call?.isSome

def isToolResultTurn (msg : Message) : Bool := msg.role = .tool

/-- `_find_groups`, from a place in the history on. A group that has begun goes on as long
as tool results follow. -/
def findGroups : Option Nat → Nat → List Message → List (Nat × Nat)
  | none, _, [] => []
  | some start, i, [] => [(start, i - 1)]
  | none, i, msg :: rest =>
    if isToolCallTurn msg then findGroups (some i) (i + 1) rest
    else findGroups none (i + 1) rest
  | some start, i, msg :: rest =>
    if isToolResultTurn msg then findGroups (some start) (i + 1) rest
    else
      (start, i - 1) :: (if isToolCallTurn msg then findGroups (some i) (i + 1) rest
        else findGroups none (i + 1) rest)

def oldGroups (keepRecentGroups : Int) (history : List Message) : List (Nat × Nat) :=
  let groups := findGroups none 0 history
  groups.take (groups.length - keepRecentGroups).toNat

def inGroups (groups : List (Nat × Nat)) (i : Nat) : Bool :=
  groups.any fun group => group.1 ≤ i && i ≤ group.2

/-- `SelectiveToolCallCompactionStrategy`. -/
def selectiveToolCall (keepRecentGroups : Int) (history : List Message) : List Message :=
  if (findGroups none 0 history).length ≤ keepRecentGroups then history
  else
    (history.zipIdx.filter fun entry =>
      !inGroups (oldGroups keepRecentGroups history) entry.2).map Prod.fst

/-- The slice up to `n`. -/
def upTo (n : Int) (text : String) : String :=
  if 0 ≤ n then String.ofList (text.toList.take n.toNat)
  else String.ofList (text.toList.take (text.length - (-n).toNat))

/-- `_truncate_result`, and whether it is another block. -/
def truncateResult (maxChars : Int) : ContentBlock → ContentBlock × Bool
  | .toolResult callId name content false =>
    let texts := content.filterMap ContentBlock.text?
    let total := (texts.map String.length).sum
    if total ≤ maxChars then (.toolResult callId name content false, false)
    else
      let more := total - maxChars
      let truncated := upTo maxChars ("\n".intercalate texts) ++ s!"\n… [{more} chars truncated]"
      let others := content.filter fun block => block.text?.isNone
      (.toolResult callId name (.text truncated :: others) false, true)
  | block => (block, false)

/-- One message of `ToolResultCompactionStrategy`. -/
def compactToolMessage (maxChars : Int) (msg : Message) : Message :=
  if msg.role ≠ .tool then msg
  else
    let content := msg.chat.content.map (truncateResult maxChars)
    if content.any Prod.snd then
      ⟨none, { role := .tool, content := content.map Prod.fst, name := msg.chat.name }⟩
    else msg

/-- `ToolResultCompactionStrategy`. -/
def toolResult (maxChars : Int) (history : List Message) : List Message :=
  history.map (compactToolMessage maxChars)

def summaryPrefix : String := "[Earlier conversation summary]"

def systemPrompt : String := "You are a conversation summarizer. " ++
  "Produce a concise factual summary of the conversation below. " ++
  "Capture: key decisions, facts established, user intent, and any outstanding tasks. " ++
  "Write in third-person past tense. Be brief — aim for 3-7 sentences."

def updateSystemPrompt : String := "You are a conversation summarizer. " ++
  "You will be given an existing summary and new conversation messages. " ++
  "Produce an updated summary that integrates the new information. " ++
  "Preserve all key decisions, facts, user intent, and outstanding tasks. " ++
  "Write in third-person past tense. Be brief — aim for 3-7 sentences."

/-- What `str.isspace` calls a space. -/
def isSpace (c : Char) : Bool :=
  let n := c.toNat
  (0x09 ≤ n && n ≤ 0x0D) || (0x1C ≤ n && n ≤ 0x20) || n = 0x85 || n = 0xA0 || n = 0x1680 ||
    (0x2000 ≤ n && n ≤ 0x200A) || n = 0x2028 || n = 0x2029 || n = 0x202F || n = 0x205F || n = 0x3000

def strip (text : String) : String :=
  String.ofList (((text.toList.dropWhile isSpace).reverse.dropWhile isSpace).reverse)

/-- What a block says of the conversation before, if it is a summary. -/
def summaryOf? (block : ContentBlock) : Option String :=
  match block.text? with
  | some body =>
    if summaryPrefix.toList.isPrefixOf body.toList then
      some (strip (String.ofList (body.toList.drop summaryPrefix.length)))
    else none
  | none => none

def isSummary (msg : Message) : Bool :=
  msg.role = .system && msg.chat.content.any fun block => (summaryOf? block).isSome

def extractSummaryText (msg : Message) : String :=
  ((msg.chat.content.filterMap summaryOf?).head?).getD ""

def Role.upper : Role → String
  | .system => "SYSTEM"
  | .user => "USER"
  | .assistant => "ASSISTANT"
  | .tool => "TOOL"

/-- The lines of one message in `_messages_to_text`. -/
def linesOf (msg : Message) : List String :=
  if msg.role = .system then
    (msg.chat.content.filterMap summaryOf?).map fun summary => s!"SUMMARY: {summary}"
  else
    let text := " ".intercalate ((msg.chat.content.filterMap ContentBlock.text?).filter (· ≠ ""))
    let who := Role.upper msg.role
    if text = "" then [] else [s!"{who}: {text}"]

def messagesToText (messages : List Message) : String := "\n".intercalate (messages.flatMap linesOf)

/-- `_get_summary`. The model is given a prompt and its instructions; it may fail. -/
def getSummary (generate : String → String → Option String) (messages : List Message)
    (existingSummary : Option String) : String :=
  let text := messagesToText messages
  let count := messages.length
  let answer :=
    match existingSummary.filter (· ≠ "") with
    | some existing =>
      generate s!"Existing summary:\n{existing}\n\nNew messages to incorporate:\n{text}"
        updateSystemPrompt
    | none => generate s!"Conversation to summarize:\n\n{text}" systemPrompt
  match answer with
  | some summary => strip summary
  | none => s!"[Summary unavailable — {count} earlier messages omitted]"

def makeSummaryMessage (summary : String) : Message :=
  ⟨none, { role := .system, content := [.text (summaryPrefix ++ "\n" ++ summary)] }⟩

/-- The limits of a `SummarizationCompaction`. -/
structure Summarizing where
  recentTokenBudget : Int
  minOldTokens : Int
  tokensOf : Nat → Int

def recentOf (limits : Summarizing) (history : List Message) : List Message :=
  lastWithin (fun msg => estimateMessageTokens jsonChars limits.tokensOf msg.chat)
    limits.recentTokenBudget history

def oldOf (limits : Summarizing) (history : List Message) : List Message :=
  history.take (history.length - (recentOf jsonChars limits history).length)

/-- `SummarizationCompaction`. -/
def summarization (generate : String → String → Option String) (limits : Summarizing)
    (history : List Message) : List Message :=
  let old := oldOf jsonChars limits history
  if estimateTokens jsonChars limits.tokensOf (old.map Message.chat) < limits.minOldTokens then
    history
  else
    let summary :=
      match old with
      | first :: rest =>
        if isSummary first then getSummary generate rest (some (extractSummaryText first))
        else getSummary generate old none
      | [] => getSummary generate [] none
    makeSummaryMessage summary :: recentOf jsonChars limits history

inductive Strategy where
  | slidingWindow (maxMessages : Int)
  | truncation (limits : Limits)
  | selectiveToolCall (keepRecentGroups : Int)
  | toolResult (maxChars : Int)
  | summarization (generate : String → String → Option String) (limits : Summarizing)
  /-- A `TokenBudgetComposedStrategy` has at least one strategy. -/
  | tokenBudgetComposed (first : Strategy) (rest : List Strategy) (tokenBudget : Int)
      (tokensOf : Nat → Int)
  | pipeline (strategies : List Strategy)

mutual

def compact : Strategy → List Message → List Message
  | .slidingWindow maxMessages, history => slidingWindow maxMessages history
  | .truncation limits, history => truncation jsonChars limits history
  | .selectiveToolCall keepRecentGroups, history => selectiveToolCall keepRecentGroups history
  | .toolResult maxChars, history => toolResult maxChars history
  | .summarization generate limits, history => summarization jsonChars generate limits history
  | .tokenBudgetComposed first rest tokenBudget tokensOf, history =>
    if estimateTokens jsonChars tokensOf (history.map Message.chat) ≤ tokenBudget then history
    else
      let current := compact first history
      if estimateTokens jsonChars tokensOf (current.map Message.chat) ≤ tokenBudget then current
      else compactUntil tokenBudget tokensOf rest current
  | .pipeline strategies, history => compactAll strategies history

/-- Strategies one after another, until what is left fits. -/
def compactUntil (tokenBudget : Int) (tokensOf : Nat → Int) :
    List Strategy → List Message → List Message
  | [], history => history
  | strategy :: rest, history =>
    let current := compact strategy history
    if estimateTokens jsonChars tokensOf (current.map Message.chat) ≤ tokenBudget then current
    else compactUntil tokenBudget tokensOf rest current

def compactAll : List Strategy → List Message → List Message
  | [], history => history
  | strategy :: rest, history => compactAll rest (compact strategy history)

end

end

end Substrate.Compaction
