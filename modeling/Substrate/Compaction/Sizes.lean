import Mathlib.Algebra.Order.Ring.Int
import Substrate.Content.Blocks

/-!
The sizes that compaction goes by (`context/tokens.py`): characters and a fixed price of
each message, in tokens. How long the JSON text of a value is, and how many tokens some
characters are, are parameters.
-/

namespace Substrate.Compaction

open Content

def imageTokens : Nat := 1000

def lowDetailImageTokens : Nat := 100

def otherMediaTokens : Nat := 1500

def messageOverheadTokens : Nat := 4

def defaultCharsPerToken : Nat := 4

def mediaTokens (block : MediaBlock) : Nat :=
  if block.type = .image then
    if block.detail = .low then lowDetailImageTokens else imageTokens
  else otherMediaTokens

section

variable (jsonChars : Json → Nat)

mutual

/-- `_block_cost`: characters of text, and tokens beside them. -/
def blockCost : ContentBlock → Nat × Nat
  | .text body | .reasoning body _ _ => (body.length, 0)
  | .toolUse _ toolName arguments _ _ => (toolName.length + jsonChars (.obj arguments), 0)
  | .data data _ => (jsonChars (.obj data), 0)
  | .error errorType message _ _ => (errorType.length + message.length, 0)
  | .media block => (0, mediaTokens block)
  | .toolResult _ _ content _ => blocksCost content
  | .unknown raw => (jsonChars (.obj raw), 0)

def blocksCost : List ContentBlock → Nat × Nat
  | [] => (0, 0)
  | block :: rest =>
    ((blockCost block).1 + (blocksCost rest).1, (blockCost block).2 + (blocksCost rest).2)

end

def messageCost (msg : ChatMessage) : Nat × Nat :=
  let cost := blocksCost jsonChars msg.content
  (cost.1, cost.2 + messageOverheadTokens)

/-- `tokensOf` is how many tokens so many characters are. -/
def estimateMessageTokens (tokensOf : Nat → Int) (msg : ChatMessage) : Int :=
  tokensOf (messageCost jsonChars msg).1 + (messageCost jsonChars msg).2

def estimateTokens (tokensOf : Nat → Int) (messages : List ChatMessage) : Int :=
  (messages.map (estimateMessageTokens jsonChars tokensOf)).sum

def estimateMessageChars (msg : ChatMessage) : Int :=
  (messageCost jsonChars msg).1 + (messageCost jsonChars msg).2 * defaultCharsPerToken

end

end Substrate.Compaction
