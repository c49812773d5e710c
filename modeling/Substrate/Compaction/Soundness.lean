import Mathlib.Data.List.Forall2
import Mathlib.Data.List.TakeWhile
import Substrate.Compaction.Strategies
import Substrate.Lib.Pairing

/-!
What compaction leaves of a conversation. Most strategies keep the end of the history
from some place on, and only two of them look at what stands there; the conditions below
say for each strategy where it may cut.
-/

namespace Substrate.Compaction

open Content Lib List Option Bool

def callsOf (msg : Message) : List String :=
  if msg.role = .assistant then msg.chat.content.filterMap ContentBlock.call? else []

def resultsOf (msg : Message) : List String := msg.chat.content.filterMap ContentBlock.result?

def FromAssistant (msg : Message) : Prop := msg.role = .assistant

/-- Results come after their calls, and calls have their results if the assistant has
spoken since. -/
structure WellFormed (history : List Message) : Prop where
  grounded : Grounded callsOf resultsOf history
  answered : Answered callsOf resultsOf FromAssistant history

inductive Shortens : ContentBlock → ContentBlock → Prop where
  | same (block : ContentBlock) : Shortens block block
  | result (callId name : String) {content content' : List ContentBlock}
      (hrest : content'.filter (fun block => block.text?.isNone) =
        content.filter fun block => block.text?.isNone) :
      Shortens (.toolResult callId name content false) (.toolResult callId name content' false)

/-- The same message, or a tool message made from it whose results have other text. -/
def Shortened (msg msg' : Message) : Prop :=
  msg' = msg ∨ msg'.origin = none ∧ msg.role = .tool ∧ msg'.role = .tool ∧
    msg'.chat.name = msg.chat.name ∧ List.Forall₂ Shortens msg.chat.content msg'.chat.content

def verbatim (history : List Message) : List Message := history.filter fun msg => msg.origin.isSome

structure Fine (history out : List Message) : Prop extends WellFormed out where
  order : List.Sublist (verbatim out) (verbatim history)
  last : ∃ msg msg', history.getLast? = some msg ∧ out.getLast? = some msg' ∧ Shortened msg msg'

/-- After this many messages, and the tool messages that follow them, a message stands from
which on no result answers a call before it. -/
def TurnAfter (count : Nat) (history : List Message) : Prop :=
  ∃ front tools back, history = front ++ tools ++ back ∧ front.length = count ∧
    (∀ msg ∈ tools, msg.role = .tool) ∧ (∃ msg rest, back = msg :: rest ∧ msg.role ≠ .tool) ∧
      Grounded callsOf resultsOf back

/-- After this many messages something is left, and no result in it answers a call before
it. -/
def CutAfter (count : Nat) (history : List Message) : Prop :=
  ∃ front back, history = front ++ back ∧ front.length = count ∧ back ≠ [] ∧
    Grounded callsOf resultsOf back

/-- How many messages stand before the last `n`. -/
def before (n : Int) (length : Nat) : Nat :=
  if 0 < n then length - n.toNat else (-n).toNat

def excess {α : Type} (cost : α → Int) (limit : Int) (items : List α) : Nat :=
  items.length - (within cost limit 0 items.reverse).length

section

variable (jsonChars : Json → Nat)

def beyondMessages (maxMessages : Option Int) (history : List Message) : Nat :=
  match maxMessages with
  | none => 0
  | some limit => if limit < history.length then before limit history.length else 0

def beyondChars (maxChars : Option Int) (history : List Message) : Nat :=
  match maxChars with
  | none => 0
  | some limit => excess (fun msg => estimateMessageChars jsonChars msg.chat) limit history

def beyond (limits : Limits) (history : List Message) : Nat :=
  max (beyondMessages limits.maxMessages history) (beyondChars jsonChars limits.maxChars history)

mutual

/-- The condition on a strategy and a history. -/
def Safe : Strategy → List Message → Prop
  | .slidingWindow maxMessages, history =>
    history.length ≤ maxMessages ∨ TurnAfter (before maxMessages history.length) history
  | .truncation limits, history =>
    (limits.maxChars = none ∧ ∀ limit, limits.maxMessages = some limit →
      history.length ≤ limit) ∨ TurnAfter (beyond jsonChars limits history) history
  | .selectiveToolCall keepRecentGroups, history =>
    let old := inGroups (oldGroups keepRecentGroups history)
    old (history.length - 1) = false ∧
      ∀ front msg i back, history.zipIdx = front ++ (msg, i) :: back → old i = false →
        ∀ r ∈ resultsOf msg, ∃ msg' j, (msg', j) ∈ front ∧ old j = false ∧ r ∈ callsOf msg'
  | .toolResult _, _ => True
  | .summarization _ limits, history =>
    estimateTokens jsonChars limits.tokensOf
        ((oldOf jsonChars limits history).map Message.chat) < limits.minOldTokens ∨
      CutAfter (excess (fun msg => estimateMessageTokens jsonChars limits.tokensOf msg.chat)
        limits.recentTokenBudget history) history
  | .tokenBudgetComposed first rest tokenBudget tokensOf, history =>
    estimateTokens jsonChars tokensOf (history.map Message.chat) ≤ tokenBudget ∨
      Safe first history ∧
        (estimateTokens jsonChars tokensOf ((compact jsonChars first history).map Message.chat) ≤
            tokenBudget ∨
          SafeUntil tokenBudget tokensOf rest (compact jsonChars first history))
  | .pipeline strategies, history => SafeAll strategies history

def SafeUntil (tokenBudget : Int) (tokensOf : Nat → Int) : List Strategy → List Message → Prop
  | [], _ => True
  | strategy :: rest, history =>
    Safe strategy history ∧
      (estimateTokens jsonChars tokensOf ((compact jsonChars strategy history).map Message.chat) ≤
          tokenBudget ∨
        SafeUntil tokenBudget tokensOf rest (compact jsonChars strategy history))

def SafeAll : List Strategy → List Message → Prop
  | [], _ => True
  | strategy :: rest, history =>
    Safe strategy history ∧ SafeAll rest (compact jsonChars strategy history)

end

end

def Strategy.Single : Strategy → Prop
  | .tokenBudgetComposed _ _ _ _ | .pipeline _ => False
  | _ => True

theorem Shortens.trans {a b c : ContentBlock} (hab : Shortens a b) (hbc : Shortens b c) :
    Shortens a c := by
  cases hab with
  | same => exact hbc
  | result callId name hrest =>
    cases hbc with
    | same => exact .result callId name hrest
    | result _ _ hrest' => exact .result callId name (hrest'.trans hrest)

theorem forall₂_shortens_trans {as bs cs : List ContentBlock} (hab : List.Forall₂ Shortens as bs)
    (hbc : List.Forall₂ Shortens bs cs) : List.Forall₂ Shortens as cs := by
  induction hab generalizing cs with
  | nil => exact hbc
  | cons hfirst _ ih =>
    cases hbc with
    | cons hfirst' hrest' => exact .cons (hfirst.trans hfirst') (ih hrest')

theorem Shortened.trans {a b c : Message} (hab : Shortened a b) (hbc : Shortened b c) :
    Shortened a c := by
  rcases hab with rfl | ⟨hnew, hfrom, hrole, hname, hcontent⟩
  · exact hbc
  · rcases hbc with rfl | ⟨hnew', _, hrole', hname', hcontent'⟩
    · exact .inr ⟨hnew, hfrom, hrole, hname, hcontent⟩
    · refine .inr ⟨hnew', hfrom, hrole', hname'.trans hname, ?_⟩
      exact forall₂_shortens_trans hcontent hcontent'

variable {h out tail : List Message} {α : Type} {k i : Nat} {msg msg' : Message} {keep : Int}

theorem Fine.trans {h' : List Message} (hfirst : Fine h h') (hrest : Fine h' out) : Fine h out := by
  obtain ⟨msg, msg', hlast, hlast', hsame⟩ := hfirst.last
  obtain ⟨msg₁, msg₂, hlast₁, hlast₂, hsame'⟩ := hrest.last
  rw [hlast'] at hlast₁
  cases hlast₁
  exact ⟨hrest.toWellFormed, hrest.order.trans hfirst.order,
    ⟨msg, msg₂, hlast, hlast₂, hsame.trans hsame'⟩⟩

theorem Fine.ne_nil (hfine : Fine h out) : out ≠ [] := by
  rintro rfl
  obtain ⟨_, _, _, hlast, _⟩ := hfine.last
  cases hlast

theorem fine_suffix_iff (hwf : WellFormed h) (hs : tail <:+ h) :
    Fine h tail ↔ tail ≠ [] ∧ Grounded callsOf resultsOf tail := by
  constructor
  · exact fun hfine => ⟨hfine.ne_nil, hfine.grounded⟩
  · rintro ⟨hne, hgrounded⟩
    obtain ⟨front, rfl⟩ := hs
    have hlast : (front ++ tail).getLast? = some (tail.getLast hne) := by
      rw [List.getLast?_append_of_ne_nil _ hne, List.getLast?_eq_some_getLast hne]
    refine ⟨⟨hgrounded, hwf.answered.suffix ⟨front, rfl⟩⟩, ?_, ?_⟩
    · exact (sublist_append_right front tail).filter _
    · exact ⟨_, _, hlast, List.getLast?_eq_some_getLast hne, .inl rfl⟩

theorem fine_refl (hwf : WellFormed h) (hne : h ≠ []) : Fine h h :=
  (fine_suffix_iff hwf suffix_rfl).mpr ⟨hne, hwf.grounded⟩

theorem fromEnd_eq (n : Int) (items : List α) :
    fromEnd n items = items.drop (before n items.length) := by
  unfold fromEnd before
  split <;> rfl

theorem within_start (cost : α → Int) (limit : Int) (items : List α) :
    ∀ total, within cost limit total items <+: items := by
  induction items with
  | nil => exact fun _ => nil_prefix
  | cons item rest ih =>
    intro total
    unfold within
    split
    · exact nil_prefix
    · exact (prefix_cons_inj item).mpr (ih _)

theorem lastWithin_eq (cost : α → Int) (limit : Int) (items : List α) :
    lastWithin cost limit items = items.drop (excess cost limit items) := by
  have hreverse := prefix_iff_eq_take.mp (within_start cost limit items.reverse 0)
  have hlength := (within_start cost limit items.reverse 0).length_le
  rw [length_reverse] at hlength
  unfold lastWithin excess
  rw [hreverse, take_reverse, reverse_reverse, length_reverse, length_drop]
  congr 1
  omega

theorem lastWithin_drop (cost : α → Int) (limit : Int) (items : List α) (k : Nat) :
    lastWithin cost limit (items.drop k) = items.drop (max k (excess cost limit items)) := by
  have hshort : ∀ (xs ys : List α) (total : Int), ys <+: xs →
      within cost limit total ys = (within cost limit total xs).take ys.length := by
    intro xs
    induction xs with
    | nil =>
      intro ys total hys
      rw [prefix_nil.mp hys]
      rfl
    | cons x rest ih =>
      intro ys total hys
      cases ys with
      | nil => simp [within]
      | cons y more =>
        obtain ⟨rfl, hmore⟩ := cons_prefix_cons.mp hys
        simp only [within]
        split
        · simp
        · rw [ih more _ hmore]
          rfl
  have hpart : (items.drop k).reverse <+: items.reverse := reverse_prefix.mpr (drop_suffix k items)
  have hlength := (within_start cost limit items.reverse 0).length_le
  rw [length_reverse] at hlength
  rw [lastWithin_eq, drop_drop]
  congr 1
  unfold excess
  rw [hshort _ _ 0 hpart, length_take, length_reverse, length_drop]
  omega

theorem turnAfter_iff : TurnAfter k h ↔ dropOrphanedToolResults (h.drop k) ≠ [] ∧
      Grounded callsOf resultsOf (dropOrphanedToolResults (h.drop k)) := by
  unfold dropOrphanedToolResults
  constructor
  · rintro ⟨front, tools, back, rfl, rfl, htools, ⟨msg, rest, rfl, hfirst⟩, hgrounded⟩
    have hdrop : (front ++ tools ++ msg :: rest).drop front.length = tools ++ msg :: rest := by
      rw [append_assoc, drop_left]
    have hback : (tools ++ msg :: rest).dropWhile (fun msg => decide (msg.role = .tool)) =
        msg :: rest := by
      rw [dropWhile_append_of_pos (by simpa using htools)]
      exact dropWhile_cons_of_neg (by simpa using hfirst)
    rw [hdrop, hback]
    exact ⟨cons_ne_nil _ _, hgrounded⟩
  · rintro ⟨hne, hgrounded⟩
    have hsplit := takeWhile_append_dropWhile (p := fun msg : Message =>
      decide (msg.role = .tool)) (l := h.drop k)
    have hk : k ≤ h.length := by
      by_contra hlong
      rw [drop_eq_nil_of_le (by omega)] at hne
      exact hne rfl
    obtain ⟨msg, rest, hback⟩ := exists_cons_of_ne_nil hne
    have hfirst : ¬ decide (msg.role = .tool) = true := by
      have hhead := List.head?_dropWhile_not (fun msg : Message => decide (msg.role = .tool))
        (h.drop k)
      rw [hback] at hhead
      simpa using hhead
    refine ⟨h.take k, (h.drop k).takeWhile fun msg => msg.role = .tool, _, ?_, ?_, ?_,
      ⟨msg, rest, hback, by simpa using hfirst⟩, hgrounded⟩
    · rw [append_assoc, hsplit, take_append_drop]
    · rw [length_take]
      omega
    · intro msg' hmem
      simpa using mem_takeWhile_imp hmem

theorem cutAfter_iff : CutAfter k h ↔ h.drop k ≠ [] ∧ Grounded callsOf resultsOf (h.drop k) := by
  constructor
  · rintro ⟨front, back, rfl, rfl, hne, hgrounded⟩
    rw [drop_left]
    exact ⟨hne, hgrounded⟩
  · rintro ⟨hne, hgrounded⟩
    have hk : k ≤ h.length := by
      by_contra hlong
      exact hne (drop_eq_nil_of_le (by omega))
    refine ⟨h.take k, h.drop k, (take_append_drop k h).symm, ?_, hne, hgrounded⟩
    rw [length_take]
    omega

theorem fine_turn_iff (hwf : WellFormed h) (k : Nat) :
    Fine h (dropOrphanedToolResults (h.drop k)) ↔ TurnAfter k h := by
  rw [turnAfter_iff]
  apply fine_suffix_iff hwf
  exact (dropWhile_suffix _).trans (drop_suffix k h)

theorem dropOrphaned_drop (h : List Message) (k k' : Nat) :
    ∃ j, dropOrphanedToolResults (h.drop k) = h.drop j ∧
      dropOrphanedToolResults (h.drop (max j k')) =
        dropOrphanedToolResults (h.drop (max k k')) := by
  unfold dropOrphanedToolResults
  generalize hp : (fun msg : Message => decide (msg.role = .tool)) = p
  have hsplit := takeWhile_append_dropWhile (p := p) (l := h.drop k)
  have hdrop : h.drop (k + ((h.drop k).takeWhile p).length) = (h.drop k).dropWhile p := by
    rw [← drop_drop]
    have hleft : ((h.drop k).takeWhile p ++ (h.drop k).dropWhile p).drop
        ((h.drop k).takeWhile p).length = (h.drop k).dropWhile p := drop_left
    rwa [hsplit] at hleft
  refine ⟨k + ((h.drop k).takeWhile p).length, hdrop.symm, ?_⟩
  rcases Nat.le_total k' (k + ((h.drop k).takeWhile p).length) with hle | hge
  · rw [Nat.max_eq_left hle, hdrop]
    have hrest : h.drop (max k k') = ((h.drop k).takeWhile p).drop (max k k' - k) ++
        (h.drop k).dropWhile p := by
      rw [← drop_append_of_le_length (by omega), hsplit, drop_drop]
      congr 1
      omega
    rw [hrest, dropWhile_append_of_pos]
    intro msg hmem
    exact mem_takeWhile_imp (mem_of_mem_drop hmem)
  · rw [Nat.max_eq_right hge, Nat.max_eq_right (by omega)]

theorem slidingWindow_fine_iff (hwf : WellFormed h) (hne : h ≠ []) (maxMessages : Int) :
    Fine h (slidingWindow maxMessages h) ↔
      h.length ≤ maxMessages ∨ TurnAfter (before maxMessages h.length) h := by
  unfold slidingWindow
  split
  · next hshort => exact iff_of_true (fine_refl hwf hne) (.inl hshort)
  · next hlong =>
      rw [fromEnd_eq, fine_turn_iff hwf]
      exact ⟨.inr, fun h => h.resolve_left hlong⟩

theorem truncation_fine_iff (jsonChars : Json → Nat) (hwf : WellFormed h) (hne : h ≠ [])
    (limits : Limits) :
    Fine h (truncation jsonChars limits h) ↔
      (limits.maxChars = none ∧ ∀ limit, limits.maxMessages = some limit → h.length ≤ limit) ∨
        TurnAfter (beyond jsonChars limits h) h := by
  obtain ⟨maxMessages, maxChars, given⟩ := limits
  by_cases hshort : ∀ limit, maxMessages = some limit → h.length ≤ limit
  · have hfirst : truncateByMessages maxMessages h = h := by
      unfold truncateByMessages
      cases maxMessages with
      | none => rfl
      | some limit =>
        have hle := hshort limit rfl
        exact if_neg (by omega)
    have hbeyond : beyondMessages maxMessages h = 0 := by
      unfold beyondMessages
      cases maxMessages with
      | none => rfl
      | some limit =>
        have hle := hshort limit rfl
        exact if_neg (by omega)
    unfold truncation beyond
    rw [hfirst, hbeyond, Nat.zero_max]
    cases maxChars with
    | none => exact iff_of_true (fine_refl hwf hne) (.inl ⟨rfl, hshort⟩)
    | some limit =>
      simp only [truncateByChars, lastWithin_eq, beyondChars]
      rw [fine_turn_iff hwf]
      exact ⟨.inr, fun h => h.resolve_left fun hnone => by cases hnone.1⟩
  · have hlong : ∃ limit, maxMessages = some limit ∧ limit < h.length := by
      by_contra hnone
      apply hshort
      intro limit hlimit
      by_contra hlt
      exact hnone ⟨limit, hlimit, by omega⟩
    obtain ⟨limit, rfl, hlt⟩ := hlong
    have hfirst : truncateByMessages (some limit) h =
        dropOrphanedToolResults (h.drop (before limit h.length)) := by
      simp only [truncateByMessages, if_pos hlt, fromEnd_eq]
    have hbeyond : beyondMessages (some limit) h = before limit h.length := if_pos hlt
    have hout : truncation jsonChars ⟨some limit, maxChars, given⟩ h =
        dropOrphanedToolResults (h.drop (beyond jsonChars ⟨some limit, maxChars, given⟩ h)) := by
      unfold truncation beyond
      rw [hfirst, hbeyond]
      cases maxChars with
      | none => simp only [truncateByChars, beyondChars, Nat.max_zero]
      | some chars =>
        obtain ⟨j, hj, hrest⟩ := dropOrphaned_drop h (before limit h.length)
          (excess (fun msg => estimateMessageChars jsonChars msg.chat) chars h)
        simp only [truncateByChars, beyondChars, hj, lastWithin_drop, hrest]
    rw [hout, fine_turn_iff hwf]
    exact ⟨.inr, fun h => h.resolve_left fun hnone => hshort hnone.2⟩

theorem truncateResult_shortens (maxChars : Int) (block : ContentBlock) :
    Shortens block (truncateResult maxChars block).1 := by
  unfold truncateResult
  split
  · dsimp only
    split
    · exact .same _
    · apply Shortens.result
      rw [filter_cons_of_neg (by simp [ContentBlock.text?]), List.filter_filter]
      simp
  · exact .same _

theorem Shortens.call? {block block' : ContentBlock} (h : Shortens block block') :
    block'.call? = block.call? ∧ block'.result? = block.result? := by
  cases h with
  | same | result => exact ⟨rfl, rfl⟩

theorem compactToolMessage_cases (maxChars : Int) (msg : Message) :
    compactToolMessage maxChars msg = msg ∨
      (compactToolMessage maxChars msg).origin = none ∧ msg.role = .tool ∧
        (compactToolMessage maxChars msg).role = .tool ∧
          (compactToolMessage maxChars msg).chat.name = msg.chat.name ∧
            (compactToolMessage maxChars msg).chat.content =
              (msg.chat.content.map (truncateResult maxChars)).map Prod.fst := by
  unfold compactToolMessage
  split
  · exact .inl rfl
  · next hrole =>
      dsimp only
      split
      · exact .inr ⟨rfl, not_not.mp hrole, rfl, rfl, rfl⟩
      · exact .inl rfl

theorem compactToolMessage_shortened (maxChars : Int) (msg : Message) :
    Shortened msg (compactToolMessage maxChars msg) := by
  rcases compactToolMessage_cases maxChars msg with hsame | ⟨hnew, hfrom, hrole, hname, hcontent⟩
  · exact .inl hsame
  · refine .inr ⟨hnew, hfrom, hrole, hname, ?_⟩
    rw [hcontent, List.map_map, List.forall₂_map_right_iff]
    exact List.forall₂_same.mpr fun block _ => truncateResult_shortens maxChars block

theorem Shortened.pairs (h : Shortened msg msg') :
    callsOf msg' = callsOf msg ∧ resultsOf msg' = resultsOf msg := by
  rcases h with rfl | ⟨_, hfrom, hrole, _, hcontent⟩
  · exact ⟨rfl, rfl⟩
  · have hresults : ∀ {bs bs'}, List.Forall₂ Shortens bs bs' →
        bs'.filterMap ContentBlock.result? = bs.filterMap ContentBlock.result? := by
      intro bs bs' hall
      induction hall with
      | nil => rfl
      | cons hfirst _ ih => rw [filterMap_cons, filterMap_cons, hfirst.call?.2, ih]
    constructor
    · simp [callsOf, hfrom, hrole]
    · exact hresults hcontent

theorem toolResult_fine (hwf : WellFormed h) (hne : h ≠ []) (maxChars : Int) :
    Fine h (toolResult maxChars h) := by
  have hpairs : ∀ msg, callsOf (compactToolMessage maxChars msg) = callsOf msg ∧
      resultsOf (compactToolMessage maxChars msg) = resultsOf msg :=
    fun msg => (compactToolMessage_shortened maxChars msg).pairs
  have hspeaks : ∀ msg, FromAssistant (compactToolMessage maxChars msg) → FromAssistant msg := by
    intro msg hspeaks
    rcases compactToolMessage_cases maxChars msg with hsame | ⟨_, _, hrole, _⟩
    · rwa [hsame] at hspeaks
    · unfold FromAssistant at hspeaks
      rw [hrole] at hspeaks
      cases hspeaks
  have horder : ∀ tail : List Message,
      List.Sublist (verbatim (tail.map (compactToolMessage maxChars))) (verbatim tail) := by
    intro tail
    induction tail with
    | nil => exact List.Sublist.refl _
    | cons msg rest ih =>
      unfold verbatim at ih ⊢
      rw [map_cons]
      rcases compactToolMessage_cases maxChars msg with hsame | ⟨hnew, _⟩
      · rw [hsame, filter_cons, filter_cons]
        split
        · exact ih.cons_cons msg
        · exact ih
      · rw [filter_cons_of_neg (by simp [hnew])]
        exact ih.trans ((sublist_cons_self msg rest).filter _)
  refine ⟨⟨?_, ?_⟩, horder h, ?_⟩
  · exact hwf.grounded.map (fun msg => (hpairs msg).1) fun msg => (hpairs msg).2
  · exact hwf.answered.map (fun msg => (hpairs msg).1) (fun msg => (hpairs msg).2) hspeaks
  · have hlast := List.getLast?_eq_some_getLast hne
    refine ⟨_, _, hlast, ?_, compactToolMessage_shortened maxChars _⟩
    unfold toolResult
    rw [List.getLast?_map, hlast]
    rfl

theorem makeSummaryMessage_pairs (summary : String) :
    callsOf (makeSummaryMessage summary) = [] ∧ resultsOf (makeSummaryMessage summary) = [] := by
  constructor <;> rfl

theorem not_shortened_summary (horigin : msg.origin ≠ none) (summary : String) :
    ¬ Shortened msg (makeSummaryMessage summary) := by
  rintro (heq | ⟨_, _, hrole, _⟩)
  · rw [← heq] at horigin
    exact horigin rfl
  · cases hrole

theorem summary_fine (hwf : WellFormed h) (hs : tail <:+ h)
    (htail : tail ≠ [] ∧ Grounded callsOf resultsOf tail) (summary : String) :
    Fine h (makeSummaryMessage summary :: tail) := by
  obtain ⟨hcalls, hresults⟩ := makeSummaryMessage_pairs summary
  have hfine := (fine_suffix_iff hwf hs).mpr htail
  refine ⟨⟨(grounded_cons hcalls hresults).mpr htail.2,
    answered_cons hcalls hfine.answered⟩, hfine.order, ?_⟩
  obtain ⟨msg, msg', hlast, hlast', hsame⟩ := hfine.last
  obtain ⟨first, rest, rfl⟩ := exists_cons_of_ne_nil htail.1
  exact ⟨msg, msg', hlast, by rwa [List.getLast?_cons_cons], hsame⟩

theorem Fine.of_summary (horigin : ∀ msg ∈ h, msg.origin ≠ none) {summary : String}
    (hfine : Fine h (makeSummaryMessage summary :: tail)) :
    tail ≠ [] ∧ Grounded callsOf resultsOf tail := by
  obtain ⟨hcalls, hresults⟩ := makeSummaryMessage_pairs summary
  refine ⟨?_, (grounded_cons hcalls hresults).mp hfine.grounded⟩
  rintro rfl
  obtain ⟨msg, msg', hlast, hlast', hsame⟩ := hfine.last
  cases hlast'
  exact not_shortened_summary (horigin msg (mem_of_getLast? hlast)) summary hsame

theorem summarization_cases (jsonChars : Json → Nat) (generate : String → String → Option String)
    (limits : Summarizing) (h : List Message) :
    (estimateTokens jsonChars limits.tokensOf ((oldOf jsonChars limits h).map Message.chat) <
        limits.minOldTokens ∧ summarization jsonChars generate limits h = h) ∨
      (¬ estimateTokens jsonChars limits.tokensOf ((oldOf jsonChars limits h).map Message.chat) <
          limits.minOldTokens ∧
        ∃ summary, summarization jsonChars generate limits h = makeSummaryMessage summary :: h.drop
            (excess (fun msg => estimateMessageTokens jsonChars limits.tokensOf msg.chat)
              limits.recentTokenBudget h)) := by
  unfold summarization
  dsimp only
  split
  · next hsmall => exact .inl ⟨hsmall, rfl⟩
  · next hlarge =>
      rw [recentOf, lastWithin_eq]
      exact .inr ⟨hlarge, _, rfl⟩

theorem findGroups_spec (history : List Message) : ∀ i : Nat,
      ((findGroups none i history).Pairwise (fun g g' => g.2 < g'.1) ∧
        ∀ g ∈ findGroups none i history, i ≤ g.1 ∧ g.1 ≤ g.2) ∧
      ∀ start < i, ∃ stop rest, findGroups (some start) i history = (start, stop) :: rest ∧
        i ≤ stop + 1 ∧ rest.Pairwise (fun g g' => g.2 < g'.1) ∧
          ∀ g ∈ rest, stop < g.1 ∧ g.1 ≤ g.2 := by
  induction history with
  | nil =>
    intro i
    refine ⟨⟨List.Pairwise.nil, nofun⟩, fun start hstart => ?_⟩
    exact ⟨i - 1, [], rfl, by omega, List.Pairwise.nil, nofun⟩
  | cons msg rest ih =>
    intro i
    obtain ⟨⟨hnone, hbounds⟩, hsome⟩ := ih (i + 1)
    have hnext : (if isToolCallTurn msg then findGroups (some i) (i + 1) rest
        else findGroups none (i + 1) rest).Pairwise (fun g g' => g.2 < g'.1) ∧
        ∀ g ∈ (if isToolCallTurn msg then findGroups (some i) (i + 1) rest
          else findGroups none (i + 1) rest), i ≤ g.1 ∧ g.1 ≤ g.2 := by
      split
      · obtain ⟨stop, more, hfound, hstop, hmore, hafter⟩ := hsome i (by omega)
        rw [hfound]
        refine ⟨pairwise_cons.mpr ⟨fun g hg => (hafter g hg).1, hmore⟩, ?_⟩
        intro g hg
        rcases mem_cons.mp hg with rfl | hg
        · exact ⟨le_rfl, by omega⟩
        · have hg' := hafter g hg
          exact ⟨by omega, hg'.2⟩
      · refine ⟨hnone, fun g hg => ?_⟩
        have hg' := hbounds g hg
        exact ⟨by omega, hg'.2⟩
    refine ⟨by simpa only [findGroups] using hnext, fun start hstart => ?_⟩
    unfold findGroups
    split
    · obtain ⟨stop, more, hfound, hstop, hmore, hafter⟩ := hsome start (by omega)
      exact ⟨stop, more, hfound, by omega, hmore, hafter⟩
    · refine ⟨i - 1, _, rfl, by omega, hnext.1, fun g hg => ?_⟩
      have hg' := hnext.2 g hg
      exact ⟨by omega, hg'.2⟩

theorem findGroups_begun (history : List Message) {start : Nat} (hstart : start < i) :
    ∃ g ∈ findGroups (some start) i history, g.1 = start := by
  obtain ⟨stop, rest, hfound, _⟩ := (findGroups_spec history i).2 start hstart
  rw [hfound]
  exact ⟨(start, stop), mem_cons_self, rfl⟩

theorem isToolResultTurn_of_call (h : isToolCallTurn msg = true) :
    isToolResultTurn msg = false := by
  unfold isToolCallTurn at h
  unfold isToolResultTurn
  rw [and_eq_true] at h
  have hrole := of_decide_eq_true h.1
  simp [hrole]

theorem findGroups_calls (history : List Message) :
    ∀ (begun : Option Nat) (i : Nat), (∀ start, begun = some start → start < i) →
      ∀ msg j, (msg, j) ∈ history.zipIdx i → isToolCallTurn msg = true →
        ∃ g ∈ findGroups begun i history, g.1 = j := by
  induction history with
  | nil => nofun
  | cons first rest ih =>
    intro begun i hbegun msg j hmem hcall
    have hnext : ∃ g ∈ (if isToolCallTurn first then findGroups (some i) (i + 1) rest
        else findGroups none (i + 1) rest), g.1 = j := by
      rw [zipIdx_cons] at hmem
      rcases mem_cons.mp hmem with heq | hmem
      · cases heq
        rw [if_pos hcall]
        exact findGroups_begun rest (by omega)
      · split
        · exact ih (some i) (i + 1) (fun start hstart => by cases hstart; omega) msg j hmem hcall
        · exact ih none (i + 1) nofun msg j hmem hcall
    cases begun with
    | none => simpa only [findGroups] using hnext
    | some start =>
      have hlt := hbegun start rfl
      unfold findGroups
      split
      · next htool =>
          rw [zipIdx_cons] at hmem
          rcases mem_cons.mp hmem with heq | hmem
          · cases heq
            rw [isToolResultTurn_of_call hcall] at htool
            cases htool
          · exact ih (some start) (i + 1)
              (fun start' hstart => by cases hstart; omega) msg j hmem hcall
      · obtain ⟨g, hg, heq⟩ := hnext
        exact ⟨g, mem_cons_of_mem _ hg, heq⟩

theorem selectiveToolCall_eq (keep : Int) (h : List Message) :
    selectiveToolCall keep h = select (fun i => !inGroups (oldGroups keep h) i) h := by
  unfold selectiveToolCall
  split
  · next hfew =>
      have hnone : oldGroups keep h = [] := by
        unfold oldGroups
        dsimp only
        rw [Int.toNat_of_nonpos (by omega), take_zero]
      have hall : (h.zipIdx.filter fun entry : Message × Nat => !inGroups [] entry.2) = h.zipIdx :=
        filter_eq_self.mpr fun _ _ => rfl
      rw [hnone, select, hall, zipIdx_map_fst]
  · rfl

theorem isToolCallTurn_of_calls (h : callsOf msg ≠ []) : isToolCallTurn msg = true := by
  unfold callsOf at h
  split at h
  · next hrole =>
      obtain ⟨c, hc⟩ := exists_mem_of_ne_nil _ h
      obtain ⟨block, hblock, hcall⟩ := mem_filterMap.mp hc
      have hany : (msg.chat.content.any fun block => block.call?.isSome) = true :=
        any_eq_true.mpr ⟨block, hblock, by rw [hcall]; rfl⟩
      simp [isToolCallTurn, hrole, hany]
  · exact absurd rfl h

theorem kept_later {front back : List (Message × Nat)} {j : Nat}
    (hsplit : h.zipIdx = front ++ (msg, i) :: back)
    (hkept : inGroups (oldGroups keep h) i = false) (hcalls : callsOf msg ≠ [])
    (hlater : (msg', j) ∈ back) : inGroups (oldGroups keep h) j = false := by
  have hij : i < j := by
    have hsorted : (h.zipIdx.map Prod.snd).Pairwise (· < ·) := by
      rw [zipIdx_map_snd]
      exact pairwise_lt_range'
    rw [hsplit, map_append, map_cons] at hsorted
    have htail := (pairwise_append.mp hsorted).2.1
    exact (pairwise_cons.mp htail).1 j (mem_map.mpr ⟨_, hlater, rfl⟩)
  have hmem : (msg, i) ∈ h.zipIdx := by
    rw [hsplit]
    exact mem_append_right _ mem_cons_self
  obtain ⟨hsorted, hbounds⟩ := (findGroups_spec h 0).1
  obtain ⟨g, hg, rfl⟩ := findGroups_calls h none 0 nofun msg i hmem (isToolCallTurn_of_calls hcalls)
  have hwhole := take_append_drop
    (((findGroups none 0 h).length : Int) - keep).toNat (findGroups none 0 h)
  change oldGroups keep h ++ _ = _ at hwhole
  have hnew : g ∈ (findGroups none 0 h).drop
      (((findGroups none 0 h).length : Int) - keep).toNat := by
    have hg' := hg
    rw [← hwhole] at hg'
    rcases mem_append.mp hg' with hold | hnew
    · have hin : inGroups (oldGroups keep h) g.1 = true := by
        apply any_eq_true.mpr
        refine ⟨g, hold, ?_⟩
        have hle := (hbounds g hg).2
        simp [hle]
      rw [hin] at hkept
      cases hkept
    · exact hnew
  rw [← hwhole] at hsorted
  have hapart := (pairwise_append.mp hsorted).2.2
  by_contra hin
  rw [not_eq_false] at hin
  obtain ⟨g', hold, hrange⟩ := any_eq_true.mp hin
  have hbefore := hapart g' hold g hnew
  simp only [and_eq_true, decide_eq_true_eq] at hrange
  omega

theorem select_getLast? {p : Nat → Bool} (hp : p (h.length - 1) = true) :
    (select p h).getLast? = h.getLast? := by
  rcases eq_nil_or_concat h with rfl | ⟨front, last, rfl⟩
  · rfl
  · rw [concat_eq_append] at hp ⊢
    rw [length_append, length_singleton, Nat.add_sub_cancel] at hp
    have hlast : (([last].zipIdx front.length).filter fun entry => p entry.2) =
        [(last, front.length)] := by
      simp [hp]
    rw [select, zipIdx_append, filter_append, Nat.zero_add, hlast, map_append,
      map_singleton, List.getLast?_concat, List.getLast?_concat]

theorem selectiveToolCall_fine (hwf : WellFormed h) (hne : h ≠ [])
    (hlast : inGroups (oldGroups keep h) (h.length - 1) = false)
    (hpairs : ∀ front msg i back, h.zipIdx = front ++ (msg, i) :: back →
      inGroups (oldGroups keep h) i = false → ∀ r ∈ resultsOf msg, ∃ msg' j,
        (msg', j) ∈ front ∧ inGroups (oldGroups keep h) j = false ∧ r ∈ callsOf msg') :
    Fine h (selectiveToolCall keep h) := by
  rw [selectiveToolCall_eq]
  refine ⟨⟨grounded_select.mpr ?_, hwf.answered.select ?_⟩, ?_, ?_⟩
  · intro front msg i back hsplit hkept r hr
    rw [not_eq_true'] at hkept
    obtain ⟨msg', j, hmem, hj, hcall⟩ := hpairs front msg i back hsplit hkept r hr
    exact ⟨msg', j, hmem, by rw [hj]; rfl, hcall⟩
  · intro front msg i back hsplit hkept hcalls msg' j hmem _
    rw [not_eq_true'] at hkept ⊢
    exact kept_later hsplit hkept hcalls hmem
  · exact (select_sublist _ h).filter _
  · have hend := List.getLast?_eq_some_getLast hne
    refine ⟨_, _, hend, ?_, .inl rfl⟩
    rw [select_getLast? (by rw [hlast]; rfl), hend]

theorem Fine.selectiveToolCall_safe (hplace : ∀ msg j, (msg, j) ∈ h.zipIdx → msg.origin = some j)
    (hfine : Fine h (selectiveToolCall keep h)) :
    inGroups (oldGroups keep h) (h.length - 1) = false ∧
      ∀ front msg i back, h.zipIdx = front ++ (msg, i) :: back →
        inGroups (oldGroups keep h) i = false → ∀ r ∈ resultsOf msg, ∃ msg' j,
          (msg', j) ∈ front ∧ inGroups (oldGroups keep h) j = false ∧ r ∈ callsOf msg' := by
  rw [selectiveToolCall_eq] at hfine
  constructor
  · obtain ⟨msg, msg', hlast, hlast', hsame⟩ := hfine.last
    have hmem := mem_of_getLast? hlast'
    obtain ⟨⟨n, j⟩, hentry, rfl⟩ := mem_map.mp hmem
    obtain ⟨hwhole, hkept⟩ := mem_filter.mp hentry
    have horigin := hplace n j hwhole
    have heq : n = msg := by
      rcases hsame with heq | ⟨hnone, _⟩
      · exact heq
      · rw [horigin] at hnone
        cases hnone
    have hend : (msg, h.length - 1) ∈ h.zipIdx := by
      rw [List.getLast?_eq_getElem?] at hlast
      exact mk_mem_zipIdx_iff_getElem?.mpr hlast
    have hplace' := hplace msg _ hend
    rw [← heq, horigin] at hplace'
    cases hplace'
    simpa using hkept
  · intro front msg i back hsplit hkept r hr
    obtain ⟨msg', j, hmem, hj, hcall⟩ :=
      grounded_select.mp hfine.grounded front msg i back hsplit (by rw [hkept]; rfl) r hr
    exact ⟨msg', j, hmem, by simpa using hj, hcall⟩

section

variable (jsonChars : Json → Nat)

mutual

theorem compact_fine : ∀ (strategy : Strategy) {h : List Message}, WellFormed h → h ≠ [] →
    Safe jsonChars strategy h → Fine h (compact jsonChars strategy h)
  | .slidingWindow maxMessages, h, hwf, hne, hsafe => by
      unfold Safe at hsafe
      unfold compact
      exact (slidingWindow_fine_iff hwf hne maxMessages).mpr hsafe
  | .truncation limits, h, hwf, hne, hsafe => by
      unfold Safe at hsafe
      unfold compact
      exact (truncation_fine_iff jsonChars hwf hne limits).mpr hsafe
  | .selectiveToolCall keepRecentGroups, h, hwf, hne, hsafe => by
      unfold Safe at hsafe
      unfold compact
      exact selectiveToolCall_fine hwf hne hsafe.1 hsafe.2
  | .toolResult maxChars, h, hwf, hne, _ => by
      unfold compact
      exact toolResult_fine hwf hne maxChars
  | .summarization generate limits, h, hwf, hne, hsafe => by
      unfold Safe at hsafe
      unfold compact
      rcases summarization_cases jsonChars generate limits h with
        ⟨_, hsame⟩ | ⟨hlarge, summary, hout⟩
      · rw [hsame]
        exact fine_refl hwf hne
      · rw [hout]
        have hcut := cutAfter_iff.mp (hsafe.resolve_left hlarge)
        exact summary_fine hwf (drop_suffix _ h) hcut summary
  | .tokenBudgetComposed first rest tokenBudget tokensOf, h, hwf, hne, hsafe => by
      unfold Safe at hsafe
      unfold compact
      split
      · exact fine_refl hwf hne
      · next hlarge =>
          obtain ⟨hfirst, hrest⟩ := hsafe.resolve_left hlarge
          have hfine := compact_fine first hwf hne hfirst
          dsimp only
          split
          · exact hfine
          · next hstill =>
              exact hfine.trans (compactUntil_fine tokenBudget tokensOf rest hfine.toWellFormed
                hfine.ne_nil (hrest.resolve_left hstill))
  | .pipeline strategies, h, hwf, hne, hsafe => by
      unfold Safe at hsafe
      unfold compact
      exact compactAll_fine strategies hwf hne hsafe

theorem compactUntil_fine (tokenBudget : Int) (tokensOf : Nat → Int) :
    ∀ (strategies : List Strategy) {h : List Message}, WellFormed h → h ≠ [] →
      SafeUntil jsonChars tokenBudget tokensOf strategies h →
        Fine h (compactUntil jsonChars tokenBudget tokensOf strategies h)
  | [], h, hwf, hne, _ => by
      unfold compactUntil
      exact fine_refl hwf hne
  | strategy :: rest, h, hwf, hne, hsafe => by
      unfold SafeUntil at hsafe
      unfold compactUntil
      have hfine := compact_fine strategy hwf hne hsafe.1
      dsimp only
      split
      · exact hfine
      · next hstill =>
          exact hfine.trans (compactUntil_fine tokenBudget tokensOf rest hfine.toWellFormed
            hfine.ne_nil (hsafe.2.resolve_left hstill))

theorem compactAll_fine : ∀ (strategies : List Strategy) {h : List Message}, WellFormed h →
    h ≠ [] → SafeAll jsonChars strategies h → Fine h (compactAll jsonChars strategies h)
  | [], h, hwf, hne, _ => by
      unfold compactAll
      exact fine_refl hwf hne
  | strategy :: rest, h, hwf, hne, hsafe => by
      unfold SafeAll at hsafe
      unfold compactAll
      have hfine := compact_fine strategy hwf hne hsafe.1
      exact hfine.trans (compactAll_fine rest hfine.toWellFormed hfine.ne_nil hsafe.2)

end

variable {history : List ChatMessage}

theorem numbered_place {msg : Message} {j : Nat} (h : (msg, j) ∈ (numbered history).zipIdx) :
    msg.origin = some j := by
  have hget := mk_mem_zipIdx_iff_getElem?.mp h
  unfold numbered at hget
  rw [List.getElem?_map, List.getElem?_zipIdx] at hget
  obtain ⟨entry, hentry, rfl⟩ := map_eq_some_iff.mp hget
  obtain ⟨chat, _, rfl⟩ := map_eq_some_iff.mp hentry
  simp

theorem numbered_origin : ∀ msg ∈ numbered history, msg.origin ≠ none := by
  intro msg hmem
  obtain ⟨entry, _, rfl⟩ := mem_map.mp hmem
  exact some_ne_none _

theorem safe_of_fine {strategy : Strategy} (hsingle : strategy.Single)
    (hne : numbered history ≠ []) (hwf : WellFormed (numbered history))
    (hfine : Fine (numbered history) (compact jsonChars strategy (numbered history))) :
    Safe jsonChars strategy (numbered history) := by
  cases strategy with
  | slidingWindow maxMessages =>
    unfold compact at hfine
    unfold Safe
    exact (slidingWindow_fine_iff hwf hne maxMessages).mp hfine
  | truncation limits =>
    unfold compact at hfine
    unfold Safe
    exact (truncation_fine_iff jsonChars hwf hne limits).mp hfine
  | selectiveToolCall keepRecentGroups =>
    unfold compact at hfine
    unfold Safe
    exact hfine.selectiveToolCall_safe fun _ _ => numbered_place
  | toolResult maxChars =>
    unfold Safe
    trivial
  | summarization generate limits =>
    unfold compact at hfine
    unfold Safe
    rcases summarization_cases jsonChars generate limits (numbered history) with
      ⟨hsmall, _⟩ | ⟨_, summary, hout⟩
    · exact .inl hsmall
    · rw [hout] at hfine
      exact .inr (cutAfter_iff.mpr (hfine.of_summary numbered_origin))
  | tokenBudgetComposed first rest tokenBudget tokensOf | pipeline strategies => exact hsingle.elim

/-- A strategy may be trusted with a history wherever each strategy that it is made of
cuts where it may; a strategy that is not made of others, only there. -/
theorem compaction_sound (strategy : Strategy) (history : List ChatMessage) (hne : history ≠ [])
    (hwf : WellFormed (numbered history)) :
    (Safe jsonChars strategy (numbered history) →
        Fine (numbered history) (compact jsonChars strategy (numbered history))) ∧
      (strategy.Single → (Fine (numbered history) (compact jsonChars strategy (numbered history)) ↔
          Safe jsonChars strategy (numbered history))) := by
  have hsome : numbered history ≠ [] := by
    intro hnil
    apply hne
    have hlength := congrArg List.length hnil
    simpa [numbered] using hlength
  have hfine := compact_fine jsonChars strategy hwf hsome
  exact ⟨hfine, fun hsingle => ⟨safe_of_fine jsonChars hsingle hsome hwf, hfine⟩⟩

end

def question : ChatMessage := { role := .user, content := [.text "draw it"] }

def chartCall : ChatMessage :=
  { role := .assistant, content := [.toolUse "c" "chart" [] none []] }

def chartResult : ChatMessage :=
  { role := .tool, content := [.toolResult "c" "chart" [.text "done"] false] }

theorem chart_wellFormed : WellFormed (numbered [question, chartCall, chartResult]) := by
  constructor
  · intro front msg back heq r hr
    rcases front with _ | ⟨a, _ | ⟨b, _ | ⟨c, more⟩⟩⟩
    · cases heq
      cases hr
    · cases heq
      cases hr
    · cases heq
      refine ⟨⟨some 1, chartCall⟩, by simp, ?_⟩
      exact hr
    · simp [numbered] at heq
  · intro front msg back heq hlater c hc
    rcases front with _ | ⟨a, _ | ⟨b, _ | ⟨d, more⟩⟩⟩
    · cases heq
      cases hc
    · cases heq
      exact ⟨⟨some 2, chartResult⟩, mem_singleton_self _, hc⟩
    · cases heq
      cases hc
    · simp [numbered] at heq

/-- A window that begins with the call. -/
theorem compaction_sound_window : Fine (numbered [question, chartCall, chartResult])
      (compact (fun _ => 0) (.slidingWindow 2) (numbered [question, chartCall, chartResult])) := by
  apply (compaction_sound (fun _ => 0) (.slidingWindow 2) [question, chartCall, chartResult]
    (cons_ne_nil _ _) chart_wellFormed).1
  unfold Safe
  refine .inr ⟨[⟨some 0, question⟩], [], [⟨some 1, chartCall⟩, ⟨some 2, chartResult⟩], rfl, rfl,
    nofun, ⟨_, _, rfl, by decide⟩, ?_⟩
  intro front msg back heq r hr
  rcases front with _ | ⟨a, _ | ⟨b, more⟩⟩
  · cases heq
    cases hr
  · cases heq
    exact ⟨⟨some 1, chartCall⟩, mem_singleton_self _, hr⟩
  · simp at heq

/-- A summary takes the place of the call, and its result is kept. -/
theorem summary_orphans : ¬ ∀ (strategy : Strategy) (history : List ChatMessage), history ≠ [] →
      WellFormed (numbered history) →
        Fine (numbered history) (compact (fun _ => 0) strategy (numbered history)) := by
  intro h
  have hfine := h (.summarization (fun _ _ => none) ⟨6, 1, fun chars => chars / 4⟩)
    [question, chartCall, chartResult] (cons_ne_nil _ _) chart_wellFormed
  have hsingle : (Strategy.summarization (fun _ _ => none) ⟨6, 1, fun chars => chars / 4⟩).Single :=
    trivial
  have hne : numbered [question, chartCall, chartResult] ≠ [] := cons_ne_nil _ _
  have hcut := safe_of_fine (fun _ => 0) hsingle hne chart_wellFormed hfine
  unfold Safe at hcut
  rcases hcut with hsmall | hcut
  · exact absurd hsmall (by decide)
  · obtain ⟨_, hgrounded⟩ := cutAfter_iff.mp hcut
    have hresult : "c" ∈ resultsOf ⟨some 2, chartResult⟩ := mem_singleton_self _
    obtain ⟨msg, hmem, _⟩ := hgrounded [] _ [] rfl "c" hresult
    cases hmem

end Substrate.Compaction
