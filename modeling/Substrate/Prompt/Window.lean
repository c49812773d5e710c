import Mathlib.Data.List.Infix
import Substrate.Prompt.Builder

/-!
What a prompt window keeps, and exactly when it does: the fixed messages in front, a
contiguous end of the history behind them, no tool result without its call at the cut,
and the budget.
-/

namespace Substrate.Prompt

open Content List Option

variable {m : Measure} {r : Request}

namespace Request

def fixed (m : Measure) (r : Request) : List ChatMessage :=
  (r.systemMessage m).toList ++ r.memoryMessage.toList ++ r.summaryMessage.toList

def lastTurn (messages : List ChatMessage) : List ChatMessage :=
  let after := messages.reverse.takeWhile fun msg => msg.role ≠ .user
  messages.drop (messages.length - after.length - 1)

end Request

def calls (msg : ChatMessage) : List String := msg.content.filterMap ContentBlock.call?

def results (msg : ChatMessage) : List String := msg.content.filterMap ContentBlock.result?

/-- The end of the history starts with a tool message for a call in what was cut away. -/
def CutAway (history ending : List ChatMessage) : Prop :=
  ∃ msg rest, ending = msg :: rest ∧ isTool msg = true ∧
    ∃ id ∈ results msg, ∃ before ∈ history.take (history.length - ending.length), id ∈ calls before

/-- The window keeps what it must and fits. -/
def Kept (m : Measure) (r : Request) : Prop :=
  ∃ ending, ending <:+ r.delta ∧ (build m r).messages = r.fixed m ++ ending ∧
    ¬ CutAway r.history ending ∧
    ∀ budget, r.tokenBudget = some budget →
      m.cost (r.fixed m) + m.cost (Request.lastTurn r.delta) ≤ budget →
        (build m r).estimatedTokens ≤ budget

namespace Request

/-- Too many tokens for the budget, so that something has to go. -/
def Over (m : Measure) (r : Request) : Prop :=
  ∃ budget, r.tokenBudget = some budget ∧ budget < m.cost (r.assembled m)

/-- The first messages of the history that truncation takes for fixed ones: a system
message where nothing else is in front, and messages with the builder's own marks. -/
def taken (m : Measure) (r : Request) : List ChatMessage :=
  let bare := r.memoryMessage = none ∧ r.summaryMessage = none
  let system := if bare ∧ r.systemMessage m = none then popIf isSystem r.delta else ([], r.delta)
  let summary := if bare then popIf isSummary system.2 else ([], system.2)
  let memory := if r.memoryMessage = none then popIf isMemory summary.2 else ([], summary.2)
  system.1 ++ summary.1 ++ memory.1

/-- There is a system prompt, and the history begins with a system message that is taken
for it. -/
def Displaced (m : Measure) (r : Request) : Prop :=
  r.systemMessage m ≠ none ∧ r.memoryMessage = none ∧ r.summaryMessage = none ∧
    r.delta.head?.any isSystem = true

end Request

structure Sound (m : Measure) (r : Request) : Prop where
  prompt : ¬ r.Displaced m
  summary : r.Over m → r.memoryMessage = none ∨ r.summaryMessage = none
  marks : r.Over m → r.taken m = [] ∨
    (r.taken m = r.delta ∧ ¬ CutAway r.history r.delta ∧ ∀ budget, r.tokenBudget = some budget →
      budget < m.cost (r.fixed m) + m.cost (Request.lastTurn r.delta))
  results : ¬ r.Over m → ¬ CutAway r.history r.delta

theorem cost_append (m : Measure) (a b : List ChatMessage) :
    m.cost (a ++ b) = m.cost a + m.cost b := by
  simp [Measure.cost, Compaction.estimateTokens]

theorem cost_nonneg (m : Measure) (messages : List ChatMessage) : 0 ≤ m.cost messages := by
  induction messages with
  | nil => simp [Measure.cost, Compaction.estimateTokens]
  | cons msg rest ih =>
    have hone : 0 ≤ m.cost [msg] := by
      simp only [Measure.cost, Compaction.estimateTokens, Compaction.estimateMessageTokens,
        map_cons, map_nil, sum_cons, sum_nil]
      omega
    have hsum := cost_append m [msg] rest
    simp only [cons_append, nil_append] at hsum
    omega

section

variable {cost : List ChatMessage → Int} {budget : Int} {kept : List ChatMessage}

theorem trim_suffix (messages : List ChatMessage) : trim cost budget kept messages <:+ messages := by
  fun_induction trim cost budget kept messages with
  | case1 => exact suffix_rfl
  | case2 msg rest hover ih =>
    exact (ih.trans (dropWhile_suffix _)).trans (suffix_cons msg rest)
  | case3 msg rest hfits => exact suffix_rfl

theorem trim_fits (messages : List ChatMessage) : trim cost budget kept messages = [] ∨
      cost (kept ++ trim cost budget kept messages) ≤ budget := by
  fun_induction trim cost budget kept messages with
  | case1 => exact .inl rfl
  | case2 msg rest hover ih => exact ih
  | case3 msg rest hfits =>
    right
    omega

variable {msg : ChatMessage} {rest : List ChatMessage}

theorem head_dropWhile {messages : List ChatMessage} (h : messages.dropWhile isTool = msg :: rest) :
    isTool msg = false := by
  have hhead := List.head?_dropWhile_not isTool messages
  rw [h] at hhead
  simpa using hhead

theorem trim_head (messages : List ChatMessage) (h : trim cost budget kept messages = msg :: rest)
    (hhead : messages.head?.any isTool = false) : isTool msg = false := by
  fun_induction trim cost budget kept messages with
  | case1 => cases h
  | case2 first others hover ih =>
    apply ih h
    cases hdrop : others.dropWhile isTool with
    | nil => rfl
    | cons next after => simpa using head_dropWhile hdrop
  | case3 first others hfits =>
    obtain ⟨rfl, _⟩ := List.cons.inj h
    simpa using hhead

theorem trim_over {first : ChatMessage} {others : List ChatMessage}
    (hover : budget < cost (kept ++ first :: others)) :
    trim cost budget kept (first :: others) <:+ others ∧
      ∀ msg rest, trim cost budget kept (first :: others) = msg :: rest → isTool msg = false := by
  rw [trim, if_pos hover]
  constructor
  · exact (trim_suffix _).trans (dropWhile_suffix _)
  · intro msg rest htrim
    apply trim_head _ htrim
    cases hdrop : others.dropWhile isTool with
    | nil => rfl
    | cons next after => simpa using head_dropWhile hdrop

end

variable {msg : ChatMessage} {p : ChatMessage → Bool} {rest : List ChatMessage} {budget : Int}

theorem isSystem_system (h : r.systemMessage m = some msg) : isSystem msg = true := by
  unfold Request.systemMessage at h
  obtain ⟨text, _, rfl⟩ := map_eq_some_iff.mp h
  rfl

theorem memory_marks (h : r.memoryMessage = some msg) :
    isSystem msg = false ∧ isSummary msg = false ∧ isMemory msg = true := by
  unfold Request.memoryMessage at h
  obtain ⟨injection, _, rfl⟩ := map_eq_some_iff.mp h
  exact ⟨rfl, rfl, rfl⟩

theorem summary_marks (h : r.summaryMessage = some msg) :
    isSystem msg = false ∧ isSummary msg = true := by
  unfold Request.summaryMessage at h
  obtain ⟨checkpoint, _, rfl⟩ := map_eq_some_iff.mp h
  exact ⟨rfl, rfl⟩

theorem popIf_pos (h : p msg = true) : popIf p (msg :: rest) = ([msg], rest) := by
  simp [popIf, h]

theorem popIf_neg (h : p msg = false) : popIf p (msg :: rest) = ([], msg :: rest) := by
  simp [popIf, h]

theorem popIf_append (p : ChatMessage → Bool) (messages : List ChatMessage) :
    (popIf p messages).1 ++ (popIf p messages).2 = messages := by
  cases messages with
  | nil => rfl
  | cons msg rest =>
    cases hp : p msg with
    | true => rw [popIf_pos hp]; rfl
    | false => rw [popIf_neg hp]; rfl

theorem assembled_eq (h : ¬ r.Displaced m) : r.assembled m = r.fixed m ++ r.delta := by
  unfold Request.assembled Request.fixed
  cases hmemory : r.memoryMessage with
  | some memory => simp [(memory_marks hmemory).1]
  | none =>
    cases hsummary : r.summaryMessage with
    | some summary => simp [(summary_marks hsummary).1]
    | none =>
      cases hsystem : r.systemMessage m with
      | none =>
        simp only [toList_none, nil_append]
        exact ite_self _
      | some system =>
        have hhead : r.delta.head?.any isSystem = false := by
          by_contra htrue
          exact h ⟨by simp [hsystem], hmemory, hsummary, by simpa using htrue⟩
        simp [hhead]

theorem splitKept_eq (h : ¬ r.Displaced m)
    (hone : r.memoryMessage = none ∨ r.summaryMessage = none) :
    ∃ rest, r.delta = r.taken m ++ rest ∧
      splitKept (r.assembled m) = (r.fixed m ++ r.taken m, rest) := by
  have hdisplaced := h
  rw [assembled_eq h]
  unfold Request.fixed Request.taken splitKept
  cases hmemory : r.memoryMessage with
  | some memory =>
    obtain ⟨hsys, hsum, hmem⟩ := memory_marks hmemory
    have hsummary : r.summaryMessage = none := by
      rcases hone with hnone | hnone
      · rw [hmemory] at hnone
        cases hnone
      · exact hnone
    refine ⟨r.delta, by simp, ?_⟩
    cases hsystem : r.systemMessage m with
    | none => simp [hsummary, popIf_neg hsys, popIf_neg hsum, popIf_pos hmem]
    | some system =>
      simp [hsummary, popIf_pos (isSystem_system hsystem), popIf_neg hsum, popIf_pos hmem]
  | none =>
    cases hsummary : r.summaryMessage with
    | some summary =>
      obtain ⟨hsys, hsum⟩ := summary_marks hsummary
      refine ⟨(popIf isMemory r.delta).2, by simp [popIf_append], ?_⟩
      cases hsystem : r.systemMessage m with
      | none => simp [popIf_neg hsys, popIf_pos hsum]
      | some system => simp [popIf_pos (isSystem_system hsystem), popIf_pos hsum]
    | none =>
      cases hsystem : r.systemMessage m with
      | none =>
        refine ⟨(popIf isMemory (popIf isSummary (popIf isSystem r.delta).2).2).2, ?_, ?_⟩
        · simp [popIf_append]
        · simp
      | some system =>
        refine ⟨(popIf isMemory (popIf isSummary r.delta).2).2, ?_, ?_⟩
        · simp [popIf_append]
        · simp [popIf_pos (isSystem_system hsystem)]

theorem build_of_not_over (h : ¬ r.Over m) : (build m r).messages = r.assembled m := by
  unfold build
  cases hbudget : r.tokenBudget with
  | none => rfl
  | some budget =>
    have hfits : m.cost (r.assembled m) ≤ budget := by
      by_contra hcost
      exact h ⟨budget, hbudget, by omega⟩
    simp [hfits]

theorem build_of_over (hbudget : r.tokenBudget = some budget)
    (hover : budget < m.cost (r.assembled m)) :
    (build m r).messages = (splitKept (r.assembled m)).1 ++
      trim m.cost budget (splitKept (r.assembled m)).1 (splitKept (r.assembled m)).2 := by
  unfold build
  rw [hbudget]
  cases hmessages : r.assembled m with
  | nil => simp [splitKept, popIf, trim]
  | cons msg rest =>
    have hcost : ¬ m.cost (msg :: rest) ≤ budget := by
      rw [← hmessages]
      omega
    simp [hcost]

theorem estimated_eq (m : Measure) (r : Request) :
    (build m r).estimatedTokens = m.cost (build m r).messages := by
  unfold build
  cases r.tokenBudget with
  | none => rfl
  | some budget =>
    dsimp only
    split <;> rfl

theorem trimmed_fits {kept messages turn : List ChatMessage}
    (hroom : m.cost kept + m.cost turn ≤ budget) :
    m.cost (kept ++ trim m.cost budget kept messages) ≤ budget := by
  rcases @trim_fits m.cost budget kept messages with hnil | hfits
  · rw [hnil, append_nil]
    have hturn := cost_nonneg m turn
    omega
  · exact hfits

theorem not_cutAway_of_head {history ending : List ChatMessage}
    (h : ∀ msg rest, ending = msg :: rest → isTool msg = false) : ¬ CutAway history ending := by
  rintro ⟨msg, rest, hending, htool, _⟩
  rw [h msg rest hending] at htool
  cases htool

theorem Sound.kept (h : Sound m r) : Kept m r := by
  by_cases hover : r.Over m
  · obtain ⟨budget, hbudget, hcost⟩ := hover
    obtain ⟨rest, hdelta, hsplit⟩ := splitKept_eq h.prompt (h.summary ⟨budget, hbudget, hcost⟩)
    have hmessages := build_of_over hbudget hcost
    rw [hsplit] at hmessages
    have hestimate := estimated_eq m r
    rw [hmessages] at hestimate
    rcases h.marks ⟨budget, hbudget, hcost⟩ with hnone | ⟨hall, hcut, hturn⟩
    · rw [hnone, append_nil] at hmessages hestimate
      rw [hnone, nil_append] at hdelta
      subst hdelta
      refine ⟨_, trim_suffix _, hmessages, ?_, ?_⟩
      · apply not_cutAway_of_head
        cases hd : r.delta with
        | nil =>
          intro msg rest htrim
          rw [trim] at htrim
          cases htrim
        | cons first others =>
          apply (trim_over _).2
          rw [← hd, ← assembled_eq h.prompt]
          exact hcost
      · intro budget' hbudget' hroom
        rw [hbudget] at hbudget'
        cases hbudget'
        rw [hestimate]
        exact trimmed_fits hroom
    · have hnil : rest = [] := by
        have hlength := congrArg List.length hdelta
        rw [length_append, hall] at hlength
        exact length_eq_zero_iff.mp (by omega)
      subst hnil
      rw [trim, append_nil, hall] at hmessages
      refine ⟨r.delta, suffix_rfl, hmessages, hcut, ?_⟩
      intro budget' hbudget' hroom
      have hless := hturn budget' hbudget'
      omega
  · have hmessages := build_of_not_over hover
    have hestimate := estimated_eq m r
    rw [hmessages] at hestimate
    rw [assembled_eq h.prompt] at hmessages
    refine ⟨r.delta, suffix_rfl, hmessages, h.results hover, ?_⟩
    intro budget hbudget _
    rw [hestimate]
    by_contra hcost
    exact hover ⟨budget, hbudget, by omega⟩

theorem displaced_head (h : r.Displaced m) :
    ∃ first others rest, r.delta = first :: others ∧ (build m r).messages = first :: rest := by
  obtain ⟨_, hmemory, hsummary, hhead⟩ := h
  cases hdelta : r.delta with
  | nil => simp [hdelta] at hhead
  | cons first others =>
    have hsystem : isSystem first = true := by simpa [hdelta] using hhead
    have hassembled : r.assembled m = first :: others := by
      simp [Request.assembled, hmemory, hsummary, hdelta, hsystem]
    by_cases hover : r.Over m
    · obtain ⟨budget, hbudget, hcost⟩ := hover
      rw [build_of_over hbudget hcost, hassembled]
      simp only [splitKept, popIf_pos hsystem, cons_append, nil_append]
      exact ⟨_, _, _, rfl, rfl⟩
    · rw [build_of_not_over hover, hassembled]
      exact ⟨_, _, _, rfl, rfl⟩

variable (hnodup : (r.fixed m ++ r.delta).Nodup)

include hnodup

theorem not_displaced (hkept : Kept m r) : ¬ r.Displaced m := by
  intro hdisplaced
  obtain ⟨first, others, rest, hdelta, hmessages⟩ := displaced_head hdisplaced
  obtain ⟨hsystem, hmemory, hsummary, _⟩ := hdisplaced
  obtain ⟨ending, _, hkeep, _⟩ := hkept
  obtain ⟨system, hsome⟩ := ne_none_iff_exists'.mp hsystem
  have hfixed : r.fixed m = [system] := by simp [Request.fixed, hsome, hmemory, hsummary]
  rw [hmessages, hfixed] at hkeep
  obtain ⟨rfl, _⟩ := List.cons.inj hkeep
  rw [hfixed, hdelta] at hnodup
  simp at hnodup

theorem one_in_front (hkept : Kept m r) (hover : r.Over m) :
    r.memoryMessage = none ∨ r.summaryMessage = none := by
  have hdisplaced := not_displaced hnodup hkept
  by_contra hboth
  rw [not_or] at hboth
  obtain ⟨memory, hmemory⟩ := ne_none_iff_exists'.mp hboth.1
  obtain ⟨summary, hsummary⟩ := ne_none_iff_exists'.mp hboth.2
  obtain ⟨hsys, hsum, hmem⟩ := memory_marks hmemory
  obtain ⟨budget, hbudget, hcost⟩ := hover
  obtain ⟨ending, _, hkeep, _⟩ := hkept
  have hsplit : splitKept (r.assembled m) =
      ((r.systemMessage m).toList ++ [memory], summary :: r.delta) := by
    rw [assembled_eq hdisplaced]
    unfold Request.fixed splitKept
    cases hsystem : r.systemMessage m with
    | none => simp [hmemory, hsummary, popIf_neg hsys, popIf_neg hsum, popIf_pos hmem]
    | some system =>
      simp [hmemory, hsummary, popIf_pos (isSystem_system hsystem), popIf_neg hsum, popIf_pos hmem]
  have hassembled : (r.systemMessage m).toList ++ [memory] ++ summary :: r.delta =
      r.assembled m := by
    rw [assembled_eq hdisplaced]
    simp [Request.fixed, hmemory, hsummary]
  rw [build_of_over hbudget hcost, hsplit] at hkeep
  rw [← hassembled] at hcost
  have hleft := (trim_over hcost).1
  simp only [Request.fixed, hmemory, hsummary, toList_some, append_assoc] at hkeep
  have hending := append_cancel_left (append_cancel_left hkeep)
  rw [hending] at hleft
  have hmem : summary ∈ r.delta := hleft.subset (by simp)
  have hfront : summary ∈ r.fixed m := by simp [Request.fixed, hsummary]
  exact disjoint_of_nodup_append hnodup hfront hmem

theorem marks_of_kept (hkept : Kept m r) (hover : r.Over m) : r.taken m = [] ∨
      (r.taken m = r.delta ∧ ¬ CutAway r.history r.delta ∧ ∀ budget, r.tokenBudget = some budget →
          budget < m.cost (r.fixed m) + m.cost (Request.lastTurn r.delta)) := by
  have hdisplaced := not_displaced hnodup hkept
  obtain ⟨rest, hdelta, hsplit⟩ := splitKept_eq hdisplaced (one_in_front hnodup hkept hover)
  obtain ⟨budget, hbudget, hcost⟩ := hover
  obtain ⟨ending, hsuffix, hkeep, hcut, hroom⟩ := hkept
  have hestimate := estimated_eq m r
  have hmessages := build_of_over hbudget hcost
  rw [hsplit] at hmessages
  cases htaken : r.taken m with
  | nil => exact .inl rfl
  | cons first others =>
    right
    rw [htaken] at hdelta hmessages
    rw [hmessages, append_assoc] at hkeep
    have hending := append_cancel_left hkeep
    cases rest with
    | nil =>
      rw [append_nil] at hdelta
      rw [trim, append_nil] at hending
      rw [← hending, ← hdelta] at hcut
      refine ⟨hdelta.symm, hcut, ?_⟩
      intro budget' hbudget'
      by_contra hturn
      have hfits := hroom budget' hbudget' (by omega)
      rw [hbudget] at hbudget'
      cases hbudget'
      rw [hestimate, hmessages, trim, append_nil, ← hdelta, ← assembled_eq hdisplaced] at hfits
      dsimp only at hfits
      omega
    | cons next after =>
      exfalso
      have hover : budget < m.cost ((r.fixed m ++ first :: others) ++ next :: after) := by
        rw [append_assoc, ← hdelta, ← assembled_eq hdisplaced]
        exact hcost
      have hless := (trim_over hover).1.length_le
      have hlength := congrArg List.length hending
      simp only [cons_append, length_cons, length_append] at hlength
      rw [hdelta] at hsuffix
      have htail : ending <:+ others ++ next :: after := by
        rcases suffix_cons_iff.mp hsuffix with heq | htail
        · have hsame := congrArg List.length heq
          change ending.length = (first :: (others ++ next :: after)).length at hsame
          simp only [length_cons, length_append] at hsame
          omega
        · exact htail
      have hmem : first ∈ others ++ next :: after := by
        apply htail.subset
        rw [← hending]
        exact mem_cons_self
      have hdistinct := (nodup_append.mp hnodup).2.1
      rw [hdelta] at hdistinct
      exact (nodup_cons.mp hdistinct).1 hmem

theorem results_of_kept (hkept : Kept m r) (hover : ¬ r.Over m) : ¬ CutAway r.history r.delta := by
  have hdisplaced := not_displaced hnodup hkept
  obtain ⟨ending, _, hkeep, hcut, _⟩ := hkept
  rw [build_of_not_over hover, assembled_eq hdisplaced] at hkeep
  rw [append_cancel_left hkeep]
  exact hcut

omit hnodup

/-- A window keeps what it must and fits whenever the request is sound; and if no two of
the fixed messages and those of the history are the same, then only where it is. -/
theorem window_kept (m : Measure) (r : Request) :
    (Sound m r → Kept m r) ∧ ((r.fixed m ++ r.delta).Nodup → Kept m r → Sound m r) := by
  constructor
  · exact Sound.kept
  · intro hnodup hkept
    exact ⟨not_displaced hnodup hkept, one_in_front hnodup hkept, marks_of_kept hnodup hkept,
      results_of_kept hnodup hkept⟩

def byFour : Measure := ⟨fun _ => 2, fun chars => chars / 4, fun _ => ""⟩

def said (id body : String) : MessageNode where
  id := id
  parentId := none
  sessionId := "s"
  runId := "r"
  payload := { role := .user, content := [.text body] }
  workspaceSnapshotId := none
  createdAt := "t"

def noted : Threads.HistoryCheckpoint := ⟨"c", "s", "n", "before", [], none, "t"⟩

def remembered : ContextMemoryInjection := ⟨[], [.text "fact"]⟩

def summarised : Request :=
  ⟨[said "n" "one", said "o" "two", said "p" "three"], some noted, some 16, none, none⟩

theorem window_kept_summarised : Kept byFour summarised := by
  apply (window_kept byFour summarised).1
  have htaken : summarised.taken byFour = [] := rfl
  constructor
  · intro hdisplaced
    exact hdisplaced.1 rfl
  · intro _
    exact .inl rfl
  · intro _
    exact .inl htaken
  · rintro _ ⟨msg, rest, hdelta, htool, _⟩
    obtain ⟨rfl, _⟩ := List.cons.inj (hdelta : [_, _] = msg :: rest)
    cases htool

/-- With remembered blocks in front of it, the summary is the first to go. -/
theorem summary_lost : ¬ Kept byFour { summarised with memoryInjection := some remembered } := by
  intro hkept
  have hdistinct : (({ summarised with memoryInjection := some remembered }.fixed byFour ++
      summarised.delta).map fun msg => msg.content.filterMap ContentBlock.text?).Nodup := by
    decide
  have hfront := one_in_front (List.Nodup.of_map _ hdistinct) hkept ⟨16, rfl, by decide⟩
  rcases hfront with hmemory | hsummary
  · cases hmemory
  · cases hsummary

end Substrate.Prompt
