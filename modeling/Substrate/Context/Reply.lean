import Mathlib.Algebra.GroupWithZero.Nat
import Mathlib.Data.List.Range
import Substrate.Context.Ask
import Substrate.Store.Reports

/-!
Answering a message. `reply` is a bare signal to the asker's run: it is not a step of the
journal, so every attempt of the answering run that gets as far as the call sends the
signal again.
-/

namespace Substrate.Context

open Lib Store List

/-- A `reply` in the code of a run: the message it answers, and the answer. -/
structure ReplyCall where
  msg : Message
  result : JsonObject

namespace ReplyCall

def asker? (call : ReplyCall) : Option RunId := call.msg.replyTo.filter (· ≠ "")

def name (call : ReplyCall) : String := replySignal call.msg.correlationId

def reply (call : ReplyCall) (s : Store) : Store :=
  match call.asker? with
  | none => s
  | some asker => (s.signal asker call.name call.result).1

def answers (call : ReplyCall) (asker : RunId) (name : String) : Bool :=
  call.asker? = some asker && call.name = name

end ReplyCall

/-- An attempt made a `reply` of the code: how many signals that added to the
buffer, and whether there was an asker that had not ended. -/
structure Visit where
  attempt : Nat
  site : Nat
  added : Nat
  listening : Bool

/-- The store with everything consumed, how many replies each attempt of the run
has made, and the replies made, in their order. -/
structure Replying where
  line : Listening := {}
  progress : List Nat := []
  visits : List Visit := []

/-- A call of the store by anybody, a new attempt of the run, or the next reply
of one of its attempts. -/
inductive ReplyStep where
  | call (call : Call)
  | again
  | reply (attempt : Nat)

def ReplyCall.listening (call : ReplyCall) (s : Store) : Bool :=
  call.asker?.any fun asker => !(s.runs.get? asker).any (·.status.isTerminal)

namespace Replying

def store (w : Replying) : Store := w.line.store

/-- An attempt makes a reply of the code. -/
def visit (w : Replying) (attempt site : Nat) (call : ReplyCall) : Replying where
  line := { w.line with store := call.reply w.store }
  progress := w.progress.set attempt (site + 1)
  visits := w.visits ++
    [{ attempt, site
       added := (call.reply w.store).signals.length - w.store.signals.length
       listening := call.listening w.store }]

/-- One step, for a run whose code makes these replies. -/
def step (code : List ReplyCall) : ReplyStep → Replying → Replying
  | .call call, w => { w with line := listen call w.line }
  | .again, w => { w with progress := w.progress ++ [0] }
  | .reply attempt, w =>
    match w.progress[attempt]? with
    | none => w
    | some site =>
      match code[site]? with
      | none => w
      | some call => w.visit attempt site call

abbrev Runs (code : List ReplyCall) : Replying → Replying → Prop :=
  Steps (step code) fun _ _ => True

def Unforged (asker : RunId) (name : String) (_ : Replying) : ReplyStep → Prop
  | .call call => call.op.deletes = false ∧ ∀ payload, ¬ call.op.Sends asker name payload
  | .again | .reply _ => True

def onAccount (w : Replying) (site : Nat) : Nat :=
  ((w.visits.filter (·.site = site)).map (·.added)).sum

def heardFrom (w : Replying) (site : Nat) : List Nat :=
  (w.visits.filter fun visit => visit.site = site && visit.listening).map (·.attempt)

def results (code : List ReplyCall) (asker : RunId) (name : String) (w : Replying) :
    List JsonObject :=
  w.visits.filterMap fun visit => code[visit.site]?.bind fun call =>
    if call.answers asker name then some call.result else none

/-- No two attempts made the calls that answer this run under this name. -/
def NotRepeated (code : List ReplyCall) (asker : RunId) (name : String) (w : Replying) :
    Prop :=
  ∀ site call, code[site]? = some call → call.answers asker name = true →
    ∀ one ∈ w.visits, ∀ other ∈ w.visits, one.site = site → other.site = site →
      one.attempt = other.attempt

/-- Every attempt has made the replies of the code from the first one on, and a
reply adds one signal if its asker is there to hear it. -/
structure Tracked (code : List ReplyCall) (w : Replying) : Prop where
  course : ∀ attempt, (w.visits.filter (·.attempt = attempt)).map (·.site) =
    List.range (w.progress[attempt]?.getD 0)
  added : ∀ visit ∈ w.visits, visit.added = if visit.listening then 1 else 0

theorem reply_adds (call : ReplyCall) (s : Store) :
    (call.reply s).signals.length - s.signals.length =
      if call.listening s then 1 else 0 := by
  unfold ReplyCall.reply ReplyCall.listening
  cases call.asker? with
  | none => simp
  | some asker =>
    cases hrow : s.runs.get? asker with
    | none => simp [Store.signal, hrow, Store.bufferSignal]
    | some row =>
      simp only [Store.signal, hrow, Option.any_some]
      by_cases hended : row.status.isTerminal = true
      · simp [hended]
      · rw [if_neg hended]
        split <;> simp [hended, Store.bufferSignal, Store.makePending, Store.clearWake]

theorem reply_step (code : List ReplyCall) (w : Replying) (attempt : Nat) :
    step code (.reply attempt) w = w ∨
      ∃ site call, w.progress[attempt]? = some site ∧ code[site]? = some call ∧
        step code (.reply attempt) w = w.visit attempt site call := by
  unfold step
  cases hprogress : w.progress[attempt]? with
  | none => exact Or.inl (by simp [hprogress])
  | some site =>
    cases hcall : code[site]? with
    | none => exact Or.inl (by simp [hprogress, hcall])
    | some call => exact Or.inr ⟨site, call, rfl, hcall, by simp [hprogress, hcall]⟩

variable {code : List ReplyCall} {w : Replying} {site : Nat} {s : Store} {runId asker : RunId}
    {name : String}

private theorem course_visit (h : Tracked code w) {attempt : Nat}
    (hprogress : w.progress[attempt]? = some site) (call : ReplyCall) (other : Nat) :
    (((w.visit attempt site call).visits.filter (·.attempt = other)).map (·.site)) =
      List.range ((w.visit attempt site call).progress[other]?.getD 0) := by
  have hcourse := h.course other
  by_cases hsame : other = attempt
  · subst hsame
    have hlt : other < w.progress.length := (List.getElem?_eq_some_iff.mp hprogress).1
    rw [hprogress] at hcourse
    simp [visit, filter_append, hcourse, hlt, range_succ]
  · have hne : attempt ≠ other := Ne.symm hsame
    simp [visit, filter_append, hcourse, hne]

theorem tracked_step (label : ReplyStep) (h : Tracked code w) :
    Tracked code (step code label w) := by
  cases label with
  | call call => exact ⟨h.course, h.added⟩
  | again =>
    refine ⟨fun attempt => ?_, h.added⟩
    rw [show (step code .again w).visits = w.visits from rfl, h.course attempt]
    change _ = List.range ((w.progress ++ [0])[attempt]?.getD 0)
    rcases Nat.lt_trichotomy attempt w.progress.length with hlt | heq | hgt
    · rw [List.getElem?_append_left hlt]
    · rw [heq, List.getElem?_concat_length, List.getElem?_eq_none (Nat.le_refl _)]
      rfl
    · rw [List.getElem?_eq_none (Nat.le_of_lt hgt), List.getElem?_eq_none]
      rw [length_append, length_singleton]
      omega
  | reply attempt =>
    rcases reply_step code w attempt with hsame | ⟨site, call, hprogress, _, hvisit⟩
    · rw [hsame]
      exact h
    · rw [hvisit]
      refine ⟨course_visit h hprogress call, ?_⟩
      intro visit hvisit
      rcases mem_append.mp hvisit with hold | hnew
      · exact h.added visit hold
      · rw [mem_singleton] at hnew
        subst hnew
        exact reply_adds call w.store

theorem tracked_runs (h : Runs code {} w) : Tracked code w := by
  refine Steps.invariant (P := Tracked code) (fun _ label hw _ => tracked_step label hw) h ?_
  exact ⟨fun _ => rfl, fun _ hvisit => by cases hvisit⟩

theorem Tracked.onAccount (h : Tracked code w) (site : Nat) :
    w.onAccount site = (w.heardFrom site).length := by
  unfold Replying.onAccount Replying.heardFrom
  have hadded := h.added
  generalize w.visits = visits at hadded
  induction visits with
  | nil => rfl
  | cons visit rest ih =>
    have hvisit := hadded visit mem_cons_self
    have hrest := ih fun other hother => hadded other (mem_cons_of_mem visit hother)
    by_cases hsite : visit.site = site
    · cases hlistening : visit.listening with
      | true =>
        rw [hlistening, if_pos rfl] at hvisit
        simp [hsite, hlistening, hvisit] at hrest ⊢
        omega
      | false =>
        rw [hlistening, if_neg Bool.false_ne_true] at hvisit
        simpa [hsite, hlistening, hvisit] using hrest
    · simpa [hsite] using hrest

theorem Tracked.heardFrom_nodup (h : Tracked code w) (site : Nat) : (w.heardFrom site).Nodup := by
  rw [nodup_iff_count_le_one]
  intro attempt
  have hcourse : ((w.visits.filter (·.attempt = attempt)).map (·.site)).count site ≤ 1 := by
    rw [h.course attempt]
    exact nodup_iff_count_le_one.mp nodup_range site
  apply Nat.le_trans _ hcourse
  unfold Replying.heardFrom
  rw [List.count, List.count, countP_map, countP_map, countP_filter,
    countP_filter]
  apply countP_mono_left
  intro visit _ hvisit
  simp only [Function.comp_apply, Bool.and_eq_true, beq_iff_eq, decide_eq_true_eq] at hvisit ⊢
  exact ⟨hvisit.2.1, hvisit.1⟩

private theorem length_eq_one_of_nodup {items : List Nat} (hnodup : items.Nodup) :
    items.length = 1 ↔ ∃! item, item ∈ items := by
  rw [length_eq_one_iff]
  constructor
  · rintro ⟨item, rfl⟩
    exact ⟨item, mem_singleton_self item, fun other hother => mem_singleton.mp hother⟩
  · rintro ⟨item, hitem, hunique⟩
    refine ⟨item, ?_⟩
    apply perm_singleton.mp
    rw [perm_ext_iff_of_nodup hnodup (nodup_singleton item)]
    intro other
    rw [mem_singleton]
    exact ⟨hunique other, fun hsame => hsame ▸ hitem⟩

theorem replySignal_ne_childSignal (correlationId child : String) :
    replySignal correlationId ≠ childSignal child := by
  intro h
  have hchars := congrArg (fun name : String => name.toList.head?) h
  simp [replySignal, childSignal] at hchars

theorem ended_exec {call : Call} (hkeeps : call.op.deletes = false) (h : Ended s runId) :
    Ended (exec call s) runId := by
  cases hrun : s.perform call.env call.op with
  | error e => rwa [exec_error hrun]
  | ok s' =>
    rw [exec_ok hrun]
    exact ended_moves (perform_moves_any hkeeps hrun).moves h

theorem ended_reply (call : ReplyCall) (h : Ended s runId) : Ended (call.reply s) runId := by
  unfold ReplyCall.reply
  cases call.asker? with
  | none => exact h
  | some asker =>
    exact ended_move (L := .any) (m := .signal asker call.name call.result) trivial h

theorem line_reply (w : Listening) (call : ReplyCall) (name : String)
    (hopen : ¬ Ended w.store asker) :
    Listening.line { w with store := call.reply w.store } asker name =
      w.line asker name ++ if call.answers asker name then [call.result] else [] := by
  have hbuffered : (call.reply w.store).buffered asker name =
      w.store.buffered asker name ++ if call.answers asker name then [call.result] else [] := by
    unfold ReplyCall.reply ReplyCall.answers
    cases hasker : call.asker? with
    | none => simp
    | some other =>
      by_cases hsame : other = asker ∧ call.name = name
      · obtain ⟨rfl, rfl⟩ := hsame
        simp [buffered_signal_open hopen]
      · have hskip : (decide (some other = some asker) && decide (call.name = name)) = false := by
          simpa using hsame
        rw [hskip]
        simpa using buffered_signal_other call.result hsame
  unfold Listening.line Listening.got
  rw [hbuffered, append_assoc]

/-- While the asker is open, its line holds the answers given so far. -/
def Conveyed (code : List ReplyCall) (asker : RunId) (name : String) (w : Replying) : Prop :=
  ¬ Ended w.store asker → w.line.line asker name = w.results code asker name

theorem conveyed_step {label : ReplyStep} (hname : ∀ child, name ≠ childSignal child)
    (hlabel : Unforged asker name w label) (h : Conveyed code asker name w) :
    Conveyed code asker name (step code label w) := by
  intro hopen
  cases label with
  | call call =>
    have hbefore : ¬ Ended w.store asker := fun hended => hopen (ended_exec hlabel.1 hended)
    exact (line_listen hlabel.1 hname hlabel.2 hopen).trans (h hbefore)
  | again => exact h hopen
  | reply attempt =>
    rcases reply_step code w attempt with hsame | ⟨site, call, _, hcall, hvisit⟩
    · rw [hsame] at hopen ⊢
      exact h hopen
    · rw [hvisit] at hopen ⊢
      have hbefore : ¬ Ended w.store asker := fun hended => hopen (ended_reply call hended)
      refine (line_reply w.line call name hbefore).trans ?_
      rw [h hbefore]
      unfold results visit
      rw [filterMap_append]
      congr 1
      simp only [filterMap_cons, filterMap_nil, hcall, Option.bind_some]
      split <;> rfl

private theorem range_results (code : List ReplyCall) (asker : RunId) (name : String)
    (made : Nat) :
    ((List.range made).filterMap fun site => code[site]?.bind fun call =>
        if call.answers asker name then some call.result else none) =
      ((code.take made).filter (·.answers asker name)).map (·.result) := by
  induction made with
  | zero => rfl
  | succ made ih =>
    rw [range_succ, filterMap_append, ih, take_add_one, filter_append,
      map_append]
    congr 1
    cases hcall : code[made]? with
    | none => simp [hcall]
    | some call =>
      by_cases hanswers : call.answers asker name = true <;> simp [hcall, hanswers]

private theorem Tracked.made_earlier (h : Tracked code w) {visit : Visit}
    (hvisit : visit ∈ w.visits) (hsite : site ≤ visit.site) :
    ∃ earlier ∈ w.visits, earlier.attempt = visit.attempt ∧ earlier.site = site := by
  have hmade : visit.site ∈ List.range (w.progress[visit.attempt]?.getD 0) := by
    rw [← h.course visit.attempt]
    exact mem_map.mpr ⟨visit, mem_filter.mpr ⟨hvisit, by simp⟩, rfl⟩
  have hearlier : site ∈ List.range (w.progress[visit.attempt]?.getD 0) := by
    rw [mem_range] at hmade ⊢
    omega
  rw [← h.course visit.attempt] at hearlier
  obtain ⟨earlier, hmem, hsame⟩ := mem_map.mp hearlier
  obtain ⟨hin, hattempt⟩ := mem_filter.mp hmem
  exact ⟨earlier, hin, by simpa using hattempt, hsame⟩

theorem Tracked.results_prefix (h : Tracked code w) (honce : w.NotRepeated code asker name) :
    w.results code asker name <+:
      (code.filter (·.answers asker name)).map (·.result) := by
  classical
  let answered (visit : Visit) : Prop :=
    ∃ call, code[visit.site]? = some call ∧ call.answers asker name = true
  by_cases hany : ∃ visit ∈ w.visits, answered visit
  · obtain ⟨chosen, hchosen, hanswered⟩ := hany
    have hfirst : ∃ (site : Nat) (call : ReplyCall), code[site]? = some call ∧ call.answers asker name = true :=
      ⟨chosen.site, hanswered⟩
    have hleast : ∀ visit, answered visit → Nat.find hfirst ≤ visit.site :=
      fun visit hvisit => Nat.find_le hvisit
    obtain ⟨call, hcall, hanswers⟩ := Nat.find_spec hfirst
    -- Every attempt that answered made the first of the answering calls.
    have hsame : ∀ visit ∈ w.visits, answered visit → visit.attempt = chosen.attempt := by
      intro visit hvisit hanswer
      obtain ⟨one, hone, honeAttempt, honeSite⟩ := h.made_earlier hvisit (hleast visit hanswer)
      obtain ⟨other, hother, hotherAttempt, hotherSite⟩ :=
        h.made_earlier hchosen (hleast chosen hanswered)
      rw [← honeAttempt, ← hotherAttempt]
      exact honce _ call hcall hanswers one hone other hother honeSite hotherSite
    have hresults : w.results code asker name =
        (w.visits.filter (·.attempt = chosen.attempt)).filterMap fun visit =>
          code[visit.site]?.bind fun call =>
            if call.answers asker name then some call.result else none := by
      unfold results
      rw [filterMap_filter]
      apply filterMap_congr
      intro visit hvisit
      by_cases hattempt : visit.attempt = chosen.attempt
      · simp [hattempt]
      · simp only [hattempt, decide_false, Bool.false_eq_true, if_false]
        cases hfound : code[visit.site]? with
        | none => rfl
        | some other =>
          have hskip : ¬ other.answers asker name = true := fun hanswer =>
            hattempt (hsame visit hvisit ⟨other, hfound, hanswer⟩)
          simp [hskip]
    have hmap : ((w.visits.filter (·.attempt = chosen.attempt)).filterMap fun visit =>
        code[visit.site]?.bind fun call =>
          if call.answers asker name then some call.result else none) =
        (((w.visits.filter (·.attempt = chosen.attempt)).map (·.site)).filterMap fun site =>
          code[site]?.bind fun call =>
            if call.answers asker name then some call.result else none) := by
      rw [filterMap_map]
      rfl
    rw [hresults, hmap, h.course chosen.attempt, range_results]
    exact (( take_prefix _ code).filter _).map _
  · have hnone : w.results code asker name = [] := by
      unfold results
      rw [filterMap_eq_nil_iff]
      intro visit hvisit
      cases hfound : code[visit.site]? with
      | none => rfl
      | some call =>
        have hskip : ¬ call.answers asker name = true := fun hanswer =>
          hany ⟨visit, hvisit, call, hfound, hanswer⟩
        simp [hskip]
    rw [hnone]
    exact nil_prefix

/-- A reply of the code is buffered exactly once if and only if exactly one
attempt made it while its asker was there to hear it. And if no call that
answers a run under a name was made in two attempts, the run gets the answers
under that name in the order of the code and none of them twice, so that two
asks that share a correlation id get the first and the second. -/
theorem reply_sent_once (code : List ReplyCall) :
    (∀ w, Runs code {} w →
      ∀ site, w.onAccount site = 1 ↔ ∃! attempt, attempt ∈ w.heardFrom site) ∧
    ∀ asker correlationId w,
      Steps (step code) (Unforged asker (replySignal correlationId)) {} w →
      ¬ Ended w.store asker → w.NotRepeated code asker (replySignal correlationId) →
      w.line.line asker (replySignal correlationId) <+:
        (code.filter (·.answers asker (replySignal correlationId))).map (·.result) := by
  constructor
  · intro w hruns site
    have htracked := tracked_runs hruns
    rw [htracked.onAccount site]
    exact length_eq_one_of_nodup (htracked.heardFrom_nodup site)
  · intro asker correlationId w hruns hopen honce
    have htracked : Tracked code w := tracked_runs (Steps.mono (fun _ _ _ => trivial) hruns)
    have hconveyed : Conveyed code asker (replySignal correlationId) w := by
      refine Steps.invariant (P := Conveyed code asker (replySignal correlationId))
        (fun _ _ hw hlabel => conveyed_step (replySignal_ne_childSignal correlationId) hlabel hw)
        hruns fun _ => rfl
    rw [hconveyed hopen]
    exact htracked.results_prefix honce

private def answering : List ReplyCall :=
  [{ msg := { id := "m", sender := "agent", correlationId := "q", replyTo := some "p" }
     result := [] },
   { msg := { id := "m", sender := "agent", correlationId := "q", replyTo := some "p" }
     result := [("more", .null)] }]

private def asksTwice : List ReplyStep :=
  [.call ⟨.plain 2, .consume "p" (replySignal "q") "first"⟩,
   .call ⟨.plain 3, .consume "p" (replySignal "q") "second"⟩]

private def answersOnce : List ReplyStep :=
  .call ⟨.plain 0, .createRun { agent := "agent", runId := some "p" } []⟩ ::
    [.again, .reply 0, .reply 0] ++ asksTwice

private def after (labels : List ReplyStep) : Replying :=
  labels.foldl (fun w label => step answering label w) {}

private theorem runs_after (labels : List ReplyStep) : Runs answering {} (after labels) :=
  Steps.foldl labels (fun _ label _ => Steps.single label trivial) _

/-- One attempt, and two asks that get the first and the second answer. -/
theorem reply_sent_once_twice_asked :
    (after answersOnce).onAccount 0 = 1 ∧
      (after answersOnce).line.taken.map (·.payload.length) = [0, 1] ∧
      (after answersOnce).line.line "p" (replySignal "q") <+:
        (answering.filter (·.answers "p" (replySignal "q"))).map (·.result) := by
  obtain ⟨hcounts, horder⟩ := reply_sent_once answering
  refine ⟨(hcounts _ (runs_after answersOnce) 0).mpr ⟨0, by decide, ?_⟩, by decide,
    horder "p" "q" _ ?_ ?_ ?_⟩
  · have honly : ∀ attempt ∈ (after answersOnce).heardFrom 0, attempt = 0 := by decide
    exact honly
  · apply Steps.foldl
    intro w label hlabel
    refine Steps.single label ?_
    simp only [answersOnce, asksTwice, cons_append, nil_append, mem_cons,
      not_mem_nil, or_false] at hlabel
    rcases hlabel with rfl | rfl | rfl | rfl | rfl | rfl
    · exact ⟨rfl, fun _ hsends => by simp [Op.Sends] at hsends⟩
    · trivial
    · trivial
    · trivial
    · exact ⟨rfl, fun _ hsends => by simp [Op.Sends] at hsends⟩
    · exact ⟨rfl, fun _ hsends => by simp [Op.Sends] at hsends⟩
  · have hstatus : ((after answersOnce).store.runs.get? "p").map (·.status) = some .pending := by
      decide
    rintro ⟨row, hrow, hended⟩
    rw [hrow, Option.map_some, Option.some.injEq] at hstatus
    rw [hstatus] at hended
    cases hended
  · have honly : ∀ visit ∈ (after answersOnce).visits, visit.attempt = 0 := by decide
    intro site call _ _ one hone other hother _ _
    rw [honly one hone, honly other hother]

private def answersAgain : List ReplyStep :=
  .call ⟨.plain 0, .createRun { agent := "agent", runId := some "p" } []⟩ ::
    [.again, .reply 0, .again, .reply 1, .reply 1] ++ asksTwice

/-- The child is taken up again after its first answer: the answer is sent
twice, and the second ask gets it again. -/
theorem reply_sent_twice :
    Runs answering {} (after answersAgain) ∧
      ((after answersAgain).store.runs.get? "p").map (·.status) = some .pending ∧
      (after answersAgain).onAccount 0 = 2 ∧
      (after answersAgain).line.taken.map (·.payload.length) = [0, 0] :=
  ⟨runs_after answersAgain, by decide, by decide, by decide⟩

end Replying

end Substrate.Context
