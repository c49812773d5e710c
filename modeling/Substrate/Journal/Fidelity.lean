import Substrate.Journal.Settled

/-!
What a replay observes. A run of one program is taken up any number of times, each attempt
cut wherever its tape ends. A step that has given a value gives the same value in every
later attempt, and its body is not run again.
-/

namespace Substrate

open Session List

/-- The program makes this call, if it observes this of the calls before. -/
def Prog.Issues (c : Config) (observed : CallId → Answer → Prop) : Prog → PathStack → CallId → Prop
  | .done _, _, _ | .raise _, _, _ | .interrupt _, _, _ | .outside, _, _ => False
  | .effect kind args _ body next, stack, call =>
    call = c.callAt stack kind args ∨ body.Issues c observed (bodyStack stack) call ∨
      ∃ answer, observed (c.callAt stack kind args) answer ∧
        (next answer).Issues c observed (nextStack stack) call
  | .atomic kind args next, stack, call =>
    call = c.callAt stack kind args ∨ ∃ answer, observed (c.callAt stack kind args) answer ∧
        (next answer).Issues c observed (nextStack stack) call

variable {c : Config}

variable {stack : PathStack} {p : Prog} {call call' : CallId} {paths : List Nat → Prop}
    {first later : CallId → Answer → Prop}

theorem nextStack_ne_nil (hne : stack ≠ []) : nextStack stack ≠ [] := (AtOrPast.next hne).ne_nil

theorem Prog.Issues.ahead {observed : CallId → Answer → Prop} (h : p.Issues c observed stack call)
    (hne : stack ≠ []) : CallIn c (Ahead stack) call := by
  induction p generalizing stack with
  | done value | raise failure | interrupt signal | outside => exact h.elim
  | effect kind args idempotent body next ihBody ihNext =>
    rcases h with rfl | hbody | ⟨answer, _, hnext⟩
    · exact callAt_in (ahead_own hne)
    · exact (ihBody hbody (cons_ne_nil _ _)).mono fun _ hahead => hahead.of_body hne
    · exact (ihNext answer hnext (nextStack_ne_nil hne)).mono fun _ => Ahead.of_next
  | atomic kind args next ihNext =>
    rcases h with rfl | ⟨answer, _, hnext⟩
    · exact callAt_in (ahead_own hne)
    · exact (ihNext answer hnext (nextStack_ne_nil hne)).mono fun _ => Ahead.of_next

/-- A step failed in one attempt and came out differently in another. -/
def FailureDiffers (first later : CallId → Answer → Prop) : Prop :=
  ∃ call failure answer, first call (.error failure) ∧ later call answer ∧ answer ≠ .error failure

private theorem path_of_in {kind : String} {args : Json} (hcall : CallIn c paths call)
    (hpath : call.path = (c.callAt stack kind args).path) : paths stack.reverse := by
  obtain ⟨path, hin, _, htext⟩ := hcall
  exact pathText_injective (htext.symm.trans hpath) ▸ hin

private theorem path_of_both {paths' : List Nat → Prop} (hcall : CallIn c paths call)
    (hcall' : CallIn c paths' call') (hpath : call.path = call'.path) :
    ∃ path, paths path ∧ paths' path := by
  obtain ⟨path, hin, _, htext⟩ := hcall
  obtain ⟨path', hin', _, htext'⟩ := hcall'
  have hsame : path = path' := pathText_injective (htext.symm.trans (hpath.trans htext'))
  exact ⟨path, hin, hsame ▸ hin'⟩

private theorem agree_after
    (hstable : ∀ call value answer, first call (.ok value) → later call answer →
      answer = .ok value) {own : CallId} {P Q : Answer → Prop} {same : Prop}
    (hsame : ∀ answer, P answer → Q answer → same ∨ FailureDiffers first later)
    {answer answer' : Answer} (hfirst : first own answer) (hP : P answer)
    (hlater : later own answer') (hQ : Q answer') : same ∨ FailureDiffers first later := by
  by_cases heq : answer' = answer
  · subst heq
    exact hsame answer' hP hQ
  · cases answer with
    | ok value => exact absurd (hstable own value answer' hfirst hlater) heq
    | error failure => exact .inr ⟨own, failure, answer', hfirst, hlater, heq⟩

theorem Prog.Issues.agree
    (hstable : ∀ call value answer, first call (.ok value) → later call answer →
      answer = .ok value) (hne : stack ≠ []) (h : p.Issues c first stack call)
    (h' : p.Issues c later stack call') (hpath : call.path = call'.path) :
    call = call' ∨ FailureDiffers first later := by
  induction p generalizing stack with
  | done value | raise failure | interrupt signal | outside => exact h.elim
  | effect kind args idempotent body next ihBody ihNext =>
    have hbody_ne : bodyStack stack ≠ [] := cons_ne_nil _ _
    have hnext_ne := nextStack_ne_nil hne
    rcases h with rfl | hbody | ⟨answer, hobserved, hnext⟩ <;>
      rcases h' with rfl | hbody' | ⟨answer', hobserved', hnext'⟩
    · exact .inl rfl
    · exact absurd (path_of_in (hbody'.ahead hbody_ne) hpath.symm) (own_not_body stack)
    · exact absurd (path_of_in (hnext'.ahead hnext_ne) hpath.symm) (own_not_next stack)
    · exact absurd (path_of_in (hbody.ahead hbody_ne) hpath) (own_not_body stack)
    · exact ihBody hbody_ne hbody hbody'
    · obtain ⟨path, hin, hin'⟩ := path_of_both (hbody.ahead hbody_ne) (hnext'.ahead hnext_ne) hpath
      exact absurd hin' hin.body_not_next
    · exact absurd (path_of_in (hnext.ahead hnext_ne) hpath) (own_not_next stack)
    · obtain ⟨path, hin, hin'⟩ := path_of_both (hnext.ahead hnext_ne) (hbody'.ahead hbody_ne) hpath
      exact absurd hin hin'.body_not_next
    · exact agree_after hstable (fun answer hcall hcall' => ihNext answer hnext_ne hcall hcall')
        hobserved hnext hobserved' hnext'
  | atomic kind args next ihNext =>
    have hnext_ne := nextStack_ne_nil hne
    rcases h with rfl | ⟨answer, hobserved, hnext⟩ <;>
      rcases h' with rfl | ⟨answer', hobserved', hnext'⟩
    · exact .inl rfl
    · exact absurd (path_of_in (hnext'.ahead hnext_ne) hpath.symm) (own_not_next stack)
    · exact absurd (path_of_in (hnext.ahead hnext_ne) hpath) (own_not_next stack)
    · exact agree_after hstable (fun answer hcall hcall' => ihNext answer hnext_ne hcall hcall')
        hobserved hnext hobserved' hnext'

/-- What code does, call by call: it makes only calls it may make, records only
calls it has made, and diverges only where the record disagrees. -/
structure Follows (c : Config) (may : (CallId → Answer → Prop) → CallId → Prop)
    (s s' : Session) (more : List Event) (new : List Record) : Prop where
  trace : s'.trace = s.trace ++ more
  log : s'.log = s.log ++ new
  byPath : s'.memory.byPath = s.memory.byPath
  issued : ∀ observed : CallId → Answer → Prop,
    (∀ call answer, .observed call answer ∈ more → observed call answer) →
      ∀ call, .issued call ∈ more → may observed call
  recorded : ∀ r ∈ new, ∀ call, r.call? = some call → .issued call ∈ more
  diverged : ∀ call, .diverged call ∈ more → .issued call ∈ more ∧
    ∃ prior, s.memory.byPath call.path = some prior ∧ prior ≠ (call.kind, call.digest)

namespace Follows

variable {may : (CallId → Answer → Prop) → CallId → Prop} {s s' s'' : Session}
  {more more' : List Event} {new new' : List Record}

theorem of_eq (htrace : s'.trace = s.trace) (hlog : s'.log = s.log)
    (hbyPath : s'.memory.byPath = s.memory.byPath) : Follows c may s s' [] [] :=
  ⟨by simp [htrace], by simp [hlog], hbyPath, by simp, by simp, by simp⟩

theorem trans {may' : (CallId → Answer → Prop) → CallId → Prop}
    (h : Follows c may s s' more new) (h' : Follows c may' s' s'' more' new')
    (hmay : ∀ observed : CallId → Answer → Prop,
      (∀ call answer, .observed call answer ∈ more → observed call answer) →
        ∀ call, may' observed call → may observed call) :
    Follows c may s s'' (more ++ more') (new ++ new') where
  trace := by rw [h'.trace, h.trace, append_assoc]
  log := by rw [h'.log, h.log, append_assoc]
  byPath := h'.byPath.trans h.byPath
  issued := fun observed hobserved call hcall => by
    rcases mem_append.mp hcall with hcall | hcall
    · exact h.issued observed
        (fun other answer hmem => hobserved other answer (mem_append_left _ hmem)) call hcall
    · refine hmay observed
        (fun other answer hmem => hobserved other answer (mem_append_left _ hmem)) call ?_
      exact h'.issued observed
        (fun other answer hmem => hobserved other answer (mem_append_right _ hmem)) call hcall
  recorded := fun r hr call hcall => by
    rcases mem_append.mp hr with hr | hr
    · exact mem_append_left _ (h.recorded r hr call hcall)
    · exact mem_append_right _ (h'.recorded r hr call hcall)
  diverged := fun call hcall => by
    rcases mem_append.mp hcall with hcall | hcall
    · exact (h.diverged call hcall).imp_left (mem_append_left _)
    · obtain ⟨hissued, hprior⟩ := h'.diverged call hcall
      exact ⟨mem_append_right _ hissued, h.byPath ▸ hprior⟩

theorem note (s : Session) {event : Event} (hissued : ∀ call, event ≠ .issued call)
    (hdiverged : ∀ call, event ≠ .diverged call) :
    Follows c may s (s.note event) [event] [] := by
  refine ⟨rfl, by simp [Session.note], rfl, fun _ _ call hcall => ?_, by simp, fun call hcall => ?_⟩
  · exact absurd (mem_singleton.mp hcall).symm (hissued call)
  · exact absurd (mem_singleton.mp hcall).symm (hdiverged call)

end Follows

/-- The session has come from another by such code, and a call was made on the
way. -/
def FollowsFrom (c : Config) (may : (CallId → Answer → Prop) → CallId → Prop) (own : CallId)
    (s s' : Session) : Prop :=
  ∃ more new, Follows c may s s' more new ∧ .issued own ∈ more

namespace FollowsFrom

variable {may : (CallId → Answer → Prop) → CallId → Prop} {own : CallId} {s : Session}

variable {t : Session}

theorem then_ {u : Session} {more : List Event} (h : FollowsFrom c may own s t)
    (h' : Follows c may t u more []) : FollowsFrom c may own s u := by
  obtain ⟨before, new, hfollows, hown⟩ := h
  exact ⟨_, _, hfollows.trans h' fun _ _ _ => id, mem_append_left _ hown⟩

theorem append {r : Record} (habout : r.About own) (h : FollowsFrom c may own s t) :
    FollowsFrom c may own s (t.append r) := by
  obtain ⟨more, new, hfollows, hown⟩ := h
  have hlog : ∃ last, (t.append r).log = t.log ++ last ∧ ∀ r' ∈ last, r' = r := by
    unfold Session.append
    simp only
    split
    · exact ⟨[], by simp⟩
    · exact ⟨[r], rfl, by simp⟩
  obtain ⟨last, hlast, hsame⟩ := hlog
  refine ⟨more ++ [.wrote r], new ++ last, ⟨?_, ?_, hfollows.byPath, ?_, ?_, ?_⟩,
    mem_append_left _ hown⟩
  · change t.trace ++ [_] = _
    rw [hfollows.trace, append_assoc]
  · rw [hlast, hfollows.log, append_assoc]
  · intro observed hobserved call hcall
    exact hfollows.issued observed (fun other answer hmem => hobserved other answer (by simp [hmem]))
      call (by simpa using hcall)
  · intro r' hr' call hcall
    rcases mem_append.mp hr' with hr' | hr'
    · exact mem_append_left _ (hfollows.recorded r' hr' call hcall)
    · have hcall' : r.call? = some call := hsame r' hr' ▸ hcall
      rw [habout.2 call hcall']
      exact mem_append_left _ hown
  · intro call hcall
    exact (hfollows.diverged call (by simpa using hcall)).imp_left (mem_append_left _)

theorem handles (s : Session) (within : PathStack → Prop) :
    Handles own fun t => FollowsFrom c may own s t ∧ within t.stack where
  tape := fun _ _ h => ⟨h.1.then_ (.of_eq rfl rfl rfl), h.2⟩
  setKnown := fun _ _ h => ⟨h.1.then_ (.of_eq rfl rfl rfl), h.2⟩
  append := fun _ _ habout h => ⟨h.1.append habout, h.2⟩
  note := fun t event hevent h => by
    refine ⟨h.1.then_ (.note t ?_ ?_), h.2⟩ <;> rintro call rfl <;> exact hevent

theorem issue (hmay : ∀ observed, may observed own) (rest : List Tick) :
    FollowsFrom c may own s (s.issue own rest) := by
  refine ⟨[.issued own], [], ⟨rfl, by simp [Session.issue, Session.note, Session.allocPath], rfl,
    fun observed _ call hcall => ?_, by simp, by simp⟩, mem_singleton_self _⟩
  have hsame : call = own := by simpa using hcall
  exact hsame ▸ hmay observed

end FollowsFrom

/-- Code that makes only calls it may make, on any stack. -/
def FollowsProg (c : Config) (p : Prog) (fn : Session → Exit × Session) : Prop :=
  ∀ s, s.stack ≠ [] → ∃ more new,
    Follows c (fun observed => p.Issues c observed s.stack) s (fn s).2 more new

private theorem atCall_follows {may : (CallId → Answer → Prop) → CallId → Prop} {s : Session}
    {kind : String} {args : Json} {step : Tick → CallId → Session → Exit × Session}
    (hmay : ∀ observed, may observed (c.callAt s.stack kind args))
    (hstep : ∀ tick rest, let own := c.callAt s.stack kind args
      FollowsFrom c may own s (s.issue own rest) →
        FollowsFrom c may own s (step tick own (s.issue own rest)).2) :
    ∃ more new, Follows c may s (s.atCall c kind args step).2 more new := by
  have hissue := fun rest => FollowsFrom.issue (c := c) (s := s) hmay rest
  rcases s.atCall_cases c kind args step with heq | ⟨tick, rest, _, hcase⟩
  · rw [heq]
    exact ⟨[], [], .of_eq rfl rfl rfl⟩
  · rcases hcase with ⟨prior, hprior, hdiffers, heq⟩ | ⟨_, heq⟩
    · rw [heq]
      obtain ⟨more, new, hfollows, hown⟩ := hissue rest
      refine ⟨more ++ [.diverged (c.callAt s.stack kind args)], new, ?_, hfollows.log,
        hfollows.byPath, ?_, ?_, ?_⟩
      · change (s.issue _ rest).trace ++ [_] = _
        rw [hfollows.trace, append_assoc]
      · intro observed hobserved call hcall
        exact hfollows.issued observed
          (fun other answer hmem => hobserved other answer (mem_append_left _ hmem)) call
          (by simpa using hcall)
      · exact fun r hr call hcall => mem_append_left _ (hfollows.recorded r hr call hcall)
      · intro call hcall
        rcases mem_append.mp hcall with hcall | hcall
        · exact (hfollows.diverged call hcall).imp_left (mem_append_left _)
        · cases mem_singleton.mp hcall
          exact ⟨mem_append_left _ hown, prior, hprior, hdiffers⟩
    · rw [heq]
      obtain ⟨more, new, hfollows, _⟩ := hstep tick rest (hissue rest)
      exact ⟨more, new, hfollows⟩

private theorem goOn_follows {may : (CallId → Answer → Prop) → CallId → Prop} {s : Session}
    {own : CallId} {result : Exit × Session} {next : Answer → Session → Exit × Session}
    (hresult : ∃ more new, Follows c may s result.2 more new)
    (hnext : ∀ answer t, result.1.answer? = some answer → t.stack = result.2.stack →
      ∃ more new, Follows c (fun observed call => observed own answer → may observed call) t
        (next answer t).2 more new) :
    ∃ more new, Follows c may s (goOn own next result).2 more new := by
  obtain ⟨more, new, hfollows⟩ := hresult
  rcases goOn_cases own next result with ⟨answer, hanswer, heq⟩ | ⟨_, heq⟩
  · rw [heq]
    let t := result.2.note (.observed own answer)
    have hnote : Follows c may result.2 t [.observed own answer] [] :=
      .note result.2 (by simp) (by simp)
    obtain ⟨rest, last, hrest⟩ := hnext answer t hanswer rfl
    have hseen := hfollows.trans hnote fun _ _ _ => id
    exact ⟨_, _, hseen.trans hrest fun observed hobserved call hcall =>
      hcall (hobserved own answer (by simp))⟩
  · rw [heq]
    exact ⟨more, new, hfollows⟩


theorem run_follows (c : Config) (p : Prog) : FollowsProg c p (run c p) := by
  induction p with
  | done value | raise failure | interrupt signal =>
    exact fun s _ => ⟨[], [], .of_eq rfl rfl rfl⟩
  | outside =>
    intro s _
    unfold run await
    cases s.tape with
    | nil => exact ⟨[], [], .of_eq rfl rfl rfl⟩
    | cons tick rest =>
      simp only
      cases tick.world <;> exact ⟨[], [], .of_eq rfl rfl rfl⟩
  | effect kind args idempotent body next ihBody ihNext =>
    intro s hne
    let p : Prog := .effect kind args idempotent body next
    let own := c.callAt s.stack kind args
    let may : (CallId → Answer → Prop) → CallId → Prop :=
      fun observed => p.Issues c observed s.stack
    have hleaves := effect_leaves kind args idempotent (run_stays c body) s hne
    refine goOn_follows (atCall_follows (fun observed => .inl rfl) fun tick rest hissue => ?_)
      fun answer t hanswer hstack => ?_
    · let reply := (s.issue own rest).replyTo c own idempotent
      let t := (s.issue own rest).note (.called own idempotent reply)
      have hcalled : FollowsFrom c may own s t := hissue.then_ (.note _ (by simp) (by simp))
      refine Handles.serve (FollowsFrom.handles s (· = bodyStack s.stack))
        (FollowsFrom.handles s fun _ => True) (fun u hu => ⟨hu.1, trivial⟩) ?_
        (R := FollowsFrom c may own s) (fun u hu => hu.1.then_ (.of_eq rfl rfl rfl)) c idempotent
        hcalled ⟨hcalled.then_ (.of_eq rfl rfl rfl), rfl⟩ reply
      rintro u ⟨⟨more, new, hu, hown⟩, (hu_stack : u.stack = bodyStack s.stack)⟩
      obtain ⟨inner, last, hinner⟩ := ihBody u (hu_stack ▸ cons_ne_nil _ _)
      refine ⟨⟨_, _, hu.trans hinner fun observed _ call hcall => ?_,
        mem_append_left _ hown⟩, trivial⟩
      exact .inr (.inl (hu_stack ▸ hcall))
    · have ht : t.stack = nextStack s.stack := hstack.trans (hleaves.next answer hanswer)
      obtain ⟨more, new, hrest⟩ := ihNext answer t (ht ▸ nextStack_ne_nil hne)
      rw [ht] at hrest
      exact ⟨more, new, { hrest with
        issued := fun observed hobserved call hcall hseen =>
          .inr (.inr ⟨answer, hseen, hrest.issued observed hobserved call hcall⟩) }⟩
  | atomic kind args next ihNext =>
    intro s hne
    let p : Prog := .atomic kind args next
    let own := c.callAt s.stack kind args
    have hleaves := recordAtomic_leaves (c := c) kind args s hne
    refine goOn_follows (atCall_follows (fun observed => .inl rfl) fun tick rest hissue => ?_)
      fun answer t hanswer hstack => ?_
    · exact ((FollowsFrom.handles s fun _ => True).atomicStep c tick ⟨hissue, trivial⟩).1
    · have ht : t.stack = nextStack s.stack := hstack.trans (hleaves.next answer hanswer)
      obtain ⟨more, new, hrest⟩ := ihNext answer t (ht ▸ nextStack_ne_nil hne)
      rw [ht] at hrest
      exact ⟨more, new, { hrest with
        issued := fun observed hobserved call hcall hseen =>
          .inr ⟨answer, hseen, hrest.issued observed hobserved call hcall⟩ }⟩

def attemptEvents (c : Config) (p : Prog) (earlier : List (List Tick)) (tape : List Tick) :
    List Event :=
  let h := history c (earlier.map (p, ·))
  (h.attempt c (p, tape)).trace.drop h.trace.length

/-- An attempt replays the earlier ones faithfully: what gave a value gives that
value again, without diverging and without its body being run; and the attempt
diverges only if a step that failed in an earlier one has come out differently. -/
structure ReplayFaithful (c : Config) (p : Prog) (earlier : List (List Tick))
    (tape : List Tick) : Prop where
  values : ∀ before first between, earlier = before ++ first :: between →
    ∀ call value, .observed call (.ok value) ∈ attemptEvents c p before first →
      (∀ answer, .observed call answer ∈ attemptEvents c p earlier tape → answer = .ok value) ∧
        .diverged call ∉ attemptEvents c p earlier tape ∧
        ∀ other, .started other ∈ attemptEvents c p earlier tape → other.path ≠ call.path
  divergence : ∀ call, .diverged call ∈ attemptEvents c p earlier tape →
    ∃ before first between, earlier = before ++ first :: between ∧
      FailureDiffers (fun call answer => .observed call answer ∈ attemptEvents c p before first)
        (fun call answer => .observed call answer ∈ attemptEvents c p earlier tape)

variable {p : Prog}

theorem history_concat (earlier : List (List Tick)) (tape : List Tick) :
    history c ((earlier ++ [tape]).map (p, ·)) =
      (history c (earlier.map (p, ·))).attempt c (p, tape) := by
  simp [history]

def startOf (c : Config) (p : Prog) (earlier : List (List Tick)) (tape : List Tick) : Session :=
  (history c (earlier.map (p, ·))).session tape

variable {earlier : List (List Tick)} {tape : List Tick} {call : CallId}

theorem attemptEvents_eq {more : List Event}
    (htrace : (run c p (startOf c p earlier tape)).2.trace =
      (startOf c p earlier tape).trace ++ more) :
    attemptEvents c p earlier tape = .attempt :: more := by
  change (run c p (startOf c p earlier tape)).2.trace.drop _ = _
  rw [htrace]
  change ((history c _).trace ++ [Event.attempt] ++ more).drop _ = _
  simp

theorem concat_log (earlier : List (List Tick)) (tape : List Tick) :
    (history c ((earlier ++ [tape]).map (p, ·))).log =
      (run c p (startOf c p earlier tape)).2.log := by
  rw [history_concat]
  rfl

theorem attempt_passed (hinj : Function.Injective2 c.makeId) (path : List Nat)
    (earlier : List (List Tick)) (tape : List Tick) :
    LogAt c path (history c (earlier.map (p, ·))).log ∧
      ∃ more, attemptEvents c p earlier tape = .attempt :: more ∧
        Passed c path (startOf c p earlier tape) (run c p (startOf c p earlier tape)).2 more := by
  have hattempt : ∀ earlier tape, LogAt c path (history c (earlier.map (p, ·))).log →
      ∃ more, attemptEvents c p earlier tape = .attempt :: more ∧
        Passed c path (startOf c p earlier tape) (run c p (startOf c p earlier tape)).2 more := by
    intro earlier tape hlog
    have hagrees : AgreesAt c path (startOf c p earlier tape) := ⟨rfl, fun _ => rfl⟩
    obtain ⟨more, hpassed⟩ := run_passes hinj path p (startOf c p earlier tape)
      (cons_ne_nil _ _) (fun _ => hagrees) hlog
    exact ⟨more, attemptEvents_eq hpassed.trace, hpassed⟩
  have hlog : LogAt c path (history c (earlier.map (p, ·))).log := by
    induction earlier using List.reverseRecOn with
    | nil => exact .inl nofun
    | append_singleton earlier last ih =>
      obtain ⟨more, _, hpassed⟩ := hattempt earlier last ih
      rw [concat_log]
      exact hpassed.log
  exact ⟨hlog, hattempt earlier tape hlog⟩

theorem settled_history (hinj : Function.Injective2 c.makeId) {path : List Nat}
    (hcall : CallIn c (· = path) call) {value : JsonObject} (earlier between : List (List Tick))
    (h : Settled c call value (.ofLog (history c (earlier.map (p, ·))).log)) :
    Settled c call value (.ofLog (history c ((earlier ++ between).map (p, ·))).log) := by
  induction between using List.reverseRecOn with
  | nil => simpa using h
  | append_singleton between last ih =>
    obtain ⟨_, more, _, hpassed⟩ := attempt_passed (p := p) hinj path (earlier ++ between) last
    rw [← append_assoc, concat_log]
    exact (hpassed.kept call value hcall ih).1

theorem attempt_follows (earlier : List (List Tick)) (tape : List Tick) :
    ∃ more new, attemptEvents c p earlier tape = .attempt :: more ∧
      Follows c (fun observed => p.Issues c observed [0]) (startOf c p earlier tape)
        (run c p (startOf c p earlier tape)).2 more new := by
  obtain ⟨more, new, hfollows⟩ := run_follows c p (startOf c p earlier tape) (cons_ne_nil _ _)
  exact ⟨more, new, attemptEvents_eq hfollows.trace, hfollows⟩

theorem recorded_issued (earlier : List (List Tick)) :
    ∀ r ∈ (history c (earlier.map (p, ·))).log, ∀ call, r.call? = some call →
      ∃ before first between, earlier = before ++ first :: between ∧
        .issued call ∈ attemptEvents c p before first := by
  induction earlier using List.reverseRecOn with
  | nil => nofun
  | append_singleton earlier last ih =>
    intro r hr call hcall
    obtain ⟨more, new, hevents, hfollows⟩ := attempt_follows (c := c) (p := p) earlier last
    rw [concat_log, hfollows.log] at hr
    rcases mem_append.mp hr with hr | hr
    · obtain ⟨before, first, between, rfl, hissued⟩ := ih r hr call hcall
      exact ⟨before, first, between ++ [last], by simp, hissued⟩
    · refine ⟨earlier, last, [], rfl, ?_⟩
      rw [hevents]
      exact mem_cons_of_mem _ (hfollows.recorded r hr call hcall)

theorem byPath_recorded {log : List Record} {path : String} {prior : String × String}
    (h : (Memory.ofLog log).byPath path = some prior) :
    ∃ r ∈ log, ∃ call, r.call? = some call ∧ call.path = path ∧
      prior = (call.kind, call.digest) := by
  induction log using List.reverseRecOn with
  | nil => cases h
  | append_singleton log r ih =>
    rw [Memory.ofLog_append_singleton] at h
    by_cases hown : ∃ call, r.call? = some call ∧ call.path = path
    · obtain ⟨call, hcall, rfl⟩ := hown
      rw [Memory.learn_byPath_self _ hcall] at h
      exact ⟨r, by simp, call, hcall, rfl, (Option.some.inj h).symm⟩
    · rw [Memory.learn_byPath_of_ne _ fun call hcall heq => hown ⟨call, hcall, heq.symm⟩] at h
      obtain ⟨r', hr', hrest⟩ := ih h
      exact ⟨r', mem_append_left _ hr', hrest⟩

theorem attempt_call_in {event : Event} (hevent : event ∈ attemptEvents c p earlier tape)
    (hcall : event.call? = some call) : ∃ path, CallIn c (· = path) call := by
  obtain ⟨more, htrace, hmore⟩ :=
    (run_stays c p (startOf c p earlier tape) (cons_ne_nil _ _)).1.trace
  rw [attemptEvents_eq htrace] at hevent
  rcases mem_cons.mp hevent with rfl | hevent
  · cases hcall
  · obtain ⟨path, _, hrest⟩ := hmore event hevent call hcall
    exact ⟨path, path, rfl, hrest⟩

/-- Replay is faithful up to failures: for every program, every earlier attempts
of it and every further attempt, each cut anywhere and answered in any way. -/
theorem replay_faithful (c : Config) (hinj : Function.Injective2 c.makeId) (p : Prog)
    (earlier : List (List Tick)) (tape : List Tick) : ReplayFaithful c p earlier tape := by
  have hvalues : ∀ before first between, earlier = before ++ first :: between →
      ∀ call value, .observed call (.ok value) ∈ attemptEvents c p before first →
        (∀ answer, .observed call answer ∈ attemptEvents c p earlier tape →
          answer = .ok value) ∧ .diverged call ∉ attemptEvents c p earlier tape ∧
          ∀ other, .started other ∈ attemptEvents c p earlier tape → other.path ≠ call.path := by
    intro before first between hearlier call value hobserved
    obtain ⟨path, hcall⟩ := attempt_call_in hobserved rfl
    obtain ⟨_, more, hevents, hpassed⟩ := attempt_passed (p := p) hinj path before first
    rw [hevents] at hobserved
    have hsettled := hpassed.value call value hcall (by simpa using hobserved)
    rw [← concat_log] at hsettled
    have hkept := settled_history hinj hcall (before ++ [first]) between hsettled
    rw [append_assoc, singleton_append, ← hearlier] at hkept
    obtain ⟨_, rest, hrest, hlater⟩ := attempt_passed (p := p) hinj path earlier tape
    obtain ⟨_, hdiverged, hanswer, hstarted⟩ := hlater.kept call value hcall hkept
    rw [hrest]
    exact ⟨fun answer hmem => hanswer answer (by simpa using hmem), by simpa using hdiverged,
      fun other hmem => hstarted other (by simpa using hmem)⟩
  refine ⟨hvalues, fun call hdiverged => ?_⟩
  obtain ⟨more, new, hevents, hfollows⟩ := attempt_follows (c := c) (p := p) earlier tape
  rw [hevents] at hdiverged
  obtain ⟨hissued, prior, hprior, hdiffers⟩ := hfollows.diverged call (by simpa using hdiverged)
  obtain ⟨r, hr, other, hother, hpath, rfl⟩ := byPath_recorded hprior
  obtain ⟨before, first, between, hearlier, hbefore⟩ := recorded_issued earlier r hr other hother
  obtain ⟨more', new', hevents', hfollows'⟩ := attempt_follows (c := c) (p := p) before first
  have hmade : p.Issues c
      (fun call answer => .observed call answer ∈ attemptEvents c p before first) [0] other := by
    rw [hevents'] at hbefore ⊢
    exact hfollows'.issued _ (fun _ _ hmem => mem_cons_of_mem _ hmem) other (by simpa using hbefore)
  have hmakes : p.Issues c
      (fun call answer => .observed call answer ∈ attemptEvents c p earlier tape) [0] call := by
    rw [hevents]
    exact hfollows.issued _ (fun _ _ hmem => mem_cons_of_mem _ hmem) call hissued
  have hstable : ∀ call value answer, .observed call (.ok value) ∈ attemptEvents c p before first →
      .observed call answer ∈ attemptEvents c p earlier tape → answer = .ok value :=
    fun call value answer hfirst hlater =>
      (hvalues before first between hearlier call value hfirst).1 answer hlater
  refine ⟨before, first, between, hearlier, ?_⟩
  rcases hmade.agree hstable (cons_ne_nil _ _) hmakes hpath with hsame | hfailure
  · exact absurd (by rw [hsame]) hdiffers
  · exact hfailure

/-! An agent searches, and browses where the search fails. The search fails once
and the agent goes on; it is run again on replay, and succeeds. -/

private def searchThenBrowse : Prog := .effect "tool.search" .null true .outside fun
    | .ok _ => .effect "tool.summarise" .null true .outside fun _ => .done []
    | .error _ => .effect "tool.browse" .null true .outside fun _ => .interrupt .suspend

private def searchFails : List Tick :=
  [{}, {}, {}, { world := .raises (.error { code := "effect_failed", message := "timeout" }) },
    {}, {}, {}, {}, {}, {}]

private def searchConfig : Config :=
  { makeId := fun path kind => path ++ ":" ++ kind, digest := fun _ => "" }

/-- A failure that the agent had seen and moved past is not observed again: the
body runs again and returns, and the replay diverges. -/
theorem failure_not_kept :
    let first := attemptEvents searchConfig searchThenBrowse [] searchFails
    let later := attemptEvents searchConfig searchThenBrowse [searchFails] [{}, {}, {}, {}, {}, {}]
    (∃ search failure, .observed search (.error failure) ∈ first ∧
      (∃ browse, .observed browse (.ok []) ∈ first ∧ browse ≠ search) ∧
      .started search ∈ later ∧ .observed search (.ok []) ∈ later) ∧
      ∃ call, .diverged call ∈ later := by
  let search : CallId :=
    { id := "0:tool.search", path := "0", kind := "tool.search", digest := "" }
  let browse : CallId :=
    { id := "1:tool.browse", path := "1", kind := "tool.browse", digest := "" }
  let summarise : CallId :=
    { id := "1:tool.summarise", path := "1", kind := "tool.summarise", digest := "" }
  let timeout : ErrorInfo := { code := "effect_failed", message := "timeout" }
  have hfirst : attemptEvents searchConfig searchThenBrowse [] searchFails =
      [.attempt, .issued search, .called search true .admitted, .wrote (.intent search true),
        .started search, .raised search, .wrote (.failed search.id timeout),
        .observed search (.error (.error timeout)), .issued browse,
        .called browse true .admitted, .wrote (.intent browse true), .started browse,
        .returned browse [], .wrote (.ok browse (.value []) false), .observed browse (.ok [])] :=
    rfl
  have hlater : attemptEvents searchConfig searchThenBrowse [searchFails] [{}, {}, {}, {}, {}, {}] =
      [.attempt, .issued search, .called search true .admitted, .wrote (.intent search true),
        .started search, .returned search [], .wrote (.ok search (.value []) false),
        .observed search (.ok []), .issued summarise, .diverged summarise,
        .observed summarise (.error (.nonDeterminism "1" ("tool.browse", "")
          ("tool.summarise", "")))] := rfl
  intro first later
  simp only [first, later, hfirst, hlater]
  refine ⟨⟨search, .error timeout, by simp, ⟨browse, by simp, ?_⟩, by simp, by simp⟩,
    summarise, by simp⟩
  decide

private def plainId (path kind : String) : String :=
  String.ofList (List.replicate path.length '0' ++ '1' :: (path.toList ++ kind.toList))

private theorem plainId_injective : Function.Injective2 plainId := by
  have hmark : ∀ (m n : Nat) (rest rest' : List Char),
      List.replicate m '0' ++ '1' :: rest = List.replicate n '0' ++ '1' :: rest' →
        m = n ∧ rest = rest' := by
    intro m
    induction m with
    | zero =>
      intro n rest rest' heq
      cases n with
      | zero => simpa using heq
      | succ n => simp [replicate_succ] at heq
    | succ m ih =>
      intro n rest rest' heq
      cases n with
      | zero => simp [replicate_succ] at heq
      | succ n =>
        simp only [replicate_succ, cons_append, List.cons.injEq, true_and] at heq
        obtain ⟨hmn, hrest⟩ := ih n rest rest' heq
        exact ⟨by omega, hrest⟩
  intro path path' kind kind' heq
  obtain ⟨hlength, hrest⟩ := hmark _ _ _ _ (String.ofList_injective heq)
  obtain ⟨hpath, hkind⟩ := append_inj hrest (by
    rw [String.length_toList, String.length_toList]
    exact hlength)
  exact ⟨String.toList_injective hpath, String.toList_injective hkind⟩

theorem replay_faithful_search : Function.Injective2 plainId ∧
      ReplayFaithful { makeId := plainId, digest := fun _ => "" } searchThenBrowse [searchFails]
        [{}, {}, {}, {}, {}, {}] :=
  ⟨plainId_injective, replay_faithful _ plainId_injective _ _ _⟩

end Substrate
