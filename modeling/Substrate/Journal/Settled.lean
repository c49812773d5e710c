import Mathlib.Data.List.Induction
import Substrate.Journal.Frame

/-!
What is settled at a path. The record holds no result of the calls made there, or that of
one call, which every later attempt that makes it is given again.
-/

namespace Substrate

open Session List

variable {c : Config} {path : List Nat}

/-- The call is completed with this value, and filed under its path. -/
def Settled (c : Config) (call : CallId) (value : JsonObject) (m : Memory) : Prop :=
  m.byPath call.path = some (call.kind, call.digest) ∧
    ∃ known, m.known call.id = some known ∧ known.state = .completed ∧ resolve c known = .ok value

def OpenAt (c : Config) (path : List Nat) (log : List Record) : Prop :=
  ∀ call stored once, .ok call stored once ∈ log → ∀ kind, call.id ≠ c.makeId (pathText path) kind

/-- Either no result is on record at the path, or a call there is settled. -/
def LogAt (c : Config) (path : List Nat) (log : List Record) : Prop :=
  OpenAt c path log ∨ ∃ call value, CallIn c (· = path) call ∧ Settled c call value (.ofLog log)

/-- The attempt knows what the record says about the path. -/
def AgreesAt (c : Config) (path : List Nat) (s : Session) : Prop :=
  s.memory.byPath (pathText path) = (Memory.ofLog s.log).byPath (pathText path) ∧
    ∀ kind, s.memory.known (c.makeId (pathText path) kind) =
      (Memory.ofLog s.log).known (c.makeId (pathText path) kind)

/-- What happens at one path: a call that was settled stays so and is answered
with its value, and a call that gives a value is settled. -/
structure Passed (c : Config) (path : List Nat) (s s' : Session) (more : List Event) :
    Prop where
  trace : s'.trace = s.trace ++ more
  log : LogAt c path s'.log
  kept : ∀ call value, CallIn c (· = path) call → Settled c call value (.ofLog s.log) →
    Settled c call value (.ofLog s'.log) ∧ .diverged call ∉ more ∧
      (∀ answer, .observed call answer ∈ more → answer = .ok value) ∧
      ∀ other, .started other ∈ more → other.path ≠ call.path
  value : ∀ call value, CallIn c (· = path) call → .observed call (.ok value) ∈ more →
    Settled c call value (.ofLog s'.log)

variable {call : CallId} {paths : List Nat → Prop}

theorem Settled.value_unique {value value' : JsonObject} {m : Memory} (h : Settled c call value m)
    (h' : Settled c call value' m) : value = value' := by
  obtain ⟨_, known, hknown, _, hresolve⟩ := h
  obtain ⟨_, known', hknown', _, hresolve'⟩ := h'
  rw [hknown] at hknown'
  cases hknown'
  rw [hresolve] at hresolve'
  exact Except.ok.inj hresolve'

theorem CallIn.eq_of {other : CallId} (hcall : CallIn c (· = path) call)
    (hother : CallIn c (· = path) other) (hkind : call.kind = other.kind)
    (hdigest : call.digest = other.digest) : call = other := by
  obtain ⟨_, rfl, hid, hpath⟩ := hcall
  obtain ⟨_, rfl, hid', hpath'⟩ := hother
  rcases call with ⟨id, text, kind, digest⟩
  rcases other with ⟨id', text', kind', digest'⟩
  simp only at hid hpath hid' hpath' hkind hdigest
  subst hkind hdigest hpath hpath' hid hid'
  rfl

theorem CallIn.id_ne (hinj : Function.Injective2 c.makeId) (hcall : CallIn c paths call)
    (hoff : ¬ paths path) (kind : String) : call.id ≠ c.makeId (pathText path) kind := by
  obtain ⟨other, hother, hid, _⟩ := hcall
  intro heq
  have hsame : other = path := pathText_injective (hinj (hid.symm.trans heq)).1
  exact hoff (hsame ▸ hother)

theorem CallIn.path_ne (hcall : CallIn c paths call) (hoff : ¬ paths path) :
    call.path ≠ pathText path := by
  obtain ⟨other, hother, _, htext⟩ := hcall
  intro heq
  exact hoff (pathText_injective (htext.symm.trans heq) ▸ hother)

theorem ok_of_completed {log : List Record} {id : String} {known : Known}
    (hknown : (Memory.ofLog log).known id = some known) (hdone : known.state = .completed) :
    ∃ call stored once, .ok call stored once ∈ log ∧ call.id = id := by
  induction log using List.reverseRecOn generalizing known with
  | nil => cases hknown
  | append_singleton log r ih =>
    rw [Memory.ofLog_append_singleton] at hknown
    by_cases hid : id = r.id
    · subst hid
      cases r with
      | ok call stored once => exact ⟨call, stored, once, by simp, rfl⟩
      | intent call idempotent =>
        simp only [Memory.learn, Record.id] at hknown
        split at hknown
        · obtain ⟨call', stored, once, hmem, hid⟩ := ih hknown hdone
          exact ⟨call', stored, once, mem_append_left _ hmem, hid⟩
        · rw [Memory.setKnown_known_self] at hknown
          cases hknown
          cases hdone
      | failed other error | aborted other reason =>
        simp only [Memory.learn, Record.id, Memory.setKnown_known_self] at hknown
        cases hknown
        cases hdone
    · rw [Memory.learn_known_of_ne _ hid] at hknown
      obtain ⟨call, stored, once, hmem, hid⟩ := ih hknown hdone
      exact ⟨call, stored, once, mem_append_left _ hmem, hid⟩

namespace Frame

variable {paths : List Nat → Prop} {s s' : Session}

theorem ofLog_off (hinj : Function.Injective2 c.makeId) (h : Frame c paths s s')
    (hoff : ¬ paths path) :
    (Memory.ofLog s'.log).byPath (pathText path) = (Memory.ofLog s.log).byPath (pathText path) ∧
      (∀ kind, (Memory.ofLog s'.log).known (c.makeId (pathText path) kind) =
        (Memory.ofLog s.log).known (c.makeId (pathText path) kind)) ∧
      (OpenAt c path s.log → OpenAt c path s'.log) := by
  obtain ⟨new, hlog, hnew⟩ := h.log
  rw [hlog]
  clear hlog
  induction new using List.reverseRecOn with
  | nil => simp
  | append_singleton new r ih =>
    obtain ⟨hbyPath, hknown, hopen⟩ := ih fun r' hr' => hnew r' (mem_append_left _ hr')
    obtain ⟨call, hcall, hid, habout⟩ := hnew r (by simp)
    rw [← append_assoc, Memory.ofLog_append_singleton]
    refine ⟨?_, fun kind => ?_, fun hstart => ?_⟩
    · rw [Memory.learn_byPath_of_ne, hbyPath]
      intro other hother
      rw [habout other hother]
      exact (hcall.path_ne hoff).symm
    · rw [Memory.learn_known_of_ne, hknown kind]
      rw [hid]
      exact (hcall.id_ne hinj hoff kind).symm
    · intro other stored once hmem kind
      rcases mem_append.mp hmem with hbefore | hlast
      · exact hopen hstart other stored once hbefore kind
      · rw [mem_singleton] at hlast
        subst hlast
        rw [habout other rfl]
        exact hcall.id_ne hinj hoff kind

theorem settled_off (hinj : Function.Injective2 c.makeId) (h : Frame c paths s s')
    (hoff : ¬ paths path) {call : CallId} (hcall : CallIn c (· = path) call)
    {value : JsonObject} :
    Settled c call value (.ofLog s'.log) ↔ Settled c call value (.ofLog s.log) := by
  obtain ⟨_, rfl, hid, htext⟩ := hcall
  obtain ⟨hbyPath, hknown, _⟩ := h.ofLog_off hinj hoff
  unfold Settled
  rw [htext, hid, hbyPath, hknown]

theorem logAt_off (hinj : Function.Injective2 c.makeId) (h : Frame c paths s s')
    (hoff : ¬ paths path) (hlog : LogAt c path s.log) : LogAt c path s'.log := by
  rcases hlog with hopen | ⟨call, value, hcall, hsettled⟩
  · exact .inl ((h.ofLog_off hinj hoff).2.2 hopen)
  · exact .inr ⟨call, value, hcall, (h.settled_off hinj hoff hcall).mpr hsettled⟩

theorem agreesAt_off (hinj : Function.Injective2 c.makeId) (h : Frame c paths s s')
    (hoff : ¬ paths path) (hagrees : AgreesAt c path s) : AgreesAt c path s' := by
  obtain ⟨hbyPath, hknown, _⟩ := h.ofLog_off hinj hoff
  refine ⟨?_, fun kind => ?_⟩
  · rw [hbyPath, h.byPath]
    exact hagrees.1
  · rw [hknown, h.known _ fun call hcall => (hcall.id_ne hinj hoff kind).symm]
    exact hagrees.2 kind

theorem events_off (h : Frame c paths s s') (hoff : ¬ paths path) :
    ∃ more, s'.trace = s.trace ++ more ∧
      ∀ event ∈ more, ∀ call, event.call? = some call → call.path ≠ pathText path := by
  obtain ⟨more, htrace, hmore⟩ := h.trace
  exact ⟨more, htrace, fun event hevent call hcall => (hmore event hevent call hcall).path_ne hoff⟩

theorem passed (hinj : Function.Injective2 c.makeId) (h : Frame c paths s s')
    (hoff : ¬ paths path) (hlog : LogAt c path s.log) : ∃ more, Passed c path s s' more := by
  obtain ⟨more, htrace, hmore⟩ := h.events_off hoff
  have hat : ∀ call, CallIn c (· = path) call → call.path = pathText path := by
    rintro call ⟨_, rfl, _, htext⟩
    exact htext
  refine ⟨more, htrace, h.logAt_off hinj hoff hlog, fun call value hcall hsettled => ?_,
    fun call value hcall hobserved => ?_⟩
  · refine ⟨(h.settled_off hinj hoff hcall).mpr hsettled, fun hmem => ?_, fun answer hmem => ?_,
      fun other hmem => ?_⟩
    · exact absurd (hat call hcall) (hmore _ hmem call rfl)
    · exact absurd (hat call hcall) (hmore _ hmem call rfl)
    · rw [hat call hcall]
      exact hmore _ hmem other rfl
  · exact absurd (hat call hcall) (hmore _ hobserved call rfl)

end Frame

theorem Passed.trans {s₁ s₂ s₃ : Session} {more₁ more₂ : List Event}
    (h₁ : Passed c path s₁ s₂ more₁) (h₂ : Passed c path s₂ s₃ more₂) :
    Passed c path s₁ s₃ (more₁ ++ more₂) := by
  refine ⟨by rw [h₂.trace, h₁.trace, append_assoc], h₂.log,
    fun call value hcall hsettled => ?_, fun call value hcall hobserved => ?_⟩
  · obtain ⟨hsettled₁, hdiverged₁, hanswer₁, hstarted₁⟩ := h₁.kept call value hcall hsettled
    obtain ⟨hsettled₂, hdiverged₂, hanswer₂, hstarted₂⟩ := h₂.kept call value hcall hsettled₁
    refine ⟨hsettled₂, ?_, fun answer hmem => ?_, fun other hmem => ?_⟩
    · rw [mem_append, not_or]
      exact ⟨hdiverged₁, hdiverged₂⟩
    · exact (mem_append.mp hmem).elim (hanswer₁ answer) (hanswer₂ answer)
    · exact (mem_append.mp hmem).elim (hstarted₁ other) (hstarted₂ other)
  · rcases mem_append.mp hobserved with hfirst | hsecond
    · exact (h₂.kept call value hcall (h₁.value call value hcall hfirst)).1
    · exact h₂.value call value hcall hsecond

/-- Of the call at hand: nothing is on record for it yet, or it is settled. -/
def OpenOr (c : Config) (path : List Nat) (call : CallId) (log : List Record) : Prop :=
  OpenAt c path log ∨ ∃ value, Settled c call value (.ofLog log)

variable {r : Record}

theorem OpenAt.append {log : List Record} (hopen : OpenAt c path log)
    (hok : ∀ other stored once, r ≠ .ok other stored once) : OpenAt c path (log ++ [r]) := by
  intro other stored once hmem kind
  rcases mem_append.mp hmem with hbefore | hlast
  · exact hopen other stored once hbefore kind
  · exact absurd (mem_singleton.mp hlast).symm (hok other stored once)

theorem settled_learn_ok (m : Memory) {call : CallId} {stored : Stored} {value : JsonObject}
    (hrestores : stored.Restores c value) (once : Bool) :
    Settled c call value (m.learn (.ok call stored once)) := by
  refine ⟨Memory.learn_byPath_self m rfl, _, Memory.setKnown_known_self .., rfl, ?_⟩
  exact hrestores _ rfl rfl

theorem record_value {retries : Nat} {s s' : Session} {result : JsonObject}
    (h : record retries s r = (.value result, s')) : ∃ t : Session, s' = t.append r := by
  induction retries generalizing s with
  | zero =>
    obtain ⟨tape, rfl⟩ := commit_value h
    exact ⟨_, rfl⟩
  | succ retries ih =>
    unfold record at h
    rcases hcommit : s.commit r with ⟨exit, t⟩
    rw [hcommit] at h
    cases exit with
    | raised failure => exact ih h
    | value other =>
      cases h
      obtain ⟨tape, rfl⟩ := commit_value hcommit
      exact ⟨_, rfl⟩
    | signalled signal | cut => cases h

structure Lands (c : Config) (path : List Nat) (call : CallId) (result : Exit × Session) :
    Prop where
  log : OpenOr c path call result.2.log
  value : ∀ value, result.1 = .value value → Settled c call value (.ofLog result.2.log)

namespace Lands

variable {call : CallId} {s : Session}

theorem of_open {result : Exit × Session} (hopen : OpenAt c path result.2.log)
    (hvalue : ∀ value, result.1 ≠ .value value) : Lands c path call result :=
  ⟨.inl hopen, fun value heq => absurd heq (hvalue value)⟩

theorem recordValue {value : JsonObject} {stored : Stored}
    (hrestores : stored.Restores c value) (hopen : OpenAt c path s.log) : Lands c path call (s.recordValue call value stored) := by
  have hlearnt : ∀ t : Session,
      Settled c call value (.ofLog (t.append (.ok call stored false)).log) := by
    intro t
    change Settled c call value (.ofLog (t.log ++ [.ok call stored false]))
    rw [Memory.ofLog_append_singleton]
    exact settled_learn_ok _ hrestores false
  have hrecord := record_keeps (P := fun t => OpenOr c path call t.log)
    (r := .ok call stored false) (fun _ _ h => h) (fun t _ => .inr ⟨value, hlearnt t⟩)
    outcomeRetries (.inl hopen)
  unfold Session.recordValue
  rcases hresult : record outcomeRetries s (.ok call stored false) with ⟨exit, s'⟩
  rw [hresult] at hrecord
  cases exit with
  | value result =>
    obtain ⟨t, rfl⟩ := record_value hresult
    refine ⟨hrecord, fun other heq => ?_⟩
    cases heq
    exact hlearnt t
  | raised failure | signalled signal | cut => exact ⟨hrecord, nofun⟩

theorem finish (value : JsonObject) (hopen : OpenAt c path s.log) :
    Lands c path call (s.finish c call value) := by
  have hinline := restores_value c value
  unfold Session.finish
  cases hblob : c.blob with
  | none => exact recordValue hinline hopen
  | some blob =>
    by_cases hlarge : blob.large value = true
    · simp only [hlarge, if_true]
      unfold await
      cases s.tape with
      | nil => exact of_open hopen (by simp)
      | cons tick rest =>
        simp only
        cases tick.world with
        | returns _ => exact recordValue (restores_ref hblob value) hopen
        | raises failure | signals signal => exact of_open hopen (by simp)
    · simp only [hlarge]
      exact recordValue hinline hopen

theorem recordEnd {r : Record} (hend : r.isEnd = true) {exit : Exit}
    (hexit : ∀ value, exit ≠ .value value) (hopen : OpenAt c path s.log) :
    Lands c path call (s.recordEnd r exit) := by
  have hok : ∀ other stored once, r ≠ .ok other stored once := by
    rintro other stored once rfl
    cases hend
  have happend : ∀ t : Session, OpenAt c path t.log → OpenAt c path (t.append r).log := by
    intro t ht
    unfold Session.append
    simp only
    split
    · exact ht
    · exact ht.append hok
  have hrecord := record_keeps (P := fun t => OpenAt c path t.log) (r := r)
    (fun _ _ h => h) happend outcomeRetries
    (show OpenAt c path (s.setKnown r.id { state := .absent }).log from hopen)
  unfold Session.recordEnd
  rcases hresult : record outcomeRetries (s.setKnown r.id { state := .absent }) r with
    ⟨result, s'⟩
  rw [hresult] at hrecord
  cases result with
  | value result | raised failure => exact of_open hrecord hexit
  | signalled signal | cut => exact of_open hrecord (by simp)

variable {fn : Session → Exit × Session}

theorem runBody (hinj : Function.Injective2 c.makeId) (hfn : Stays c fn) (hne : s.stack ≠ [])
    (hoff : ¬ Ahead s.stack path) (hopen : OpenAt c path s.log) :
    Lands c path call (s.runBody c call fn) := by
  unfold Session.runBody await
  cases htape : (s.note (.started call)).tape with
  | nil => exact of_open hopen (by simp)
  | cons tick rest =>
    obtain ⟨hbody, _⟩ := hfn { s.note (.started call) with tape := rest } hne
    have hran := (hbody.ofLog_off hinj hoff).2.2 hopen
    simp only
    rcases hresult : fn { s.note (.started call) with tape := rest } with ⟨exit, t⟩
    rw [hresult] at hran
    cases exit with
    | value result => exact finish (s := t.note (.returned call result)) result hran
    | raised failure =>
      exact recordEnd (s := t.note (.raised call)) (r := .failed call.id failure.info) rfl
        (by simp) hran
    | signalled signal =>
      exact recordEnd (s := t.note (.raised call)) (r := .aborted call.id "interrupted") rfl
        (by simp) hran
    | cut => exact of_open hran (by simp)

theorem execute (hinj : Function.Injective2 c.makeId) (idempotent : Bool) (hfn : Stays c fn)
    (hne : s.stack ≠ []) (hoff : ¬ Ahead s.stack path) (hopen : OpenAt c path s.log) :
    Lands c path call (s.execute c call idempotent fn) := by
  unfold Session.execute
  by_cases hintended : s.intended call = true
  · rw [if_pos hintended]
    exact runBody hinj hfn hne hoff hopen
  · rw [if_neg hintended]
    have hcommit := commit_keeps
      (P := fun t => OpenAt c path t.log ∧ t.stack = s.stack) (r := .intent call idempotent)
      (fun _ _ h => h) (fun t h => ⟨h.1.append (by simp), h.2⟩)
      ⟨hopen, rfl⟩
    rcases hresult : s.commit (.intent call idempotent) with ⟨exit, s'⟩
    rw [hresult] at hcommit
    obtain ⟨hopen', hstack⟩ := hcommit
    cases exit with
    | value result =>
      exact runBody hinj hfn (by exact hstack ▸ hne) (by exact hstack ▸ hoff) hopen'
    | raised failure | signalled signal | cut => exact of_open hopen' (by simp)

theorem atomicStep (hcall : CallIn c (· = path) call) (tick : Tick)
    (hnew : (s.memory.known call.id).filter (·.state = .completed) = none)
    (hopen : OpenAt c path s.log) : Lands c path call (s.atomicStep c tick call) := by
  unfold Session.atomicStep
  rw [hnew]
  cases tick.world with
  | raises failure | signals signal => exact of_open hopen (by simp)
  | returns value =>
    have hid : call.id = c.makeId (pathText path) call.kind := by
      obtain ⟨_, rfl, hid, _⟩ := hcall
      exact hid
    have hfresh : ∀ t : Session, OpenAt c path t.log → t.append (.ok call (.value value) true) =
          { t with log := t.log ++ [.ok call (.value value) true]
                   trace := t.trace ++ [.wrote (.ok call (.value value) true)] } := by
      intro t ht
      unfold Session.append
      rw [if_neg]
      rw [Bool.and_eq_true, any_eq_true]
      rintro ⟨_, r, hr, hkey⟩
      rw [decide_eq_true_eq] at hkey
      cases r with
      | intent other idempotent | failed other error | aborted other reason => cases hkey
      | ok other stored once =>
        cases once with
        | false => cases hkey
        | true =>
          have hsame : other.id = call.id := by
            simpa [Record.dedupKey] using hkey
          exact ht other stored true hr call.kind (hsame.trans hid)
    have hsettled : ∀ t : Session, OpenAt c path t.log →
        Settled c call value (.ofLog (t.append (.ok call (.value value) true)).log) := by
      intro t ht
      rw [hfresh t ht, Memory.ofLog_append_singleton]
      exact settled_learn_ok _ (restores_value c value) true
    unfold Session.commit await
    cases htape : s.tape with
    | nil => exact of_open hopen (by simp)
    | cons tick' rest =>
      have hdone := hsettled { s with tape := rest } hopen
      simp only
      cases tick'.commit with
      | acknowledged =>
        refine ⟨.inr ⟨value, hdone⟩, fun other heq => ?_⟩
        cases heq
        exact hdone
      | failed applied info | signalled applied signal | died applied =>
        refine ⟨?_, nofun⟩
        cases applied with
        | true => exact .inr ⟨value, hdone⟩
        | false => exact .inl hopen

end Lands

structure Met (c : Config) (path : List Nat) (call : CallId) (s : Session)
    (result : Exit × Session) (more : List Event) : Prop where
  trace : result.2.trace = s.trace ++ more
  unseen : ∀ other answer, .observed other answer ∈ more → other.path ≠ pathText path
  log : LogAt c path result.2.log
  kept : ∀ other value, CallIn c (· = path) other → Settled c other value (.ofLog s.log) →
    result.2.log = s.log ∧ .diverged other ∉ more ∧
      (∀ started, .started started ∈ more → started.path ≠ other.path) ∧
      (other = call → ∀ answer, result.1.answer? = some answer → answer = .ok value)
  value : ∀ value, result.1 = .value value → Settled c call value (.ofLog result.2.log)

def Unseen (path : List Nat) (s s' : Session) : Prop := ∃ more, s'.trace = s.trace ++ more ∧
    ∀ other answer, .observed other answer ∈ more → other.path ≠ pathText path

theorem Unseen.refl (s : Session) : Unseen path s s := ⟨[], by simp⟩

theorem Unseen.trans {s₁ s₂ s₃ : Session} (h₁ : Unseen path s₁ s₂) (h₂ : Unseen path s₂ s₃) :
    Unseen path s₁ s₃ := by
  obtain ⟨more₁, htrace₁, hmore₁⟩ := h₁
  obtain ⟨more₂, htrace₂, hmore₂⟩ := h₂
  refine ⟨more₁ ++ more₂, by rw [htrace₂, htrace₁, append_assoc], fun other answer hmem => ?_⟩
  exact (mem_append.mp hmem).elim (hmore₁ other answer) (hmore₂ other answer)

variable {s : Session} {fn : Session → Exit × Session} {kind : String} {args : Json}
    {call : CallId} {result : Exit × Session} {next : Answer → Session → Exit × Session}

theorem Unseen.of_trace {s' : Session} (htrace : s'.trace = s.trace) : Unseen path s s' :=
  ⟨[], by simp [htrace]⟩

theorem Unseen.handles (call : CallId) (s : Session) (within : PathStack → Prop) :
    Handles call fun t => Unseen path s t ∧ within t.stack where
  tape := fun _ _ h => h
  note := fun t event hevent h => by
    refine ⟨h.1.trans ⟨[event], rfl, fun other answer hmem => ?_⟩, h.2⟩
    rw [mem_singleton] at hmem
    subst hmem
    exact hevent.elim
  setKnown := fun _ _ h => h
  append := fun t r _ h =>
    ⟨h.1.trans ⟨[.wrote r], rfl, fun _ _ hmem => nomatch mem_singleton.mp hmem⟩, h.2⟩

theorem Stays.unseen (hfn : Stays c fn) (hne : s.stack ≠ []) (hoff : ¬ Ahead s.stack path) :
    Unseen path s (fn s).2 := by
  obtain ⟨more, htrace, hmore⟩ := (hfn s hne).1.events_off hoff
  exact ⟨more, htrace, fun other answer hmem => hmore _ hmem other rfl⟩

theorem atCall_met {s : Session} {kind : String}
    {args : Json} {step : Tick → CallId → Session → Exit × Session}
    (hagrees : AgreesAt c s.stack.reverse s) (hlog : LogAt c s.stack.reverse s.log)
    (hanswer : ∀ tick rest known value,
      s.memory.known (c.callAt s.stack kind args).id = some known → known.state = .completed →
      resolve c known = .ok value →
        let t := s.issue (c.callAt s.stack kind args) rest
        let result := step tick (c.callAt s.stack kind args) t
        result.1 = .value value ∧ result.2.log = t.log ∧ ∃ more, result.2.trace = t.trace ++ more ∧
          ∀ event ∈ more, ∃ call idempotent reply, event = .called call idempotent reply)
    (hopen : ∀ tick rest, OpenAt c s.stack.reverse s.log →
      (s.memory.known (c.callAt s.stack kind args).id).filter (·.state = .completed) = none →
        let t := s.issue (c.callAt s.stack kind args) rest
        let result := step tick (c.callAt s.stack kind args) t
        Lands c s.stack.reverse (c.callAt s.stack kind args) result ∧
          Unseen s.stack.reverse t result.2) :
    ∃ more, Met c s.stack.reverse (c.callAt s.stack kind args) s
      (s.atCall c kind args step) more := by
  let call := c.callAt s.stack kind args
  have hcall : CallIn c (· = s.stack.reverse) call := callAt_in rfl
  have hat : ∀ {other value}, CallIn c (· = s.stack.reverse) other →
      Settled c other value (.ofLog s.log) →
      s.memory.byPath call.path = some (other.kind, other.digest) ∧
        ∃ known, s.memory.known other.id = some known ∧ known.state = .completed ∧
          resolve c known = .ok value := by
    rintro other value ⟨_, rfl, hid, htext⟩ ⟨hbyPath, hknown⟩
    have hmatch := hagrees.2 other.kind
    rw [← hid] at hmatch
    rw [htext, ← hagrees.1] at hbyPath
    exact ⟨hbyPath, hmatch ▸ hknown⟩
  rcases s.atCall_cases c kind args step with heq | ⟨tick, rest, _, hcase⟩
  · rw [heq]
    exact ⟨[], by simp, by simp, hlog, fun other value _ _ =>
      ⟨rfl, by simp, by simp, nofun⟩, nofun⟩
  · have htrace : (s.issue call rest).trace = s.trace ++ [.issued call] := rfl
    rcases hcase with ⟨prior, hprior, hdiffers, heq⟩ | ⟨hsame, heq⟩
    · rw [heq]
      refine ⟨[.issued call, .diverged call], ?_, by simp, hlog, fun other value hother hsettled => ?_,
        nofun⟩
      · change (s.issue call rest).trace ++ [.diverged call] = _
        rw [htrace, append_assoc]
        rfl
      · have hne : other ≠ call := by
          rintro rfl
          have hbyPath := (hat hother hsettled).1
          rw [hprior] at hbyPath
          exact hdiffers (Option.some.inj hbyPath)
        refine ⟨rfl, ?_, by simp, fun heq => absurd heq hne⟩
        simpa using hne
    · have hown : ∀ other value, CallIn c (· = s.stack.reverse) other →
          Settled c other value (.ofLog s.log) → other = call := by
        intro other value hother hsettled
        have hpair := hsame _ (hat hother hsettled).1
        simp only [Prod.mk.injEq] at hpair
        exact hother.eq_of hcall hpair.1 hpair.2
      rw [heq]
      cases hdone : (s.memory.known call.id).filter (·.state = .completed) with
      | some known =>
        -- A completed step has a result on record, so its path is closed, by this very call.
        obtain ⟨hknown, hstate⟩ := Option.filter_eq_some_iff.mp hdone
        rw [decide_eq_true_eq] at hstate
        have hrecorded : (Memory.ofLog s.log).known call.id = some known :=
          (hagrees.2 kind).symm.trans hknown
        obtain ⟨other, stored, once, hmem, hid⟩ := ok_of_completed hrecorded hstate
        have hclosed : ∃ value, Settled c call value (.ofLog s.log) := by
          rcases hlog with hopenLog | ⟨settled, value, hother, hsettled⟩
          · exact absurd hid (hopenLog other stored once hmem kind)
          · exact ⟨value, hown settled value hother hsettled ▸ hsettled⟩
        obtain ⟨value, hsettled⟩ := hclosed
        obtain ⟨_, known', hknown', _, hresolve⟩ := hat hcall hsettled
        rw [hknown] at hknown'
        cases hknown'
        obtain ⟨hvalue, hlogEq, more, hmore, hcalled⟩ :=
          hanswer tick rest known value hknown hstate hresolve
        have hsettled' : Settled c call value
            (.ofLog (step tick call (s.issue call rest)).2.log) := by
          rw [hlogEq]
          exact hsettled
        refine ⟨.issued call :: more, ?_, ?_, .inr ⟨call, value, hcall, hsettled'⟩, ?_, ?_⟩
        · rw [hmore, htrace, append_assoc]
          rfl
        · intro other answer hmem
          rcases mem_cons.mp hmem with heq | hmem
          · cases heq
          · obtain ⟨_, _, _, heq⟩ := hcalled _ hmem
            cases heq
        · intro other value' hother hsettled'
          refine ⟨hlogEq, fun hmem => ?_, fun started hmem => ?_, fun heq answer hgiven => ?_⟩
          · rcases mem_cons.mp hmem with heq | hmem
            · cases heq
            · obtain ⟨_, _, _, heq⟩ := hcalled _ hmem
              cases heq
          · rcases mem_cons.mp hmem with heq | hmem
            · cases heq
            · obtain ⟨_, _, _, heq⟩ := hcalled _ hmem
              cases heq
          · subst heq
            rw [hvalue] at hgiven
            cases hgiven
            rw [hsettled.value_unique hsettled']
        · intro value' hvalue'
          rw [hvalue] at hvalue'
          cases hvalue'
          exact hsettled'
      | none =>
        have hnone : ∀ other value, CallIn c (· = s.stack.reverse) other →
            ¬ Settled c other value (.ofLog s.log) := by
          intro other value hother hsettled
          have hsame := hown other value hother hsettled
          subst hsame
          obtain ⟨_, known, hknown, hstate, _⟩ := hat hother hsettled
          rw [hknown, Option.filter_some, decide_eq_true hstate] at hdone
          cases hdone
        have hopenLog : OpenAt c s.stack.reverse s.log := by
          rcases hlog with hopenLog | ⟨other, value, hother, hsettled⟩
          · exact hopenLog
          · exact absurd hsettled (hnone other value hother)
        obtain ⟨hlands, more, hmore, hunseen⟩ := hopen tick rest hopenLog hdone
        refine ⟨.issued call :: more, ?_, ?_, ?_, ?_, hlands.value⟩
        · rw [hmore, htrace, append_assoc]
          rfl
        · intro other answer hmem
          rcases mem_cons.mp hmem with heq | hmem
          · cases heq
          · exact hunseen other answer hmem
        · exact hlands.log.imp_right fun ⟨value, hsettled⟩ => ⟨call, value, hcall, hsettled⟩
        · exact fun other value hother hsettled => absurd hsettled (hnone other value hother)

theorem effect_met (hinj : Function.Injective2 c.makeId) (idempotent : Bool) (hfn : Stays c fn)
    (hagrees : AgreesAt c s.stack.reverse s) (hlog : LogAt c s.stack.reverse s.log) :
    ∃ more, Met c s.stack.reverse (c.callAt s.stack kind args) s
      (s.effect c kind args idempotent fn) more := by
  let call := c.callAt s.stack kind args
  refine atCall_met hagrees hlog (fun tick rest known value hknown hstate hresolve => ?_)
    (fun tick rest hopen hdone => ?_)
  · have hreply : (s.issue call rest).replyTo c call idempotent = .answered value := by
      unfold Session.replyTo
      rw [show (s.issue call rest).memory.known call.id = _ from hknown]
      simp only [hstate, hresolve]
    simp only [call] at hreply
    simp only [hreply]
    refine ⟨rfl, rfl, [_], rfl, fun event hevent => ?_⟩
    rw [mem_singleton] at hevent
    exact ⟨_, _, _, hevent⟩
  · let t := (s.issue call rest).note (.called call idempotent
      ((s.issue call rest).replyTo c call idempotent))
    have hunseen : Unseen s.stack.reverse (s.issue call rest) t := ⟨[_], rfl, by simp⟩
    have hinner : t.enterScope.stack = bodyStack s.stack := rfl
    have hoff : ¬ Ahead t.enterScope.stack s.stack.reverse := own_not_body s.stack
    refine ⟨?_, ?_⟩
    · change Lands c _ call (t.serve c call idempotent fn _)
      cases hreply : (s.issue call rest).replyTo c call idempotent with
      | answered value =>
        -- Only a completed step is answered.
        exfalso
        unfold Session.replyTo at hreply
        cases hknown : (s.issue call rest).memory.known call.id with
        | none => simp [hknown] at hreply
        | some known =>
          have hstate : known.state ≠ .completed := by
            intro hstate
            have hmem : s.memory.known call.id = some known := hknown
            rw [hmem, Option.filter_some, decide_eq_true hstate] at hdone
            cases hdone
          rw [hknown] at hreply
          cases hcase : known.state with
          | completed => exact hstate hcase
          | pending => cases idempotent <;> simp [hcase] at hreply
          | absent => simp [hcase] at hreply
      | unresolved ref | orphaned => exact Lands.of_open hopen (by simp [Session.serve])
      | admitted =>
        have hexecute : Lands c s.stack.reverse call (t.enterScope.execute c call idempotent fn) :=
          Lands.execute hinj idempotent hfn (cons_ne_nil _ _) hoff hopen
        exact ⟨hexecute.log, hexecute.value⟩
    · refine hunseen.trans ?_
      refine Handles.serve (Unseen.handles call t (· = bodyStack s.stack))
        (Unseen.handles call t fun _ => True) (fun u hu => ⟨hu.1, trivial⟩) ?_
        (R := Unseen s.stack.reverse t) (fun u hu => hu.1) c idempotent (.refl t)
        ⟨.of_trace rfl, hinner⟩ _
      rintro u ⟨hu, (hstack : u.stack = bodyStack s.stack)⟩
      have hoff : ¬ Ahead u.stack s.stack.reverse := hstack ▸ own_not_body s.stack
      have hne : u.stack ≠ [] := hstack ▸ cons_ne_nil _ _
      exact ⟨hu.trans (hfn.unseen hne hoff), trivial⟩

theorem recordAtomic_met (hagrees : AgreesAt c s.stack.reverse s)
    (hlog : LogAt c s.stack.reverse s.log) :
    ∃ more, Met c s.stack.reverse (c.callAt s.stack kind args) s
      (s.recordAtomic c kind args) more := by
  let call := c.callAt s.stack kind args
  refine atCall_met hagrees hlog (fun tick rest known value hknown hstate hresolve => ?_)
    (fun tick rest hopen hdone => ?_)
  · have hfilter : ((s.issue call rest).memory.known call.id).filter (·.state = .completed) =
        some known := by
      change (s.memory.known call.id).filter _ = _
      rw [hknown, Option.filter_some, decide_eq_true hstate]
      rfl
    have hstep : (s.issue call rest).atomicStep c tick call =
        (.value value, s.issue call rest) := by
      unfold Session.atomicStep
      simp only [hfilter, hresolve]
    intro t result
    have hresult : result = (.value value, t) := hstep
    rw [hresult]
    exact ⟨rfl, rfl, [], by simp, by simp⟩
  · refine ⟨Lands.atomicStep (callAt_in rfl) tick hdone hopen, ?_⟩
    exact ((Unseen.handles call _ fun _ => True).atomicStep c tick ⟨.refl _, trivial⟩).1

private theorem Met.goOn (hinj : Function.Injective2 c.makeId) (hcall : CallIn c (· = path) call)
    {more : List Event} (hmet : Met c path call s result more)
    (hnext : ∀ answer, Stays c (next answer)) (hne : result.2.stack ≠ [])
    (hoff : ∀ answer, result.1.answer? = some answer → ¬ Ahead result.2.stack path) :
    ∃ more, Passed c path s (goOn call next result).2 more := by
  have hat : ∀ other, CallIn c (· = path) other → other.path = pathText path := by
    rintro other ⟨_, rfl, _, htext⟩
    exact htext
  rcases goOn_cases call next result with ⟨answer, hanswer, heq⟩ | ⟨_, heq⟩
  · rw [heq]
    let t := result.2.note (.observed call answer)
    have hseen : Passed c path s t (more ++ [.observed call answer]) := by
      refine ⟨?_, hmet.log, fun other value hother hsettled => ?_,
        fun other value hother hobserved => ?_⟩
      · change result.2.trace ++ [_] = _
        rw [hmet.trace, append_assoc]
      · obtain ⟨hlog, hdiverged, hstarted, hgiven⟩ := hmet.kept other value hother hsettled
        refine ⟨?_, by simpa using hdiverged, fun answer' hmem => ?_, fun started hmem => ?_⟩
        · change Settled c other value (.ofLog result.2.log)
          rw [hlog]
          exact hsettled
        · rcases mem_append.mp hmem with hbefore | hlast
          · exact absurd (hat other hother) (hmet.unseen other answer' hbefore)
          · rw [mem_singleton] at hlast
            cases hlast
            exact hgiven rfl answer hanswer
        · rcases mem_append.mp hmem with hbefore | hlast
          · exact hstarted started hbefore
          · cases mem_singleton.mp hlast
      · rcases mem_append.mp hobserved with hbefore | hlast
        · exact absurd (hat other hother) (hmet.unseen other _ hbefore)
        · rw [mem_singleton] at hlast
          cases hlast
          refine hmet.value value ?_
          cases hexit : result.1 <;> rw [hexit] at hanswer <;> cases hanswer
          rfl
    obtain ⟨rest, hrest⟩ := (hnext answer t hne).1.passed hinj (hoff answer hanswer) hseen.log
    exact ⟨_, hseen.trans hrest⟩
  · rw [heq]
    refine ⟨more, hmet.trace, hmet.log, fun other value hother hsettled => ?_,
      fun other value hother hobserved => ?_⟩
    · obtain ⟨hlog, hdiverged, hstarted, _⟩ := hmet.kept other value hother hsettled
      rw [hlog]
      exact ⟨hsettled, hdiverged,
        fun answer hmem => absurd (hat other hother) (hmet.unseen other answer hmem), hstarted⟩
    · exact absurd (hat other hother) (hmet.unseen other _ hobserved)

/-- Code that passes the path by, whatever stack it runs on. -/
def Passes (c : Config) (path : List Nat) (fn : Session → Exit × Session) : Prop :=
  ∀ s, s.stack ≠ [] → (Ahead s.stack path → AgreesAt c path s) → LogAt c path s.log →
    ∃ more, Passed c path s (fn s).2 more

private theorem goOn_passes (hinj : Function.Injective2 c.makeId)
    (hcall : CallIn c (· ≠ path) call) (hresult : ∃ more, Passed c path s result.2 more)
    (hne : result.2.stack ≠ [])
    (hagrees : ∀ answer, result.1.answer? = some answer → Ahead result.2.stack path →
      AgreesAt c path result.2) (hnext : ∀ answer, Passes c path (next answer)) :
    ∃ more, Passed c path s (goOn call next result).2 more := by
  obtain ⟨more, hpassed⟩ := hresult
  rcases goOn_cases call next result with ⟨answer, hanswer, heq⟩ | ⟨_, heq⟩
  · rw [heq]
    let t := result.2.note (.observed call answer)
    have hnote : Frame c (· ≠ path) result.2 t := by
      refine .note _ fun other hother => ?_
      cases hother
      exact hcall
    obtain ⟨seen, hseen⟩ := hnote.passed hinj (by simp) hpassed.log
    obtain ⟨rest, hrest⟩ := hnext answer t hne (hagrees answer hanswer) hseen.log
    exact ⟨_, hpassed.trans (hseen.trans hrest)⟩
  · rw [heq]
    exact ⟨more, hpassed⟩

private theorem Passed.handles (hinj : Function.Injective2 c.makeId)
    (hcall : CallIn c (· ≠ path) call) (s : Session) :
    Handles call fun t => ∃ more, Passed c path s t more := by
  have hthen : ∀ t u, (∃ more, Passed c path s t more) → Frame c (· ≠ path) t u →
      ∃ more, Passed c path s u more := by
    rintro t u ⟨more, hpassed⟩ hframe
    obtain ⟨last, hlast⟩ := hframe.passed hinj (by simp) hpassed.log
    exact ⟨_, hpassed.trans hlast⟩
  refine ⟨fun t tape h => hthen t _ h (.of_eq rfl rfl rfl), fun t event hevent h => ?_,
    fun t known h => hthen t _ h (.setKnown t known hcall),
    fun t r habout h => hthen t _ h (.append t hcall habout)⟩
  refine hthen t _ h (.note t fun other hother => ?_)
  rw [hevent.call_eq] at hother
  cases hother
  exact hcall

private theorem atCall_elsewhere (hinj : Function.Injective2 c.makeId) {s : Session}
    {kind : String} {args : Json} {step : Tick → CallId → Session → Exit × Session}
    (hown : s.stack.reverse ≠ path) (hlog : LogAt c path s.log)
    (hstep : ∀ tick rest, let t := s.issue (c.callAt s.stack kind args) rest
      Frame c (· ≠ path) s t → ∃ more, Passed c path s
        (step tick (c.callAt s.stack kind args) t).2 more) :
    ∃ more, Passed c path s (s.atCall c kind args step).2 more := by
  have hissue : ∀ rest, Frame c (· ≠ path) s (s.issue (c.callAt s.stack kind args) rest) :=
    fun rest => Frame.issue hown rest
  rcases s.atCall_cases c kind args step with heq | ⟨tick, rest, _, hcase⟩
  · rw [heq]
    exact Frame.passed hinj (.refl s : Frame c (· ≠ path) s s) (by simp) hlog
  · rcases hcase with ⟨prior, _, _, heq⟩ | ⟨_, heq⟩
    · rw [heq]
      refine Frame.passed hinj (?_ : Frame c (· ≠ path) s _) (by simp) hlog
      refine (hissue rest).trans (.note _ fun other hother => ?_)
      cases hother
      exact callAt_in hown
    · rw [heq]
      exact hstep tick rest (hissue rest)

private theorem effect_elsewhere (hinj : Function.Injective2 c.makeId) (idempotent : Bool)
    (hfn : Passes c path fn) (hown : s.stack.reverse ≠ path)
    (hagrees : Ahead (bodyStack s.stack) path → AgreesAt c path s) (hlog : LogAt c path s.log) :
    ∃ more, Passed c path s (s.effect c kind args idempotent fn).2 more := by
  have hoff : ¬ (· ≠ path) path := by simp
  refine atCall_elsewhere hinj hown hlog fun tick rest hissue => ?_
  let call := c.callAt s.stack kind args
  let reply := (s.issue call rest).replyTo c call idempotent
  let t := (s.issue call rest).note (.called call idempotent reply)
  have hcall : CallIn c (· ≠ path) call := callAt_in hown
  have hcalled : Frame c (· ≠ path) s t := by
    refine hissue.trans (.note _ fun other hother => ?_)
    cases hother
    exact hcall
  have hentered : Frame c (· ≠ path) s t.enterScope := hcalled.trans (.of_eq rfl rfl rfl)
  have hexit : ∀ u, (∃ more, Passed c path s u more) →
      ∃ more, Passed c path s u.exitScope more := by
    rintro u ⟨more, hpassed⟩
    exact ⟨more, hpassed.trace, hpassed.log, hpassed.kept, hpassed.value⟩
  -- Before the body the path is as it was, and after it the path has been passed.
  refine Handles.serve (Frame.handles hcall s (· = bodyStack s.stack))
    (Passed.handles hinj hcall s) (fun u hu => hu.1.passed hinj hoff hlog) ?_
    (R := fun u => ∃ more, Passed c path s u more) hexit c idempotent
    (hcalled.passed hinj hoff hlog) ⟨hentered, rfl⟩ reply
  rintro u ⟨hu, (hstack : u.stack = bodyStack s.stack)⟩
  obtain ⟨before, hbefore⟩ := hu.passed hinj hoff hlog
  have hne : u.stack ≠ [] := hstack ▸ cons_ne_nil _ _
  obtain ⟨inner, hinner⟩ := hfn u hne
    (fun hahead => hu.agreesAt_off hinj hoff (hagrees (hstack ▸ hahead))) hbefore.log
  exact ⟨_, hbefore.trans hinner⟩

private theorem recordAtomic_elsewhere (hinj : Function.Injective2 c.makeId)
    (hown : s.stack.reverse ≠ path) (hlog : LogAt c path s.log) :
    ∃ more, Passed c path s (s.recordAtomic c kind args).2 more :=
  atCall_elsewhere hinj hown hlog fun tick _ hissue =>
    (Passed.handles hinj (callAt_in hown) s).atomicStep c tick (hissue.passed hinj (by simp) hlog)

private theorem call_passes (hinj : Function.Injective2 c.makeId) (hne : s.stack ≠ [])
    (hleaves : Leaves c s result) (hstays : ∀ answer, Stays c (next answer))
    (hnext : ∀ answer, Passes c path (next answer))
    (hagrees : Ahead s.stack path → AgreesAt c path s)
    (hmet : s.stack.reverse = path → AgreesAt c path s →
      ∃ more, Met c path (c.callAt s.stack kind args) s result more)
    (helsewhere : s.stack.reverse ≠ path → ∃ more, Passed c path s result.2 more) :
    ∃ more, Passed c path s (goOn (c.callAt s.stack kind args) next result).2 more := by
  by_cases hown : s.stack.reverse = path
  · have hahead : Ahead s.stack path := hown ▸ ahead_own hne
    obtain ⟨more, hmet⟩ := hmet hown (hagrees hahead)
    refine hmet.goOn hinj (callAt_in hown) hstays hleaves.past.ne_nil fun answer hanswer => ?_
    rw [hleaves.next answer hanswer, ← hown]
    exact own_not_next s.stack
  · refine goOn_passes hinj (callAt_in hown) (helsewhere hown) hleaves.past.ne_nil
      (fun answer hanswer hahead => ?_) hnext
    have hoff : ¬ callPaths s.stack path := by
      intro hin
      rw [hleaves.next answer hanswer] at hahead
      exact callPaths_not_next hin hahead
    exact hleaves.frame.agreesAt_off hinj hoff (hagrees (hleaves.past.ahead hahead))

theorem run_passes (hinj : Function.Injective2 c.makeId) (path : List Nat) (p : Prog) :
    Passes c path (run c p) := by
  induction p with
  | done value | raise failure | interrupt signal =>
    intro s _ _ hlog
    exact Frame.passed hinj (.refl s : Frame c (fun _ => False) s s) id hlog
  | outside =>
    intro s _ _ hlog
    refine Frame.passed hinj (?_ : Frame c (fun _ => False) s _) id hlog
    unfold run await
    cases s.tape with
    | nil => exact .refl s
    | cons tick rest =>
      simp only
      cases tick.world <;> exact .of_eq rfl rfl rfl
  | effect kind args idempotent body next ihBody ihNext =>
    intro s hne hagrees hlog
    have hbody := run_stays c body
    refine call_passes hinj hne (effect_leaves kind args idempotent hbody s hne)
      (fun answer => run_stays c (next answer)) ihNext hagrees (fun hown hat => ?_)
      (fun hown => effect_elsewhere hinj idempotent ihBody hown
        (fun hahead => hagrees (hahead.of_body hne)) hlog)
    subst hown
    exact effect_met hinj idempotent hbody hat hlog
  | atomic kind args next ihNext =>
    intro s hne hagrees hlog
    refine call_passes hinj hne (recordAtomic_leaves kind args s hne)
      (fun answer => run_stays c (next answer)) ihNext hagrees (fun hown hat => ?_)
      (fun hown => recordAtomic_elsewhere hinj hown hlog)
    subst hown
    exact recordAtomic_met hat hlog

end Substrate
