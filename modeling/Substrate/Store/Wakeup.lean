import Substrate.Store.Calls

/-!
No lost wakeup. A suspended run, its registrations in `rt_run_wake` and the buffered
signals live in three tables; `Awake` is what they satisfy together in every reachable
state, whatever the calls, their order and their arguments.
-/

namespace Substrate.Store

open Lib List

/-- Registrations exist only for suspended runs; no buffered signal carries a
registered name; and a run asleep on a wakeup is registered for its names. -/
structure Awake (s : Store) : Prop where
  registered : ∀ runId name, (runId, name) ∈ s.wake →
    ∃ row, s.runs.get? runId = some row ∧ row.status = .suspended
  unheard : ∀ signal ∈ s.signals, (signal.runId, signal.name) ∉ s.wake
  covered : ∀ runId row wake, s.runs.get? runId = some row →
    row.status = .suspended → row.wake = some wake → ∀ name ∈ wake.names, (runId, name) ∈ s.wake

theorem mem_clearWake {s : Store} {runId : RunId} {pair : RunId × String} :
    pair ∈ (s.clearWake runId).wake ↔ pair ∈ s.wake ∧ pair.1 ≠ runId := by
  simp [clearWake]

theorem awake_init : Awake init where
  registered := by
    intro runId name h
    cases h
  unheard := by
    intro signal h
    cases h
  covered := by
    intro runId row wake h
    cases h

namespace Awake

variable {s s' : Store}

theorem frame (h : Awake s)
    (hkept : ∀ runId row, s.runs.get? runId = some row → row.status = .suspended →
      ∃ row', s'.runs.get? runId = some row' ∧ row'.status = .suspended)
    (hback : ∀ runId row', s'.runs.get? runId = some row' →
      row'.status = .suspended → ∃ row, s.runs.get? runId = some row ∧
        row.status = .suspended ∧ row.wake = row'.wake)
    (hwake : s'.wake = s.wake)
    (hsignals : ∀ signal ∈ s'.signals, signal ∈ s.signals) : Awake s' where
  registered := by
    intro runId name hname
    rw [hwake] at hname
    obtain ⟨row, hrow, hasleep⟩ := h.registered runId name hname
    exact hkept runId row hrow hasleep
  unheard := by
    intro signal hsignal
    rw [hwake]
    exact h.unheard signal (hsignals signal hsignal)
  covered := by
    intro runId row' wake hrow' hasleep hrowWake name hname
    obtain ⟨row, hrow, hstatus, heq⟩ := hback runId row' hrow' hasleep
    rw [hwake]
    exact h.covered runId row wake hrow hstatus (heq.trans hrowWake) name hname

theorem same (h : Awake s) (hruns : s'.runs = s.runs) (hwake : s'.wake = s.wake)
    (hsignals : ∀ signal ∈ s'.signals, signal ∈ s.signals) : Awake s' := by
  refine h.frame ?_ ?_ hwake hsignals
  · intro runId row hrow hasleep
    exact ⟨row, by rw [hruns, hrow], hasleep⟩
  · intro runId row hrow hasleep
    exact ⟨row, by rw [← hruns, hrow], hasleep, rfl⟩

theorem mapped (h : Awake s) (f : RunId → RunRow → RunRow)
    (hstatus : ∀ runId row, s.runs.get? runId = some row →
      ((f runId row).status = .suspended ↔ row.status = .suspended))
    (hrowWake : ∀ runId row, s.runs.get? runId = some row →
      row.status = .suspended → (f runId row).wake = row.wake)
    (hruns : s'.runs = s.runs.map f) (hwake : s'.wake = s.wake)
    (hsignals : s'.signals = s.signals) : Awake s' := by
  refine h.frame ?_ ?_ hwake fun signal hsignal => hsignals ▸ hsignal
  · intro runId row hrow hasleep
    refine ⟨f runId row, ?_, (hstatus runId row hrow).mpr hasleep⟩
    rw [hruns, Table.get?_map, hrow]
    rfl
  · intro runId row' hrow' hasleep
    rw [hruns, Table.get?_map, Option.map_eq_some_iff] at hrow'
    obtain ⟨row, hrow, rfl⟩ := hrow'
    have hold := (hstatus runId row hrow).mp hasleep
    exact ⟨row, hrow, hold, (hrowWake runId row hrow hold).symm⟩

theorem settled (h : Awake s) (runId : RunId)
    (hothers : ∀ other, other ≠ runId → s'.runs.get? other = s.runs.get? other)
    (hself : ∀ row, s'.runs.get? runId = some row → row.status = .suspended → row.wake = none)
    (hwake : ∀ pair, pair ∈ s'.wake ↔ pair ∈ s.wake ∧ pair.1 ≠ runId)
    (hsignals : ∀ signal ∈ s'.signals, signal.runId ≠ runId → signal ∈ s.signals) :
    Awake s' where
  registered := by
    intro other name hname
    obtain ⟨hname, hne⟩ := (hwake _).mp hname
    rw [hothers other hne]
    exact h.registered other name hname
  unheard := by
    intro signal hsignal hname
    obtain ⟨hname, hne⟩ := (hwake _).mp hname
    exact h.unheard signal (hsignals signal hsignal hne) hname
  covered := by
    intro other row wake hrow hasleep hrowWake name hname
    have hne : other ≠ runId := by
      rintro rfl
      rw [hself row hrow hasleep] at hrowWake
      cases hrowWake
    rw [hothers other hne] at hrow
    exact (hwake _).mpr ⟨h.covered other row wake hrow hasleep hrowWake name hname, hne⟩

theorem makePending (h : Awake s) (runId : RunId) {t : Store}
    (hruns : t.runs = s.runs) (hwake : t.wake = s.wake)
    (hsignals : ∀ signal ∈ t.signals, signal.runId ≠ runId → signal ∈ s.signals) :
    Awake (t.makePending runId) := by
  refine h.settled runId ?_ ?_ ?_ hsignals
  · intro other hne
    change (t.runs.modify runId RunRow.queued).get? other = _
    rw [Table.get?_modify_of_ne hne, hruns]
  · intro row hrow hasleep
    change (t.runs.modify runId RunRow.queued).get? runId = some row at hrow
    rw [Table.get?_modify_self, Option.map_eq_some_iff] at hrow
    obtain ⟨old, _, rfl⟩ := hrow
    unfold RunRow.queued at hasleep ⊢
    split at hasleep
    · cases hasleep
    · rename_i hawake
      exact absurd hasleep hawake
  · intro pair
    rw [← hwake]
    exact mem_clearWake

theorem signal (h : Awake s) (runId : RunId) (name : String) (payload : JsonObject) :
    Awake (s.signal runId name payload).1 := by
  have hbuffer : (runId, name) ∉ s.wake → Awake (s.bufferSignal runId name payload) := by
    intro hfree
    refine ⟨h.registered, ?_, h.covered⟩
    intro signal hsignal
    rcases mem_append.mp hsignal with hold | hnew
    · exact h.unheard signal hold
    · rw [mem_singleton.mp hnew]
      exact hfree
  unfold Store.signal
  cases hrow : s.runs.get? runId with
  | none =>
    refine hbuffer fun hname => ?_
    obtain ⟨row, hsome, _⟩ := h.registered runId name hname
    rw [hrow] at hsome
    cases hsome
  | some row =>
    simp only
    split
    · exact h
    split
    · refine h.makePending runId rfl rfl ?_
      intro signal hsignal hne
      rcases mem_append.mp hsignal with hold | hnew
      · exact hold
      · rw [mem_singleton.mp hnew] at hne
        exact absurd rfl hne
    · rename_i hawake
      refine hbuffer fun hname => hawake ⟨?_, hname⟩
      obtain ⟨row', hsome, hasleep⟩ := h.registered runId name hname
      rw [hrow] at hsome
      cases hsome
      exact hasleep

end Awake

variable {s s' t : Store} {runId other parent child : RunId} {pair : RunId × String}
    {row : RunRow} {L : Licence} {m : Move} {name : String} {signal : SignalRow} {env : TxEnv}
    {op : Op}

theorem mem_registerWake {names : List String} : pair ∈ (s.registerWake runId names).wake ↔
      pair ∈ s.wake ∨ pair.1 = runId ∧ pair.2 ∈ names := by
  unfold registerWake
  simp only
  generalize s.wake = rows
  induction names generalizing rows with
  | nil => simp
  | cons name rest ih =>
    rw [foldl_cons, ih, mem_cons]
    obtain ⟨other, otherName⟩ := pair
    split
    · rename_i hmem
      constructor
      · rintro (hold | ⟨hrun, hrest⟩)
        · exact .inl hold
        · exact .inr ⟨hrun, .inr hrest⟩
      · rintro (hold | ⟨rfl, rfl | hrest⟩)
        · exact .inl hold
        · exact .inl hmem
        · exact .inr ⟨rfl, hrest⟩
    · simp only [mem_append, mem_singleton, Prod.mk.injEq]
      tauto

theorem awake_suspend (h : Awake s) (env : TxEnv) (wake : Wakeup)
    (hrow : s.runs.get? runId = some row) : Awake (s.suspend env runId wake).1 := by
  let slept := ((s.sleepRow runId wake).clearWake runId).registerWake runId wake.names
  have hothers : ∀ other, other ≠ runId → slept.runs.get? other = s.runs.get? other :=
    fun other hne => Table.get?_modify_of_ne hne
  have hself : slept.runs.get? runId = some (row.asleep wake) := by
    change (s.runs.modify runId _).get? runId = _
    rw [Table.get?_modify_self, hrow]
    rfl
  have hwake : ∀ pair, pair ∈ slept.wake ↔
      (pair ∈ s.wake ∧ pair.1 ≠ runId) ∨ (pair.1 = runId ∧ pair.2 ∈ wake.names) := by
    intro pair
    rw [mem_registerWake, mem_clearWake]
    rfl
  change Awake (if slept.wakeReady env runId wake then
    (slept.makePending runId, RunStatus.pending, true)
    else (slept, RunStatus.suspended, false)).1
  by_cases hready : slept.wakeReady env runId wake = true
  · rw [if_pos hready]
    refine h.settled runId ?_ ?_ ?_ fun _ hsignal _ => hsignal
    · intro other hne
      change (slept.runs.modify runId RunRow.queued).get? other = _
      rw [Table.get?_modify_of_ne hne, hothers other hne]
    · intro row' hrow' hasleep
      change (slept.runs.modify runId RunRow.queued).get? runId = _ at hrow'
      rw [Table.get?_modify_self, hself] at hrow'
      cases hrow'
      cases hasleep
    · intro pair
      refine mem_clearWake.trans ((and_congr_left' (hwake pair)).trans ?_)
      tauto
  · rw [if_neg hready]
    have hquiet : ∀ signal ∈ s.signals, signal.runId = runId → signal.name ∉ wake.names := by
      intro signal hsignal hrun hname
      refine hready ?_
      unfold wakeReady
      rw [Bool.or_eq_true, any_eq_true]
      exact .inl ⟨signal, hsignal, by simp [hrun, hname]⟩
    constructor
    · intro other name hname
      rcases (hwake _).mp hname with ⟨hold, hne⟩ | ⟨rfl, _⟩
      · rw [hothers other hne]
        exact h.registered other name hold
      · exact ⟨_, hself, rfl⟩
    · intro signal hsignal hname
      rcases (hwake _).mp hname with ⟨hold, _⟩ | ⟨hrun, hmem⟩
      · exact h.unheard signal hsignal hold
      · exact hquiet signal hsignal hrun hmem
    · intro other row' wake' hrow' hasleep hrowWake name hname
      refine (hwake _).mpr ?_
      by_cases hsame : other = runId
      · subst hsame
        rw [hself] at hrow'
        cases hrow'
        cases hrowWake
        exact .inr ⟨rfl, hname⟩
      · rw [hothers other hsame] at hrow'
        exact .inl ⟨h.covered other row' wake' hrow' hasleep hrowWake name hname, hsame⟩

theorem awake_modify (h : Awake s) (hrow : s.runs.get? runId = some row)
    (hbefore : row.status ≠ .suspended) {f : RunRow → RunRow}
    (hafter : (f row).status ≠ .suspended) : Awake { s with runs := s.runs.modify runId f } := by
  refine h.mapped (fun other row => if other = runId then f row else row) ?_ ?_ rfl rfl rfl
  · intro other row' hother
    by_cases hsame : other = runId
    · subst hsame
      rw [hrow] at hother
      cases hother
      simp [hbefore, hafter]
    · simp [hsame]
  · intro other row' hother hasleep
    have hne : other ≠ runId := by
      rintro rfl
      rw [hrow] at hother
      cases hother
      exact hbefore hasleep
    simp [hne]

theorem awake_close (h : Awake s) (env : TxEnv) (runId : RunId) (how : Ending) :
    Awake (s.close env runId how) := by
  have hruns := close_runs s env runId how
  have htables : (s.append env runId how.entry).1.wake = s.wake ∧
      (s.append env runId how.entry).1.signals = s.signals := by
    unfold append
    split
    · exact ⟨rfl, rfl⟩
    · cases how.entry.spend <;> exact ⟨rfl, rfl⟩
  refine h.settled runId ?_ ?_ ?_ ?_
  · intro other hne
    rw [hruns, Table.get?_modify_of_ne hne]
  · intro row hrow _
    rw [hruns, Table.get?_modify_self, Option.map_eq_some_iff] at hrow
    obtain ⟨old, _, rfl⟩ := hrow
    rfl
  · intro pair
    rw [← htables.1]
    exact mem_clearWake
  · intro signal hsignal _
    have hkept := (mem_filter.mp hsignal).1
    rw [← htables.2]
    exact hkept

theorem awake_park (h : Awake s) (runId : RunId) (until' : Time) :
    Awake ((s.parkRow runId until').clearWake runId) := by
  refine h.settled runId (fun other hne => Table.get?_modify_of_ne hne) ?_
    (fun pair => mem_clearWake) fun _ hsignal _ => hsignal
  intro row hrow _
  change (s.runs.modify runId _).get? runId = some row at hrow
  rw [Table.get?_modify_self, Option.map_eq_some_iff] at hrow
  obtain ⟨old, _, rfl⟩ := hrow
  rfl

theorem awake_move (h : Awake s) (hok : m.Ok L s) : Awake (m.apply s) := by
  cases m with
  | write | charge | insertMail | ack | recordSpawn | dropLive
  | forgetDeadLetter | accountLimit =>
    exact h.same rfl rfl fun _ hsignal => hsignal
  | nack env agent failure =>
    change Awake (nack env agent s failure)
    unfold nack
    split
    · exact h
    · simp only
      split <;> exact h.same rfl rfl fun _ hsignal => hsignal
  | makePending runId => exact h.makePending runId rfl rfl fun _ hsignal _ => hsignal
  | signal runId name payload => exact h.signal runId name payload
  | insertRow runId row accounts =>
    obtain ⟨hfree, spec, clock, rfl⟩ := hok
    refine h.frame ?_ ?_ rfl fun _ hsignal => hsignal
    · intro other row hrow hasleep
      refine ⟨row, ?_, hasleep⟩
      have hne : other ≠ runId := by
        rintro rfl
        rw [hfree] at hrow
        cases hrow
      exact (Table.get?_insert_of_none hfree).trans (by rw [if_neg hne, hrow])
    · intro other row hrow hasleep
      change (s.runs.insert runId _).get? other = _ at hrow
      rw [Table.get?_insert_of_none hfree] at hrow
      split at hrow
      · cases hrow
        cases hasleep
      · exact ⟨row, hrow, hasleep, rfl⟩
  | finish env runId row how =>
    have hclosed := awake_close h env runId how
    change Awake ((s.close env runId how).reportEnd runId row how)
    unfold reportEnd
    split
    · exact hclosed.signal _ _ _
    · exact hclosed
  | requestFlag runId | extendLease runId expires =>
    obtain ⟨row, hrow, hrun⟩ := hok
    have hawake : row.status ≠ .suspended := by
      rw [hrun]
      decide
    exact awake_modify h hrow hawake hawake
  | claim worker expires now runId =>
    obtain ⟨row, hrow, hpending⟩ := hok
    exact awake_modify h hrow (by rw [hpending]; decide) (f := (·.claimed worker expires now))
      (by simp [RunRow.claimed])
  | reclaim now =>
    refine h.mapped (fun _ row => row.reclaimed now) ?_ ?_ rfl rfl rfl
    · intro runId row _
      unfold RunRow.reclaimed
      split
      · rename_i hexpired
        simp only [Bool.and_eq_true, decide_eq_true_eq] at hexpired
        simp [hexpired.1]
      · rfl
    · intro runId row _ _
      unfold RunRow.reclaimed
      split <;> rfl
  | suspend env runId wake =>
    obtain ⟨⟨row, hrow, _⟩, _⟩ := hok
    exact awake_suspend h env wake hrow
  | park runId until' => exact awake_park h runId until'
  | claimSignal runId name claimId payload =>
    exact h.same rfl rfl fun _ hsignal => mem_of_mem_eraseP hsignal

theorem awake_forgets {gone : RunId → Bool} (h : Awake s) (hforgets : Forgets gone s s') :
    Awake s' where
  registered := by
    intro runId name hname
    rw [hforgets.wake, mem_filter] at hname
    obtain ⟨row, hrow, hasleep⟩ := h.registered runId name hname.1
    exact ⟨row, by simpa [hforgets.runs, hrow] using hname.2, hasleep⟩
  unheard := by
    intro signal hsignal hname
    rw [hforgets.signals, mem_filter] at hsignal
    rw [hforgets.wake, mem_filter] at hname
    exact h.unheard signal hsignal.1 hname.1
  covered := by
    intro runId row wake hrow hasleep hrowWake name hname
    rw [hforgets.runs, Option.filter_eq_some_iff] at hrow
    rw [hforgets.wake, mem_filter]
    exact ⟨h.covered runId row wake hrow.1 hasleep hrowWake name hname, hrow.2⟩

theorem awake_exec (h : Awake s) (call : Call) : Awake (exec call s) := by
  unfold exec
  cases hrun : s.perform call.env call.op with
  | error e => exact h
  | ok s' =>
    cases hdeletes : call.op.deletes with
    | true =>
      obtain ⟨gone, hforgets⟩ := perform_forgets hdeletes hrun
      exact awake_forgets h hforgets
    | false =>
      exact Steps.invariant (fun _ _ ht hok => awake_move ht hok)
        (perform_moves_any hdeletes hrun).moves h

def Ended (s : Store) (runId : RunId) : Prop :=
  ∃ row, s.runs.get? runId = some row ∧ row.status.isTerminal = true

end Substrate.Store
