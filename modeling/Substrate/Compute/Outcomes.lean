import Substrate.Compute.Watching

/-!
The jobs of a worker over whole runs. A thread takes a bounded number of steps and waits
for nothing but its process and the time, so every job that was started comes to an
outcome and every slot is given back.
-/

namespace Substrate.Compute.Jobs

open Lib Function

variable {ρ : Type}

section

variable {s : Runner ρ}

/-- At most how many more steps a thread takes from a phase on. -/
def Phase.rank (deadline now : Nat) : Phase ρ → Nat
  | .launching => 3 * deadline + 11
  | .starting => 3 * deadline + 10
  | .polling since => if since ≤ deadline then 3 * (deadline + 1 - since) + 6 else 9
  | .woken => if now ≤ deadline then 3 * (deadline + 1 - now) + 8 else 8
  | .late => 4
  | .writing _ => 3
  | .closing => 2
  | .releasing => 1
  | .ended => 0
  | .lost => 0

def Runner.rank (s : Runner ρ) (j : Nat) : Nat := (s.phase j).rank (s.job j).deadline s.now

/-- The step is one of the thread of the job, which does not wait for its process. -/
def Runner.turn (s : Runner ρ) (j : Nat) : Act ρ → Bool
  | .launch k _ =>
    k = j && match s.phase j with
      | .launching => true
      | _ => false
  | .watch k finding =>
    k = j && match s.phase j with
      | .launching => false
      | .polling since => (Runner.received finding).isSome || since < s.now
      | .ended => false
      | .lost => false
      | _ => true
  | _ => false

def turns (j : Nat) : List (Act ρ) → Runner ρ → Nat
  | [], _ => 0
  | act :: rest, s => (if s.turn j act then 1 else 0) + turns j rest (step act s)

def CarefulRun : List (Act ρ) → Runner ρ → Prop
  | [], _ => True
  | act :: rest, s => Careful s act ∧ CarefulRun rest (step act s)

variable {deadline now j : Nat}

theorem Phase.rank_mono {now' : Nat} (phase : Phase ρ) (h : now ≤ now') :
    phase.rank deadline now' ≤ phase.rank deadline now := by
  cases phase with
  | woken =>
    simp only [Phase.rank]
    split <;> split <;> omega
  | _ => exact le_rfl

theorem deadline_step {act : Act ρ} (hj : j < s.count) :
    ((step act s).job j).deadline = (s.job j).deadline := by
  cases act with
  | start id timeout =>
    have hne : j ≠ s.count := hj.ne
    change ((s.start id timeout).job j).deadline = _
    unfold Runner.start
    dsimp only
    split
    · rfl
    · split
      · rfl
      · simp [hne]
  | launch k started =>
    unfold step
    dsimp only
    split
    · unfold Runner.launch
      split <;> rfl
    · rfl
  | watch k finding =>
    have hset : ∀ job : Job ρ, job.deadline = (s.job (s.watcher k).job).deadline →
        (update s.job (s.watcher k).job job j).deadline = (s.job j).deadline := by
      intro job hsame
      by_cases hjk : j = (s.watcher k).job
      · rw [hjk, update_self, hsame]
      · rw [update_of_ne hjk]
    change ((s.watch k finding).job j).deadline = _
    unfold Runner.watch
    dsimp only
    repeat' split
    all_goals first | rfl | exact hset _ rfl
  | cancel call id | tick time => rfl
  | setCancelled call =>
    change ((s.setCancelled call).job j).deadline = _
    unfold Runner.setCancelled
    cases s.cancelling call with
    | none => rfl
    | some k =>
      dsimp only [Runner.setJob]
      by_cases hjk : j = k
      · rw [hjk, update_self]
      · rw [update_of_ne hjk]

theorem setPhase_phase (j k : Nat) (phase : Phase ρ) :
    (s.setPhase j phase).phase k = if k = j then phase else s.phase k := by
  rw [Runner.setPhase_eq, advance_phase]

inductive Goes (deadline now : Nat) : Phase ρ → Phase ρ → Prop
  | begin : Goes deadline now .starting (.polling now)
  | message (since : Nat) (change : Change ρ) : Goes deadline now (.polling since) (.writing change)
  | wake (since : Nat) (h : since < now) : Goes deadline now (.polling since) .woken
  | cancelled : Goes deadline now .woken .closing
  | overdue : Goes deadline now .woken .late
  | stopped (change : Change ρ) : Goes deadline now .woken (.writing change)
  | again (h : now ≤ deadline) : Goes deadline now .woken (.polling now)
  | spared : Goes deadline now .late .closing
  | limited (change : Change ρ) : Goes deadline now .late (.writing change)
  | written (change : Change ρ) : Goes deadline now (.writing change) .closing
  | stamped : Goes deadline now .closing .releasing
  | released : Goes deadline now .releasing .ended

theorem Goes.rank {phase phase' : Phase ρ} (h : Goes deadline now phase phase') :
    phase'.rank deadline now + 1 ≤ phase.rank deadline now := by
  cases h with
  | begin | message since change | cancelled | overdue | stopped change =>
    simp only [Phase.rank]
    split <;> omega
  | wake since h =>
    simp only [Phase.rank]
    split <;> split <;> omega
  | again h =>
    simp only [Phase.rank, if_pos h]
    omega
  | spared =>
    simp only [Phase.rank]
    omega
  | limited change | written change | stamped | released => exact le_rfl

theorem watch_goes (h : Inv s) (hj : j < s.count) {finding : Finding ρ}
    (hcareful : Careful s (.watch j finding)) :
    (s.turn j (.watch j finding) = true ∧
      Goes (s.job j).deadline s.now (s.phase j) ((s.watch j finding).phase j)) ∨
    (s.turn j (.watch j finding) = false ∧ (s.watch j finding).phase j = s.phase j) := by
  have hown := h.own j hj
  have hself : ∀ phase : Phase ρ,
      (update s.watcher j { s.watcher j with phase := phase } j).phase = phase := by
    intro phase
    rw [update_self]
  have hentry := h.young j hj
  have hbroken := hcareful.1
  unfold Runner.phase at hentry hbroken
  unfold Runner.turn Runner.phase Runner.watch
  dsimp only
  rw [hown]
  generalize hphase : (s.watcher j).phase = phase at hentry hbroken
  cases phase with
  | launching | ended | lost => exact .inr ⟨by simp, hphase⟩
  | starting =>
    left
    rw [hentry rfl]
    simp only [update_self, decide_true, Bool.and_self, true_and]
    exact .begin
  | polling since =>
    dsimp only
    cases hreceived : Runner.received finding with
    | some phase =>
      obtain ⟨change, rfl⟩ := received_writing (hbroken since rfl) hreceived
      left
      refine ⟨by simp, ?_⟩
      simp only [Runner.setPhase, hself]
      exact .message since change
    | none =>
      by_cases hlater : since < s.now
      · left
        refine ⟨by simp [hlater], ?_⟩
        simp only [if_pos hlater, Runner.setPhase, hself]
        exact .wake since hlater
      · right
        refine ⟨by simp [hlater], ?_⟩
        simp only [if_neg hlater]
        exact hphase
  | woken =>
    left
    refine ⟨by simp, ?_⟩
    dsimp only
    split
    · simp only [Runner.setPhase, hself]
      exact .cancelled
    · split
      · simp only [Runner.setPhase, hself]
        exact .overdue
      · next hdue =>
          split
          · simp only [Runner.setPhase, hself]
            exact .stopped _
          · simp only [Runner.setPhase, hself]
            exact .stopped _
          · simp only [Runner.setPhase, hself]
            exact .again (not_lt.mp hdue)
  | late =>
    left
    refine ⟨by simp, ?_⟩
    dsimp only
    split
    · simp only [Runner.setPhase, hself]
      exact .spared
    · simp only [Runner.setPhase, hself]
      exact .limited _
  | writing change =>
    left
    refine ⟨by simp, ?_⟩
    simp only [Runner.setPhase, Runner.setJob, hself]
    exact .written change
  | closing =>
    left
    refine ⟨by simp, ?_⟩
    simp only [Runner.setPhase, Runner.setJob, hself]
    exact .stamped
  | releasing =>
    left
    refine ⟨by simp, ?_⟩
    simp only [Runner.release, Runner.setPhase, hself]
    exact .released

theorem phase_step {act : Act ρ} (hj : j < s.count) (hlaunch : ∀ started, act ≠ .launch j started)
    (hwatch : ∀ finding, act ≠ .watch j finding) : (step act s).phase j = s.phase j := by
  cases act with
  | start id timeout =>
    have hne : j ≠ s.count := hj.ne
    change (s.start id timeout).phase j = _
    unfold Runner.start
    dsimp only
    split
    · rfl
    · split
      · rfl
      · simp [Runner.phase, hne]
  | launch k started =>
    have hne : j ≠ k := fun heq => hlaunch started (heq ▸ rfl)
    have hother : ∀ phase : Phase ρ, (s.setPhase k phase).phase j = s.phase j := fun phase => by
      rw [setPhase_phase, if_neg hne]
    unfold step
    dsimp only
    split
    · unfold Runner.launch
      split
      · exact hother _
      · exact hother _
    · rfl
  | watch k finding =>
    have hne : j ≠ k := fun heq => hwatch finding (heq ▸ rfl)
    have hother : ∀ watcher : Watcher ρ,
        (update s.watcher k watcher j).phase = (s.watcher j).phase := fun watcher => by
      rw [update_of_ne hne]
    change (s.watch k finding).phase j = _
    unfold Runner.watch
    dsimp only
    repeat' split
    all_goals first | rfl | exact hother _
  | cancel call id | tick time => rfl
  | setCancelled call =>
    change (s.setCancelled call).phase j = _
    unfold Runner.setCancelled
    cases s.cancelling call <;> rfl

theorem rank_step (h : Inv s) (hj : j < s.count) {act : Act ρ} (hcareful : Careful s act) :
    (step act s).rank j + (if s.turn j act then 1 else 0) ≤ s.rank j := by
  obtain ⟨-, -, hnow, -⟩ := step_same (s := s) act
  unfold Runner.rank
  rw [deadline_step hj]
  have hlater : ∀ phase : Phase ρ, phase.rank (s.job j).deadline (step act s).now ≤
      phase.rank (s.job j).deadline s.now := fun phase => phase.rank_mono hnow
  by_cases hwatch : ∃ finding, act = .watch j finding
  · obtain ⟨finding, rfl⟩ := hwatch
    have hmono := hlater ((s.watch j finding).phase j)
    rcases watch_goes h hj hcareful with ⟨hturn, hgoes⟩ | ⟨hturn, hsame⟩
    · have hrank := hgoes.rank
      rw [if_pos hturn]
      exact (Nat.add_le_add_right hmono 1).trans hrank
    · rw [if_neg (by rw [hturn]; exact Bool.false_ne_true)]
      rw [hsame] at hmono
      change ((s.watch j finding).phase j).rank _ _ + 0 ≤ _
      rw [hsame]
      exact hmono
  by_cases hlaunch : ∃ started, act = .launch j started
  · obtain ⟨started, rfl⟩ := hlaunch
    by_cases hphase : s.phase j = .launching
    · have hstarted : started = true := hcareful hphase
      have hnext : (step (.launch j started) s).phase j = .starting := by
        simp only [step, hphase, Runner.launch, hstarted, if_true]
        rw [setPhase_phase, if_pos rfl]
      rw [hnext, hphase]
      simp only [Phase.rank]
      split <;> omega
    · have hstep : step (.launch j started) s = s := by
        unfold step
        dsimp only
        split
        · next heq => exact absurd heq hphase
        · rfl
      have hturn : s.turn j (.launch j started) = false := by
        unfold Runner.turn
        dsimp only
        split
        · next heq => exact absurd heq hphase
        · simp
      rw [hstep, if_neg (by rw [hturn]; exact Bool.false_ne_true)]
      exact le_rfl
  · have hsame : (step act s).phase j = s.phase j :=
      phase_step hj (fun started heq => hlaunch ⟨started, heq⟩)
        fun finding heq => hwatch ⟨finding, heq⟩
    have hturn : s.turn j act = false := by
      cases act with
      | launch k started =>
        have hne : k ≠ j := fun heq => hlaunch ⟨started, heq ▸ rfl⟩
        simp [Runner.turn, hne]
      | watch k finding =>
        have hne : k ≠ j := fun heq => hwatch ⟨finding, heq ▸ rfl⟩
        simp [Runner.turn, hne]
      | _ => rfl
    rw [hsame, if_neg (by rw [hturn]; exact Bool.false_ne_true)]
    exact hlater _

end

section

variable {s : Runner ρ}

variable {j : Nat}

theorem turns_le (h : Inv s) (hj : j < s.count) {acts : List (Act ρ)}
    (hcareful : CarefulRun acts s) : turns j acts s ≤ s.rank j := by
  induction acts generalizing s with
  | nil => exact Nat.zero_le _
  | cons act rest ih =>
    have hrest := ih (inv_step h hcareful.1) (hj.trans_le (step_same act).2.1) hcareful.2
    have hfirst := rank_step h hj hcareful.1
    unfold turns
    omega

theorem goes_on (h : (s.phase j).alive = true) :
    ∃ time act, (step (.tick time) s).turn j act = true := by
  have hsame : ∀ time, (step (.tick time) s).phase j = s.phase j := fun _ => rfl
  cases hphase : s.phase j with
  | launching =>
    refine ⟨0, .launch j true, ?_⟩
    simp only [Runner.turn, hsame, hphase, decide_true, Bool.and_self]
  | polling since =>
    refine ⟨since + 1, .watch j .eof, ?_⟩
    simp only [Runner.turn, hsame, hphase, Runner.received, Option.isSome_some, Bool.true_or,
      decide_true, Bool.and_self]
  | ended | lost =>
    rw [hphase] at h
    cases h
  | _ =>
    refine ⟨0, .watch j .alive, ?_⟩
    simp only [Runner.turn, hsame, hphase, decide_true, Bool.and_self]

theorem outcome_run (h : Inv s) (hj : j < s.count) (hdone : s.state j ≠ .running) {s' : Runner ρ}
    (hrun : Steps step Careful s s') : (s'.job j).outcome = (s.job j).outcome := by
  have hall : Inv s' ∧ j < s'.count ∧ (s'.job j).outcome = (s.job j).outcome := by
    refine hrun.invariant (P := fun s' => Inv s' ∧ j < s'.count ∧
      (s'.job j).outcome = (s.job j).outcome) ?_ ⟨h, hj, rfl⟩
    rintro s₁ act ⟨hinv, hlt, hsame⟩ hcareful
    have hstate : s₁.state j ≠ .running := by
      unfold Runner.state
      rw [hsame]
      exact hdone
    exact ⟨inv_step hinv hcareful, hlt.trans_le (step_same act).2.1,
      (outcome_step hinv hlt hstate hcareful).1.trans hsame⟩
  exact hall.2.2

def Without (id : String) (s : Runner ρ) (act : Act ρ) : Prop :=
  Careful s act ∧ ∀ timeout, act ≠ .start id timeout

theorem poll_run (h : Inv s) {id : String} (hfound : s.jobs id = some j)
    (hdone : s.state j ≠ .running) {s' : Runner ρ} (hrun : Steps step (Without id) s s')
    (hrecent : ¬ Expired s' j) : s'.publicJob id = .ok (s.job j).outcome := by
  have hall : Inv s' ∧ Lasting s' id j (s.job j).outcome := by
    refine hrun.invariant (P := fun s' => Inv s' ∧ Lasting s' id j (s.job j).outcome) ?_
      ⟨h, (h.entries id j hfound).1, rfl, .inl hfound⟩
    rintro s₁ act ⟨hinv, hlasting⟩ ⟨hcareful, hother⟩
    exact ⟨inv_step hinv hcareful, hlasting.step hinv hdone hcareful hother⟩
  obtain ⟨-, -, houtcome, hfound'⟩ := hall
  unfold Runner.publicJob
  rw [hfound'.resolve_right hrecent]
  exact congrArg Except.ok houtcome

theorem size_run {met : Runner ρ → Act ρ → Prop} {size now : Nat} (h : Reaches met size now s) :
    s.size = size :=
  h.invariant (P := fun s => s.size = size)
    (fun s act hsize _ => (step_same (s := s) act).2.2.2.trans hsize) rfl

end

/-- In a careful run the slots that are not free are those of threads that have not ended; a
thread ends after a bounded number of steps, and then its job has an outcome and a finish; and
an outcome stays, and a poll returns it until the job is too old or its id is started again. -/
theorem outcomes_kept {size now : Nat} {s : Runner ρ} (h : Reaches Careful size now s) :
    s.free + s.holders.card = size ∧ (∀ j < s.count, (s.phase j).alive = false →
        s.state j ≠ .running ∧ (s.job j).finished ≠ none) ∧
      (∀ j < s.count, (∀ acts, CarefulRun acts s → turns j acts s ≤ s.rank j) ∧
        ((s.phase j).alive = true → ∃ time act, (step (.tick time) s).turn j act = true)) ∧
      (∀ j < s.count, s.state j ≠ .running → ∀ s', Steps step Careful s s' →
        (s'.job j).outcome = (s.job j).outcome) ∧
      ∀ id j, s.jobs id = some j → s.state j ≠ .running → ∀ s', Steps step (Without id) s s' →
        ¬ Expired s' j → s'.publicJob id = .ok (s.job j).outcome := by
  have hinv := inv_run h
  refine ⟨?_, ?_, ?_, ?_, ?_⟩
  · rw [← size_run h]
    exact hinv.slots
  · intro j hj hended
    have hfits := hinv.fits j hj
    cases hphase : s.phase j with
    | ended =>
      rw [hphase] at hfits
      exact ⟨hfits.2, hfits.1⟩
    | lost =>
      rw [hphase] at hfits
      exact hfits.elim
    | _ =>
      rw [hphase] at hended
      cases hended
  · exact fun j hj => ⟨fun acts hcareful => turns_le hinv hj hcareful, goes_on⟩
  · exact fun j hj hdone s' hrun => outcome_run hinv hj hdone hrun
  · exact fun id j hfound hdone s' hrun hrecent => poll_run hinv hfound hdone hrun hrecent

def worker : Runner Nat := .fresh 2 100

/-- The job `a` has the outcome of its process, which is still to be stopped. -/
def answered : Runner Nat :=
  [Act.start "a" 60, .launch 0 true, .watch 0 .alive, .watch 0 (.ok 7), .watch 0 .alive].foldl
    (fun s act => step act s) worker

def settled : Runner Nat :=
  [Act.watch 0 .alive, .watch 0 .alive].foldl (fun s act => step act s) answered

theorem reaches_answered : Reaches Careful 2 100 answered := by
  have hstart : Reaches Careful 2 100 (step (.start "a" 60) worker) := Steps.single _ nofun
  have hlaunch := hstart.next (.launch 0 true) fun _ => rfl
  have hbegin := hlaunch.next (.watch 0 .alive) ⟨nofun, nofun⟩
  have hmessage := hbegin.next (.watch 0 (.ok 7)) ⟨nofun, nofun⟩
  exact hmessage.next (.watch 0 .alive) ⟨nofun, fun _ _ => rfl⟩

theorem reaches_settled : Reaches Careful 2 100 settled := by
  have hstamp := reaches_answered.next (.watch 0 .alive) ⟨nofun, nofun⟩
  exact hstamp.next (.watch 0 .alive) ⟨nofun, nofun⟩

/-- After the finish of `a` the start of `b` leaves its outcome to be found. -/
theorem outcomes_kept_settled : Reaches Careful 2 100 settled ∧
      (step (.start "b" 60) settled).publicJob "a" = .ok ⟨.succeeded, some 7, none⟩ := by
  refine ⟨reaches_settled, ?_⟩
  obtain ⟨-, -, -, -, hpoll⟩ := outcomes_kept reaches_settled
  refine hpoll "a" 0 rfl nofun _ (Steps.single _ ⟨?_, ?_⟩) ?_
  · intro id j hentry _
    left
    by_cases hid : id = "a"
    · rw [hid] at hentry
      cases hentry
      nofun
    · have hnone : settled.jobs id = none := update_of_ne hid _ _
      rw [hnone] at hentry
      cases hentry
  · intro timeout heq
    injection heq with hid
    revert hid
    decide
  · rintro ⟨finished, hfinished, hold⟩
    cases hfinished
    revert hold
    decide

/-- A start of `b` between the outcome of `a` and its finish forgets `a`. -/
theorem outcome_forgotten : Reaches (fun _ _ => True) 2 100 answered ∧ answered.jobs "a" = some 0 ∧
      (answered.job 0).outcome = ⟨.succeeded, some 7, none⟩ ∧
        ¬ Expired (step (.start "b" 60) answered) 0 ∧
          (step (.start "b" 60) answered).publicJob "a" =
            .error "Job is not known to this worker" := by
  refine ⟨?_, rfl, rfl, ?_, rfl⟩
  · exact reaches_answered.mono fun _ _ _ => trivial
  · rintro ⟨finished, hfinished, -⟩
    cases hfinished

end Substrate.Compute.Jobs
