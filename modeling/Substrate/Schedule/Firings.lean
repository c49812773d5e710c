import Substrate.Schedule.Tasks

/-!
What a schedule comes to with several replicas. Two replicas that hear a due time more
than a gap apart both run it; a claim made late keeps the next due time from being run;
and the status that a firing looks at may be older than its claim.
-/

namespace Substrate.Schedule

open Lib List Function

/-- What a timed run is for: an instant at which its task is due, or what was missed in an
outage. -/
inductive Purpose where
  | due (instant : Nat)
  | outage (number : Nat)
  deriving DecidableEq, Repr

/-- A tick serves its due time. A catch-up serves the outage it follows and every due time
since the task was seen. -/
def Cause.serves (due : Nat → Bool) : Cause → Purpose → Bool
  | .tick instant, .due instant' => instant = instant' && due instant'
  | .catchUp _ since now, .due instant => since < instant && instant ≤ now && due instant
  | .catchUp outage _ _, .outage outage' => outage = outage'
  | _, _ => false

namespace Firing

variable (due : Nat → Nat → Bool) (f : Firing)

def found : Bool := f.task.status = .active

def pursued : Bool :=
  match f.stage with
  | .claimed => f.found
  | .cleared => true
  | _ => false

def serves (taskId : Nat) (purpose : Purpose) : Bool :=
  f.taskId = taskId && f.cause.serves (due taskId) purpose

/-- It heard a task come due and has not tried to claim it yet. -/
def hears (taskId instant : Nat) : Prop :=
  f.taskId = taskId ∧ f.cause = .tick instant ∧ f.stage = .read ∧ f.found = true

def claimedSince (taskId instant : Nat) : Prop :=
  f.taskId = taskId ∧ ∃ now, f.claimedAt = some now ∧ instant ≤ now

end Firing

namespace World

variable (x : Expressions) (due : Nat → Nat → Bool) (s : World)

def sent (taskId : Nat) (purpose : Purpose) : Nat :=
  s.runs.countP (Firing.serves due · taskId purpose)

def underway (taskId : Nat) (purpose : Purpose) : Nat :=
  s.firings.countP fun f => f.pursued && f.serves due taskId purpose

def halted (taskId instant : Nat) : Prop := ∃ at', (taskId, at') ∈ s.halts ∧ instant ≤ at'

/-- The task was claimed then or later by a firing that had found it active. -/
def claimed (taskId instant : Nat) : Prop :=
  ∃ c ∈ s.claims, c.found = true ∧ c.claimedSince taskId instant

/-- Someone is going to run the task for a claim made then or later, or has run it or
failed to, or it stopped being active. -/
def followed (taskId instant : Nat) : Prop :=
  (∃ f ∈ s.firings, f.pursued = true ∧ f.claimedSince taskId instant) ∨
    (∃ f ∈ s.runs, f.claimedSince taskId instant) ∨
    (∃ f ∈ s.failures, f.claimedSince taskId instant) ∨ s.halted taskId instant

/-- A firing that wins its claim finds the status it has read unchanged, and no other
firing has won a claim for one of its purposes. -/
def InTime (f : Firing) (task : ScheduledTask) : Prop :=
  task.status = .active ∧ ∀ purpose, f.cause.serves (due f.taskId) purpose = true →
    s.sent due f.taskId purpose = 0 ∧ s.underway due f.taskId purpose = 0

/-- One of these firings hears a due time, or it has been claimed since it came, by a firing
that had found the task active, or the task stopped being active. -/
def attended (others : List Firing) (taskId instant : Nat) : Prop :=
  (∃ f ∈ others, f.hears taskId instant) ∨ s.claimed taskId instant ∨ s.halted taskId instant

/-- A firing that is refused its claim is not the only one to attend to its due time: the
claim that was made before is not older than it. -/
def NotSwallowed (f : Firing) : Prop :=
  ∀ instant, f.cause = .tick instant → s.attended (s.firings.erase f) f.taskId instant

/-- A replica is not stopped in the middle of a firing, unless all the firing had done was
to hear a due time that is attended to without it. -/
def NotCut (replica : Nat) (f : Firing) : Prop :=
  f.pursued = false ∧ ∀ instant, f.hears f.taskId instant →
    s.attended (s.stop replica).firings f.taskId instant

def Meets : Action → Prop
  | .claim f now => f.found = true → ∀ task, s.tasks f.taskId = some task →
      if claimable task now (x.firingGap f.task) = true then s.InTime due f task
      else s.NotSwallowed f
  | .stop replica => ∀ f ∈ s.firings, f.replica = replica → s.NotCut replica f
  | _ => True

structure Inv : Prop where
  rows : ∀ f ∈ s.firings, ∃ task, s.tasks f.taskId = some task
  single : ∀ taskId purpose, s.sent due taskId purpose + s.underway due taskId purpose ≤ 1
  running : ∀ f ∈ s.firings, f.pursued = true → f.claimedAt.isSome = true → f.wasActive = true
  ran : ∀ run ∈ s.runs, run.claimedAt.isSome = true → run.wasActive = true
  past : ∀ f ∈ s.firings, ∀ now, f.claimedAt = some now → now ≤ s.clock
  since : ∀ f ∈ s.firings, ∀ instant, f.cause = .tick instant → f.stage = .read →
    instant ≤ f.began
  claims : ∀ taskId instant, s.claimed taskId instant → s.followed taskId instant
  ticks : ∀ taskId instant, (taskId, instant) ∈ s.ticks → s.attended s.firings taskId instant

section

variable {s} {f : Firing}

theorem countP_erase_add {p : Firing → Bool} (hf : f ∈ s.firings) :
    (s.firings.erase f).countP p + (if p f = true then 1 else 0) = s.firings.countP p := by
  rw [(perm_cons_erase hf).countP_eq p, countP_cons]

theorem mem_erase {f' : Firing} (hmem : f' ∈ s.firings) (hne : f' ≠ f) :
    f' ∈ s.firings.erase f :=
  (mem_erase_of_ne hne).mpr hmem

theorem Inv.return_ (h : s.Inv due) (hf : f ∈ s.firings)
    (hpursued : f.pursued = true → ∀ taskId instant, f.claimedSince taskId instant →
      (∃ r ∈ s.runs, r.claimedSince taskId instant) ∨
        (∃ r ∈ s.failures, r.claimedSince taskId instant) ∨ s.halted taskId instant)
    (hhears : ∀ taskId instant, f.hears taskId instant →
      s.attended (s.firings.erase f) taskId instant) :
    (s.return_ f).Inv due where
  rows f' hf' := h.rows f' (mem_of_mem_erase hf')
  single taskId purpose := by
    have hcount := countP_erase_add (p := fun f => f.pursued && f.serves due taskId purpose) hf
    have hsingle := h.single taskId purpose
    change s.sent due taskId purpose + (s.firings.erase f).countP _ ≤ 1
    unfold underway at hsingle
    omega
  running f' hf' := h.running f' (mem_of_mem_erase hf')
  ran := h.ran
  past f' hf' := h.past f' (mem_of_mem_erase hf')
  since f' hf' := h.since f' (mem_of_mem_erase hf')
  claims taskId instant hclaimed := by
    rcases h.claims taskId instant hclaimed with ⟨f', hf', hpursued', hsince⟩ | hdone
    · rcases eq_or_ne f' f with rfl | hne
      · exact Or.inr (hpursued hpursued' taskId instant hsince)
      · exact Or.inl ⟨f', mem_erase hf' hne, hpursued', hsince⟩
    · exact Or.inr hdone
  ticks taskId instant htick := by
    rcases h.ticks taskId instant htick with ⟨f', hf', hhears'⟩ | hclaimed
    · rcases eq_or_ne f' f with rfl | hne
      · exact hhears taskId instant hhears'
      · exact Or.inl ⟨f', mem_erase hf' hne, hhears'⟩
    · exact Or.inr hclaimed

theorem Inv.replace (h : s.Inv due) (f' : Firing) (hf : f ∈ s.firings)
    (htask : f'.taskId = f.taskId) (hcause : f'.cause = f.cause)
    (hclaim : f'.claimedAt = f.claimedAt) (hwas : f'.wasActive = f.wasActive)
    (hpursued : f'.pursued = true → f.pursued = true) (hread : f.stage ≠ .read)
    (hread' : f'.stage ≠ .read)
    (hleave : f.pursued = true → f'.pursued = false → ∀ taskId instant,
      f.claimedSince taskId instant → ∃ r ∈ s.runs, r.claimedSince taskId instant) :
    (s.replace f f').Inv due where
  rows g hg := by
    rcases mem_cons.mp hg with rfl | hg
    · rw [htask]
      exact h.rows f hf
    · exact h.rows g (mem_of_mem_erase hg)
  single taskId purpose := by
    have hcount := countP_erase_add (p := fun f => f.pursued && f.serves due taskId purpose) hf
    have hsingle := h.single taskId purpose
    change s.sent due taskId purpose + (f' :: s.firings.erase f).countP _ ≤ 1
    unfold underway at hsingle
    rw [countP_cons]
    have hserves : f'.serves due taskId purpose = f.serves due taskId purpose := by
      unfold Firing.serves
      rw [htask, hcause]
    rw [hserves]
    cases hp : f'.pursued with
    | false =>
      simp only [Bool.false_and, Bool.false_eq_true, if_false]
      omega
    | true =>
      rw [hpursued hp] at hcount
      omega
  running g hg := by
    rcases mem_cons.mp hg with rfl | hg
    · intro hp hc
      rw [hwas]
      rw [hclaim] at hc
      exact h.running f hf (hpursued hp) hc
    · exact h.running g (mem_of_mem_erase hg)
  ran := h.ran
  past g hg := by
    rcases mem_cons.mp hg with rfl | hg
    · rw [hclaim]
      exact h.past f hf
    · exact h.past g (mem_of_mem_erase hg)
  since g hg := by
    rcases mem_cons.mp hg with rfl | hg
    · exact fun _ _ hstage => absurd hstage hread'
    · exact h.since g (mem_of_mem_erase hg)
  claims taskId instant hclaimed := by
    rcases h.claims taskId instant hclaimed with ⟨g, hg, hpursued', hsince⟩ | hdone
    · rcases eq_or_ne g f with rfl | hne
      · cases hp : f'.pursued with
        | false => exact Or.inr (Or.inl (hleave hpursued' hp taskId instant hsince))
        | true =>
          refine Or.inl ⟨f', mem_cons_self, hp, ?_⟩
          obtain ⟨ht, hnow⟩ := hsince
          exact ⟨htask.trans ht, by rwa [hclaim]⟩
      · exact Or.inl ⟨g, mem_cons_of_mem _ (mem_erase hg hne), hpursued', hsince⟩
    · exact Or.inr hdone
  ticks taskId instant htick := by
    rcases h.ticks taskId instant htick with ⟨g, hg, hhears⟩ | hclaimed
    · have hne : g ≠ f := by
        rintro rfl
        exact hread hhears.2.2.1
      exact Or.inl ⟨g, mem_cons_of_mem _ (mem_erase hg hne), hhears⟩
    · exact Or.inr hclaimed

variable {s' : World} {taskId instant replica : Nat} {task : ScheduledTask}

theorem Inv.frame (h : s.Inv due) (hclock : s.clock ≤ s'.clock)
    (htasks : ∀ taskId task, s.tasks taskId = some task → ∃ task', s'.tasks taskId = some task')
    (hfirings : s'.firings = s.firings) (hruns : s'.runs = s.runs)
    (hclaims : s'.claims = s.claims) (hticks : s'.ticks = s.ticks)
    (hfailures : s.failures ⊆ s'.failures) (hhalts : s.halts ⊆ s'.halts) :
    s'.Inv due where
  rows f hf := by
    rw [hfirings] at hf
    obtain ⟨task, htask⟩ := h.rows f hf
    exact htasks _ task htask
  single taskId purpose := by
    have hsingle := h.single taskId purpose
    unfold sent underway at *
    rwa [hfirings, hruns]
  running := by
    rw [hfirings]
    exact h.running
  ran := by
    rw [hruns]
    exact h.ran
  past := by
    rw [hfirings]
    exact fun f hf now hnow => Nat.le_trans (h.past f hf now hnow) hclock
  since := by
    rw [hfirings]
    exact h.since
  claims taskId instant hclaimed := by
    unfold claimed at hclaimed
    unfold followed
    rw [hclaims] at hclaimed
    rw [hfirings, hruns]
    rcases h.claims taskId instant hclaimed with hon | hran | ⟨f, hf, hsince⟩ | ⟨at', hat, hle⟩
    · exact Or.inl hon
    · exact Or.inr (Or.inl hran)
    · exact Or.inr (Or.inr (Or.inl ⟨f, hfailures hf, hsince⟩))
    · exact Or.inr (Or.inr (Or.inr ⟨at', hhalts hat, hle⟩))
  ticks taskId instant htick := by
    unfold attended claimed
    rw [hticks] at htick
    rw [hfirings, hclaims]
    rcases h.ticks taskId instant htick with hhears | hclaimed | ⟨at', hat, hle⟩
    · exact Or.inl hhears
    · exact Or.inr (Or.inl hclaimed)
    · exact Or.inr (Or.inr ⟨at', hhalts hat, hle⟩)

theorem setTask_some {taskId' : Nat} {task' : ScheduledTask} (h : s.tasks taskId' = some task') :
    ∃ row, (s.setTask taskId task).tasks taskId' = some row := by
  rcases eq_or_ne taskId' taskId with rfl | hne
  · exact ⟨task, update_self ..⟩
  · exact ⟨task', (update_of_ne hne ..).trans h⟩

theorem Inv.setStatus (h : s.Inv due) (taskId : Nat) (status : Status) :
    (s.setStatus taskId status).Inv due := by
  unfold World.setStatus
  cases htask : s.tasks taskId with
  | none => exact h
  | some task =>
    refine h.frame due (Nat.le_refl _) ?_ rfl rfl rfl rfl (fun _ hf => hf) ?_
    · exact fun _ _ ht => setTask_some ht
    intro halt hmem
    cases status with
    | active => exact hmem
    | _ => exact mem_cons_of_mem _ hmem

theorem setStatus_firings (taskId : Nat) (status : Status) :
    (s.setStatus taskId status).firings = s.firings := by
  unfold World.setStatus
  cases s.tasks taskId <;> rfl

theorem halted_setStatus {status : Status} (htask : s.tasks taskId = some task)
    (hstatus : status ≠ .active) (hle : instant ≤ s.clock) :
    (s.setStatus taskId status).halted taskId instant := by
  refine ⟨s.clock, ?_, hle⟩
  unfold World.setStatus
  rw [htask]
  change _ ∈ if status = .active then s.halts else (taskId, s.clock) :: s.halts
  rw [if_neg hstatus]
  exact mem_cons_self

theorem Inv.begin (h : s.Inv due) (replica : Nat) (cause : Cause)
    (htask : s.tasks taskId = some task)
    (hcause : ∀ instant, cause = .tick instant → instant ≤ s.clock) :
    (s.begin taskId replica cause task).Inv due where
  rows f hf := by
    rcases mem_cons.mp hf with rfl | hf
    · exact ⟨task, htask⟩
    · exact h.rows f hf
  single taskId' purpose := by
    have hsingle := h.single taskId' purpose
    change s.sent due taskId' purpose + List.countP _ (_ :: s.firings) ≤ 1
    rw [countP_cons_of_neg]
    · exact hsingle
    · cases cause <;> simp [Firing.pursued, Firing.serves, Cause.serves]
  running f hf := by
    rcases mem_cons.mp hf with rfl | hf
    · nofun
    · exact h.running f hf
  ran := h.ran
  past f hf := by
    rcases mem_cons.mp hf with rfl | hf
    · nofun
    · exact h.past f hf
  since f hf := by
    rcases mem_cons.mp hf with rfl | hf
    · exact fun instant heq _ => hcause instant heq
    · exact h.since f hf
  claims taskId' instant hclaimed := by
    rcases h.claims taskId' instant hclaimed with ⟨f, hf, hrest⟩ | hdone
    · exact Or.inl ⟨f, mem_cons_of_mem _ hf, hrest⟩
    · exact Or.inr hdone
  ticks taskId' instant htick := by
    rcases h.ticks taskId' instant htick with ⟨f, hf, hhears⟩ | hclaimed
    · exact Or.inl ⟨f, mem_cons_of_mem _ hf, hhears⟩
    · exact Or.inr hclaimed

theorem Inv.tick (h : s.Inv due) (hstep : s.tick replica taskId instant = some s') :
    s'.Inv due := by
  unfold World.tick at hstep
  split at hstep
  · rename_i hguard
    obtain ⟨task, htask, rfl⟩ := Option.map_eq_some_iff.mp hstep
    have hbegun := h.begin due replica (.tick instant) htask
      fun _ heq => by cases heq; exact hguard.2
    refine { hbegun with ticks := ?_ }
    intro taskId' instant' hmem
    by_cases hactive : task.status = .active
    · rw [if_pos hactive] at hmem
      rcases mem_cons.mp hmem with heq | hmem
      · cases heq
        exact Or.inl ⟨_, mem_cons_self, rfl, rfl, rfl, decide_eq_true hactive⟩
      · exact hbegun.ticks taskId' instant' hmem
    · rw [if_neg hactive] at hmem
      exact hbegun.ticks taskId' instant' hmem
  · cases hstep

theorem Inv.next (h : s.Inv due) (hstep : s.next replica = some s') : s'.Inv due := by
  unfold World.next at hstep
  split at hstep
  · rename_i outage now taskId since overdue _
    cases htask : s.tasks taskId with
    | none =>
      rw [htask] at hstep
      cases hstep
      exact h.frame due (Nat.le_refl _) (fun _ task ht => ⟨task, ht⟩) rfl rfl rfl rfl
        (fun _ hf => hf) (fun _ hf => hf)
    | some task =>
      rw [htask] at hstep
      cases hstep
      have hbegun := h.begin due replica (.catchUp outage since now) htask
        nofun
      exact hbegun.frame due (Nat.le_refl _) (fun _ task ht => ⟨task, ht⟩) rfl rfl rfl rfl
        (fun _ hf => hf) (fun _ hf => hf)
  · cases hstep

theorem Inv.win (h : s.Inv due) {now : Nat} {task : ScheduledTask} (hf : f ∈ s.firings)
    (hread : f.stage = .read) (hbegan : f.began ≤ now) (hnow : now ≤ s.clock)
    (htime : f.found = true → s.InTime due f task) {won : Firing}
    (hwon : won = { f with
      stage := .claimed, claimedAt := some now, wasActive := task.status = .active }) :
    { (s.setTask f.taskId { task with lastClaimedAt := some now }).replace f won with
      claims := won :: s.claims }.Inv due := by
  have hunpursued : f.pursued = false := by
    unfold Firing.pursued
    rw [hread]
  have hpursued : won.pursued = f.found := by
    rw [hwon]
    rfl
  have hclaimed : ∀ taskId instant, won.claimedSince taskId instant ↔
      f.taskId = taskId ∧ instant ≤ now := by
    intro taskId instant
    rw [hwon]
    simp [Firing.claimedSince]
  exact {
    rows := by
      intro g hg
      obtain ⟨row, hrow⟩ : ∃ row, s.tasks g.taskId = some row := by
        rcases mem_cons.mp hg with rfl | hg
        · rw [hwon]
          exact h.rows f hf
        · exact h.rows g (mem_of_mem_erase hg)
      exact setTask_some hrow
    single := by
      intro taskId purpose
      have hcount := countP_erase_add (p := fun f => f.pursued && f.serves due taskId purpose) hf
      have hsingle := h.single taskId purpose
      have hserves : won.serves due taskId purpose = f.serves due taskId purpose := by
        rw [hwon]
        rfl
      change s.sent due taskId purpose + List.countP _ (won :: s.firings.erase f) ≤ 1
      rw [countP_cons, hpursued, hserves]
      rw [hunpursued, Bool.false_and] at hcount
      split
      · rename_i hboth
        obtain ⟨hfound, hserve⟩ := Bool.and_eq_true_iff.mp hboth
        obtain ⟨htaskId, hpurpose⟩ := Bool.and_eq_true_iff.mp hserve
        obtain rfl := of_decide_eq_true htaskId
        obtain ⟨hsent, hunderway⟩ := (htime hfound).2 purpose hpurpose
        unfold underway at hunderway
        simp only [Bool.false_eq_true, if_false] at hcount
        omega
      · unfold underway at hsingle
        simp only [Bool.false_eq_true, if_false] at hcount
        omega
    running := by
      intro g hg
      rcases mem_cons.mp hg with rfl | hg
      · intro hp _
        rw [hpursued] at hp
        rw [hwon]
        exact decide_eq_true (htime hp).1
      · exact h.running g (mem_of_mem_erase hg)
    ran := h.ran
    past := by
      intro g hg
      rcases mem_cons.mp hg with rfl | hg
      · rw [hwon]
        intro now' heq
        cases heq
        exact hnow
      · exact h.past g (mem_of_mem_erase hg)
    since := by
      intro g hg
      rcases mem_cons.mp hg with rfl | hg
      · rw [hwon]
        nofun
      · exact h.since g (mem_of_mem_erase hg)
    claims := by
      intro taskId instant hmem
      obtain ⟨c, hc, hfound, hsince⟩ := hmem
      rcases mem_cons.mp hc with rfl | hc
      · refine Or.inl ⟨c, mem_cons_self, ?_, hsince⟩
        rw [hpursued]
        rw [hwon] at hfound
        exact hfound
      · rcases h.claims taskId instant ⟨c, hc, hfound, hsince⟩ with ⟨g, hg, hgp, hgs⟩ | hdone
        · have hne : g ≠ f := by
            rintro rfl
            rw [hunpursued] at hgp
            cases hgp
          exact Or.inl ⟨g, mem_cons_of_mem _ (mem_erase hg hne), hgp, hgs⟩
        · exact Or.inr hdone
    ticks := by
      intro taskId instant htick
      rcases h.ticks taskId instant htick with ⟨g, hg, hhears⟩ | ⟨c, hc, hrest⟩ | hhalted
      · rcases eq_or_ne g f with rfl | hne
        · obtain ⟨htaskId, hcause, _, hfound⟩ := hhears
          refine Or.inr (Or.inl ⟨won, mem_cons_self, ?_, ?_⟩)
          · rw [hwon]
            exact hfound
          · have hle := h.since g hf instant hcause hread
            exact (hclaimed taskId instant).mpr ⟨htaskId, Nat.le_trans hle hbegan⟩
        · exact Or.inl ⟨g, mem_cons_of_mem _ (mem_erase hg hne), hhears⟩
      · exact Or.inr (Or.inl ⟨c, mem_cons_of_mem _ hc, hrest⟩)
      · exact Or.inr (Or.inr hhalted) }

theorem Inv.claim (h : s.Inv due) {now : Nat} (hmeets : s.Meets x due (.claim f now))
    (hstep : s.claim x f now = some s') : s'.Inv due := by
  unfold World.claim at hstep
  split at hstep
  · rename_i hguard
    obtain ⟨hf, hread, hbegan, hnow⟩ := hguard
    have hunpursued : f.pursued = false := by
      unfold Firing.pursued
      rw [hread]
    obtain ⟨task, htask⟩ := h.rows f hf
    rw [htask] at hstep
    dsimp only at hstep
    split at hstep
    · rename_i hclaimable
      cases hstep
      apply h.win due hf hread hbegan hnow ?_ rfl
      intro hfound
      have htime := hmeets hfound task htask
      rwa [if_pos hclaimable] at htime
    · rename_i hrefused
      cases hstep
      apply h.return_ due hf
      · intro hpursued
        rw [hunpursued] at hpursued
        cases hpursued
      · intro taskId instant hhears
        obtain ⟨rfl, hcause, _, hfound⟩ := hhears
        have hswallowed := hmeets hfound task htask
        rw [if_neg hrefused] at hswallowed
        exact hswallowed instant hcause
  · cases hstep

theorem Inv.check (h : s.Inv due) (hstep : s.check f = some s') : s'.Inv due := by
  unfold World.check at hstep
  split at hstep
  · rename_i hguard
    obtain ⟨hf, hstage⟩ := hguard
    have hhears : ∀ taskId instant, ¬ f.hears taskId instant := by
      intro taskId instant hhears
      have hread := hhears.2.2.1
      rw [hstage] at hread
      cases hread
    split at hstep
    · rename_i hstatus
      cases hstep
      apply h.return_ due hf
      · intro hpursued
        unfold Firing.pursued at hpursued
        rw [hstage] at hpursued
        exact absurd (of_decide_eq_true hpursued) hstatus
      · exact fun taskId instant hh => absurd hh (hhears taskId instant)
    · rename_i hstatus
      have hpursued : f.pursued = true := by
        unfold Firing.pursued
        rw [hstage]
        exact decide_eq_true (not_not.mp hstatus)
      split at hstep
      · cases hstep
        apply h.replace due { f with stage := .cleared, began := s.clock } hf rfl rfl rfl rfl
        · exact fun _ => hpursued
        · rw [hstage]
          nofun
        · nofun
        · nofun
      · cases hstep
        obtain ⟨task, htask⟩ := h.rows f hf
        apply (h.setStatus due f.taskId .paused).return_ due
        · rw [setStatus_firings]
          exact hf
        · intro _ taskId instant hsince
          obtain ⟨rfl, now, hnow, hle⟩ := hsince
          exact Or.inr (Or.inr (halted_setStatus htask nofun
            (Nat.le_trans hle (h.past f hf now hnow))))
        · exact fun taskId instant hh => absurd hh (hhears taskId instant)
  · cases hstep

theorem Inv.submit (h : s.Inv due) (hstep : s.submit f = some s') : s'.Inv due := by
  unfold World.submit at hstep
  split at hstep
  · rename_i hguard
    obtain ⟨hf, hstage⟩ := hguard
    have hpursued : f.pursued = true := by
      unfold Firing.pursued
      rw [hstage]
    cases hstep
    exact {
      rows := by
        intro g hg
        rcases mem_cons.mp hg with rfl | hg
        · exact h.rows f hf
        · exact h.rows g (mem_of_mem_erase hg)
      single := by
        intro taskId purpose
        have hcount := countP_erase_add (p := fun f => f.pursued && f.serves due taskId purpose) hf
        have hsingle := h.single taskId purpose
        change List.countP _ (f :: s.runs) +
          List.countP _ ({ f with stage := .submitted } :: s.firings.erase f) ≤ 1
        rw [countP_cons, countP_cons_of_neg (by exact Bool.false_ne_true)]
        rw [hpursued, Bool.true_and] at hcount
        unfold sent underway at hsingle
        omega
      running := by
        intro g hg
        rcases mem_cons.mp hg with rfl | hg
        · nofun
        · exact h.running g (mem_of_mem_erase hg)
      ran := by
        intro g hg
        rcases mem_cons.mp hg with rfl | hg
        · exact h.running g hf hpursued
        · exact h.ran g hg
      past := by
        intro g hg
        rcases mem_cons.mp hg with rfl | hg
        · exact h.past f hf
        · exact h.past g (mem_of_mem_erase hg)
      since := by
        intro g hg
        rcases mem_cons.mp hg with rfl | hg
        · nofun
        · exact h.since g (mem_of_mem_erase hg)
      claims := by
        intro taskId instant hclaimed
        rcases h.claims taskId instant hclaimed with ⟨g, hg, hgp, hsince⟩ | ⟨g, hg, hsince⟩ | hdone
        · rcases eq_or_ne g f with rfl | hne
          · exact Or.inr (Or.inl ⟨g, mem_cons_self, hsince⟩)
          · exact Or.inl ⟨g, mem_cons_of_mem _ (mem_erase hg hne), hgp, hsince⟩
        · exact Or.inr (Or.inl ⟨g, mem_cons_of_mem _ hg, hsince⟩)
        · exact Or.inr (Or.inr hdone)
      ticks := by
        intro taskId instant htick
        rcases h.ticks taskId instant htick with ⟨g, hg, hhears⟩ | hclaimed
        · have hne : g ≠ f := by
            rintro rfl
            have hread := hhears.2.2.1
            rw [hstage] at hread
            cases hread
          exact Or.inl ⟨g, mem_cons_of_mem _ (mem_erase hg hne), hhears⟩
        · exact Or.inr hclaimed }
  · cases hstep

theorem Inv.fail (h : s.Inv due) (hstep : s.fail f = some s') : s'.Inv due := by
  unfold World.fail at hstep
  split at hstep
  · rename_i hguard
    obtain ⟨hf, hstage⟩ := hguard
    cases hstep
    have hfailed : ({ s.record f .failed with failures := f :: s.failures } : World).Inv due :=
      h.frame due (Nat.le_refl _) (fun _ task ht => ⟨task, ht⟩) rfl rfl rfl rfl
        (fun _ hmem => mem_cons_of_mem _ hmem) (fun _ hmem => hmem)
    apply hfailed.return_ due hf
    · exact fun _ taskId instant hsince => Or.inr (Or.inl ⟨f, mem_cons_self, hsince⟩)
    · exact fun taskId instant hhears => absurd hhears.2.2.1 hstage
  · cases hstep

theorem Inv.finish (h : s.Inv due) {waiting silent : Bool}
    (hstep : s.finish f waiting silent = some s') : s'.Inv due := by
  unfold World.finish at hstep
  split at hstep
  · rename_i hguard
    obtain ⟨hf, hstage⟩ := hguard
    cases hstep
    have hrecorded (status : RunStatus) : (s.record f status).Inv due :=
      h.frame due (Nat.le_refl _) (fun _ task ht => ⟨task, ht⟩) rfl rfl rfl rfl
        (fun _ hmem => hmem) (fun _ hmem => hmem)
    have hdone : ∀ s' : World, s'.Inv due → s'.firings = s.firings → (s'.return_ f).Inv due := by
      intro s' hs' hfirings
      apply hs'.return_ due
      · rw [hfirings]
        exact hf
      · intro hpursued
        unfold Firing.pursued at hpursued
        rw [hstage] at hpursued
        cases hpursued
      · intro taskId instant hhears
        have hread := hhears.2.2.1
        rw [hstage] at hread
        cases hread
    apply hdone
    · split
      · exact (hrecorded _).setStatus due f.taskId .completed
      · exact hrecorded _
    · split
      · exact setStatus_firings f.taskId .completed
      · rfl
  · cases hstep

theorem Inv.stop (h : s.Inv due) (hmeets : s.Meets x due (.stop replica)) :
    (s.stop replica).Inv due where
  rows f hf := h.rows f (mem_filter.mp hf).1
  single taskId purpose := by
    have hsingle := h.single taskId purpose
    have hle : (s.stop replica).underway due taskId purpose ≤ s.underway due taskId purpose :=
      List.Sublist.countP_le filter_sublist
    change s.sent due taskId purpose + _ ≤ 1
    omega
  running f hf := h.running f (mem_filter.mp hf).1
  ran := h.ran
  past f hf := h.past f (mem_filter.mp hf).1
  since f hf := h.since f (mem_filter.mp hf).1
  claims taskId instant hclaimed := by
    rcases h.claims taskId instant hclaimed with ⟨f, hf, hpursued, hsince⟩ | hdone
    · have hother : f.replica ≠ replica := by
        intro heq
        have hcut := (hmeets f hf heq).1
        rw [hpursued] at hcut
        cases hcut
      exact Or.inl ⟨f, mem_filter.mpr ⟨hf, decide_eq_true hother⟩, hpursued, hsince⟩
    · exact Or.inr hdone
  ticks taskId instant htick := by
    rcases h.ticks taskId instant htick with ⟨f, hf, hhears⟩ | hclaimed
    · rcases eq_or_ne f.replica replica with heq | hother
      · obtain ⟨rfl, hrest⟩ := hhears
        exact (hmeets f hf heq).2 instant ⟨rfl, hrest⟩
      · exact Or.inl ⟨f, mem_filter.mpr ⟨hf, decide_eq_true hother⟩, hhears⟩
    · exact Or.inr hclaimed

end

theorem Inv.step {s s' : World} (h : s.Inv due) {action : Action}
    (hmeets : s.Meets x due action) (hstep : Schedule.step x action s = some s') :
    s'.Inv due := by
  have hsame : ∀ {t : World}, t.firings = s.firings → t.runs = s.runs → t.claims = s.claims →
      t.ticks = s.ticks → t.tasks = s.tasks → t.failures = s.failures → t.halts = s.halts →
      s.clock ≤ t.clock → t.Inv due := by
    intro t hfirings hruns hclaims hticks htasks hfailures hhalts hclock
    apply h.frame due hclock ?_ hfirings hruns hclaims hticks
    · rw [hfailures]
      exact fun _ hf => hf
    · rw [hhalts]
      exact fun _ hf => hf
    · rw [htasks]
      exact fun _ task ht => ⟨task, ht⟩
  cases action with
  | advance duration =>
    cases hstep
    exact hsame rfl rfl rfl rfl rfl rfl rfl (Nat.le_add_right ..)
  | start | setThread threadId thread =>
    cases hstep
    exact hsame rfl rfl rfl rfl rfl rfl rfl (Nat.le_refl _)
  | stop replica =>
    cases hstep
    exact h.stop x due hmeets
  | sweep replica =>
    change s.sweep x replica = some s' at hstep
    unfold World.sweep at hstep
    split at hstep
    · cases hstep
      exact hsame rfl rfl rfl rfl rfl rfl rfl (Nat.le_refl _)
    · cases hstep
  | tick replica taskId instant => exact h.tick due hstep
  | next replica => exact h.next due hstep
  | runNow replica taskId =>
    change s.runNow replica taskId = some s' at hstep
    unfold World.runNow at hstep
    split at hstep
    · obtain ⟨task, htask, rfl⟩ := Option.map_eq_some_iff.mp hstep
      exact h.begin due replica .manual htask nofun
    · cases hstep
  | claim f now => exact h.claim x due hmeets hstep
  | check f => exact h.check due hstep
  | submit f => exact h.submit due hstep
  | fail f => exact h.fail due hstep
  | finish f waiting silent => exact h.finish due hstep
  | setStatus taskId status =>
    cases hstep
    exact h.setStatus due taskId status

end World

section

def reminder (lastClaimedAt : Option Nat) : ScheduledTask :=
  ⟨"interval", "60", 0, .active, false, lastClaimedAt, 0⟩

def conversations (threadId : Nat) : Option Thread :=
  if threadId = 0 then some ⟨false, false⟩ else none

def heard (replica began : Nat) (lastClaimedAt : Option Nat) : Firing :=
  ⟨0, replica, .tick 60000000, reminder lastClaimedAt, began, .read, none, false⟩

def won (firing : Firing) (now : Nat) : Firing :=
  { firing with stage := .claimed, claimedAt := some now, wasActive := true }

def cleared (firing : Firing) (now : Nat) : Firing :=
  { won firing now with stage := .cleared, began := now }

/-- The second replica hears the tick forty seconds later. -/
def apart : List Action :=
  [.start, .start, .advance 60000000, .tick 0 0 60000000,
    .claim (heard 0 60000000 none) 60000000, .check (won (heard 0 60000000 none) 60000000),
    .submit (cleared (heard 0 60000000 none) 60000000), .advance 40000000,
    .tick 1 0 60000000, .claim (heard 1 100000000 (some 60000000)) 100000000,
    .check (won (heard 1 100000000 (some 60000000)) 100000000),
    .submit (cleared (heard 1 100000000 (some 60000000)) 100000000)]

end

end Substrate.Schedule
