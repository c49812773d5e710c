import Mathlib.Data.Finset.Card
import Substrate.Compute.Jobs

/-!
What each step of a worker keeps, under conditions that its watchers and its starts do not
check themselves: slots are accounted for by the threads that will give them back, and a job
with an outcome keeps it and is found until it is too old.
-/

namespace Substrate.Compute.Jobs

open Lib Function Option

variable {ρ : Type}

def Phase.young : Phase ρ → Bool
  | .launching => true
  | .starting => true
  | _ => false

def Phase.opened : Phase ρ → Bool
  | .closing => false
  | .releasing => false
  | .ended => false
  | .lost => false
  | _ => true

def Phase.alive : Phase ρ → Bool
  | .ended => false
  | .lost => false
  | _ => true

/-- What a job is like in a phase of its watcher. -/
def Phase.Fits (job : Job ρ) : Phase ρ → Prop
  | .lost => False
  | .closing => job.finished = none ∧ job.outcome.state ≠ .running
  | .releasing => job.finished ≠ none ∧ job.outcome.state ≠ .running
  | .ended => job.finished ≠ none ∧ job.outcome.state ≠ .running
  | _ => job.finished = none ∧
      (job.outcome.state = .running ∨ job.outcome.state = .cancelled)

def Runner.holders (s : Runner ρ) : Finset Nat :=
  (Finset.range s.count).filter fun j => (s.phase j).alive = true

structure Inv (s : Runner ρ) : Prop where
  own : ∀ j < s.count, (s.watcher j).job = j
  fits : ∀ j < s.count, (s.phase j).Fits (s.job j)
  young : ∀ j < s.count, (s.phase j).young = true → s.jobs (s.watcher j).id = some j
  running : ∀ j < s.count, s.state j = .running → s.jobs (s.watcher j).id = some j
  blank : ∀ j, s.count ≤ j → s.phase j = .ended
  entries : ∀ id j, s.jobs id = some j → j < s.count ∧ (s.watcher j).id = id
  calls : ∀ call j, s.cancelling call = some j → j < s.count
  slots : s.free + s.holders.card = s.size

/-- The conditions under which the runner keeps outcomes. A process starts; no start comes
while a job has an outcome and no finish yet, unless it puts a job in its place whose watcher
has it in hand; no message is cut short; and an outcome is written only into a running
job. -/
def Careful (s : Runner ρ) : Act ρ → Prop
  | .start id _ => ∀ id' j, s.jobs id' = some j → s.state j ≠ .running →
      (s.job j).finished ≠ none ∨ (id' = id ∧ (s.phase j).young = false ∧ 0 < s.free)
  | .launch j started => s.phase j = .launching → started = true
  | .watch j finding =>
    (∀ since, s.phase j = .polling since → finding ≠ .broken) ∧
      ∀ change, s.phase j = .writing change → s.state (s.watcher j).job = .running
  | .setCancelled call => ∀ j, s.cancelling call = some j →
      s.state j = .running ∨ s.state j = .cancelled
  | _ => True

def Reaches (met : Runner ρ → Act ρ → Prop) (size now : Nat) : Runner ρ → Prop :=
  Steps step met (Runner.fresh size now)

section

variable {s : Runner ρ}

theorem inv_fresh (size now : Nat) : Inv (Runner.fresh size now : Runner ρ) where
  own _ hj := absurd hj (Nat.not_lt_zero _)
  fits _ hj := absurd hj (Nat.not_lt_zero _)
  young _ hj := absurd hj (Nat.not_lt_zero _)
  running _ hj := absurd hj (Nat.not_lt_zero _)
  blank _ _ := rfl
  entries _ _ hid := nomatch hid
  calls _ _ hcall := nomatch hcall
  slots := by
    have hnone : (Runner.fresh size now : Runner ρ).holders = ∅ := Finset.filter_empty _
    rw [hnone]
    rfl

variable {j timeout k : Nat} {id : String}

theorem mem_holders : j ∈ s.holders ↔ j < s.count ∧ (s.phase j).alive = true := by
  unfold Runner.holders
  rw [Finset.mem_filter, Finset.mem_range]

def Runner.advance (s : Runner ρ) (j : Nat) (phase : Phase ρ) (job : Job ρ) : Runner ρ :=
  (s.setJob j job).setPhase j phase

theorem Runner.setPhase_eq (s : Runner ρ) (j : Nat) (phase : Phase ρ) :
    s.setPhase j phase = s.advance j phase (s.job j) := by
  unfold advance setJob
  rw [update_eq_self]

theorem advance_phase (j k : Nat) (phase : Phase ρ) (job : Job ρ) :
    (s.advance j phase job).phase k = if k = j then phase else s.phase k := by
  unfold Runner.advance Runner.phase Runner.setPhase
  by_cases hk : k = j
  · simp [hk]
  · simp [hk, Runner.setJob]

theorem advance_job (j k : Nat) (phase : Phase ρ) (job : Job ρ) :
    (s.advance j phase job).job k = if k = j then job else s.job k := by
  unfold Runner.advance Runner.setJob Runner.setPhase
  by_cases hk : k = j
  · simp [hk]
  · simp [hk]

theorem advance_id (j k : Nat) (phase : Phase ρ) (job : Job ρ) :
    ((s.advance j phase job).watcher k).id = (s.watcher k).id := by
  unfold Runner.advance Runner.setPhase
  by_cases hk : k = j
  · subst hk
    simp [Runner.setJob]
  · simp [hk, Runner.setJob]

theorem advance_own (j k : Nat) (phase : Phase ρ) (job : Job ρ) :
    ((s.advance j phase job).watcher k).job = (s.watcher k).job := by
  unfold Runner.advance Runner.setPhase
  by_cases hk : k = j
  · subst hk
    simp [Runner.setJob]
  · simp [hk, Runner.setJob]

/-- What has to be known of a phase and a job that a thread comes to. -/
structure Follows (s : Runner ρ) (j : Nat) (phase : Phase ρ) (job : Job ρ) : Prop where
  fits : phase.Fits job
  young : phase.young = true → (s.phase j).young = true
  running : job.outcome.state = .running → s.state j = .running

theorem Inv.advance_but (h : Inv s) (hj : j < s.count) {phase : Phase ρ} {job : Job ρ}
    (hfollows : Follows s j phase job) (free : Nat)
    (hslots : free + (s.advance j phase job).holders.card = s.size) :
    Inv { s.advance j phase job with free := free } where
  own k hk := (advance_own j k phase job).trans (h.own k hk)
  fits k hk := by
    change ((s.advance j phase job).phase k).Fits ((s.advance j phase job).job k)
    rw [advance_phase, advance_job]
    by_cases hkj : k = j
    · rw [if_pos hkj, if_pos hkj]
      exact hfollows.fits
    · rw [if_neg hkj, if_neg hkj]
      exact h.fits k hk
  young k hk := by
    change ((s.advance j phase job).phase k).young = true →
      s.jobs ((s.advance j phase job).watcher k).id = some k
    rw [advance_phase, advance_id]
    by_cases hkj : k = j
    · rw [if_pos hkj]
      intro hyoung
      exact h.young k hk (hkj ▸ hfollows.young hyoung)
    · rw [if_neg hkj]
      exact h.young k hk
  running k hk := by
    change ((s.advance j phase job).job k).outcome.state = .running →
      s.jobs ((s.advance j phase job).watcher k).id = some k
    rw [advance_job, advance_id]
    by_cases hkj : k = j
    · rw [if_pos hkj]
      intro hrunning
      exact h.running k hk (hkj ▸ hfollows.running hrunning)
    · rw [if_neg hkj]
      exact h.running k hk
  blank k hk := by
    change (s.advance j phase job).phase k = .ended
    have hkj : k ≠ j := fun heq => absurd hj (not_lt.mpr (heq ▸ hk))
    rw [advance_phase, if_neg hkj]
    exact h.blank k hk
  entries id k hid := by
    obtain ⟨hk, hname⟩ := h.entries id k hid
    exact ⟨hk, (advance_id j k phase job).trans hname⟩
  calls := h.calls
  slots := hslots

theorem Inv.advance (h : Inv s) (hj : j < s.count) {phase : Phase ρ} {job : Job ρ}
    (hfollows : Follows s j phase job) (hbefore : (s.phase j).alive = true)
    (halive : phase.alive = true) : Inv (s.advance j phase job) := by
  have hholders : (s.advance j phase job).holders = s.holders := by
    ext k
    rw [mem_holders, mem_holders, advance_phase]
    change k < s.count ∧ _ ↔ _
    by_cases hkj : k = j
    · rw [if_pos hkj, hkj]
      simp [halive, hbefore]
    · rw [if_neg hkj]
  exact h.advance_but hj hfollows s.free (hholders ▸ h.slots)

theorem Inv.finish (h : Inv s) (hj : j < s.count) (hphase : s.phase j = .releasing) :
    Inv ((s.setPhase j .ended).release) := by
  have hfits := h.fits j hj
  rw [hphase] at hfits
  have hmem : j ∈ s.holders := mem_holders.mpr ⟨hj, by rw [hphase]; rfl⟩
  have hholders : (s.advance j .ended (s.job j)).holders = s.holders.erase j := by
    ext k
    rw [Finset.mem_erase, mem_holders, mem_holders, advance_phase]
    change k < s.count ∧ _ ↔ _
    by_cases hkj : k = j
    · simp [hkj, Phase.alive]
    · simp [hkj]
  have hcard : (s.holders.erase j).card + 1 = s.holders.card := Finset.card_erase_add_one hmem
  have hslots := h.slots
  have hfree : s.free < s.size := by omega
  have hstate : (s.setPhase j .ended).release =
      { s.advance j .ended (s.job j) with free := s.free + 1 } := by
    rw [Runner.setPhase_eq]
    unfold Runner.release
    rw [if_pos (show (s.advance j .ended (s.job j)).free < (s.advance j .ended (s.job j)).size
      from hfree)]
    rfl
  rw [hstate]
  have hends : Follows s j .ended (s.job j) := ⟨hfits, nofun, fun hrunning => hrunning⟩
  refine h.advance_but hj hends _ ?_
  rw [hholders]
  omega

theorem Phase.fits_of_opened {phase : Phase ρ} (h : phase.opened = true) (job : Job ρ) :
    phase.Fits job ↔ job.finished = none ∧
      (job.outcome.state = .running ∨ job.outcome.state = .cancelled) := by
  cases phase <;> first | exact Iff.rfl | cases h

theorem Phase.alive_of_opened {phase : Phase ρ} (h : phase.opened = true) : phase.alive = true := by
  cases phase <;> first | rfl | cases h

theorem Inv.watching (h : Inv s) (hj : j < s.count) (hbefore : (s.phase j).opened = true)
    {phase : Phase ρ} (hphase : phase.opened = true)
    (hyoung : phase.young = true → (s.phase j).young = true) : Inv (s.setPhase j phase) := by
  have hfits := (Phase.fits_of_opened hbefore _).mp (h.fits j hj)
  rw [Runner.setPhase_eq]
  exact h.advance hj ⟨(Phase.fits_of_opened hphase _).mpr hfits, hyoung, fun hrunning => hrunning⟩
    (Phase.alive_of_opened hbefore) (Phase.alive_of_opened hphase)

theorem Inv.closing (h : Inv s) (hj : j < s.count) (hbefore : (s.phase j).opened = true)
    (hcancelled : s.state j = .cancelled) : Inv (s.setPhase j .closing) := by
  have hfits := (Phase.fits_of_opened hbefore _).mp (h.fits j hj)
  have hstate : (s.job j).outcome.state ≠ .running := by
    change s.state j ≠ .running
    rw [hcancelled]
    nofun
  rw [Runner.setPhase_eq]
  exact h.advance hj ⟨⟨hfits.1, hstate⟩, nofun, fun hrunning => hrunning⟩
    (Phase.alive_of_opened hbefore) rfl

theorem received_writing {finding : Finding ρ} {phase : Phase ρ} (hbroken : finding ≠ .broken)
    (h : Runner.received finding = some phase) : ∃ change, phase = .writing change := by
  cases finding with
  | broken => exact absurd rfl hbroken
  | ok value | error text | eof =>
    cases h
    exact ⟨_, rfl⟩
  | silent | overMemory text | dead | alive => cases h

theorem Change.apply_ne_running (change : Change ρ) (outcome : Outcome ρ) :
    (change.apply outcome).state ≠ .running := by
  cases change with
  | succeeded result | failed error => nofun

theorem inv_watch {finding : Finding ρ} (h : Inv s) (hcareful : Careful s (.watch j finding)) :
    Inv (s.watch j finding) := by
  by_cases hj : j < s.count
  swap
  · have hended := h.blank j (not_lt.mp hj)
    unfold Runner.phase at hended
    unfold Runner.watch
    dsimp only
    rw [hended]
    exact h
  have hown := h.own j hj
  have hfits := h.fits j hj
  obtain ⟨hbroken, -⟩ := hcareful
  have hgoes : ∀ {phase : Phase ρ}, (s.phase j).opened = true → phase.opened = true →
      phase.young = false → Inv (s.setPhase j phase) := by
    intro phase hbefore hphase hyoung
    refine h.watching hj hbefore hphase fun hyoung' => ?_
    rw [hyoung] at hyoung'
    cases hyoung'
  unfold Runner.watch
  dsimp only
  cases hphase : (s.watcher j).phase with
  | launching | ended | lost => exact h
  | starting =>
    have hentry := h.young j hj (by rw [Runner.phase, hphase]; rfl)
    rw [hentry]
    dsimp only
    have hmove : update s.watcher j ⟨(s.watcher j).id, j, .polling s.now⟩ =
        update s.watcher j { s.watcher j with phase := .polling s.now } := by
      simp only [hown]
    rw [hmove]
    exact hgoes (by rw [Runner.phase, hphase]; rfl) rfl rfl
  | polling since =>
    have hopened : (s.phase j).opened = true := by
      rw [Runner.phase, hphase]
      rfl
    cases hreceived : Runner.received finding with
    | some phase =>
      obtain ⟨change, rfl⟩ := received_writing (hbroken since hphase) hreceived
      exact hgoes hopened rfl rfl
    | none =>
      dsimp only
      split
      · exact hgoes hopened rfl rfl
      · exact h
  | woken =>
    have hopened : (s.phase j).opened = true := by
      rw [Runner.phase, hphase]
      rfl
    rw [hown]
    dsimp only
    split
    · next hcancelled => exact h.closing hj hopened hcancelled
    · split
      · exact hgoes hopened rfl rfl
      · split <;> exact hgoes hopened rfl rfl
  | late =>
    have hopened : (s.phase j).opened = true := by
      rw [Runner.phase, hphase]
      rfl
    rw [hown]
    dsimp only
    split
    · next hcancelled => exact h.closing hj hopened hcancelled
    · exact hgoes hopened rfl rfl
  | writing change =>
    rw [Runner.phase, hphase] at hfits
    rw [hown]
    refine h.advance hj ⟨⟨hfits.1, change.apply_ne_running _⟩, nofun,
      fun hrunning => absurd hrunning (change.apply_ne_running _)⟩
      (by rw [Runner.phase, hphase]; rfl) rfl
  | closing =>
    rw [Runner.phase, hphase] at hfits
    rw [hown]
    refine h.advance hj ⟨⟨nofun, hfits.2⟩, nofun,
      fun hrunning => hrunning⟩ (by rw [Runner.phase, hphase]; rfl) rfl
  | releasing => exact h.finish hj hphase

theorem inv_launch {started : Bool} (h : Inv s) (hcareful : Careful s (.launch j started)) :
    Inv (step (.launch j started) s) := by
  unfold step
  dsimp only
  split
  · next hphase =>
      have hj : j < s.count := by
        by_contra hj
        rw [h.blank j (not_lt.mp hj)] at hphase
        cases hphase
      have hstarted : started = true := hcareful hphase
      unfold Runner.launch
      rw [if_pos hstarted]
      exact h.watching hj (by rw [hphase]; rfl) rfl fun _ => by rw [hphase]; rfl
  · exact h

theorem kept_of_running (hentry : s.jobs id = some j) (hrunning : s.state j = .running) :
    s.kept id = some j := by
  unfold Runner.kept
  rw [hentry, filter_some, hrunning]
  rfl

theorem Inv.running_of_young (h : Inv s) (hcareful : Careful s (.start id timeout))
    (hj : j < s.count) (hyoung : (s.phase j).young = true) : s.state j = .running := by
  by_contra hstate
  have hopened : (s.phase j).opened = true := by
    cases hphase : s.phase j <;> rw [hphase] at hyoung <;> first | rfl | cases hyoung
  have hfits := (Phase.fits_of_opened hopened _).mp (h.fits j hj)
  rcases hcareful _ j (h.young j hj hyoung) hstate with hfinished | ⟨-, hold, -⟩
  · exact hfinished hfits.1
  · rw [hyoung] at hold
    cases hold

theorem Inv.forget (h : Inv s) (hcareful : Careful s (.start id timeout)) :
    Inv { s with jobs := s.kept } where
  own := h.own
  fits := h.fits
  young j hj hyoung := kept_of_running (h.young j hj hyoung) (h.running_of_young hcareful hj hyoung)
  running j hj hrunning := kept_of_running (h.running j hj hrunning) hrunning
  blank := h.blank
  entries id' j hid := h.entries id' j (filter_eq_some_iff.mp hid).1
  calls := h.calls
  slots := h.slots

theorem inv_start (h : Inv s) (hcareful : Careful s (.start id timeout)) :
    Inv (s.start id timeout) := by
  unfold Runner.start
  dsimp only
  split
  · exact h.forget hcareful
  · next hidle =>
      split
      · exact h.forget hcareful
      · next hfree =>
          have hnew : ∀ j < s.count + 1, j = s.count ∨ j < s.count ∧ j ≠ s.count := by
            intro j hj
            omega
          have hother : ∀ j, s.state j = .running → s.jobs (s.watcher j).id = some j →
              (s.watcher j).id ≠ id := by
            rintro j hrunning hentry rfl
            rw [kept_of_running hentry hrunning] at hidle
            exact hidle (by simpa using hrunning)
          constructor
          · intro j hj
            rcases hnew j hj with rfl | ⟨hold, hne⟩
            · simp
            · simpa [hne] using h.own j hold
          · intro j hj
            unfold Runner.phase
            rcases hnew j hj with rfl | ⟨hold, hne⟩
            · simp only [update_self]
              exact ⟨rfl, .inl rfl⟩
            · have hfits := h.fits j hold
              unfold Runner.phase at hfits
              simpa [hne] using hfits
          · intro j hj
            unfold Runner.phase
            rcases hnew j hj with rfl | ⟨hold, hne⟩
            · simp
            · intro hyoung
              simp only [update_of_ne hne] at hyoung ⊢
              have hrunning := h.running_of_young hcareful hold hyoung
              have hentry := h.running j hold hrunning
              rw [update_of_ne (hother j hrunning hentry)]
              exact kept_of_running hentry hrunning
          · intro j hj
            unfold Runner.state
            rcases hnew j hj with rfl | ⟨hold, hne⟩
            · simp
            · intro hrunning
              simp only [update_of_ne hne] at hrunning ⊢
              have hentry := h.running j hold hrunning
              rw [update_of_ne (hother j hrunning hentry)]
              exact kept_of_running hentry hrunning
          · intro j hj
            have hne : j ≠ s.count := by
              simp only at hj
              omega
            have hblank := h.blank j (by simp only at hj; omega)
            simpa [Runner.phase, hne] using hblank
          · intro id' j hid
            by_cases hname : id' = id
            · rw [hname] at hid ⊢
              simp only [update_self] at hid
              cases hid
              simp
            · simp only [update_of_ne hname] at hid
              obtain ⟨hold, hwatcher⟩ := h.entries id' j (filter_eq_some_iff.mp hid).1
              have hne : j ≠ s.count := hold.ne
              simp only [update_of_ne hne]
              exact ⟨by omega, hwatcher⟩
          · intro call j hcall
            exact Nat.lt_succ_of_lt (h.calls call j hcall)
          · have hslots := h.slots
            have hmem : s.count ∉ s.holders := by
              rw [mem_holders]
              omega
            have hcard := Finset.card_insert_of_notMem hmem
            have hholders : Runner.holders
                { s with
                  free := s.free - 1
                  jobs := update s.kept id (some s.count)
                  count := s.count + 1
                  job := update s.job s.count
                    ⟨⟨.running, none, none⟩, none, s.now + timeout⟩
                  watcher := update s.watcher s.count ⟨id, s.count, .launching⟩ } =
                insert s.count s.holders := by
              ext j
              rw [mem_holders, Finset.mem_insert, mem_holders]
              unfold Runner.phase
              by_cases hne : j = s.count
              · simp [hne, Phase.alive]
              · simp only [update_of_ne hne, hne, false_or]
                constructor
                · rintro ⟨hlt, halive⟩
                  exact ⟨by omega, halive⟩
                · rintro ⟨hlt, halive⟩
                  exact ⟨by omega, halive⟩
            rw [hholders, hcard]
            simp only
            omega

theorem inv_setCancelled {call : Nat} (h : Inv s) (hcareful : Careful s (.setCancelled call)) :
    Inv (s.setCancelled call) := by
  unfold Runner.setCancelled
  cases hcall : s.cancelling call with
  | none => exact h
  | some j =>
    have hj := h.calls call j hcall
    have hstate := hcareful j hcall
    dsimp only
    have hopen : (s.phase j).Fits
        { s.job j with outcome := { (s.job j).outcome with state := .cancelled } } := by
      have hfits := h.fits j hj
      revert hfits
      cases s.phase j with
      | lost => exact id
      | closing | releasing | ended => exact fun hfits => ⟨hfits.1, nofun⟩
      | launching | starting | polling since | woken | late | writing change =>
        exact fun hfits => ⟨hfits.1, .inr rfl⟩
    constructor
    · exact h.own
    · intro k hk
      change (s.phase k).Fits (update s.job j _ k)
      by_cases hkj : k = j
      · rw [hkj, update_self]
        exact hopen
      · rw [update_of_ne hkj]
        exact h.fits k hk
    · exact h.young
    · intro k hk hrunning
      unfold Runner.state Runner.setJob at hrunning
      by_cases hkj : k = j
      · rw [hkj] at hrunning
        simp at hrunning
      · simp only [update_of_ne hkj] at hrunning
        exact h.running k hk hrunning
    · exact h.blank
    · exact h.entries
    · intro other k hother
      by_cases hne : other = call
      · rw [hne] at hother
        simp at hother
      · simp only [update_of_ne hne] at hother
        exact h.calls other k hother
    · exact h.slots

theorem inv_step {act : Act ρ} (h : Inv s) (hcareful : Careful s act) : Inv (step act s) := by
  cases act with
  | start id timeout => exact inv_start h hcareful
  | launch j started => exact inv_launch h hcareful
  | watch j finding => exact inv_watch h hcareful
  | setCancelled call => exact inv_setCancelled h hcareful
  | tick time =>
    exact ⟨h.own, h.fits, h.young, h.running, h.blank, h.entries, h.calls, h.slots⟩
  | cancel call id =>
    refine ⟨h.own, h.fits, h.young, h.running, h.blank, h.entries, fun other j hother => ?_,
      h.slots⟩
    by_cases hne : other = call
    · rw [hne] at hother
      simp only [step, Runner.cancel, update_self] at hother
      exact (h.entries id j (filter_eq_some_iff.mp hother).1).1
    · simp only [step, Runner.cancel, update_of_ne hne] at hother
      exact h.calls other j hother

theorem inv_run {size now : Nat} (h : Reaches Careful size now s) : Inv s :=
  h.invariant (fun _ _ hinv hcareful => inv_step hinv hcareful) (inv_fresh size now)

def Expired (s : Runner ρ) (j : Nat) : Prop :=
  ∃ finished, (s.job j).finished = some finished ∧ jobResultTtl ≤ s.now - finished

/-- The job has an outcome, and is found under its id unless it is too old. -/
structure Lasting (s : Runner ρ) (id : String) (j : Nat) (outcome : Outcome ρ) : Prop where
  known : j < s.count
  outcome : (s.job j).outcome = outcome
  found : s.jobs id = some j ∨ Expired s j

theorem watch_same (k : Nat) (finding : Finding ρ) :
    (s.watch k finding).jobs = s.jobs ∧ (s.watch k finding).now = s.now ∧
      (s.watch k finding).count = s.count ∧ (s.watch k finding).size = s.size := by
  unfold Runner.watch
  dsimp only
  repeat' split
  all_goals exact ⟨rfl, rfl, rfl, rfl⟩

theorem watch_job (hown : (s.watcher k).job = k) (finding : Finding ρ) (j : Nat) :
    (((s.watch k finding).job j).outcome = (s.job j).outcome ∨
      j = k ∧ ∃ change, s.phase k = .writing change) ∧
    (((s.watch k finding).job j).finished = (s.job j).finished ∨ j = k ∧ s.phase k = .closing) := by
  unfold Runner.watch Runner.phase
  dsimp only
  rw [hown]
  cases hphase : (s.watcher k).phase with
  | writing change =>
    by_cases hjk : j = k
    · exact ⟨.inr ⟨hjk, change, rfl⟩, .inl (by simp [hjk, Runner.setJob, Runner.setPhase])⟩
    · exact ⟨.inl (by simp [hjk, Runner.setJob, Runner.setPhase]),
        .inl (by simp [hjk, Runner.setJob, Runner.setPhase])⟩
  | closing =>
    by_cases hjk : j = k
    · exact ⟨.inl (by simp [hjk, Runner.setJob, Runner.setPhase]), .inr ⟨hjk, rfl⟩⟩
    · exact ⟨.inl (by simp [hjk, Runner.setJob, Runner.setPhase]),
        .inl (by simp [hjk, Runner.setJob, Runner.setPhase])⟩
  | launching | releasing | ended | lost => exact ⟨.inl rfl, .inl rfl⟩
  | starting | late =>
    dsimp only
    split <;> exact ⟨.inl rfl, .inl rfl⟩
  | polling since | woken =>
    dsimp only
    repeat' split
    all_goals exact ⟨.inl rfl, .inl rfl⟩

theorem watch_blank (h : Inv s) (hk : s.count ≤ k) (finding : Finding ρ) :
    s.watch k finding = s := by
  have hended := h.blank k hk
  unfold Runner.phase at hended
  unfold Runner.watch
  dsimp only
  rw [hended]

theorem outcome_step (hinv : Inv s) (hj : j < s.count) (hdone : s.state j ≠ .running)
    {act : Act ρ} (hcareful : Careful s act) :
    ((step act s).job j).outcome = (s.job j).outcome ∧
      ∀ finished, (s.job j).finished = some finished →
        ((step act s).job j).finished = some finished := by
  cases act with
  | start id timeout =>
    have hne : j ≠ s.count := hj.ne
    change ((s.start id timeout).job j).outcome = _ ∧
      ∀ finished, _ → ((s.start id timeout).job j).finished = _
    unfold Runner.start
    dsimp only
    split
    · exact ⟨rfl, fun _ h => h⟩
    · split
      · exact ⟨rfl, fun _ h => h⟩
      · exact ⟨by simp [hne], fun finished h => by simpa [hne] using h⟩
  | launch k started =>
    unfold step
    dsimp only
    split
    · unfold Runner.launch
      split
      · exact ⟨rfl, fun _ h => h⟩
      · exact ⟨rfl, fun _ h => h⟩
    · exact ⟨rfl, fun _ h => h⟩
  | watch k finding =>
    change ((s.watch k finding).job j).outcome = _ ∧
      ∀ finished, _ → ((s.watch k finding).job j).finished = _
    by_cases hk : k < s.count
    swap
    · rw [watch_blank hinv (not_lt.mp hk)]
      exact ⟨rfl, fun _ h => h⟩
    have hown := hinv.own k hk
    obtain ⟨houtcome, hfinished⟩ := watch_job hown finding j
    constructor
    · rcases houtcome with hsame | ⟨rfl, change, hphase⟩
      · exact hsame
      · refine absurd ?_ hdone
        have hwrites := hcareful.2 change hphase
        rwa [hown] at hwrites
    · intro finished hbefore
      rcases hfinished with hsame | ⟨rfl, hphase⟩
      · exact hsame.trans hbefore
      · have hfits := hinv.fits j hk
        rw [hphase] at hfits
        rw [hfits.1] at hbefore
        cases hbefore
  | cancel call id | tick time => exact ⟨rfl, fun _ h => h⟩
  | setCancelled call =>
    change ((s.setCancelled call).job j).outcome = _ ∧
      ∀ finished, _ → ((s.setCancelled call).job j).finished = _
    unfold Runner.setCancelled
    cases hcall : s.cancelling call with
    | none => exact ⟨rfl, fun _ h => h⟩
    | some k =>
      dsimp only [Runner.setJob]
      by_cases hjk : j = k
      · subst hjk
        have hcancelled : s.state j = .cancelled := (hcareful j hcall).resolve_left hdone
        rw [update_self, ← hcancelled]
        exact ⟨rfl, fun _ h => h⟩
      · rw [update_of_ne hjk]
        exact ⟨rfl, fun _ h => h⟩

theorem step_same (act : Act ρ) :
    ((∀ id timeout, act ≠ .start id timeout) → (step act s).jobs = s.jobs) ∧
      s.count ≤ (step act s).count ∧ s.now ≤ (step act s).now ∧ (step act s).size = s.size := by
  cases act with
  | start id timeout =>
    refine ⟨fun hstart => absurd rfl (hstart id timeout), ?_⟩
    change s.count ≤ (s.start id timeout).count ∧ s.now ≤ (s.start id timeout).now ∧
      (s.start id timeout).size = s.size
    unfold Runner.start
    dsimp only
    split
    · exact ⟨le_rfl, le_rfl, rfl⟩
    · split
      · exact ⟨le_rfl, le_rfl, rfl⟩
      · exact ⟨Nat.le_succ _, le_rfl, rfl⟩
  | launch k started =>
    unfold step
    dsimp only
    split
    · unfold Runner.launch
      split <;> exact ⟨fun _ => rfl, le_rfl, le_rfl, rfl⟩
    · exact ⟨fun _ => rfl, le_rfl, le_rfl, rfl⟩
  | watch k finding =>
    obtain ⟨hjobs, hnow, hcount, hsize⟩ := watch_same (s := s) k finding
    exact ⟨fun _ => hjobs, hcount.ge, hnow.ge, hsize⟩
  | cancel call id => exact ⟨fun _ => rfl, le_rfl, le_rfl, rfl⟩
  | setCancelled call =>
    change (_ → (s.setCancelled call).jobs = s.jobs) ∧ s.count ≤ (s.setCancelled call).count ∧
      s.now ≤ (s.setCancelled call).now ∧ (s.setCancelled call).size = s.size
    unfold Runner.setCancelled
    cases s.cancelling call with
    | none | some k => exact ⟨fun _ => rfl, le_rfl, le_rfl, rfl⟩
  | tick time => exact ⟨fun _ => rfl, le_rfl, Nat.le_add_right _ _, rfl⟩

theorem kept_step {id' : String} (hfound : s.jobs id = some j) (hdone : s.state j ≠ .running)
    (hcareful : Careful s (.start id' timeout)) (hne : id' ≠ id) :
    (s.start id' timeout).jobs id = some j ∨ Expired s j := by
  rcases hcareful id j hfound hdone with hfinished | ⟨heq, -⟩
  swap
  · exact absurd heq.symm hne
  obtain ⟨finished, hfinished⟩ := ne_none_iff_exists'.mp hfinished
  by_cases hrecent : s.now - finished < jobResultTtl
  swap
  · exact .inr ⟨finished, hfinished, not_lt.mp hrecent⟩
  left
  have hkept : s.kept id = some j := by
    unfold Runner.kept Runner.recent
    rw [hfound, filter_some, hfinished]
    simp [hrecent]
  unfold Runner.start
  dsimp only
  split
  · exact hkept
  · split
    · exact hkept
    · rw [← hkept]
      exact update_of_ne hne.symm _ _

theorem Lasting.step {outcome : Outcome ρ} (h : Lasting s id j outcome) (hinv : Inv s)
    (hdone : outcome.state ≠ .running) {act : Act ρ} (hcareful : Careful s act)
    (hother : ∀ timeout, act ≠ .start id timeout) : Lasting (Jobs.step act s) id j outcome := by
  have hstate : s.state j ≠ .running := by
    unfold Runner.state
    rw [h.outcome]
    exact hdone
  obtain ⟨houtcome, hfinished⟩ := outcome_step hinv h.known hstate hcareful
  obtain ⟨hjobs, hcount, hnow, -⟩ := step_same (s := s) act
  have hold : Expired s j → Expired (Jobs.step act s) j := by
    rintro ⟨finished, hbefore, hold⟩
    exact ⟨finished, hfinished finished hbefore, by omega⟩
  refine ⟨h.known.trans_le hcount, houtcome.trans h.outcome, ?_⟩
  rcases h.found with hfound | hexpired
  swap
  · exact .inr (hold hexpired)
  by_cases hstart : ∃ id' timeout, act = .start id' timeout
  · obtain ⟨id', timeout, rfl⟩ := hstart
    have hne : id' ≠ id := fun heq => hother timeout (heq ▸ rfl)
    exact (kept_step hfound hstate hcareful hne).imp (fun hjobs => hjobs) hold
  · left
    rw [hjobs fun id' timeout heq => hstart ⟨id', timeout, heq⟩]
    exact hfound

end

end Substrate.Compute.Jobs
