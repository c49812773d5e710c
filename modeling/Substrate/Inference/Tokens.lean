import Substrate.Inference.Pool

/-!
Who may use which worker. The supervisor puts a token of its own into the queue after a
restart, and the old one is somewhere already; it gives a worker up without looking for
the token; and a worker that is being restarted keeps its token where it is.
-/

namespace Substrate.Inference

open Lib List Function Option Bool

theorem Stage.not_dead (stage : Stage) (h : stage.supervised = true) : stage.dead = false := by
  cases stage <;> first | rfl | cases h

namespace Pool

variable {κ : Type} (settings : Settings) (p : Pool κ)

def queued (index : Nat) : Nat := p.queue.countP fun worker => worker.index = index

def lent (index : Nat) : Nat := p.held.countP fun entry => entry.2.index = index

def tokens (index : Nat) : Nat := p.queued index + p.lent index

/-- The process of the worker runs and nothing is being done about it. -/
def Serving (index : Nat) : Prop :=
  ∃ restarts, p.states index = some ⟨.watching, true, restarts⟩

/-- Every worker has one token at most, one that serves has one and a dead one has none to
give; and the workers that are not dead are counted. -/
structure Sound : Prop where
  single : ∀ index, p.tokens index ≤ 1
  serving : ∀ index, p.Serving index → p.tokens index = 1
  dead : ∀ index, p.has index Stage.dead = true → p.queued index = 0
  count : p.started = true → p.workerCount = p.count settings fun stage => !stage.dead

/-- The token that is next in the queue is not of a worker that is being restarted. -/
def HandsOutServing : Prop :=
  ∀ worker, p.queue.head? = some worker → p.has worker.index Stage.restarting = false

/-- The state after a move is sound, and no caller is given a worker that is being
restarted. -/
def Fine (m : Taken (Pool κ) (Action κ)) : Prop :=
  m.after.Sound settings ∧ ∀ caller, m.act = .acquire caller → m.before.HandsOutServing

/-- The moves that do no harm. No restart becomes healthy, no worker is given up while its
token lies in the queue or before `start` has counted it, and no token is drawn of a
worker that is being restarted. -/
def Meets : Action κ → Prop
  | .health index true => ∀ state, p.states index = some state → state.stage ≠ .probing
  | .notices index => ∀ state, p.states index = some state →
      settings.maxRestarts ≤ state.restarts → p.queued index = 0
  | .gathered => ∀ index, p.has index (fun stage => stage = .gone) = false
  | .acquire _ => p.HandsOutServing
  | _ => True

def Carries : Option WorkerState → Nat → Nat → Prop
  | none, queued, lent => queued + lent = 0
  | some state, queued, lent =>
    if state.stage.supervised then queued + lent = 1
    else if state.stage = .gone then queued = 0 ∧ lent ≤ 1
    else queued + lent = 0

structure Inv : Prop where
  range : ∀ index, (p.states index).isSome = true ↔ index < settings.gpuDevices.length
  tokens : ∀ index, Carries (p.states index) (p.queued index) (p.lent index)
  settled : p.started = true → ∀ index, p.has index Stage.startingUp = false
  count : p.started = true → p.workerCount = p.count settings fun stage => !stage.dead

variable {settings p}

variable {index queued lent n i : Nat} {state old new : WorkerState} {what : Stage → Bool}
    {f g : Nat → Bool} {ok : Bool} {worker : PoolWorker}

theorem has_of_some (h : p.states index = some state) : p.has index what = what state.stage := by
  unfold has
  rw [h]
  rfl

theorem carries_some (state : WorkerState) (queued lent : Nat) :
    Carries (some state) queued lent =
      if state.stage.supervised then queued + lent = 1
      else if state.stage = .gone then queued = 0 ∧ lent ≤ 1
      else queued + lent = 0 := rfl

theorem Carries.le_one {state : Option WorkerState} (h : Carries state queued lent) :
    queued + lent ≤ 1 := by
  cases state with
  | none =>
    have hnone : queued + lent = 0 := h
    omega
  | some state =>
    rw [carries_some] at h
    split at h
    · omega
    · split at h
      · omega
      · omega

theorem Carries.none_queued (h : Carries (some state) queued lent)
    (hdead : state.stage.dead = true) : queued = 0 := by
  rw [carries_some] at h
  split at h
  · next hsupervised =>
      rw [state.stage.not_dead hsupervised] at hdead
      cases hdead
  · split at h
    · exact h.1
    · omega

theorem Inv.sound (hinv : p.Inv settings) : p.Sound settings where
  single index := (hinv.tokens index).le_one
  serving index hserving := by
    obtain ⟨restarts, hstate⟩ := hserving
    have htokens := hinv.tokens index
    rw [hstate] at htokens
    exact htokens
  dead index hdead := by
    have htokens := hinv.tokens index
    cases hstate : p.states index with
    | none =>
      unfold has at hdead
      rw [hstate] at hdead
      cases hdead
    | some state =>
      rw [has_of_some hstate] at hdead
      rw [hstate] at htokens
      exact htokens.none_queued hdead
  count := hinv.count

theorem Inv.lt (hinv : p.Inv settings) (h : p.states index = some state) :
    index < settings.gpuDevices.length :=
  (hinv.range index).mp (by rw [h]; rfl)

theorem inv_init : (init settings : Pool κ).Inv settings where
  range index := by
    unfold init
    dsimp only
    split
    · next hlt => exact ⟨fun _ => hlt, fun _ => rfl⟩
    · next hge =>
        constructor
        · intro h
          cases h
        · exact fun hlt => absurd hlt hge
  tokens index := by
    unfold init
    dsimp only
    split <;> rfl
  settled h := by cases h
  count h := by cases h

theorem countP_range_of_ne (hi : n ≤ i) (hne : ∀ j, j ≠ i → g j = f j) :
    (List.range n).countP g = (List.range n).countP f := by
  apply countP_congr
  intro j hj
  have hlt := mem_range.mp hj
  rw [hne j (by omega)]

theorem countP_range_drop (hi : i < n) (hne : ∀ j, j ≠ i → g j = f j) (hf : f i = true)
    (hg : g i = false) : (List.range n).countP g + 1 = (List.range n).countP f := by
  induction n with
  | zero => omega
  | succ n ih =>
    rw [range_succ, countP_append, countP_append, countP_singleton,
      countP_singleton]
    by_cases heq : i = n
    · subst heq
      rw [countP_range_of_ne (Nat.le_refl i) hne, hf, hg]
      simp
    · have hlast : g n = f n := hne n fun h => heq h.symm
      have hrest := ih (by omega)
      rw [hlast]
      omega

theorem has_setState (index other : Nat) (state : WorkerState) (what : Stage → Bool) :
    (p.setState index state).has other what =
      if other = index then what state.stage else p.has other what := by
  unfold has setState
  dsimp only
  split
  · next heq =>
      subst heq
      rw [update_self]
      rfl
  · next hne => rw [update_of_ne hne]

theorem count_setState (h : what state.stage = p.has index what) :
    (p.setState index state).count settings what = p.count settings what := by
  unfold count
  apply countP_congr
  intro other _
  rw [has_setState]
  split
  · next heq => rw [heq, h]
  · rfl

theorem count_setState_drop (hindex : index < settings.gpuDevices.length)
    (hbefore : p.has index what = true) (hafter : what state.stage = false) :
    (p.setState index state).count settings what + 1 = p.count settings what := by
  unfold count
  apply countP_range_drop hindex
  · intro other hne
    rw [has_setState, if_neg hne]
  · exact hbefore
  · rw [has_setState, if_pos rfl, hafter]

theorem Inv.range_set (hinv : p.Inv settings) (hold : p.states index = some old)
    (new : WorkerState) (other : Nat) :
    (update p.states index (some new) other).isSome = true ↔
      other < settings.gpuDevices.length := by
  by_cases heq : other = index
  · subst heq
    rw [update_self]
    exact ⟨fun _ => hinv.lt hold, fun _ => rfl⟩
  · rw [update_of_ne heq]
    exact hinv.range other

theorem Inv.set (hinv : p.Inv settings) (hold : p.states index = some old)
    (hcarries : Carries (some new) (p.queued index) (p.lent index))
    (hsettled : p.started = true → new.stage.startingUp = false)
    (hdead : p.started = true → new.stage.dead = old.stage.dead) :
    (p.setState index new).Inv settings where
  range := hinv.range_set hold new
  tokens other := by
    change Carries (update p.states index (some new) other) (p.queued other) (p.lent other)
    by_cases heq : other = index
    · subst heq
      rw [update_self]
      exact hcarries
    · rw [update_of_ne heq]
      exact hinv.tokens other
  settled hstarted other := by
    rw [has_setState]
    split
    · exact hsettled hstarted
    · exact hinv.settled hstarted other
  count hstarted := by
    have hsame : (!new.stage.dead) = p.has index fun stage => !stage.dead := by
      rw [has_of_some hold, hdead hstarted]
    have hcount : (p.setState index new).count settings (fun stage => !stage.dead) =
        p.count settings fun stage => !stage.dead := count_setState hsame
    rw [hcount]
    exact hinv.count hstarted

theorem Inv.not_started (hinv : p.Inv settings) (hstate : p.states index = some state)
    (hstarting : state.stage.startingUp = true) : p.started = false := by
  cases hstarted : p.started with
  | false => rfl
  | true =>
    have hsettled := hinv.settled hstarted index
    rw [has_of_some hstate, hstarting] at hsettled
    cases hsettled

theorem Inv.at_stage (hinv : p.Inv settings) (hstate : p.states index = some state) :
    Carries (some state) (p.queued index) (p.lent index) := by
  have htokens := hinv.tokens index
  rw [hstate] at htokens
  exact htokens

theorem inv_onSpawned (hinv : p.Inv settings) {p' : Pool κ} (h : p.onSpawned index ok = some p') :
    p'.Inv settings := by
  unfold onSpawned at h
  split at h
  · next alive restarts hstate =>
      cases h
      have hstarted := hinv.not_started hstate rfl
      have htokens := hinv.at_stage hstate
      cases ok with
      | true | false =>
        exact hinv.set hstate htokens (fun h => by rw [hstarted] at h; cases h)
          fun h => by rw [hstarted] at h; cases h
  · next alive restarts hstate =>
      cases h
      have htokens := hinv.at_stage hstate
      cases ok with
      | true | false => exact hinv.set hstate htokens (fun _ => rfl) fun _ => rfl
  · cases h

theorem inv_onTerminated (hinv : p.Inv settings) {p' : Pool κ}
    (h : p.onTerminated index = some p') : p'.Inv settings := by
  unfold onTerminated at h
  split at h
  · next alive restarts hstate =>
      cases h
      have hstarted := hinv.not_started hstate rfl
      have htokens := hinv.at_stage hstate
      exact hinv.set hstate htokens (fun h => by rw [hstarted] at h; cases h)
        fun h => by rw [hstarted] at h; cases h
  · next alive restarts hstate =>
      cases h
      have htokens := hinv.at_stage hstate
      exact hinv.set hstate htokens (fun _ => rfl) fun _ => rfl
  · cases h

theorem inv_onExits (hinv : p.Inv settings) {p' : Pool κ} (h : p.onExits index = some p') :
    p'.Inv settings := by
  unfold onExits at h
  split at h
  · next stage restarts hstate =>
      cases h
      have htokens := hinv.at_stage hstate
      refine hinv.set hstate htokens (fun hstarted => ?_) fun _ => rfl
      have hsettled := hinv.settled hstarted index
      rw [has_of_some hstate] at hsettled
      exact hsettled
  · cases h

theorem inv_onWakes (hinv : p.Inv settings) {p' : Pool κ} (h : p.onWakes index = some p') :
    p'.Inv settings := by
  unfold onWakes at h
  split at h
  · next alive restarts hstate =>
      cases h
      have htokens := hinv.at_stage hstate
      exact hinv.set hstate htokens (fun _ => rfl) fun _ => rfl
  · cases h

theorem queued_put (worker : PoolWorker) (index : Nat) :
    (p.put worker).queued index =
      p.queued index + if worker.index = index then 1 else 0 := by
  unfold queued put
  dsimp only
  rw [countP_append, countP_singleton]
  simp only [decide_eq_true_eq]

theorem Inv.put (hinv : p.Inv settings) (hold : p.states index = some old)
    (hnone : p.tokens index = 0) (hsupervised : new.stage.supervised = true)
    (hstarted : p.started = false) :
    ((p.setState index new).put (makePoolWorker settings index)).Inv settings where
  range := hinv.range_set hold new
  tokens other := by
    rw [queued_put]
    change Carries (update p.states index (some new) other)
      (p.queued other + if index = other then 1 else 0) (p.lent other)
    by_cases heq : other = index
    · subst heq
      rw [update_self, if_pos rfl, carries_some, if_pos hsupervised]
      unfold Pool.tokens at hnone
      omega
    · rw [update_of_ne heq, if_neg fun h => heq h.symm]
      exact hinv.tokens other
  settled h := by
    change p.started = true at h
    rw [hstarted] at h
    cases h
  count h := by
    change p.started = true at h
    rw [hstarted] at h
    cases h

theorem inv_onHealth (hinv : p.Inv settings) {p' : Pool κ}
    (h : p.onHealth settings index ok = some p')
    (hmeets : ok = true → ∀ state, p.states index = some state → state.stage ≠ .probing) :
    p'.Inv settings := by
  unfold onHealth at h
  split at h
  · next alive restarts hstate =>
      cases h
      have hstarted := hinv.not_started hstate rfl
      have htokens := hinv.at_stage hstate
      cases ok with
      | true => exact hinv.put hstate htokens rfl hstarted
      | false =>
        exact hinv.set hstate htokens (fun h => by rw [hstarted] at h; cases h)
          fun h => by rw [hstarted] at h; cases h
  · next alive restarts hstate =>
      cases h
      have htokens := hinv.at_stage hstate
      cases ok with
      | true => exact absurd rfl (hmeets rfl _ hstate)
      | false => exact hinv.set hstate htokens (fun _ => rfl) fun _ => rfl
  · cases h

theorem tokens_onHealth (hinv : p.Inv settings) {p' : Pool κ}
    (hstate : p.states index = some state) (hstage : state.stage = .probing)
    (h : p.onHealth settings index true = some p') : p'.tokens index = 2 := by
  obtain ⟨stage, alive, restarts⟩ := state
  cases hstage
  have htokens : p.queued index + p.lent index = 1 := hinv.at_stage hstate
  unfold onHealth at h
  rw [hstate] at h
  cases h
  change ((p.setState index _).put (makePoolWorker settings index)).queued index + p.lent index = 2
  have hqueued := queued_put (p := p.setState index ⟨.watching, alive, restarts⟩)
    (makePoolWorker settings index) index
  have hindex : (makePoolWorker settings index).index = index := rfl
  rw [if_pos hindex] at hqueued
  change _ = p.queued index + 1 at hqueued
  omega

theorem Inv.has_eq_false (hinv : p.Inv settings) (h : p.count settings what = 0) (index : Nat) :
    p.has index what = false := by
  cases hstate : p.states index with
  | none =>
    unfold has
    rw [hstate]
    rfl
  | some state =>
    exact eq_false_of_ne_true (countP_eq_zero.mp h index (mem_range.mpr (hinv.lt hstate)))

theorem countP_partition {α : Type} {f g h : α → Bool} {items : List α}
    (hone : ∀ a ∈ items, (f a).toNat + (g a).toNat + (h a).toNat = 1) :
    items.countP f + items.countP g + items.countP h = items.length := by
  induction items with
  | nil => rfl
  | cons a rest ih =>
    have hrest := ih fun b hb => hone b (mem_cons_of_mem _ hb)
    have hfirst := hone a mem_cons_self
    rw [countP_cons, countP_cons, countP_cons, length_cons]
    cases hf : f a <;> cases hg : g a <;> cases hh : h a <;> simp [hf, hg, hh] at hfirst ⊢ <;> omega

theorem Inv.count_failed (hinv : p.Inv settings) :
    p.count settings Stage.failed + p.count settings (fun stage => !stage.dead) +
      p.count settings (fun stage => stage = .gone) = settings.gpuDevices.length := by
  have hone : ∀ index ∈ List.range settings.gpuDevices.length,
      (p.has index Stage.failed).toNat + (p.has index fun stage => !stage.dead).toNat +
        (p.has index fun stage => stage = .gone).toNat = 1 := by
    intro index hindex
    obtain ⟨state, hstate⟩ := isSome_iff_exists.mp
      ((hinv.range index).mpr (mem_range.mp hindex))
    rw [has_of_some hstate, has_of_some hstate, has_of_some hstate]
    cases state.stage <;> rfl
  have htotal := countP_partition hone
  rw [length_range] at htotal
  exact htotal

theorem inv_onGathered (hinv : p.Inv settings) {p' : Pool κ}
    (h : p.onGathered settings = some p')
    (hmeets : ∀ index, p.has index (fun stage => stage = .gone) = false) : p'.Inv settings := by
  unfold onGathered at h
  split at h
  · next hready =>
      cases h
      have hsettled := hinv.has_eq_false hready.2
      have hgone : p.count settings (fun stage => stage = .gone) = 0 := by
        apply countP_eq_zero.mpr
        intro index _
        rw [hmeets index]
        exact false_ne_true
      have htotal := hinv.count_failed
      refine ⟨hinv.range, hinv.tokens, fun _ => hsettled, fun _ => ?_⟩
      change settings.gpuDevices.length - p.count settings Stage.failed =
        p.count settings fun stage => !stage.dead
      omega
  · cases h

theorem started_onGathered {p' : Pool κ} (h : p.onGathered settings = some p') :
    p'.started = true := by
  unfold onGathered at h
  split at h
  · cases h
    rfl
  · cases h

theorem count_onGathered (hinv : p.Inv settings) {p' : Pool κ}
    (h : p.onGathered settings = some p') (hcount : p'.workerCount =
      p'.count settings fun stage => !stage.dead) (index : Nat) :
    p.has index (fun stage => stage = .gone) = false := by
  unfold onGathered at h
  split at h
  · cases h
    have htotal := hinv.count_failed
    change settings.gpuDevices.length - p.count settings Stage.failed =
      p.count settings (fun stage => !stage.dead) at hcount
    exact hinv.has_eq_false (by omega) index
  · cases h

theorem inv_onNotices (hinv : p.Inv settings) {p' : Pool κ}
    (h : p.onNotices settings index = some p')
    (hmeets : ∀ state, p.states index = some state →
      settings.maxRestarts ≤ state.restarts → p.queued index = 0) : p'.Inv settings := by
  unfold onNotices at h
  split at h
  · next restarts hstate =>
      have htokens : p.queued index + p.lent index = 1 := hinv.at_stage hstate
      split at h
      · next hlimit =>
          cases h
          have hqueued := hmeets _ hstate hlimit
          have hindex := hinv.lt hstate
          refine ⟨hinv.range_set hstate _, fun other => ?_, fun hstarted other => ?_,
            fun hstarted => ?_⟩
          · change Carries (update p.states index _ other) (p.queued other) (p.lent other)
            by_cases heq : other = index
            · subst heq
              rw [update_self]
              have hgone : p.queued other = 0 ∧ p.lent other ≤ 1 := ⟨hqueued, by omega⟩
              exact hgone
            · rw [update_of_ne heq]
              exact hinv.tokens other
          · have hother := has_setState (p := p) index other ⟨.gone, false, restarts⟩
              Stage.startingUp
            change (p.setState index ⟨.gone, false, restarts⟩).has other Stage.startingUp = false
            rw [hother]
            split
            · rfl
            · exact hinv.settled hstarted other
          · have hdrop : (p.setState index ⟨.gone, false, restarts⟩).count settings
                (fun stage => !stage.dead) + 1 = p.count settings fun stage => !stage.dead :=
              count_setState_drop hindex (has_of_some hstate) rfl
            have hbefore := hinv.count hstarted
            change p.workerCount - 1 = (p.setState index ⟨.gone, false, restarts⟩).count settings
              fun stage => !stage.dead
            omega
      · cases h
        have hcarries : Carries (some ⟨.backingOff, false, restarts⟩) (p.queued index)
          (p.lent index) := htokens
        exact hinv.set hstate hcarries (fun _ => rfl) fun _ => rfl
  · cases h

theorem dead_onNotices {p' : Pool κ} (hstate : p.states index = some state)
    (hlimit : settings.maxRestarts ≤ state.restarts) (h : p.onNotices settings index = some p') :
    p'.has index Stage.dead = true ∧ p'.queued index = p.queued index := by
  unfold onNotices at h
  split at h
  · next restarts hwatching =>
      rw [hwatching] at hstate
      cases hstate
      rw [if_pos hlimit] at h
      cases h
      refine ⟨?_, rfl⟩
      have hself := has_setState (p := p) index index ⟨.gone, false, restarts⟩ Stage.dead
      rw [if_pos rfl] at hself
      exact hself
  · cases h

theorem Inv.of_tokens (hinv : p.Inv settings) {p' : Pool κ} (hstates : p'.states = p.states)
    (hcount : p'.workerCount = p.workerCount) (hstarted : p'.started = p.started)
    (htokens : ∀ index, Carries (p.states index) (p'.queued index) (p'.lent index)) :
    p'.Inv settings where
  range := by
    rw [hstates]
    exact hinv.range
  tokens := by
    rw [hstates]
    exact htokens
  settled := by
    unfold has
    rw [hstates, hstarted]
    exact hinv.settled
  count := by
    unfold Pool.count has
    rw [hstates, hstarted, hcount]
    exact hinv.count

theorem Carries.drawn {state : Option WorkerState} (h : Carries state (queued + 1) lent) :
    Carries state queued (lent + 1) := by
  cases state with
  | none =>
    have hnone : queued + 1 + lent = 0 := h
    omega
  | some state =>
    rw [carries_some] at h ⊢
    split at h
    · next hsupervised =>
        rw [if_pos hsupervised]
        omega
    · split at h
      · omega
      · omega

theorem Carries.returned {state : Option WorkerState} (h : Carries state queued (lent + 1)) :
    if (state.any fun state => state.stage.deadFlag) = true then Carries state queued lent
    else Carries state (queued + 1) lent := by
  cases state with
  | none =>
    have hnone : queued + (lent + 1) = 0 := h
    omega
  | some state =>
    rw [carries_some] at h
    obtain ⟨stage, alive, restarts⟩ := state
    split at h
    · next hsupervised =>
        have hflag : stage.deadFlag = false := by
          cases stage <;> first | rfl | cases hsupervised
        simp only [any_some, hflag, false_eq_true, if_false]
        rw [carries_some, if_pos hsupervised]
        omega
    · split at h
      · next hgone =>
          cases hgone
          change queued = 0 ∧ lent ≤ 1
          omega
      · omega

theorem inv_acquire (hinv : p.Inv settings) {caller : κ} {p' : Pool κ}
    (h : p.acquire caller = some p') : p'.Inv settings := by
  unfold acquire at h
  split at h
  · cases h
  · next worker rest hqueue =>
      cases h
      refine hinv.of_tokens ?_ ?_ ?_ fun index => ?_
      · rfl
      · rfl
      · rfl
      · have htokens := hinv.tokens index
        unfold queued lent at htokens ⊢
        dsimp only
        rw [hqueue, countP_cons] at htokens
        rw [countP_cons]
        by_cases hindex : worker.index = index
        · simp only [hindex, decide_true, if_true] at htokens ⊢
          exact htokens.drawn
        · simp only [hindex, decide_false, false_eq_true, if_false, Nat.add_zero] at htokens ⊢
          exact htokens

theorem lent_eq_erase [DecidableEq κ] {caller : κ} (h : (caller, worker) ∈ p.held) (index : Nat) :
    p.lent index = (p.held.erase (caller, worker)).countP (fun entry => entry.2.index = index) +
      if worker.index = index then 1 else 0 := by
  unfold lent
  rw [(perm_cons_erase h).countP_eq, countP_cons]
  simp only [decide_eq_true_eq]

theorem inv_release [DecidableEq κ] (hinv : p.Inv settings) {caller : κ} {p' : Pool κ}
    (h : p.release caller worker = some p') : p'.Inv settings := by
  unfold release at h
  split at h
  · next hheld =>
      have hown : ∀ index, worker.index = index → Carries (p.states index) (p.queued index)
            ((p.held.erase (caller, worker)).countP (fun entry => entry.2.index = index) + 1) := by
        intro index hindex
        have htokens := hinv.tokens index
        rw [lent_eq_erase hheld, if_pos hindex] at htokens
        exact htokens
      have hother : ∀ index, worker.index ≠ index → Carries (p.states index) (p.queued index)
            ((p.held.erase (caller, worker)).countP fun entry => entry.2.index = index) := by
        intro index hindex
        have htokens := hinv.tokens index
        rw [lent_eq_erase hheld, if_neg hindex, Nat.add_zero] at htokens
        exact htokens
      dsimp only at h
      split at h
      · next hdead =>
          cases h
          have hflag : (p.states worker.index).any (fun state => state.stage.deadFlag) = true := hdead
          refine hinv.of_tokens ?_ ?_ ?_ fun index => ?_
          · rfl
          · rfl
          · rfl
          · by_cases hindex : worker.index = index
            · have hreturned := (hown index hindex).returned
              rw [← hindex] at hreturned ⊢
              rw [if_pos hflag] at hreturned
              exact hreturned
            · exact hother index hindex
      · next hdead =>
          cases h
          have hflag : ¬(p.states worker.index).any (fun state => state.stage.deadFlag) = true :=
            hdead
          refine hinv.of_tokens ?_ ?_ ?_ fun index => ?_
          · rfl
          · rfl
          · rfl
          · rw [queued_put]
            by_cases hindex : worker.index = index
            · rw [if_pos hindex]
              have hreturned := (hown index hindex).returned
              rw [← hindex] at hreturned ⊢
              rw [if_neg hflag] at hreturned
              exact hreturned
            · rw [if_neg hindex]
              exact hother index hindex
  · cases h

section

variable [DecidableEq κ]

theorem step_fine (hinv : p.Inv settings) {action : Action κ} {p' : Pool κ}
    (h : step settings action p = some p') :
    (Fine settings ⟨p, action, p'⟩ ↔ Meets settings p action) ∧
      (Meets settings p action → p'.Inv settings) := by
  have hfine : (Meets settings p action → p'.Inv settings) →
      (Fine settings ⟨p, action, p'⟩ → Meets settings p action) →
      (∀ caller, action = .acquire caller → Meets settings p action → p.HandsOutServing) →
      (Fine settings ⟨p, action, p'⟩ ↔ Meets settings p action) ∧
        (Meets settings p action → p'.Inv settings) := by
    intro hkeep hmeets hgiven
    refine ⟨⟨hmeets, fun hm => ⟨(hkeep hm).sound, fun caller hact => ?_⟩⟩, hkeep⟩
    exact hgiven caller hact hm
  cases action with
  | spawned index ok =>
    refine hfine (fun _ => inv_onSpawned hinv h) (fun _ => trivial) fun caller hact => ?_
    cases hact
  | health index ok =>
    refine hfine (fun hm => ?_) (fun hgood => ?_) fun caller hact => ?_
    · apply inv_onHealth hinv h
      intro hok
      subst hok
      exact hm
    · cases ok with
      | false => trivial
      | true =>
        intro state hstate hprobing
        have htwo := tokens_onHealth hinv hstate hprobing h
        have hone := hgood.1.single index
        dsimp only at hone
        omega
    · cases hact
  | terminated index =>
    refine hfine (fun _ => inv_onTerminated hinv h) (fun _ => trivial) fun caller hact => ?_
    cases hact
  | gathered =>
    refine hfine (fun hm => inv_onGathered hinv h hm) (fun hgood => ?_) fun caller hact => ?_
    · apply count_onGathered hinv h
      apply hgood.1.count
      exact started_onGathered h
    · cases hact
  | exits index =>
    refine hfine (fun _ => inv_onExits hinv h) (fun _ => trivial) fun caller hact => ?_
    cases hact
  | notices index =>
    refine hfine (fun hm => inv_onNotices hinv h hm) (fun hgood => ?_) fun caller hact => ?_
    · intro state hstate hlimit
      obtain ⟨hdead, hqueued⟩ := dead_onNotices hstate hlimit h
      have hnone := hgood.1.dead index hdead
      dsimp only at hnone
      omega
    · cases hact
  | wakes index =>
    refine hfine (fun _ => inv_onWakes hinv h) (fun _ => trivial) fun caller hact => ?_
    cases hact
  | acquire caller =>
    refine hfine (fun _ => inv_acquire hinv h) (fun hgood => hgood.2 caller rfl) ?_
    exact fun _ _ hm => hm
  | release caller worker =>
    refine hfine (fun _ => inv_release hinv h) (fun _ => trivial) fun caller hact => ?_
    cases hact

/-- In a run of the pool every state is sound, and no caller is given a worker that is
being restarted, exactly if no move does harm. -/
theorem tokens_exclusive (settings : Settings) (actions : List (Action κ))
    (ms : List (Taken (Pool κ) (Action κ)))
    (h : moves (step settings) actions (init settings) = some ms) :
    (∀ m ∈ ms, Fine settings m) ↔ ∀ m ∈ ms, Meets settings m.before m.act :=
  fine_iff_meets (fun _ _ _ hinv hstep => step_fine hinv hstep) inv_init h

end

section

def single : Settings where
  gpuDevices := ["gpu:0"]

def lending : List (Action Nat) :=
  [.spawned 0 true, .health 0 true, .gathered, .acquire 1, .release 1 (makePoolWorker single 0)]

theorem tokens_exclusive_lending :
    ∃ ms, moves (step single) lending (init single) = some ms ∧ ms.length = 5 ∧
      ∀ m ∈ ms, Fine single m := by
  refine ⟨_, rfl, rfl, (tokens_exclusive single lending _ rfl).mpr ?_⟩
  intro m hm
  rcases mem_cons.mp hm with rfl | hm
  · trivial
  rcases mem_cons.mp hm with rfl | hm
  · intro state hstate
    cases hstate
    decide
  rcases mem_cons.mp hm with rfl | hm
  · intro index
    cases index with
    | zero | succ index => rfl
  rcases mem_cons.mp hm with rfl | hm
  · intro worker hworker
    cases hworker
    rfl
  rcases mem_cons.mp hm with rfl | hm
  · trivial
  · cases hm

def restarting : List (Action Nat) :=
  [.spawned 0 true, .health 0 true, .gathered, .exits 0, .notices 0, .wakes 0,
    .spawned 0 true, .health 0 true, .acquire 1, .acquire 2]

/-- Two callers hold the one worker. -/
theorem token_doubled :
    ¬∀ (settings : Settings) (actions : List (Action Nat))
      (ms : List (Taken (Pool Nat) (Action Nat))),
      moves (step settings) actions (init settings) = some ms → ∀ m ∈ ms, Fine settings m := by
  intro h
  have hlast := h single restarting _ rfl _ (getLast_mem (cons_ne_nil _ _))
  have hone := hlast.1.single 0
  have htwo : ¬(2 ≤ 1) := by decide
  exact htwo hone

end

end Pool

end Substrate.Inference
