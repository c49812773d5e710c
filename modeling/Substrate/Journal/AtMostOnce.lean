import Substrate.Journal.Answers
import Substrate.Journal.Phases

/-!
At most once. A run is taken up any number of times; each attempt folds the durable
record, and is cut wherever its tape ends.
-/

namespace Substrate

open Session List

structure Rested (c : Config) (id : String) (h : History) : Prop where
  phase : ∃ phase, Phase.after id .fresh h.trace = some phase ∧
    (phase = .running ∨ phase = .raised false ∨ phase = .gone → (Memory.ofLog h.log).Holds id)
  backed : Backed c h.trace (.ofLog h.log)
  honest : Honest h.trace

variable {id : String} {events : List Event} {last : Phase}

private theorem rested_attempt {c : Config} {h : History} (hrest : Rested c id h)
    (one : Prog × List Tick) : Rested c id (h.attempt c one) := by
  obtain ⟨phase, hphase, hholds⟩ := hrest.phase
  have hstart : ∃ phase', Tracked id phase' (h.session one.2) := by
    have hnext : ∀ {phase'}, phase.step .attempt = some phase' →
        Fits id phase' (.ofLog h.log) (.ofLog h.log) → Tracked id phase' (h.session one.2) := by
      intro phase' hstep hfits
      refine ⟨?_, hfits⟩
      change Phase.after id .fresh (h.trace ++ [.attempt]) = some phase'
      rw [Phase.after_concat, hphase]
      exact hstep
    rcases phase with _ | _ | (_ | _) | _ | _
    · exact ⟨.fresh, hnext rfl trivial⟩
    · exact ⟨.gone, hnext rfl ⟨hholds (by simp), hholds (by simp)⟩⟩
    · exact ⟨.gone, hnext rfl ⟨hholds (by simp), hholds (by simp)⟩⟩
    · exact ⟨.raised true, hnext rfl trivial⟩
    · exact ⟨.gone, hnext rfl ⟨hholds (by simp), hholds (by simp)⟩⟩
    · exact ⟨.exempt, hnext rfl trivial⟩
  obtain ⟨phase', htracked⟩ := hstart
  obtain ⟨last, hran, _⟩ := run_careful c id one.1 _ _ htracked
  have hsound : Sound c (h.session one.2) := by
    refine ⟨hrest.backed.append _, hrest.backed.append _, ?_⟩
    exact Sound.honest_concat hrest.honest nofun
  have hran' := run_truthful c one.1 _ hsound
  refine ⟨⟨last, hran.trace, ?_⟩, hran'.log, hran'.honest⟩
  have hfits := hran.fits
  rintro (rfl | rfl | rfl)
  · exact hfits.2
  · exact hfits
  · exact hfits.2

theorem rested_history (c : Config) (id : String) (attempts : List (Prog × List Tick)) :
    Rested c id (history c attempts) := by
  have hinit : Rested c id {} := by
    refine ⟨⟨.fresh, rfl, by simp⟩, ?_, ?_⟩
    · intro other known hknown
      cases hknown
    · intro before call idempotent reply hprefix
      have hlength := hprefix.length_le
      simp at hlength
  unfold history
  generalize ({} : History) = h at hinit ⊢
  induction attempts generalizing h with
  | nil => exact hinit
  | cons one rest ih => exact ih _ (rested_attempt hinit one)

/-- The worker's attempt ended after a start of the step, and it had not been
noted that the body raised. -/
def Lost (id : String) (trace : List Event) : Prop :=
  ∃ before start rest, trace = before ++ start :: rest ∧ start.deed id = some .started ∧
    ¬ Did id rest .noted ∧ Did id rest .attempt

/-- What it means that a step runs at most once: a second start comes only after
the body raised, and that was noted or the worker went on; a step that returned
or was lost is never started again, and every call of it is answered or refused
as an orphan; and what is answered is what the body returned. -/
structure AtMostOnce (id : String) (trace : List Event) : Prop where
  restart : ∀ before first between second after,
    trace = before ++ first :: (between ++ second :: after) →
    first.deed id = some .started → second.deed id = some .started →
    ¬ Did id between .started → Did id between .raised ∧ ¬ Did id between .returned ∧
        (Did id between .noted ∨ ¬ Did id between .attempt)
  settled : ∀ before after, trace = before ++ after → Did id before .returned ∨ Lost id before →
      ¬ Did id after .started ∧
        ∀ call idempotent reply, .called call idempotent reply ∈ after → call.id = id →
          reply = .orphaned ∨ ∃ value, reply = .answered value
  answers : ∀ before call idempotent value after,
    trace = before ++ .called call idempotent (.answered value) :: after →
      Produced call.id value before
  one_value : ∀ call value call' value', .returned call value ∈ trace →
    .returned call' value' ∈ trace → call.id = id → call'.id = id → value = value'

private theorem not_exempt (h : Phase.after id .fresh events = some last)
    (hrepeats : ¬ Did id events .repeats) : last ≠ .exempt := by
  induction events using List.reverseRecOn generalizing last with
  | nil =>
    cases h
    simp
  | append_singleton events event ih =>
    rw [Phase.after_concat] at h
    obtain ⟨middle, hmiddle, hnext⟩ := Option.bind_eq_some_iff.mp h
    rw [did_append, not_or] at hrepeats
    have hbefore := ih hmiddle hrepeats.1
    cases hdeed : event.deed id with
    | none =>
      rw [Phase.next_of_none hdeed] at hnext
      cases hnext
      exact hbefore
    | some deed =>
      rw [Phase.next_of_some hdeed] at hnext
      rcases middle with _ | _ | (_ | _) | _ | _ <;> cases deed <;> cases hnext <;> simp_all

private theorem running_of_start {before rest : List Event} {start : Event}
    (h : Phase.after id .fresh (before ++ start :: rest) = some last)
    (hstart : start.deed id = some .started)
    (hrepeats : ¬ Did id (before ++ start :: rest) .repeats) :
    Phase.after id .running rest = some last := by
  obtain ⟨phase, hphase, hrest⟩ := Phase.after_split h
  obtain ⟨middle, hnext, hrest⟩ := Phase.after_cons_split hrest
  rw [did_append, not_or] at hrepeats
  have hne := not_exempt hphase hrepeats.1
  rw [Phase.next_of_some hstart] at hnext
  cases phase with
  | fresh | raised noted =>
    cases hnext
    exact hrest
  | running | gone => cases hnext
  | exempt => exact absurd rfl hne

private theorem gone_of_returned (h : Phase.after id .fresh events = some last)
    (hrepeats : ¬ Did id events .repeats) (hreturned : Did id events .returned) :
    last = .gone := by
  obtain ⟨event, hmem, hdeed⟩ := hreturned
  obtain ⟨before, rest, rfl⟩ := append_of_mem hmem
  obtain ⟨phase, hphase, hrest⟩ := Phase.after_split h
  obtain ⟨middle, hnext, hrest⟩ := Phase.after_cons_split hrest
  rw [did_append, did_cons, not_or, not_or] at hrepeats
  have hne := not_exempt hphase hrepeats.1
  rw [Phase.next_of_some hdeed] at hnext
  cases phase with
  | running =>
    cases hnext
    exact (Phase.gone_after hrest hrepeats.2.2).1
  | fresh | raised | gone => cases hnext
  | exempt => exact absurd rfl hne

private theorem gone_of_lost (h : Phase.after id .fresh events = some last)
    (hrepeats : ¬ Did id events .repeats) (hlost : Lost id events) : last = .gone := by
  obtain ⟨before, start, rest, rfl, hstart, hnoted, hattempt⟩ := hlost
  have hrunning := running_of_start h hstart hrepeats
  rw [did_append, did_cons, not_or, not_or] at hrepeats
  rcases Phase.lost_after (.inl rfl) hrunning hnoted hrepeats.2.2 with hgone | ⟨_, hnone⟩
  · exact hgone
  · exact absurd hattempt hnone

private theorem at_most_once_of {trace : List Event} (h : Phase.after id .fresh trace = some last)
    (hhonest : Honest trace) (hrepeats : ¬ Did id trace .repeats) :
    AtMostOnce id trace where
  restart := by
    rintro before first between second after rfl hfirst hsecond hbetween
    have hrunning := running_of_start h hfirst hrepeats
    obtain ⟨phase, hphase, hrest⟩ := Phase.after_split hrunning
    obtain ⟨middle, hnext, _⟩ := Phase.after_cons_split hrest
    simp only [did_append, did_cons, not_or] at hrepeats
    have hsince := Phase.since_start hphase hbetween hrepeats.2.2.1
    rw [Phase.next_of_some hsecond] at hnext
    cases phase with
    | raised noted =>
      obtain ⟨hraised, hreturned, hnoted⟩ := hsince
      exact ⟨hraised, hreturned, hnoted.imp_right And.right⟩
    | running | gone => cases hnext
    | fresh | exempt => exact hsince.elim
  settled := by
    rintro before after rfl hover
    obtain ⟨phase, hphase, hrest⟩ := Phase.after_split h
    have hsplit := hrepeats
    rw [did_append, not_or] at hsplit
    have hgone : phase = .gone := by
      rcases hover with hreturned | hlost
      · exact gone_of_returned hphase hsplit.1 hreturned
      · exact gone_of_lost hphase hsplit.1 hlost
    subst hgone
    obtain ⟨_, hstarted, _, hadmitted⟩ := Phase.gone_after hrest hsplit.2
    refine ⟨hstarted, fun call idempotent reply hcalled hid => ?_⟩
    cases idempotent with
    | true => exact absurd ⟨_, hcalled, by simp [Event.deed, hid]⟩ hsplit.2
    | false =>
      cases reply with
      | answered value => exact .inr ⟨value, rfl⟩
      | orphaned => exact .inl rfl
      | admitted => exact absurd ⟨_, hcalled, by simp [Event.deed, hid]⟩ hadmitted
      | unresolved ref =>
        obtain ⟨front, back, rfl⟩ := append_of_mem hcalled
        have hprefix : (before ++ front) ++ [.called call false (.unresolved ref)] <+:
            before ++ (front ++ .called call false (.unresolved ref) :: back) :=
          ⟨back, by simp⟩
        exact absurd rfl ((hhonest _ _ _ _ hprefix).2 ref)
  answers := by
    rintro before call idempotent value after rfl
    exact (hhonest before call idempotent _ ⟨after, by simp⟩).1 value rfl
  one_value := by
    intro call value call' value' hfirst hsecond hid hid'
    obtain ⟨before, rest, rfl⟩ := append_of_mem hfirst
    have hdeed : (Event.returned call value).deed id = some .returned := if_pos hid
    have hdeed' : (Event.returned call' value').deed id = some .returned := if_pos hid'
    obtain ⟨phase, hphase, hrest⟩ := Phase.after_split h
    have hsplit := hrepeats
    rw [did_append, not_or] at hsplit
    rcases mem_append.mp hsecond with hbefore | hafter
    · have hgone := gone_of_returned hphase hsplit.1 ⟨_, hbefore, hdeed'⟩
      subst hgone
      obtain ⟨_, _, hreturned, _⟩ := Phase.gone_after hrest hsplit.2
      exact absurd ⟨_, mem_cons_self, hdeed⟩ hreturned
    · rcases mem_cons.mp hafter with heq | hafter
      · cases heq
        rfl
      · obtain ⟨middle, hnext, hrest⟩ := Phase.after_cons_split hrest
        rw [did_cons, not_or] at hsplit
        have hgone : middle = .gone := by
          have hwhole : Phase.after id .fresh (before ++ [.returned call value]) = some middle := by
            rw [Phase.after_concat, hphase]
            exact hnext
          refine gone_of_returned hwhole ?_ ⟨_, mem_append_right _ mem_cons_self, hdeed⟩
          rw [did_append, not_or]
          exact ⟨hsplit.1, by simp [hdeed]⟩
        subst hgone
        obtain ⟨_, _, hreturned, _⟩ := Phase.gone_after hrest hsplit.2.2
        exact absurd ⟨_, hafter, hdeed'⟩ hreturned

/-- At most once, across crashes: for any attempts of a run, each cut anywhere
and with any answers to its commits, a step that no call declares idempotent is
started again only after its body raised. -/
theorem at_most_once (c : Config) (attempts : List (Prog × List Tick)) (id : String)
    (honce : ∀ call reply, .called call true reply ∈ (history c attempts).trace → call.id ≠ id) :
    AtMostOnce id (history c attempts).trace := by
  have hrested := rested_history c id attempts
  obtain ⟨last, hlast, _⟩ := hrested.phase
  refine at_most_once_of hlast hrested.honest ?_
  rintro ⟨event, hmem, hdeed⟩
  cases event with
  | called call idempotent reply =>
    simp only [Event.deed] at hdeed
    split at hdeed
    · rename_i hid
      cases idempotent with
      | true => exact honce call reply hmem hid
      | false => cases reply <;> cases hdeed
    · cases hdeed
  | started call | returned call _ | raised call | wrote r =>
    simp only [Event.deed] at hdeed
    split at hdeed <;> cases hdeed
  | attempt | issued call | diverged call | observed call _ => cases hdeed

/-! A charge is declined and tried again; the worker dies in the second try, and
the third attempt refuses. -/

private def chargeConfig : Config :=
  { makeId := fun path kind => path ++ ":" ++ kind, digest := fun _ => "" }

private def charge : Prog := .effect "tool" .null false .outside fun
    | .ok value => .done value
    | .error failure => .raise failure

private def declined : ErrorInfo := { code := "effect_failed", message := "declined" }

private def chargeAttempts : List (Prog × List Tick) :=
  [(charge, [{}, {}, {}, { world := .raises (.error declined) }, {}]),
    (charge, [{}, {}, {}]), (charge, [{}])]

theorem at_most_once_charge :
    (∃ call, .called call false .orphaned ∈ (history chargeConfig chargeAttempts).trace) ∧
      AtMostOnce "0:tool" (history chargeConfig chargeAttempts).trace := by
  let call : CallId := { id := "0:tool", path := "0", kind := "tool", digest := "" }
  have htrace : (history chargeConfig chargeAttempts).trace =
      [.attempt, .issued call, .called call false .admitted, .wrote (.intent call false),
        .started call, .raised call, .wrote (.failed "0:tool" declined),
        .observed call (.error (.error declined)),
        .attempt, .issued call, .called call false .admitted, .wrote (.intent call false),
        .started call,
        .attempt, .issued call, .called call false .orphaned,
        .observed call (.error (.orphaned call))] := rfl
  refine ⟨⟨call, by simp [htrace]⟩, at_most_once chargeConfig chargeAttempts "0:tool" ?_⟩
  intro other reply hcalled
  rw [htrace] at hcalled
  simp at hcalled

end Substrate
