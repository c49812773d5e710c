import Substrate.Identity.Gateway
import Substrate.Lib.Transition

/-!
What a browser's session goes through. A refresh token is sent twice when a second
instance, or a request that carries an older session, needs a refresh; the one that is
refused signs the browser out.
-/

namespace Substrate.Identity

open Lib List Function Option

def Vault.fits (vault : Vault) (session nonce : Nat) : Prop :=
  (chunks (vault.sealed session nonce)).length ≤ maxChunks

variable {vault : Vault} {session nonce : Nat}

theorem setCookies_fits (cookies : Jar) (h : vault.fits session nonce) :
    ∃ headers, setCookies cookies (vault.sealed session nonce) = some headers := by
  unfold setCookies
  rw [if_neg (Nat.not_lt.mpr h)]
  exact ⟨_, rfl⟩

theorem holds_found {jar : Jar} (h : jar.holds (vault.sealed session nonce))
    (hfits : vault.fits session nonce) :
    readCookie jar = some (vault.sealed session nonce) ∧
      (readCookie jar).bind vault.unsealed = some session := by
  have hne : vault.sealed session nonce ≠ [] := by
    intro hnil
    have hopen := vault.unsealed_sealed session nonce
    rw [hnil, vault.unsealed_nil] at hopen
    cases hopen
  have hread := h.readCookie hne hfits
  refine ⟨hread, ?_⟩
  rw [hread]
  exact vault.unsealed_sealed session nonce

namespace World

variable (vault : Vault) (s : World)

/-- The session survives a move: no token has been sent twice, no response clears the cookies
of a session that has not run out, and when no response is under way the jar holds the newest
session, sealed once, and nothing else. -/
structure Survives (m : Taken World Action) : Prop where
  once : m.after.sent.Nodup
  kept : ∀ rid cookies, m.act = .arrive rid →
    m.before.requests rid = some ⟨cookies, .answered .clears⟩ → m.before.ended = true
  whole : m.after.ended = false → (∀ rid, m.after.requests rid = none) →
    ∃ nonce, m.after.jar.holds (vault.sealed m.after.issued nonce) ∧
      readCookie m.after.jar = some (vault.sealed m.after.issued nonce)

/-- The moves that do no harm. -/
def Meets : Action → Prop
  | .handle rid bff .stale => ∀ cookies token, s.requests rid = some ⟨cookies, .sent⟩ →
      (readCookie cookies).bind vault.unsealed = some token → s.inflight (bff, token) = none →
      token = s.issued ∧ (∀ other, s.inflight (other, token) = none) ∧ token ∉ s.refusals
  | .answer rid => ∀ cookies session,
      s.requests rid = some ⟨cookies, .resolved (some session)⟩ → vault.fits session s.nonce
  | .arrive rid => ∀ cookies session nonce,
      s.requests rid = some ⟨cookies, .answered (.sets session nonce)⟩ → s.ended = false →
      (∀ old, (readCookie s.jar).bind vault.unsealed = some old → old ≤ session) ∧
        s.jar.shownBeyond cookies (vault.sealed session nonce)
  | _ => True

def brings : Stage → Prop
  | .waiting bff token => s.inflight (bff, token) = some (.rotated s.issued)
  | .resolved session => session = some s.issued
  | .answered (.sets session _) => session = s.issued
  | _ => False

def allows : Stage → Prop
  | .resolved session => ∃ n, session = some n ∧ n ≤ s.issued
  | .answered (.sets session nonce) => session ≤ s.issued ∧ vault.fits session nonce
  | .answered .clears => False
  | _ => True

def keeps (jar : Jar) (session : Nat) : Prop :=
  session ≤ s.issued ∧ ∃ nonce, vault.fits session nonce ∧ jar.holds (vault.sealed session nonce)

/-- What is kept until the session runs out: the jar and every request hold a session, and if
it is not the newest one in the jar, that one is to come. -/
structure Live : Prop where
  jar : ∃ session, s.keeps vault s.jar session ∧
    (session < s.issued → ∃ rid request, s.requests rid = some request ∧ s.brings request.stage)
  shown : ∀ rid request, s.requests rid = some request → ∃ session,
    s.keeps vault request.cookies session
  stages : ∀ rid request, s.requests rid = some request → s.allows vault request.stage
  waited : ∀ bff token, s.inflight (bff, token) ≠ none → ∃ rid request,
    s.requests rid = some request ∧ request.stage = .waiting bff token
  honoured : ∀ bff token, s.inflight (bff, token) ≠ some .refused

structure Inv : Prop where
  once : s.sent.Nodup
  spent : ∀ token ∈ s.sent, token < s.issued ∨ (∃ bff, s.inflight (bff, token) ≠ none) ∨
    token ∈ s.refusals
  asked : ∀ bff token, s.inflight (bff, token) = some .asked → token = s.issued
  single : ∀ bff other token, s.inflight (bff, token) ≠ none → s.inflight (other, token) ≠ none →
    bff = other
  rotated : ∀ bff token session, s.inflight (bff, token) = some (.rotated session) →
    token < s.issued ∧ session ≤ s.issued
  refused : ∀ bff token, s.inflight (bff, token) = some .refused → token ∈ s.refusals
  opened : ∀ rid, s.opened ≤ rid → s.requests rid = none
  live : s.ended = false → s.Live vault

section

variable {vault} {s}

variable {rid bff token : Nat} {stage : Stage} {s' : World} {cookies : Jar}
    {session : Option Nat}

theorem Live.restage (h : s.Live vault) {request : Request}
    (hrequest : s.requests rid = some request)
    (hstage : ∀ bff token, request.stage ≠ .waiting bff token) (hallows : s.allows vault stage)
    (hbrings : s.brings request.stage → s.brings stage) :
    (s.setStage rid request stage).Live vault := by
  have hself : (s.setStage rid request stage).requests rid = some { request with stage := stage } :=
    update_self ..
  have hother : ∀ other, other ≠ rid →
      (s.setStage rid request stage).requests other = s.requests other :=
    fun other hne => update_of_ne hne ..
  refine ⟨?_, ?_, ?_, ?_, h.honoured⟩
  · obtain ⟨session, hkeeps, hcoming⟩ := h.jar
    refine ⟨session, hkeeps, fun hlt => ?_⟩
    obtain ⟨other, req, hreq, hb⟩ := hcoming hlt
    rcases eq_or_ne other rid with rfl | hne
    · rw [hrequest] at hreq
      cases hreq
      exact ⟨other, _, hself, hbrings hb⟩
    · exact ⟨other, req, (hother other hne).trans hreq, hb⟩
  · intro other req hreq
    rcases update_some hreq with ⟨_, hnew⟩ | ⟨_, hold⟩
    · cases hnew
      exact h.shown rid request hrequest
    · exact h.shown other req hold
  · intro other req hreq
    rcases update_some hreq with ⟨_, hnew⟩ | ⟨_, hold⟩
    · cases hnew
      exact hallows
    · exact h.stages other req hold
  · intro bff token hinflight
    obtain ⟨other, req, hreq, hwait⟩ := h.waited bff token hinflight
    have hne : other ≠ rid := by
      rintro rfl
      rw [hrequest] at hreq
      cases hreq
      exact hstage bff token hwait
    exact ⟨other, req, (hother other hne).trans hreq, hwait⟩

theorem Inv.survives {action : Action} (h : s'.Inv vault)
    (hkept : ∀ rid cookies, action = .arrive rid →
      s.requests rid = some ⟨cookies, .answered .clears⟩ → s.ended = true) :
    Survives vault ⟨s, action, s'⟩ := by
  refine ⟨h.once, hkept, fun hended hquiet => ?_⟩
  obtain ⟨session, ⟨hle, nonce, hfits, hholds⟩, hcoming⟩ := (h.live hended).jar
  have heq : session = s'.issued := by
    by_contra hne
    obtain ⟨rid, request, hrequest, _⟩ := hcoming (Nat.lt_of_le_of_ne hle hne)
    rw [hquiet rid] at hrequest
    cases hrequest
  rw [heq] at hfits hholds
  exact ⟨nonce, hholds, (holds_found hholds hfits).1⟩

theorem Inv.restage (h : s.Inv vault) {request : Request}
    (hrequest : s.requests rid = some request)
    (hlive : s.ended = false → (s.setStage rid request stage).Live vault) :
    (s.setStage rid request stage).Inv vault := by
  refine { h with opened := ?_, live := hlive }
  intro other hother
  have hne : other ≠ rid := by
    rintro rfl
    rw [h.opened other hother] at hrequest
    cases hrequest
  exact (update_of_ne hne ..).trans (h.opened other hother)

theorem Inv.request (h : s.Inv vault) : s.request.Inv vault := by
  have hother : ∀ other, other ≠ s.opened → s.request.requests other = s.requests other :=
    fun other hne => update_of_ne hne ..
  have hold : ∀ {rid request}, s.requests rid = some request →
      s.request.requests rid = some request := by
    intro rid request hrequest
    rw [hother rid]
    · exact hrequest
    · rintro rfl
      rw [h.opened _ (Nat.le_refl _)] at hrequest
      cases hrequest
  refine { h with opened := ?_, live := ?_ }
  · intro rid hrid
    have hrid : s.opened + 1 ≤ rid := hrid
    rw [hother rid (by omega)]
    exact h.opened rid (by omega)
  · intro hended
    have hlive := h.live hended
    refine ⟨?_, ?_, ?_, ?_, hlive.honoured⟩
    · obtain ⟨session, hkeeps, hcoming⟩ := hlive.jar
      refine ⟨session, hkeeps, fun hlt => ?_⟩
      obtain ⟨rid, request, hrequest, hb⟩ := hcoming hlt
      exact ⟨rid, request, hold hrequest, hb⟩
    · intro rid request hrequest
      rcases update_some hrequest with ⟨_, hnew⟩ | ⟨_, hrequest⟩
      · cases hnew
        obtain ⟨session, hkeeps, _⟩ := hlive.jar
        exact ⟨session, hkeeps⟩
      · exact hlive.shown rid request hrequest
    · intro rid request hrequest
      rcases update_some hrequest with ⟨_, hnew⟩ | ⟨_, hrequest⟩
      · cases hnew
        trivial
      · exact hlive.stages rid request hrequest
    · intro bff token hinflight
      obtain ⟨rid, request, hrequest, hwait⟩ := hlive.waited bff token hinflight
      exact ⟨rid, request, hold hrequest, hwait⟩

theorem Inv.refreshed (h : s.Inv vault) (hrequest : s.requests rid = some ⟨cookies, .sent⟩)
    (hmeets : s.inflight (bff, token) = none → token = s.issued ∧
      (∀ other, s.inflight (other, token) = none) ∧ token ∉ s.refusals) :
    (s.refreshed rid bff token ⟨cookies, .sent⟩).Inv vault := by
  have hwaiting : (s.setStage rid ⟨cookies, .sent⟩ (.waiting bff token)).Inv vault := by
    apply h.restage hrequest
    intro hended
    exact (h.live hended).restage hrequest nofun trivial fun hb => hb.elim
  unfold World.refreshed
  dsimp only
  split
  · exact hwaiting
  · rename_i hnone
    obtain ⟨rfl, hothers, hunrefused⟩ := hmeets hnone
    have hnew : ∀ place progress,
        update s.inflight (bff, s.issued) (some .asked) place = some progress →
        progress ≠ .asked → s.inflight place = some progress := by
      intro place progress hplace hne
      rcases update_some hplace with ⟨_, hasked⟩ | ⟨_, hold⟩
      · exact absurd (Option.some.inj hasked).symm hne
      · exact hold
    refine ⟨?_, ?_, ?_, ?_, ?_, ?_, hwaiting.opened, ?_⟩
    · refine nodup_cons.mpr ⟨fun hmem => ?_, h.once⟩
      rcases h.spent _ hmem with hlt | ⟨other, hinflight⟩ | hrefused
      · exact Nat.lt_irrefl _ hlt
      · exact hinflight (hothers other)
      · exact hunrefused hrefused
    · intro token hmem
      rcases mem_cons.mp hmem with rfl | hmem
      · refine Or.inr (Or.inl ⟨bff, ?_⟩)
        change update s.inflight _ _ _ ≠ none
        simp
      · rcases h.spent token hmem with hlt | ⟨other, hinflight⟩ | hrefused
        · exact Or.inl hlt
        · exact Or.inr (Or.inl ⟨other, update_ne_none hinflight⟩)
        · exact Or.inr (Or.inr hrefused)
    · intro other token hasked
      rcases update_some hasked with ⟨heq, _⟩ | ⟨_, hold⟩
      · exact congrArg Prod.snd heq
      · exact h.asked other token hold
    · intro one two token hone htwo
      rcases of_update_ne_none hone with heq | hone
      · cases heq
        rcases of_update_ne_none htwo with heq | htwo
        · exact (congrArg Prod.fst heq).symm
        · exact absurd (hothers two) htwo
      · rcases of_update_ne_none htwo with heq | htwo
        · cases heq
          exact absurd (hothers one) hone
        · exact h.single one two token hone htwo
    · intro other token session hrotated
      exact h.rotated other token session (hnew _ _ hrotated nofun)
    · intro other token hrefused
      exact h.refused other token (hnew _ _ hrefused nofun)
    · intro hended
      have hlive := hwaiting.live hended
      refine ⟨?_, hlive.shown, ?_, ?_, ?_⟩
      · obtain ⟨session, hkeeps, hcoming⟩ := hlive.jar
        refine ⟨session, hkeeps, fun hlt => ?_⟩
        obtain ⟨other, request, hreq, hb⟩ := hcoming hlt
        refine ⟨other, request, hreq, ?_⟩
        cases hstage : request.stage with
        | waiting b t =>
          rw [hstage] at hb
          change update s.inflight _ _ _ = _
          have hb : s.inflight (b, t) = some (.rotated s.issued) := hb
          rw [update_of_ne]
          · exact hb
          · intro heq
            rw [heq, hnone] at hb
            cases hb
        | sent | resolved session =>
          rw [hstage] at hb
          exact hb
        | answered body =>
          rw [hstage] at hb
          cases body <;> exact hb
      · intro other request hreq
        have hallows := hlive.stages other request hreq
        cases hstage : request.stage with
        | answered body =>
          rw [hstage] at hallows
          cases body <;> exact hallows
        | sent | waiting b t | resolved session =>
          rw [hstage] at hallows
          exact hallows
      · intro other token hinflight
        rcases of_update_ne_none hinflight with heq | hold
        · cases heq
          exact ⟨rid, _, update_self .., rfl⟩
        · exact hlive.waited other token hold
      · intro other token hrefused
        exact hlive.honoured other token (hnew _ _ hrefused nofun)

theorem Inv.handle (h : s.Inv vault) {view : View} (hmeets : s.Meets vault (.handle rid bff view))
    (hstep : s.handle vault rid bff view = some s') : s'.Inv vault := by
  unfold World.handle at hstep
  split at hstep
  · rename_i cookies hrequest
    split at hstep
    · rename_i hnone
      cases hstep
      apply h.restage hrequest
      intro hended
      obtain ⟨session, _, nonce, hfits, hholds⟩ := (h.live hended).shown rid _ hrequest
      have hfound := (holds_found hholds hfits).2
      dsimp only at hfound
      rw [hnone] at hfound
      cases hfound
    · cases hstep
      apply h.restage hrequest
      intro hended
      exact (h.live hended).restage hrequest nofun trivial fun hb => hb.elim
    · rename_i token hfound
      cases hstep
      exact h.refreshed hrequest fun hnone => hmeets cookies token hrequest hfound hnone
    · split at hstep
      · rename_i hended
        cases hstep
        apply h.restage hrequest
        intro hnot
        rw [hended] at hnot
        cases hnot
      · cases hstep
  · cases hstep

theorem Inv.provider (h : s.Inv vault) {ok : Bool} (hstep : s.provider bff token ok = some s') :
    s'.Inv vault := by
  unfold World.provider at hstep
  split at hstep
  · rename_i hasked
    split at hstep
    · rename_i htoken
      cases hstep
      have hwas : ∀ place,
          update s.inflight (bff, token) (some (.rotated (s.issued + 1))) place ≠ none →
          s.inflight place ≠ none := by
        intro place hplace
        rcases of_update_ne_none hplace with rfl | hold
        · rw [hasked]
          nofun
        · exact hold
      refine ⟨h.once, ?_, ?_, ?_, ?_, ?_, h.opened, ?_⟩
      · intro other hmem
        rcases h.spent other hmem with hlt | ⟨one, hinflight⟩ | hrefused
        · exact Or.inl (Nat.lt_succ_of_lt hlt)
        · exact Or.inr (Or.inl ⟨one, update_ne_none hinflight⟩)
        · exact Or.inr (Or.inr hrefused)
      · intro one other hone
        rcases update_some hone with ⟨_, hnew⟩ | ⟨hne, hold⟩
        · cases hnew
        · have hissued := h.asked one other hold
          rw [← htoken] at hissued
          subst hissued
          have hsame : one = bff := by
            apply h.single one bff other
            · rw [hold]
              nofun
            · rw [hasked]
              nofun
          exact absurd (congrArg (·, other) hsame) hne
      · intro one two other hone htwo
        exact h.single one two other (hwas _ hone) (hwas _ htwo)
      · intro one other session hone
        change other < s.issued + 1 ∧ session ≤ s.issued + 1
        rcases update_some hone with ⟨heq, hnew⟩ | ⟨_, hone⟩
        · cases heq
          cases hnew
          omega
        · have hrotated := h.rotated one other session hone
          omega
      · intro one other hone
        rcases update_some hone with ⟨_, hnew⟩ | ⟨_, hone⟩
        · cases hnew
        · exact h.refused one other hone
      · intro hended
        have hlive := h.live hended
        have hle : ∀ jar session, s.keeps vault jar session →
            session ≤ s.issued + 1 ∧ ∃ nonce, vault.fits session nonce ∧
              jar.holds (vault.sealed session nonce) :=
          fun _ _ hkeeps => ⟨Nat.le_succ_of_le hkeeps.1, hkeeps.2⟩
        refine ⟨?_, ?_, ?_, ?_, ?_⟩
        · obtain ⟨session, hkeeps, _⟩ := hlive.jar
          refine ⟨session, hle _ _ hkeeps, fun _ => ?_⟩
          obtain ⟨rid, request, hrequest, hwait⟩ := hlive.waited bff token (by
            rw [hasked]
            nofun)
          refine ⟨rid, request, hrequest, ?_⟩
          rw [hwait]
          exact update_self ..
        · intro rid request hrequest
          obtain ⟨session, hkeeps⟩ := hlive.shown rid request hrequest
          exact ⟨session, hle _ _ hkeeps⟩
        · intro rid request hrequest
          have hallows := hlive.stages rid request hrequest
          cases hstage : request.stage with
          | resolved session =>
            rw [hstage] at hallows
            obtain ⟨n, heq, hn⟩ := hallows
            exact ⟨n, heq, Nat.le_succ_of_le hn⟩
          | answered body =>
            rw [hstage] at hallows
            cases body with
            | sets session nonce => exact ⟨Nat.le_succ_of_le hallows.1, hallows.2⟩
            | nothing => trivial
            | clears => exact hallows
          | sent | waiting b t => trivial
        · intro one other hinflight
          exact hlive.waited one other (hwas _ hinflight)
        · intro one other hone
          rcases update_some hone with ⟨_, hnew⟩ | ⟨_, hone⟩
          · cases hnew
          · exact hlive.honoured one other hone
    · cases hstep
  · rename_i hasked
    split at hstep
    · rename_i hguard
      cases hstep
      have hended : s.ended = true := by
        rcases hguard with hne | hended
        · exact absurd (h.asked bff token hasked) hne
        · exact hended
      have hwas : ∀ place, update s.inflight (bff, token) (some .refused) place ≠ none →
          s.inflight place ≠ none := by
        intro place hplace
        rcases of_update_ne_none hplace with rfl | hold
        · rw [hasked]
          nofun
        · exact hold
      refine ⟨h.once, ?_, ?_, ?_, ?_, ?_, h.opened, fun hnot => ?_⟩
      · intro other hmem
        rcases h.spent other hmem with hlt | ⟨one, hinflight⟩ | hrefused
        · exact Or.inl hlt
        · exact Or.inr (Or.inl ⟨one, update_ne_none hinflight⟩)
        · exact Or.inr (Or.inr (mem_cons_of_mem _ hrefused))
      · intro one other hone
        rcases update_some hone with ⟨_, hnew⟩ | ⟨_, hone⟩
        · cases hnew
        · exact h.asked one other hone
      · intro one two other hone htwo
        exact h.single one two other (hwas _ hone) (hwas _ htwo)
      · intro one other session hone
        rcases update_some hone with ⟨_, hnew⟩ | ⟨_, hone⟩
        · cases hnew
        · exact h.rotated one other session hone
      · intro one other hone
        rcases update_some hone with ⟨heq, _⟩ | ⟨_, hone⟩
        · cases heq
          exact mem_cons_self
        · exact mem_cons_of_mem _ (h.refused one other hone)
      · rw [show _ = s.ended from rfl, hended] at hnot
        cases hnot
    · cases hstep
  · cases hstep

theorem settle_requests {request' : Request}
    (h : (s.settle bff token session).requests rid = some request') :
    ∃ request, s.requests rid = some request ∧ request'.cookies = request.cookies ∧
      ((request.stage = .waiting bff token ∧ request'.stage = .resolved session) ∨
        (request.stage ≠ .waiting bff token ∧ request'.stage = request.stage)) := by
  obtain ⟨request, hrequest, rfl⟩ := map_eq_some_iff.mp h
  refine ⟨request, hrequest, ?_⟩
  split
  · rename_i hwait
    exact ⟨rfl, Or.inl ⟨hwait, rfl⟩⟩
  · rename_i hwait
    exact ⟨rfl, Or.inr ⟨hwait, rfl⟩⟩

theorem requests_settle (bff token : Nat) (session : Option Nat) {request : Request}
    (h : s.requests rid = some request) :
    ∃ request', (s.settle bff token session).requests rid = some request' ∧
      (request.stage = .waiting bff token → request'.stage = .resolved session) ∧
      (request.stage ≠ .waiting bff token → request'.stage = request.stage) := by
  refine ⟨_, map_eq_some_iff.mpr ⟨request, h, rfl⟩, ?_, ?_⟩
  · intro hwait
    rw [if_pos hwait]
  · intro hwait
    rw [if_neg hwait]

theorem Inv.settle (h : s.Inv vault) (hspent : token < s.issued ∨ token ∈ s.refusals)
    (hlive : s.ended = false → ∃ n, session = some n ∧
      s.inflight (bff, token) = some (.rotated n) ∧ n ≤ s.issued) :
    (s.settle bff token session).Inv vault := by
  have hwas : ∀ place, update s.inflight (bff, token) none place ≠ none →
      place ≠ (bff, token) ∧ s.inflight place ≠ none := by
    intro place hplace
    obtain ⟨progress, hprogress⟩ := ne_none_iff_exists'.mp hplace
    obtain ⟨hne, hold⟩ := update_none hprogress
    exact ⟨hne, by rw [hold]; nofun⟩
  refine ⟨h.once, ?_, fun one other hone => h.asked one other (update_none hone).2, ?_,
    fun one other n hone => h.rotated one other n (update_none hone).2,
    fun one other hone => h.refused one other (update_none hone).2, ?_, ?_⟩
  · intro other hmem
    rcases h.spent other hmem with hlt | ⟨one, hinflight⟩ | hrefused
    · exact Or.inl hlt
    · rcases eq_or_ne (one, other) (bff, token) with heq | hne
      · cases heq
        rcases hspent with hlt | hrefused
        · exact Or.inl hlt
        · exact Or.inr (Or.inr hrefused)
      · refine Or.inr (Or.inl ⟨one, ?_⟩)
        change update s.inflight _ _ _ ≠ none
        rwa [update_of_ne hne]
    · exact Or.inr (Or.inr hrefused)
  · intro one two other hone htwo
    exact h.single one two other (hwas _ hone).2 (hwas _ htwo).2
  · intro rid hrid
    change (s.requests rid).map _ = none
    rw [h.opened rid hrid]
    rfl
  · intro hended
    obtain ⟨n, rfl, hrotated, hn⟩ := hlive hended
    have hlive := h.live hended
    refine ⟨?_, ?_, ?_, ?_, fun one other hone => hlive.honoured one other (update_none hone).2⟩
    · obtain ⟨kept, hkeeps, hcoming⟩ := hlive.jar
      refine ⟨kept, hkeeps, fun hlt => ?_⟩
      obtain ⟨rid, request, hrequest, hb⟩ := hcoming hlt
      obtain ⟨request', hrequest', hwait, hnot⟩ := requests_settle bff token (some n)
        hrequest
      refine ⟨rid, request', hrequest', ?_⟩
      by_cases hcase : request.stage = .waiting bff token
      · rw [hwait hcase]
        rw [hcase] at hb
        have hb : s.inflight (bff, token) = some (.rotated s.issued) := hb
        rw [hrotated] at hb
        cases hb
        rfl
      · rw [hnot hcase]
        cases hstage : request.stage with
        | waiting one other =>
          rw [hstage] at hb hcase
          have hne : (one, other) ≠ (bff, token) := by
            intro heq
            cases heq
            exact hcase rfl
          exact (update_of_ne hne ..).trans hb
        | sent | resolved session =>
          rw [hstage] at hb
          exact hb
        | answered body =>
          rw [hstage] at hb
          cases body <;> exact hb
    · intro rid request' hrequest'
      obtain ⟨request, hrequest, hcookies, _⟩ := settle_requests hrequest'
      rw [hcookies]
      exact hlive.shown rid request hrequest
    · intro rid request' hrequest'
      obtain ⟨request, hrequest, _, ⟨_, hstage⟩ | ⟨_, hstage⟩⟩ := settle_requests hrequest'
      · rw [hstage]
        exact ⟨n, rfl, hn⟩
      · rw [hstage]
        exact hlive.stages rid request hrequest
    · intro one other hinflight
      obtain ⟨hne, hinflight⟩ := hwas _ hinflight
      obtain ⟨rid, request, hrequest, hwait⟩ := hlive.waited one other hinflight
      obtain ⟨request', hrequest', _, hnot⟩ := requests_settle bff token (some n)
        hrequest
      refine ⟨rid, request', hrequest', (hnot ?_).trans hwait⟩
      rw [hwait]
      intro heq
      cases heq
      exact hne rfl

theorem Inv.reply (h : s.Inv vault) (hstep : s.reply bff token = some s') : s'.Inv vault := by
  unfold World.reply at hstep
  split at hstep
  · rename_i session hrotated
    cases hstep
    obtain ⟨hlt, hle⟩ := h.rotated bff token session hrotated
    exact h.settle (Or.inl hlt) fun _ => ⟨session, rfl, hrotated, hle⟩
  · rename_i hrefused
    cases hstep
    apply h.settle (Or.inr (h.refused bff token hrefused))
    intro hended
    exact absurd hrefused ((h.live hended).honoured bff token)
  · cases hstep

theorem Inv.answer (h : s.Inv vault) (hmeets : s.Meets vault (.answer rid))
    (hstep : s.answer vault rid = some s') : s'.Inv vault := by
  have hnonce : ∀ t : World, t.Inv vault → { t with nonce := s.nonce + 1 }.Inv vault :=
    fun t ht => ⟨ht.once, ht.spent, ht.asked, ht.single, ht.rotated, ht.refused, ht.opened,
      fun hended => ⟨(ht.live hended).jar, (ht.live hended).shown, (ht.live hended).stages,
        (ht.live hended).waited, (ht.live hended).honoured⟩⟩
  unfold World.answer at hstep
  split at hstep
  · rename_i cookies session hrequest
    have hfits := hmeets cookies session hrequest
    obtain ⟨headers, hheaders⟩ := setCookies_fits cookies hfits
    rw [hheaders] at hstep
    cases hstep
    apply hnonce
    apply h.restage hrequest
    intro hended
    obtain ⟨n, heq, hn⟩ := (h.live hended).stages rid _ hrequest
    cases heq
    have hallows : s.allows vault (.answered (.sets session s.nonce)) := ⟨hn, hfits⟩
    apply (h.live hended).restage hrequest nofun hallows
    intro hb
    exact Option.some.inj hb
  · rename_i cookies hrequest
    cases hstep
    apply h.restage hrequest
    intro hended
    obtain ⟨n, heq, _⟩ := (h.live hended).stages rid _ hrequest
    cases heq
  · cases hstep

theorem Live.arrive (h : s.Live vault) {request : Request} {jar : Jar}
    (hrequest : s.requests rid = some request)
    (hstage : ∀ bff token, request.stage ≠ .waiting bff token)
    (hjar : ∃ session, s.keeps vault jar session ∧ (session < s.issued →
      ¬s.brings request.stage ∧ ∀ old, s.keeps vault s.jar old → old ≤ session)) :
    { s with jar := jar, requests := update s.requests rid none }.Live vault := by
  have hother : ∀ other, other ≠ rid →
      update s.requests rid none other = s.requests other :=
    fun other hne => update_of_ne hne ..
  refine ⟨?_, fun other req hreq => h.shown other req (update_none hreq).2,
    fun other req hreq => h.stages other req (update_none hreq).2, ?_, h.honoured⟩
  · obtain ⟨session, hkeeps, hnot⟩ := hjar
    refine ⟨session, hkeeps, fun hlt => ?_⟩
    obtain ⟨old, hold, hcoming⟩ := h.jar
    obtain ⟨hunbrings, hle⟩ := hnot hlt
    obtain ⟨other, req, hreq, hb⟩ := hcoming (Nat.lt_of_le_of_lt (hle old hold) hlt)
    refine ⟨other, req, (hother other ?_).trans hreq, hb⟩
    rintro rfl
    rw [hrequest] at hreq
    cases hreq
    exact hunbrings hb
  · intro bff token hinflight
    obtain ⟨other, req, hreq, hwait⟩ := h.waited bff token hinflight
    refine ⟨other, req, (hother other ?_).trans hreq, hwait⟩
    rintro rfl
    rw [hrequest] at hreq
    cases hreq
    exact hstage bff token hwait

theorem Inv.arrive (h : s.Inv vault) (hmeets : s.Meets vault (.arrive rid))
    (hstep : s.arrive vault rid = some s') : s'.Inv vault := by
  unfold World.arrive at hstep
  split at hstep
  · rename_i cookies body hrequest
    cases hstep
    refine { h with opened := ?_, live := ?_ }
    · intro other hle
      change update s.requests rid none other = none
      rcases eq_or_ne other rid with rfl | hne
      · exact update_self ..
      · exact (update_of_ne hne ..).trans (h.opened other hle)
    · intro hended
      have hlive := h.live hended
      apply hlive.arrive hrequest nofun
      cases body with
      | nothing =>
        obtain ⟨session, hkeeps, _⟩ := hlive.jar
        refine ⟨session, hkeeps, fun _ => ⟨id, fun old hold => ?_⟩⟩
        obtain ⟨_, nonce, hfits, hholds⟩ := hkeeps
        obtain ⟨_, nonce', hfits', hholds'⟩ := hold
        have hfound := (holds_found hholds hfits).2
        rw [(holds_found hholds' hfits').2] at hfound
        cases hfound
        exact Nat.le_refl _
      | sets session nonce =>
        obtain ⟨hle, hfits⟩ := hlive.stages rid _ hrequest
        obtain ⟨hnewer, hshown⟩ := hmeets cookies session nonce hrequest hended
        obtain ⟨headers, hheaders⟩ := setCookies_fits cookies hfits
        have hholds := holds_setCookies hheaders hshown
        refine ⟨session, ⟨hle, nonce, hfits, ?_⟩, fun hlt => ⟨Nat.ne_of_lt hlt, ?_⟩⟩
        · change (s.jar.apply ((setCookies cookies (vault.sealed session nonce)).getD [])).holds _
          rw [hheaders]
          exact hholds
        · intro old hold
          obtain ⟨_, nonce', hfits', hholds'⟩ := hold
          exact hnewer old (holds_found hholds' hfits').2
      | clears => exact (hlive.stages rid _ hrequest).elim
  · cases hstep

theorem Inv.kept (h : s.Inv vault) (hrequest : s.requests rid = some ⟨cookies, .answered .clears⟩) :
    s.ended = true := by
  by_contra hended
  exact (h.live (Bool.eq_false_iff.mpr hended)).stages rid _ hrequest

theorem Inv.step {s' : World} {action : Action} (h : s.Inv vault)
    (hmeets : s.Meets vault action) (hstep : Identity.step vault action s = some s') :
    s'.Inv vault := by
  cases action with
  | request =>
    cases hstep
    exact h.request
  | handle rid bff view => exact h.handle hmeets hstep
  | provider bff token ok => exact h.provider hstep
  | reply bff token => exact h.reply hstep
  | answer rid => exact h.answer hmeets hstep
  | arrive rid => exact h.arrive hmeets hstep
  | runsOut =>
    cases hstep
    exact { h with live := fun hnot => nomatch hnot }

theorem inv_init (hfits : vault.fits 0 0) : (init vault).Inv vault where
  once := nodup_nil
  spent _ hmem := nomatch hmem
  asked _ _ hasked := nomatch hasked
  single _ _ _ hone := absurd rfl hone
  rotated _ _ _ hrotated := nomatch hrotated
  refused _ _ hrefused := nomatch hrefused
  opened _ _ := rfl
  live _ := {
    jar := ⟨0, ⟨Nat.le_refl _, 0, hfits, fun _ => rfl⟩, fun hlt => absurd hlt (Nat.lt_irrefl _)⟩
    shown := nofun
    stages := nofun
    waited := fun _ _ hinflight => absurd rfl hinflight
    honoured := fun _ _ hrefused => nomatch hrefused }

end

end World

/-- In every run whose moves do no harm the session of the browser survives. -/
theorem session_survives (vault : Vault) (hfits : vault.fits 0 0) (actions : List Action)
    (ms : List (Taken World Action))
    (hrun : moves (step vault) actions (World.init vault) = some ms)
    (hmeets : ∀ m ∈ ms, m.before.Meets vault m.act) : ∀ m ∈ ms, World.Survives vault m := by
  have hstep : ∀ (s : World) (action : Action) (s' : World), s.Inv vault →
      step vault action s = some s' → s.Meets vault action →
      World.Survives vault ⟨s, action, s'⟩ ∧ s'.Inv vault := by
    intro s action s' hinv htaken hmeets
    have hnext := hinv.step hmeets htaken
    refine ⟨hnext.survives ?_, hnext⟩
    exact fun rid cookies _ hrequest => hinv.kept hrequest
  exact fine_of_meets hstep (World.inv_init hfits) hrun hmeets

section

def plainVault : Vault where
  sealed session _ := List.replicate (session + 1) 'x'
  unsealed text := if text.length = 0 then none else some (text.length - 1)
  unsealed_sealed session nonce := by simp
  unsealed_nil := rfl

def refreshing : List Action :=
  [.request, .handle 0 0 .stale, .provider 0 0 true, .reply 0 0, .answer 0, .arrive 0]

theorem session_survives_refreshing :
    plainVault.fits 0 0 ∧ ∃ ms, moves (step plainVault) refreshing (World.init plainVault) =
      some ms ∧ ms.length = 6 ∧ ∀ m ∈ ms, World.Survives plainVault m := by
  have hfits : plainVault.fits 0 0 := Nat.le_of_ble_eq_true rfl
  refine ⟨hfits, _, rfl, rfl, session_survives plainVault hfits refreshing _ rfl ?_⟩
  intro m hm
  rcases mem_cons.mp hm with rfl | hm
  · trivial
  rcases mem_cons.mp hm with rfl | hm
  · intro cookies token hrequest hfound _
    cases hrequest
    cases hfound
    exact ⟨rfl, fun _ => rfl, nofun⟩
  iterate 2
    rcases mem_cons.mp hm with rfl | hm
    · trivial
  rcases mem_cons.mp hm with rfl | hm
  · intro cookies session hrequest
    cases hrequest
    exact Nat.le_of_ble_eq_true rfl
  rcases mem_cons.mp hm with rfl | hm
  · intro cookies session nonce hrequest _
    cases hrequest
    refine ⟨fun old hfound => ?_, fun index hindex hthere => ?_⟩
    · cases hfound
      exact Nat.zero_le _
    · cases index with
      | zero => exact absurd hindex (by decide)
      | succ index => cases hthere
  cases hm

def twice : List Action := [.request, .request, .handle 0 0 .stale, .handle 1 1 .stale]

/-- A refresh token is sent to the provider a second time. -/
theorem token_sent_twice :
    ¬∀ (vault : Vault), vault.fits 0 0 → ∀ (actions : List Action)
      (ms : List (Taken World Action)),
      moves (step vault) actions (World.init vault) = some ms →
      ∀ m ∈ ms, World.Survives vault m := by
  intro h
  have hfits : plainVault.fits 0 0 := Nat.le_of_ble_eq_true rfl
  have hlast := h plainVault hfits twice _ rfl _ (getLast_mem (cons_ne_nil _ _))
  have hnot : ¬[0, 0].Nodup := by decide
  exact hnot hlast.once

end

end Substrate.Identity
