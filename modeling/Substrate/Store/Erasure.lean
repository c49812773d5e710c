import Substrate.Store.Provenance

/-!
What an erasure leaves of its tenant. `erase` deletes what it reaches through the runs the
tenant still has and through the addresses of those runs.
-/

namespace Substrate.Store

open Lib List

namespace Archive

def erasing (env : TxEnv) (tenant : Tenant) (threadId : Option String) (agent : Option Address)
    (channels : List String) : Call :=
  ⟨env, .erase tenant threadId agent channels⟩

section Erasing

variable {w : Archive} {env : TxEnv} {tenant : Tenant} {threadId : Option String}
  {agent : Option Address} {channels : List String}

theorem erasing_store : (w.step (erasing env tenant threadId agent channels)).store =
    w.store.erase tenant threadId agent channels := rfl

theorem erasing_notes :
    let w' := w.step (erasing env tenant threadId agent channels)
    w'.tenants = w.tenants ∧ w'.claimants = w.claimants ∧ w'.readers = w.readers := by
  have htables := erase_tables w.store tenant threadId agent channels
  have hclaims : Table.note w.store.claims (w.store.erase tenant threadId agent channels).claims
      (fun _ _ => (erasing env tenant threadId agent channels).op.caller) w.claimants =
        w.claimants := by
    rw [htables.claims]
    have hsame := Table.note_filter w.store.claims (fun _ _ => true)
      (fun _ _ => (erasing env tenant threadId agent channels).op.caller) w.claimants
    rwa [Table.filter_true] at hsame
  refine ⟨?_, hclaims, ?_⟩
  · have hruns := Table.note_filter w.store.runs
      (fun _ row => !eraseMatch tenant threadId agent row) (fun _ row => row.tenant) w.tenants
    rw [← htables.runs] at hruns
    exact hruns
  · have hprocessed := Table.note_filter w.store.processed
      (fun key _ => !w.store.vacates tenant threadId agent key.1)
      (fun key _ => w.readersNow (erasing env tenant threadId agent channels).op.caller key)
      w.readers
    rw [← htables.processed] at hprocessed
    exact hprocessed

theorem erasing_tenantOf (runId : RunId) :
    (w.step (erasing env tenant threadId agent channels)).tenantOf runId = w.tenantOf runId :=
  congrArg (Table.latest · runId) erasing_notes.1

theorem erasing_claimTenant (claimId : String) :
    (w.step (erasing env tenant threadId agent channels)).claimTenant claimId =
      w.claimTenant claimId := by
  unfold claimTenant
  rw [erasing_notes.2.1]
  congr 1
  exact funext erasing_tenantOf

theorem erasing_readersOf (key : Address × String) :
    (w.step (erasing env tenant threadId agent channels)).readersOf key = w.readersOf key := by
  unfold readersOf
  rw [erasing_notes.2.2]

end Erasing

theorem erases_tenant {w : Archive} {tenant : Tenant} {runId : RunId} :
    w.store.erases tenant none none runId = true ↔ w.Has tenant runId := by
  unfold erases selected eraseMatch Has
  cases w.store.runs.get? runId <;> simp

theorem vacates_tenant {w : Archive} {tenant : Tenant} {address : Address} :
    w.store.vacates tenant none none address = true ↔ w.Alone tenant address := by
  have hrow : ∀ row, eraseMatch tenant none none row = decide (row.tenant = tenant) := by
    intro row
    simp [eraseMatch]
  unfold vacates Alone
  simp only [hrow, reduceCtorEq, decide_false, Bool.or_false, Bool.and_eq_true, any_eq_true,
    Bool.not_eq_true', decide_eq_true_eq, any_eq_false, decide_eq_false_iff_not, not_and,
    not_not, Prod.exists, Prod.forall, Table.mem_rows_iff]
  apply and_congr_left'
  constructor
  · rintro ⟨runId, row, hrow, htenant, hagent⟩
    exact ⟨runId, row, hrow, hagent, htenant⟩
  · rintro ⟨runId, row, hrow, hagent, htenant⟩
    exact ⟨runId, row, hrow, htenant, hagent⟩

/-- An erasure leaves nothing of its tenant exactly when it reaches all of it. -/
theorem erased_traceless {w : Archive} (h : Reachable w) (env : TxEnv) (tenant : Tenant)
    (channels : List String) :
    Traceless (w.step (erasing env tenant none none channels)) tenant ↔ Reached w tenant := by
  have hkept := kept_reachable h
  have htables := erase_tables w.store tenant none none channels
  have hforgets := erase_forgets w.store tenant none none channels
  have hgone : ∀ runId, (!w.store.erases tenant none none runId) = true ↔ ¬ w.Has tenant runId := by
    intro runId
    rw [← erases_tenant, Bool.not_eq_true', Bool.not_eq_true]
  have hstays : ∀ address, (!w.store.vacates tenant none none address) = true ↔
      ¬ w.Alone tenant address := by
    intro address
    rw [← vacates_tenant, Bool.not_eq_true', Bool.not_eq_true]
  constructor
  · intro htraceless
    constructor
    · intro claimId payload hclaim
      have hafter := htraceless.claims claimId payload
        (by rw [erasing_store, htables.claims]; exact hclaim)
      rwa [erasing_claimTenant] at hafter
    · intro signal hsignal htenant
      by_contra hother
      refine htraceless.signals signal ?_ (by rw [erasing_tenantOf]; exact htenant)
      rw [erasing_store, hforgets.signals, mem_filter]
      exact ⟨hsignal, (hgone _).mpr hother⟩
    · intro effectId child hspawn htenant
      by_contra hother
      refine htraceless.spawns effectId child ?_ (by rw [erasing_tenantOf]; exact htenant)
      rw [erasing_store, htables.spawns, Table.get?_filter, Option.filter_eq_some_iff]
      exact ⟨hspawn, (hgone _).mpr hother⟩
    · intro link hlink htenant
      by_contra hother
      refine htraceless.runAccounts link ?_ (by rw [erasing_tenantOf]; exact htenant)
      rw [erasing_store, htables.runAccounts, mem_filter]
      exact ⟨hlink, (hgone _).mpr hother⟩
    · intro row hrow htenant
      by_contra hother
      refine htraceless.inbox row ?_ htenant
      rw [erasing_store, htables.inbox, mem_filter]
      exact ⟨hrow, (hstays _).mpr hother⟩
    · intro key at' hkey htenant
      by_contra hother
      refine htraceless.processed key at' ?_ (by rw [erasing_readersOf]; exact htenant)
      rw [erasing_store, htables.processed, Table.get?_filter, Option.filter_eq_some_iff]
      exact ⟨hkey, (hstays _).mpr hother⟩
    · intro row hrow htenant
      by_contra hother
      refine htraceless.deadLetters row ?_ htenant
      rw [erasing_store, htables.deadLetters, mem_filter]
      exact ⟨hrow, (hstays _).mpr hother⟩
  · intro hreached
    constructor
    · intro runId row hrow htenant
      rw [erasing_store, htables.runs, Table.get?_filter, Option.filter_eq_some_iff] at hrow
      simp [eraseMatch, htenant] at hrow
    · intro event hevent htenant
      rw [erasing_store, hforgets.events, mem_filter] at hevent
      rw [erasing_tenantOf] at htenant
      obtain ⟨row, hrow⟩ := Option.isSome_iff_exists.mp (hkept.events event hevent.1)
      have howner := hkept.tenants _ _ hrow
      rw [htenant] at howner
      exact (hgone _).mp hevent.2 ⟨row, hrow, (Option.some.inj howner).symm⟩
    · intro wait hwait htenant
      rw [erasing_store, hforgets.wake, mem_filter] at hwait
      rw [erasing_tenantOf] at htenant
      obtain ⟨row, hrow⟩ := Option.isSome_iff_exists.mp (hkept.wake wait hwait.1)
      have howner := hkept.tenants _ _ hrow
      rw [htenant] at howner
      exact (hgone _).mp hwait.2 ⟨row, hrow, (Option.some.inj howner).symm⟩
    · intro signal hsignal htenant
      rw [erasing_store, hforgets.signals, mem_filter] at hsignal
      rw [erasing_tenantOf] at htenant
      exact (hgone _).mp hsignal.2 (hreached.signals signal hsignal.1 htenant)
    · intro claimId payload hclaim
      rw [erasing_store, htables.claims] at hclaim
      rw [erasing_claimTenant]
      exact hreached.claims claimId payload hclaim
    · intro effectId child hspawn htenant
      rw [erasing_store, htables.spawns, Table.get?_filter, Option.filter_eq_some_iff] at hspawn
      rw [erasing_tenantOf] at htenant
      exact (hgone _).mp hspawn.2 (hreached.spawns effectId child hspawn.1 htenant)
    · intro link hlink htenant
      rw [erasing_store, htables.runAccounts, mem_filter] at hlink
      rw [erasing_tenantOf] at htenant
      exact (hgone _).mp hlink.2 (hreached.runAccounts link hlink.1 htenant)
    · intro row hrow htenant
      rw [erasing_store, htables.inbox, mem_filter] at hrow
      exact (hstays _).mp hrow.2 (hreached.inbox row hrow.1 htenant)
    · intro key at' hkey htenant
      rw [erasing_store, htables.processed, Table.get?_filter, Option.filter_eq_some_iff] at hkey
      rw [erasing_readersOf] at htenant
      exact (hstays _).mp hkey.2 (hreached.processed key at' hkey.1 htenant)
    · intro row hrow htenant
      rw [erasing_store, htables.deadLetters, mem_filter] at hrow
      exact (hstays _).mp hrow.2 (hreached.deadLetters row hrow.1 htenant)

/-- A run of the tenant reads a message and completes. -/
private def finished : Archive :=
  let env := TxEnv.plain 0
  let mail : Delivery := { agent := "agent", msg := { id := "m", sender := "user" }, tenant := "acme" }
  let lease := { firstLease "run-0" with tenant := "acme" }
  (((step ⟨env, .createRun { agent := "agent", tenant := "acme" } [mail]⟩ {}).step
    ⟨env, .lease "w" 1 100 0⟩).step
      ⟨env, .commit lease { ack := ["m"], outcome := some (.ending .complete) }⟩)

private theorem finished_reachable : Reachable finished :=
  reachable_step (reachable_step (reachable_step (Steps.refl _) _) _) _

private theorem finished_alone : finished.Alone "acme" "agent" := by
  rw [← vacates_tenant]
  decide

/-- Nothing is left of a run that read its mail and completed. -/
theorem erased_traceless_finished : Reachable finished ∧
    Traceless (finished.step (erasing (.plain 0) "acme" none none [])) "acme" := by
  refine ⟨finished_reachable, (erased_traceless finished_reachable (.plain 0) "acme" []).mpr ?_⟩
  have hprocessed : finished.store.processed.rows.map Prod.fst = [("agent", "m")] := by decide
  constructor
  · intro claimId payload hclaim
    cases hclaim
  · intro signal hsignal
    cases hsignal
  · intro effectId child hspawn
    cases hspawn
  · intro link hlink
    cases hlink
  · intro row hrow
    cases hrow
  · intro key at' hkey _
    have hmem : key ∈ finished.store.processed.rows.map Prod.fst :=
      mem_map.mpr ⟨(key, at'), Table.mem_rows_iff.mpr hkey, rfl⟩
    rw [hprocessed, mem_singleton] at hmem
    rw [hmem]
    exact finished_alone
  · intro row hrow
    cases hrow

private def answered : Archive :=
  let env := TxEnv.plain 0
  ((step ⟨env, .createRun { agent := "agent", tenant := "acme", runId := some "asker" } []⟩ {}).step
    ⟨env, .signal "asker" "reply:c" [("text", .str "private")]⟩).step
      ⟨env, .consume "asker" "reply:c" "wait:reply:c"⟩

/-- The answer is still there after the tenant is erased. -/
theorem erase_leaves_claim : ¬ ∀ w : Archive, Reachable w → ∀ env tenant channels,
    Traceless (w.step (erasing env tenant none none channels)) tenant := by
  intro h
  have hreach : Reachable answered :=
    reachable_step (reachable_step (reachable_step (Steps.refl _) _) _) _
  have htraceless := h answered hreach (.plain 0) "acme" []
  exact htraceless.claims "wait:reply:c" [("text", .str "private")] (by rfl) (by decide)

end Archive

end Substrate.Store
