import Substrate.Channels.Operations
import Substrate.Store.Erasure

/-!
What an erasure leaves of the other tenants. Runs, and what is keyed by a run or by a
channel, are selected by tenant, so an erasure of one tenant passes by those of another.
Mail is not: it goes with an address that no run is left for, whoever it was delivered
for.
-/

namespace Substrate

open Lib Store Store.Archive List

namespace Database

structure Untouched (w : Archive) (d d' : Database) (tenant : Tenant) : Prop where
  runs : ∀ runId row, row.tenant = tenant →
    (d'.store.runs.get? runId = some row ↔ d.store.runs.get? runId = some row)
  events : (d'.store.events.filter fun event => w.tenantOf event.runId = some tenant) =
    d.store.events.filter fun event => w.tenantOf event.runId = some tenant
  signals : (d'.store.signals.filter fun signal => w.tenantOf signal.runId = some tenant) =
    d.store.signals.filter fun signal => w.tenantOf signal.runId = some tenant
  spawns : ∀ effectId child, w.tenantOf child = some tenant →
    (d'.store.spawns.get? effectId = some child ↔ d.store.spawns.get? effectId = some child)
  inbox : (d'.store.inbox.filter fun row => row.tenant = tenant) =
    d.store.inbox.filter fun row => row.tenant = tenant
  processed : ∀ key, tenant ∈ w.readersOf key →
    d'.store.processed.get? key = d.store.processed.get? key
  deadLetters : (d'.store.deadLetters.filter fun row => row.tenant = tenant) =
    d.store.deadLetters.filter fun row => row.tenant = tenant
  entries : ∀ channel row, d.channels.channels.get? channel = some row → row.tenant = tenant →
    ∀ seq, d'.channels.entries.get? (channel, seq) = d.channels.entries.get? (channel, seq)
  treeSpend : ∀ runId row, d.store.runs.get? runId = some row → row.tenant = tenant →
    d'.store.spend.get? row.treeId = d.store.spend.get? row.treeId
  tenantSpend : d'.store.accounts.get? ("tenant:" ++ tenant) =
    d.store.accounts.get? ("tenant:" ++ tenant)
  channelSpend : ∀ channel row, d.channels.channels.get? channel = some row →
    row.tenant = tenant → d'.store.accounts.get? ("channel:" ++ channel) =
      d.store.accounts.get? ("channel:" ++ channel)

/-- No mail, dead letter or acknowledged id of a tenant is at an address that an erasure
vacates. -/
def Sheltered (w : Archive) (tenant : Tenant) (threadId : Option String) (agent : Option Address)
    (other : Tenant) : Prop :=
  ∀ address, w.store.vacates tenant threadId agent address = true →
    (∀ row ∈ w.store.inbox, row.agent = address → row.tenant ≠ other) ∧
      (∀ row ∈ w.store.deadLetters, row.agent = address → row.tenant ≠ other) ∧
      ∀ key at', w.store.processed.get? key = some at' → key.1 = address → other ∉ w.readersOf key

theorem append_left_inj {a b c : String} (h : a ++ b = a ++ c) : b = c := by
  have hchars := congrArg String.toList h
  rw [String.toList_append, String.toList_append] at hchars
  exact String.toList_inj.mp (append_cancel_left hchars)

theorem append_ne {a b : String} (h : a.toList.head? ≠ b.toList.head?) (ha : a ≠ "") (hb : b ≠ "")
    (c d : String) : a ++ c ≠ b ++ d := by
  intro heq
  have hchars := congrArg List.head? (congrArg String.toList heq)
  have hfirst : ∀ {x : String} (y : String), x ≠ "" → (x ++ y).toList.head? = x.toList.head? := by
    intro x y hx
    rw [String.toList_append]
    cases hlist : x.toList with
    | nil => exact absurd (String.toList_inj.mp (hlist.trans String.toList_empty.symm)) hx
    | cons first rest => rfl
  rw [hfirst c ha, hfirst d hb] at hchars
  exact h hchars

private theorem filter_kept {α : Type} {p q : α → Bool} {items : List α}
    (h : ∀ a ∈ items, p a = true → q a = true) : (items.filter q).filter p = items.filter p := by
  rw [List.filter_filter]
  apply List.filter_congr
  intro a ha
  cases hp : p a with
  | false => rfl
  | true => rw [h a ha hp, Bool.and_self]

private theorem filter_lost {α : Type} {p q : α → Bool} {items : List α}
    (h : (items.filter q).filter p = items.filter p) {a : α} (ha : a ∈ items) (hp : p a = true) :
    q a = true := by
  have hmem : a ∈ (items.filter q).filter p := by
    rw [h]
    exact mem_filter.mpr ⟨ha, hp⟩
  exact (mem_filter.mp (mem_filter.mp hmem).1).2

private theorem mem_channelsOf {c : Channels} {tenant : Tenant} {channel : String} :
    channel ∈ channelsOf c tenant ↔
      ∃ row, c.channels.get? channel = some row ∧ row.tenant = tenant := by
  unfold channelsOf
  rw [mem_map]
  constructor
  · rintro ⟨⟨name, row⟩, hrow, rfl⟩
    rw [Table.mem_filter_rows, decide_eq_true_eq] at hrow
    exact ⟨row, hrow⟩
  · rintro ⟨row, hrow, htenant⟩
    exact ⟨(channel, row), Table.mem_filter_rows.mpr ⟨hrow, by simpa using htenant⟩, rfl⟩

private theorem dropChannel_entries (names : List String) (c : Channels) {channel : String}
    (hother : channel ∉ names) (seq : Int) :
    (names.foldl dropChannel c).entries.get? (channel, seq) = c.entries.get? (channel, seq) := by
  induction names generalizing c with
  | nil => rfl
  | cons name rest ih =>
    simp only [mem_cons, not_or] at hother
    rw [foldl_cons, ih _ hother.2]
    change (c.entries.filter _).get? (channel, seq) = _
    rw [Table.get?_filter]
    cases c.entries.get? (channel, seq) with
    | none => rfl
    | some entry => simp [hother.1]

section Kept

variable {w : Archive} {tenant other : Tenant} {threadId : Option String}
  {agent : Option Address}

private theorem erases_owner (hkept : Kept w) (hne : other ≠ tenant) {runId : RunId}
    (howner : w.tenantOf runId = some other) :
    w.store.erases tenant threadId agent runId = false := by
  unfold erases selected
  cases hrow : w.store.runs.get? runId with
  | none => rfl
  | some row =>
    have htenant := hkept.tenants runId row hrow
    rw [howner] at htenant
    simp [eraseMatch, ← Option.some.inj htenant, hne]

end Kept

/-- An erasure of one tenant leaves the rows of another as they are exactly when
none of its mail is at an address the erasure vacates. -/
theorem erase_isolated {w : Archive} (h : Reachable w) (c : Channels) {tenant other : Tenant}
    (hne : other ≠ tenant) (threadId : Option String) (agent : Option Address) :
    Untouched w ⟨w.store, c⟩ (erase ⟨w.store, c⟩ tenant threadId agent) other ↔
      Sheltered w tenant threadId agent other := by
  have hkept := kept_reachable h
  have htables := erase_tables w.store tenant threadId agent (channelsOf c tenant)
  have hforgets := erase_forgets w.store tenant threadId agent (channelsOf c tenant)
  have hmatch : ∀ row : RunRow, row.tenant = other →
      eraseMatch tenant threadId agent row = false := by
    intro row hrow
    simp [eraseMatch, hrow, hne]
  constructor
  · intro huntouched address hvacates
    have hinbox := huntouched.inbox
    have hletters := huntouched.deadLetters
    simp only [erase, htables.inbox] at hinbox
    simp only [erase, htables.deadLetters] at hletters
    refine ⟨?_, ?_, ?_⟩
    · intro row hrow haddress htenant
      have hkeeps := filter_lost hinbox hrow (by simpa using htenant)
      rw [haddress, hvacates] at hkeeps
      cases hkeeps
    · intro row hrow haddress htenant
      have hkeeps := filter_lost hletters hrow (by simpa using htenant)
      rw [haddress, hvacates] at hkeeps
      cases hkeeps
    · intro key at' hkey haddress hreader
      have hsame := huntouched.processed key hreader
      simp only [erase, htables.processed, Table.get?_filter, hkey, haddress, hvacates,
        Bool.not_true, Option.filter_some, Bool.false_eq_true, if_false] at hsame
      cases hsame
  · intro hsheltered
    constructor
    · intro runId row hrow
      change (w.store.erase tenant threadId agent (channelsOf c tenant)).runs.get? runId = _ ↔ _
      rw [htables.runs, Table.get?_filter, Option.filter_eq_some_iff, hmatch row hrow]
      simp
    · simp only [erase, hforgets.events]
      apply filter_kept
      intro event _ howner
      rw [decide_eq_true_eq] at howner
      exact Bool.not_eq_true' _ ▸ erases_owner hkept hne howner
    · simp only [erase, hforgets.signals]
      apply filter_kept
      intro signal _ howner
      rw [decide_eq_true_eq] at howner
      exact Bool.not_eq_true' _ ▸ erases_owner hkept hne howner
    · intro effectId child howner
      simp only [erase, htables.spawns, Table.get?_filter, Option.filter_eq_some_iff]
      rw [erases_owner hkept hne howner]
      simp
    · simp only [erase, htables.inbox]
      apply filter_kept
      intro row hrow htenant
      rw [decide_eq_true_eq] at htenant
      rw [Bool.not_eq_true', Bool.eq_false_iff]
      intro hvacates
      exact (hsheltered row.agent hvacates).1 row hrow rfl htenant
    · intro key hreader
      simp only [erase, htables.processed, Table.get?_filter]
      cases hkey : w.store.processed.get? key with
      | none => rfl
      | some at' =>
        have hstays : w.store.vacates tenant threadId agent key.1 = false := by
          rw [Bool.eq_false_iff]
          intro hvacates
          exact (hsheltered key.1 hvacates).2.2 key at' hkey rfl hreader
        simp [hstays]
    · simp only [erase, htables.deadLetters]
      apply filter_kept
      intro row hrow htenant
      rw [decide_eq_true_eq] at htenant
      rw [Bool.not_eq_true', Bool.eq_false_iff]
      intro hvacates
      exact (hsheltered row.agent hvacates).2.1 row hrow rfl htenant
    · intro channel row hrow htenant seq
      unfold erase
      simp only
      split
      · apply dropChannel_entries
        intro hmem
        obtain ⟨found, hfound, htenant'⟩ := mem_channelsOf.mp hmem
        rw [Option.some.inj (hfound.symm.trans hrow)] at htenant'
        exact hne (htenant.symm.trans htenant')
      · rfl
    · intro runId row hrow htenant
      simp only [erase, htables.spend, Table.get?_filter]
      have hstays : (w.store.runs.rows.any fun stored =>
          stored.2.treeId = row.treeId && !eraseMatch tenant threadId agent stored.2) = true := by
        rw [any_eq_true]
        exact ⟨(runId, row), Table.mem_rows_iff.mpr hrow, by simp [hmatch row htenant]⟩
      cases w.store.spend.get? row.treeId with
      | none => rfl
      | some total => simp only [Option.filter_some, hstays, if_true]
    · simp only [erase, htables.accounts, Table.get?_filter]
      cases w.store.accounts.get? ("tenant:" ++ other) with
      | none => rfl
      | some account =>
        have hchannel : ∀ channel : String, "channel:" ++ channel ≠ "tenant:" ++ other :=
          fun channel => append_ne (by decide) (by decide) (by decide) _ _
        have hagent : ∀ address : String, "tenant:" ++ other ≠ "agent:" ++ address :=
          fun address => append_ne (by decide) (by decide) (by decide) _ _
        have htenant : "tenant:" ++ other ≠ "tenant:" ++ tenant := fun heq =>
          hne (append_left_inj heq)
        cases agent <;> simp [hchannel, hagent, htenant]
    · intro channel row hrow htenant
      simp only [erase, htables.accounts, Table.get?_filter]
      cases w.store.accounts.get? ("channel:" ++ channel) with
      | none => rfl
      | some account =>
        have hother : channel ∉ channelsOf c tenant := by
          intro hmem
          obtain ⟨found, hfound, htenant'⟩ := mem_channelsOf.mp hmem
          rw [Option.some.inj (hfound.symm.trans hrow)] at htenant'
          exact hne (htenant.symm.trans htenant')
        have hagent : ∀ address : String, "channel:" ++ channel ≠ "agent:" ++ address :=
          fun address => append_ne (by decide) (by decide) (by decide) _ _
        have htenant : "channel:" ++ channel ≠ "tenant:" ++ tenant :=
          append_ne (by decide) (by decide) (by decide) _ _
        cases agent <;> simp [hagent, htenant]
        exact .inr hother

private def neighbours : Archive :=
  let env := TxEnv.plain 0
  (step ⟨env, .createRun { agent := "a", tenant := "acme" } []⟩ {}).step
    ⟨env, .createRun { agent := "b", tenant := "globex" }
      [{ agent := "b", msg := { id := "m", sender := "user" }, tenant := "globex" }]⟩

private theorem neighbours_reachable : Reachable neighbours :=
  reachable_step (reachable_step (Steps.refl _) _) _

/-- Erasing a tenant with addresses of its own leaves the other's mail. -/
theorem erase_isolated_neighbours :
    Untouched neighbours ⟨neighbours.store, {}⟩ (erase ⟨neighbours.store, {}⟩ "acme" none none)
      "globex" := by
  refine (erase_isolated neighbours_reachable {} (by decide) none none).mpr ?_
  intro address hvacates
  have hmail : ∀ row ∈ neighbours.store.inbox, row.agent = "b" := by
    intro row hrow
    have hagents : neighbours.store.inbox.map (·.agent) = ["b"] := by decide
    exact mem_singleton.mp (hagents ▸ mem_map_of_mem hrow)
  refine ⟨?_, ?_, ?_⟩
  · intro row hrow haddress
    rw [← haddress, hmail row hrow] at hvacates
    exact absurd hvacates (by decide)
  · intro row hrow
    cases hrow
  · intro key at' hkey
    cases hkey

private def shared : Archive :=
  let env := TxEnv.plain 0
  (step ⟨env, .createRun { agent := "a", tenant := "acme" } []⟩ {}).step
    ⟨env, .deliver { agent := "a", msg := { id := "m", sender := "user" }, tenant := "globex" } true⟩

/-- The message goes with the other tenant. -/
theorem erase_takes_mail : ¬ ∀ w : Archive, Reachable w → ∀ (c : Channels) (tenant other : Tenant),
    other ≠ tenant → ∀ threadId agent,
      Untouched w ⟨w.store, c⟩ (erase ⟨w.store, c⟩ tenant threadId agent) other := by
  intro h
  have hreach : Reachable shared := reachable_step (reachable_step (Steps.refl _) _) _
  have hinbox := (h shared hreach {} "acme" "globex" (by decide) none none).inbox
  exact absurd (congrArg List.length hinbox) (by decide)

end Database

end Substrate
