import Substrate.Store.Calls

/-!
What `erase` does to each table. The runs it names are selected by tenant, and narrowed by
thread or actor; what is keyed by a run goes with the run.
-/

namespace Substrate.Store

open Lib List

/-- Whether `erase` names a run. -/
def erases (s : Store) (tenant : Tenant) (threadId : Option String) (agent : Option Address)
    (runId : RunId) : Bool :=
  s.selected (eraseMatch tenant threadId agent) runId

/-- Whether `erase` leaves no run at an address it looks at. -/
def vacates (s : Store) (tenant : Tenant) (threadId : Option String) (agent : Option Address)
    (address : Address) : Bool :=
  ((s.runs.rows.any fun row =>
      eraseMatch tenant threadId agent row.2 && row.2.agent = address) ||
    agent = some address) &&
  !s.runs.rows.any fun row =>
    row.2.agent = address && !eraseMatch tenant threadId agent row.2

private theorem links_fold (rows : List (RunId × RunRow)) (s : Store) :
    let t := rows.foldl (fun s row => (s.forgetRun row.1).forgetLinks row.1) s
    t.runs = s.runs ∧ t.inbox = s.inbox ∧ t.processed = s.processed ∧
      t.deadLetters = s.deadLetters ∧ t.claims = s.claims ∧ t.spend = s.spend ∧
      t.accounts = s.accounts ∧
      t.spawns = s.spawns.filter (fun _ child => child ∉ rows.map Prod.fst) ∧
      t.runAccounts = s.runAccounts.filter (fun row => row.1 ∉ rows.map Prod.fst) := by
  induction rows generalizing s with
  | nil => simp [Table.filter_true]
  | cons row rest ih =>
    obtain ⟨hruns, hinbox, hprocessed, hletters, hclaims, hspend, haccounts, hspawns, hlinks⟩ :=
      ih ((s.forgetRun row.1).forgetLinks row.1)
    refine ⟨hruns, hinbox, hprocessed, hletters, hclaims, hspend, haccounts, ?_, ?_⟩
    · rw [foldl_cons, hspawns]
      simp only [forgetLinks, forgetRun, Table.filter_filter]
      apply Table.filter_congr
      intro effectId child
      simp only [map_cons, mem_cons, not_or, Bool.decide_and]
    · rw [foldl_cons, hlinks]
      simp only [forgetLinks, forgetRun, List.filter_filter]
      apply List.filter_congr
      intro link _
      simp only [map_cons, mem_cons, not_or, Bool.decide_and, Bool.and_comm]

private theorem dropMail_tables (addresses : List Address) (s : Store) :
    let t := addresses.foldl dropMail s
    let kept := fun address =>
      !decide (address ∈ addresses) || s.runs.rows.any fun row => row.2.agent = address
    t.runs = s.runs ∧ t.claims = s.claims ∧ t.spend = s.spend ∧ t.accounts = s.accounts ∧
      t.spawns = s.spawns ∧ t.runAccounts = s.runAccounts ∧
      t.inbox = s.inbox.filter (fun row => kept row.agent) ∧
      t.processed = s.processed.filter (fun key _ => kept key.1) ∧
      t.deadLetters = s.deadLetters.filter (fun row => kept row.agent) := by
  induction addresses generalizing s with
  | nil => simp [Table.filter_true]
  | cons first rest ih =>
    obtain ⟨hruns, hclaims, hspend, haccounts, hspawns, hlinks, hinbox, hprocessed, hletters⟩ :=
      ih (dropMail s first)
    have hkept : ∀ address,
        (!decide (address ∈ first :: rest) || s.runs.rows.any fun row => row.2.agent = address) =
          ((!decide (address = first) || s.runs.rows.any fun row => row.2.agent = address) &&
            (!decide (address ∈ rest) || s.runs.rows.any fun row => row.2.agent = address)) := by
      intro address
      simp only [mem_cons, Bool.decide_or]
      generalize (s.runs.rows.any fun row => decide (row.2.agent = address)) = stays
      cases decide (address = first) <;> cases decide (address ∈ rest) <;> cases stays <;> rfl
    by_cases hany : (s.runs.rows.any fun row => row.2.agent = first) = true
    · have hsame : dropMail s first = s := if_pos hany
      rw [hsame] at hruns hclaims hspend haccounts hspawns hlinks hinbox hprocessed hletters
      have hall : ∀ address, (!decide (address = first) ||
          s.runs.rows.any fun row => row.2.agent = address) = true := by
        intro address
        by_cases hfirst : address = first
        · simp [hfirst, hany]
        · simp [hfirst]
      simp only [foldl_cons, hsame, hkept, hall, Bool.true_and]
      exact ⟨hruns, hclaims, hspend, haccounts, hspawns, hlinks, hinbox, hprocessed, hletters⟩
    · have hdrop : dropMail s first =
          { s with
            inbox := s.inbox.filter fun row => row.agent ≠ first
            processed := s.processed.filter fun key _ => key.1 ≠ first
            deadLetters := s.deadLetters.filter fun row => row.agent ≠ first } := if_neg hany
      have hgone : ∀ address, (!decide (address = first) ||
          s.runs.rows.any fun row => row.2.agent = address) = decide (address ≠ first) := by
        intro address
        by_cases hfirst : address = first
        · subst hfirst
          simp [Bool.eq_false_iff.mpr hany]
        · simp [hfirst]
      rw [hdrop] at hruns hclaims hspend haccounts hspawns hlinks hinbox hprocessed hletters
      simp only [foldl_cons, hdrop, hkept, hgone]
      refine ⟨hruns, hclaims, hspend, haccounts, hspawns, hlinks, ?_, ?_, ?_⟩
      · rw [hinbox, List.filter_filter]
        exact List.filter_congr fun row _ => Bool.and_comm ..
      · rw [hprocessed, Table.filter_filter]
      · rw [hletters, List.filter_filter]
        exact List.filter_congr fun row _ => Bool.and_comm ..

/-- Every table after an `erase`. -/
structure Erased (s : Store) (tenant : Tenant) (threadId : Option String) (agent : Option Address)
    (channels : List String) (s' : Store) : Prop where
  runs : s'.runs = s.runs.filter fun _ row => !eraseMatch tenant threadId agent row
  claims : s'.claims = s.claims
  spawns : s'.spawns = s.spawns.filter fun _ child => !s.erases tenant threadId agent child
  runAccounts : s'.runAccounts =
    s.runAccounts.filter fun link => !s.erases tenant threadId agent link.1
  inbox : s'.inbox = s.inbox.filter fun row => !s.vacates tenant threadId agent row.agent
  processed : s'.processed = s.processed.filter fun key _ => !s.vacates tenant threadId agent key.1
  deadLetters : s'.deadLetters =
    s.deadLetters.filter fun row => !s.vacates tenant threadId agent row.agent
  spend : s'.spend = s.spend.filter fun tree _ =>
    s.runs.rows.any fun row => row.2.treeId = tree && !eraseMatch tenant threadId agent row.2
  accounts : s'.accounts = s.accounts.filter fun name _ =>
    !(threadId.isNone && agent.isNone &&
      (channels.map ("channel:" ++ ·) ++ ["tenant:" ++ tenant]).contains name) &&
    !(agent.any fun agent => name = "agent:" ++ agent)

private theorem names_exactly (s : Store) (tenant : Tenant) (threadId : Option String)
    (agent : Option Address) (runId : RunId) :
    (!decide (runId ∈ (s.runs.rows.filter fun row =>
      eraseMatch tenant threadId agent row.2).map Prod.fst)) =
      !s.erases tenant threadId agent runId := by
  congr 1
  rw [Bool.eq_iff_iff, decide_eq_true_eq]
  exact mem_selected runId

private theorem vacates_eq (s : Store) (tenant : Tenant) (threadId : Option String)
    (agent : Option Address) (address : Address) :
    (!decide (address ∈ (s.runs.rows.filter fun row =>
        eraseMatch tenant threadId agent row.2).map (·.2.agent) ++ agent.toList) ||
      (s.runs.filter fun _ row => !eraseMatch tenant threadId agent row).rows.any fun row =>
        row.2.agent = address) = !s.vacates tenant threadId agent address := by
  have hlooked : decide (address ∈ (s.runs.rows.filter fun row =>
        eraseMatch tenant threadId agent row.2).map (·.2.agent) ++ agent.toList) =
      ((s.runs.rows.any fun row =>
        eraseMatch tenant threadId agent row.2 && row.2.agent = address) ||
          agent = some address) := by
    rw [Bool.eq_iff_iff, decide_eq_true_eq, mem_append, Bool.or_eq_true]
    apply or_congr
    · simp [any_eq_true, and_assoc]
    · cases agent <;> simp [eq_comm]
  have hleft : ((s.runs.filter fun _ row => !eraseMatch tenant threadId agent row).rows.any
        fun row => row.2.agent = address) =
      s.runs.rows.any fun row =>
        row.2.agent = address && !eraseMatch tenant threadId agent row.2 := by
    unfold Table.filter
    rw [any_filter]
    exact congrArg (List.any s.runs.rows) (funext fun row => Bool.and_comm ..)
  rw [hlooked, hleft, vacates, Bool.not_and, Bool.not_not]

/-- `erase` before it looks at mail. -/
private def eraseRuns (s : Store) (tenant : Tenant) (threadId : Option String)
    (agent : Option Address) (channels : List String) : Store :=
  let rows := s.runs.rows.filter fun row => eraseMatch tenant threadId agent row.2
  let s := rows.foldl (fun s row => (s.forgetRun row.1).forgetLinks row.1) s
  let s := { s with
    runs := s.runs.filter fun _ row => !eraseMatch tenant threadId agent row }
  let s :=
    if threadId.isNone && agent.isNone then
      s.dropAccounts (channels.map ("channel:" ++ ·) ++ ["tenant:" ++ tenant])
    else s
  let s := s.dropSpend
  match agent with
  | some agent => s.dropAccounts ["agent:" ++ agent]
  | none => s

private theorem eraseRuns_tables (s : Store) (tenant : Tenant) (threadId : Option String)
    (agent : Option Address) (channels : List String) :
    let t := s.eraseRuns tenant threadId agent channels
    t.runs = (s.runs.filter fun _ row => !eraseMatch tenant threadId agent row) ∧
      t.claims = s.claims ∧ t.inbox = s.inbox ∧ t.processed = s.processed ∧
      t.deadLetters = s.deadLetters ∧
      t.spawns = (s.spawns.filter fun _ child => !s.erases tenant threadId agent child) ∧
      t.runAccounts = (s.runAccounts.filter fun link => !s.erases tenant threadId agent link.1) ∧
      t.spend = (s.spend.filter fun tree _ =>
        s.runs.rows.any fun row =>
          row.2.treeId = tree && !eraseMatch tenant threadId agent row.2) ∧
      t.accounts = s.accounts.filter fun name _ =>
        !(threadId.isNone && agent.isNone &&
          (channels.map ("channel:" ++ ·) ++ ["tenant:" ++ tenant]).contains name) &&
        !(agent.any fun agent => name = "agent:" ++ agent) := by
  obtain ⟨hruns, hinbox, hprocessed, hletters, hclaims, hspend, haccounts, hspawns, hlinks⟩ :=
    links_fold (s.runs.rows.filter fun row => eraseMatch tenant threadId agent row.2) s
  have hspawns' : (s.spawns.filter fun _ child => child ∉ (s.runs.rows.filter fun row =>
        eraseMatch tenant threadId agent row.2).map Prod.fst) =
      s.spawns.filter fun _ child => !s.erases tenant threadId agent child :=
    Table.filter_congr fun _ child => by rw [← names_exactly, decide_not]
  have hlinks' : (s.runAccounts.filter fun link => link.1 ∉ (s.runs.rows.filter fun row =>
        eraseMatch tenant threadId agent row.2).map Prod.fst) =
      s.runAccounts.filter fun link => !s.erases tenant threadId agent link.1 :=
    List.filter_congr fun link _ => by rw [← names_exactly, decide_not]
  have hleft : ∀ tree, ((s.runs.filter fun _ row =>
        !eraseMatch tenant threadId agent row).rows.any fun row => row.2.treeId = tree) =
      s.runs.rows.any fun row =>
        row.2.treeId = tree && !eraseMatch tenant threadId agent row.2 := by
    intro tree
    unfold Table.filter
    rw [any_filter]
    exact congrArg (List.any s.runs.rows) (funext fun row => Bool.and_comm ..)
  rw [hspawns'] at hspawns
  rw [hlinks'] at hlinks
  have hspend' : ∀ runs : Table RunId RunRow, runs = s.runs →
      (s.spend.filter fun tree _ => (runs.filter fun _ row =>
        !eraseMatch tenant threadId agent row).rows.any fun row => row.2.treeId = tree) =
      s.spend.filter fun tree _ => s.runs.rows.any fun row =>
        row.2.treeId = tree && !eraseMatch tenant threadId agent row.2 := by
    rintro runs rfl
    exact Table.filter_congr fun tree _ => hleft tree
  unfold eraseRuns
  cases agent with
  | some agent =>
    simp only [Option.isNone_some, Bool.and_false, Bool.false_eq_true, if_false, dropSpend,
      dropAccounts, hruns, hspend]
    refine ⟨trivial, hclaims, hinbox, hprocessed, hletters, hspawns, hlinks, hspend' _ rfl, ?_⟩
    rw [haccounts]
    apply Table.filter_congr
    intro name account
    simp
  | none =>
    cases threadId with
    | some threadId =>
      simp only [Option.isNone_some, Bool.false_and, Bool.false_eq_true, if_false, dropSpend,
        hruns, hspend]
      refine ⟨trivial, hclaims, hinbox, hprocessed, hletters, hspawns, hlinks, hspend' _ rfl, ?_⟩
      rw [haccounts]
      exact (Table.filter_true _).symm
    | none =>
      simp only [Option.isNone_none, Bool.and_self, if_true, dropSpend, dropAccounts, hruns, hspend]
      refine ⟨trivial, hclaims, hinbox, hprocessed, hletters, hspawns, hlinks, hspend' _ rfl, ?_⟩
      rw [haccounts]
      apply Table.filter_congr
      intro name account
      simp

theorem erase_tables (s : Store) (tenant : Tenant) (threadId : Option String)
    (agent : Option Address) (channels : List String) :
    Erased s tenant threadId agent channels (s.erase tenant threadId agent channels) := by
  obtain ⟨hruns, hclaims, hinbox, hprocessed, hletters, hspawns, hlinks, hspend, haccounts⟩ :=
    eraseRuns_tables s tenant threadId agent channels
  obtain ⟨hruns', hclaims', hspend', haccounts', hspawns', hlinks', hinbox', hprocessed',
    hletters'⟩ := dropMail_tables
      ((s.runs.rows.filter fun row => eraseMatch tenant threadId agent row.2).map (·.2.agent) ++
        agent.toList) (s.eraseRuns tenant threadId agent channels)
  have herase : s.erase tenant threadId agent channels =
      ((s.runs.rows.filter fun row => eraseMatch tenant threadId agent row.2).map (·.2.agent) ++
        agent.toList).foldl dropMail (s.eraseRuns tenant threadId agent channels) := rfl
  rw [hruns] at hinbox' hprocessed' hletters'
  simp only [vacates_eq] at hinbox' hprocessed' hletters'
  rw [herase]
  exact ⟨hruns'.trans hruns, hclaims'.trans hclaims, hspawns'.trans hspawns,
    hlinks'.trans hlinks, by rw [hinbox', hinbox], by rw [hprocessed', hprocessed],
    by rw [hletters', hletters], hspend'.trans hspend, haccounts'.trans haccounts⟩

end Substrate.Store
