import Substrate.Lib.Transition
import Substrate.Sql.Expansion

/-!
A reader learns nothing from a statement that it may not see, as long as the
statement does not name a ticket. Whether a bare name is the name of a definition is
decided by one set for the whole text, so a name that is defined somewhere else in
it passes for one that is defined here; and the names of the tickets can be defined.
-/

namespace Substrate.Sql

open Lib List Option

variable {catalog : Catalog} {salt : String} {findAll : Planned → List Nat}

def tableCount (sql : Statement) : Nat :=
  (named TableRef.parts [] sql).countP fun leaf => leaf.2.length ≠ 1

/-- No bare name outside the scope of a definition of it is a ticket's alias. -/
def Unclaimed (sql : Statement) : Prop :=
  ∀ leaf ∈ named TableRef.parts [] sql, ∀ name, leaf.2 = [name] → name ∉ leaf.1 →
    ∀ k < tableCount sql, name ≠ ticketAlias k

section Shown

variable {V M : Type} (engine : Engine V M) (node : Contents V → Kind → List M → M)
  (keep : Source → List (List (Row V)) → List (List (Row V)))

/-- Two contents look the same in one table to one reader. -/
def Shown (catalog : Catalog) (salt : String) (who : Principal) (record : TableRecord)
    (contents₁ contents₂ : Contents V) : Prop :=
  match catalog.policyFor record who with
  | some policy =>
    engine.visible policy record who salt (contents₁ record.name).flatten =
      engine.visible policy record who salt (contents₂ record.name).flatten
  | none => contents₁ record.name = contents₂ record.name

/-- Two contents look the same in everything a reader may read, and through it. -/
def Agree (catalog : Catalog) (salt : String) (principal : Principal)
    (contents₁ contents₂ : Contents V) : Prop :=
  ∀ part who record, Sees catalog principal part who record →
    Shown engine catalog salt who record contents₁ contents₂

/-- The answer depends on nothing but what the reader may see. -/
def Private (catalog : Catalog) (salt : String) (principal : Principal) (signed : Signed) : Prop :=
  ∀ contents₁ contents₂, Agree engine catalog salt principal contents₁ contents₂ →
    signed.answer engine node keep contents₁ = signed.answer engine node keep contents₂

/-- A name the user wrote means a ticket only if it is defined where it stands, and
so does not mean the ticket. -/
def Planted (signed : Signed) : Prop := ∀ leaf ∈ signed.sql.scopes [], ∀ ref, leaf.2 = .table ref →
    ∀ ticket ∈ signed.tickets, ref.parts = [ticket.name] → ticket.name ∈ leaf.1

end Shown

theorem authorize_ok {checks : List Check} (h : authorize catalog checks = .ok ()) :
    ∀ check ∈ checks, catalog.maySelect check.subject check.securable = true := by
  induction checks with
  | nil =>
    intro check hcheck
    cases hcheck
  | cons first rest ih =>
    unfold authorize at h
    rw [forM_cons] at h
    obtain ⟨_, hfirst, hrest⟩ := bind_ok_iff.mp h
    intro check hcheck
    rcases mem_cons.mp hcheck with rfl | hcheck
    · simp only at hfirst
      split at hfirst
      · split at hfirst
        · split at hfirst
          · cases hfirst
          · cases hfirst
        · split at hfirst
          · next hmay => exact hmay
          · cases hfirst
      · split at hfirst
        · next hmay => exact hmay
        · cases hfirst
    · exact ih hrest check hcheck

theorem validate_ok {α : Type} {tree : Term Kind α} (h : validate tree = .ok ()) :
    ∀ kind ∈ tree.kinds, kind.refusal = none := by
  unfold validate at h
  split at h
  · split at h
    · cases h
    · next hnone => exact List.findSome?_eq_none_iff.mp hnone
  · cases h

def sourcesOf (findAll : Planned → List Nat) (tree : Planned) : List Source :=
  (references findAll tree).filterMap fun position => tree.leaves[position]?

theorem plan_ok {principal : Principal} {sql : Statement} {defaultCatalog defaultSchema : String}
    {maxRows : Option Nat} {signed : Signed}
    (h : plan catalog salt findAll principal sql defaultCatalog defaultSchema maxRows =
      .ok signed) :
    ∃ tree checks,
      expand catalog salt maxViewDepth sql defaultCatalog defaultSchema principal [] none =
        .ok (tree, checks) ∧
      (∀ check ∈ checks, catalog.maySelect check.subject check.securable = true) ∧
      (∀ kind ∈ tree.kinds, kind.refusal = none) ∧
      signed.sql = rewrite tree (references findAll tree) (maxRows.map (· + 1)) ∧
      signed.tickets =
        (sourcesOf findAll tree).zipIdx.map fun entry => ⟨ticketAlias entry.2, entry.1⟩ := by
  unfold plan at h
  split at h
  · cases h
  · next tree checks hexpand =>
      split at h
      · cases h
      · next hauthorize =>
          split at h
          · cases h
          · next hvalidate =>
              simp only at h
              split at h
              · cases h
                exact ⟨tree, checks, hexpand, authorize_ok hauthorize, validate_ok hvalidate,
                  rfl, rfl⟩
              · cases h

theorem ticketAlias_inj {j k : Nat} : ticketAlias j = ticketAlias k ↔ j = k := by
  constructor
  · intro h
    have hlist := congrArg String.toList h
    unfold ticketAlias at hlist
    rw [String.toList_append, String.toList_append] at hlist
    exact Nat.repr_injective (String.toList_injective (append_cancel_left hlist))
  · rintro rfl
    rfl

private theorem find_ticket_from (sources : List Source) (start k : Nat) :
    ((sources.zipIdx start).map fun entry => Ticket.mk (ticketAlias entry.2) entry.1).find?
        (fun ticket => ticket.name = ticketAlias (start + k)) =
      (sources[k]?).map (Ticket.mk (ticketAlias (start + k))) := by
  induction sources generalizing start k with
  | nil => rfl
  | cons first rest ih =>
    rw [zipIdx_cons, map_cons]
    cases k with
    | zero => simp
    | succ k =>
      have hne : ticketAlias start ≠ ticketAlias (start + (k + 1)) := by
        intro h
        have hsame := ticketAlias_inj.mp h
        omega
      rw [List.find?_cons_of_neg (by simpa using hne)]
      have hrest := ih (start + 1) k
      rw [show start + 1 + k = start + (k + 1) by omega] at hrest
      rw [hrest]
      rfl

theorem find_ticket (sources : List Source) (k : Nat) :
    (sources.zipIdx.map fun entry => Ticket.mk (ticketAlias entry.2) entry.1).find?
        (fun ticket => ticket.name = ticketAlias k) =
      (sources[k]?).map (Ticket.mk (ticketAlias k)) := by
  have h := find_ticket_from sources 0 k
  rwa [Nat.zero_add] at h

theorem mem_tickets {sources : List Source} {ticket : Ticket}
    (h : ticket ∈ sources.zipIdx.map fun entry => Ticket.mk (ticketAlias entry.2) entry.1) :
    ∃ k < sources.length, ticket.name = ticketAlias k := by
  obtain ⟨⟨source, k⟩, hmem, rfl⟩ := mem_map.mp h
  have hk := snd_lt_of_mem_zipIdx hmem
  exact ⟨k, by simpa using hk, rfl⟩

section References

variable {tree : Planned} (hfind : (findAll tree).Perm (List.range tree.leaves.length))

include hfind

theorem mem_references {i : Nat} : i ∈ references findAll tree ↔
      ∃ source, tree.leaves[i]? = some source ∧ isBare tree.defined source.parts = false := by
  unfold references
  rw [mem_filter, hfind.mem_iff, mem_range]
  constructor
  · rintro ⟨hlt, hany⟩
    rw [List.getElem?_eq_getElem hlt] at hany ⊢
    exact ⟨_, rfl, by simpa using hany⟩
  · rintro ⟨source, hsource, hbare⟩
    obtain ⟨hlt, _⟩ := List.getElem?_eq_some_iff.mp hsource
    exact ⟨hlt, by simp [hsource, hbare]⟩

theorem sourcesOf_eq (fallback : Source) : sourcesOf findAll tree =
      (references findAll tree).map fun i => (tree.leaves[i]?).getD fallback := by
  unfold sourcesOf
  rw [← filterMap_eq_map]
  apply filterMap_congr
  intro i hi
  obtain ⟨source, hsource, _⟩ := (mem_references hfind).mp hi
  simp [hsource]

theorem length_sourcesOf : (sourcesOf findAll tree).length = (references findAll tree).length := by
  rw [sourcesOf_eq hfind (.ticket "" ""), length_map]

end References

theorem rewrite_scopes (tree : Planned) (refs : List Nat) (limit : Option Nat) :
    (rewrite tree refs limit).scopes [] =
      (tree.scopes []).mapIdx fun position leaf =>
        (leaf.1, if position ∈ refs then leaf.2.named (ticketAlias (refs.idxOf position))
          else leaf.2) := by
  unfold rewrite
  cases limit with
  | none => simp [Term.scopes_relabel]
  | some limit => simp [Term.scopes, Terms.scopes, Term.scopes_relabel]

theorem rewrite_kinds {tree : Planned} {refs : List Nat} {limit : Option Nat}
    (h : ∀ kind ∈ tree.kinds, kind.refusal = none) :
    ∀ kind ∈ (rewrite tree refs limit).kinds, kind.refusal = none := by
  intro kind hkind
  unfold rewrite at hkind
  cases limit with
  | none =>
    simp only [Term.kinds_relabel] at hkind
    exact h kind hkind
  | some limit =>
    simp only [Term.kinds, Terms.kinds, Term.kinds_relabel, append_nil] at hkind
    rcases mem_cons.mp hkind with rfl | hkind
    · rfl
    · exact h kind hkind

theorem getElem_leaves (tree : Planned) (i : Nat) :
    tree.leaves[i]? = ((tree.scopes [])[i]?).map Prod.snd := by
  unfold Term.leaves
  rw [List.getElem?_map]

theorem countP_range {α : Type} (p : α → Bool) (l : List α) :
    (List.range l.length).countP (fun i => (l[i]?).any p) = l.countP p := by
  induction l with
  | nil => rfl
  | cons first rest ih =>
    rw [length_cons, range_succ_eq_map, countP_cons, countP_map, countP_cons, ← ih]
    simp [Function.comp_def]

section Signed

variable {principal : Principal} {sql : Statement} {defaultCatalog defaultSchema : String}
  {tree : Planned} {checks : List Check}
  (hfind : (findAll tree).Perm (List.range tree.leaves.length))
  (hexpand : expand catalog salt maxViewDepth sql defaultCatalog defaultSchema principal [] none =
    .ok (tree, checks))
  (hchecks : ∀ check ∈ checks, catalog.maySelect check.subject check.securable = true)

include hexpand hchecks

theorem isBare_iff {scope : List String} {source : Source}
    (hleaf : (scope, source) ∈ tree.scopes []) :
    isBare tree.defined source.parts = decide (source.parts.length = 1) := by
  rcases (expand_stands maxViewDepth hexpand hchecks [] _ hleaf).source with
    ⟨ref, name, rfl, hparts, hname⟩ | ⟨who, part, record, ref, rfl, _, _⟩
  · simp only [Source.parts, hparts, isBare, length_singleton, decide_true]
    exact decide_eq_true hname
  · rw [readTable_parts]
    rfl

include hfind

theorem length_tickets : (sourcesOf findAll tree).length =
      tableCount (writeOut catalog maxViewDepth sql defaultCatalog defaultSchema) := by
  rw [length_sourcesOf hfind]
  unfold references tableCount
  rw [← countP_eq_length_filter, hfind.countP_eq, countP_range,
    ← expand_named maxViewDepth hexpand []]
  unfold Term.leaves named
  rw [countP_map, countP_map]
  apply countP_congr
  rintro ⟨scope, source⟩ hleaf
  have hbare := isBare_iff hexpand hchecks hleaf
  simp [hbare]

end Signed

section Leaves

variable {principal : Principal} {sql : Statement} {defaultCatalog defaultSchema : String}
  {tree : Planned} {checks : List Check} {limit : Option Nat}
  (hfind : (findAll tree).Perm (List.range tree.leaves.length))
  (hexpand : expand catalog salt maxViewDepth sql defaultCatalog defaultSchema principal [] none =
    .ok (tree, checks))
  (hchecks : ∀ check ∈ checks, catalog.maySelect check.subject check.securable = true)

include hfind

theorem source_idxOf {i : Nat} (hi : i ∈ references findAll tree) :
    (sourcesOf findAll tree)[(references findAll tree).idxOf i]? = tree.leaves[i]? := by
  obtain ⟨source, hsource, _⟩ := (mem_references hfind).mp hi
  have hat : (references findAll tree)[(references findAll tree).idxOf i]? = some i :=
    List.getElem?_idxOf hi
  rw [sourcesOf_eq hfind source, List.getElem?_map, hat, map_some, hsource]
  rfl

include hexpand hchecks

variable {scope : List String}

theorem signed_leaf {source : Source}
    (hleaf : (scope, source) ∈ (rewrite tree (references findAll tree) limit).scopes []) :
    (∃ ref name, source = .table ref ∧ ref.parts = [name] ∧
      (scope, Source.table ref) ∈ tree.scopes []) ∨
    (∃ k who part record ref,
      source = (readTable catalog salt record who ref).named (ticketAlias k) ∧
      (sourcesOf findAll tree)[k]? = some (readTable catalog salt record who ref) ∧
      Sees catalog principal part who record) := by
  rw [rewrite_scopes] at hleaf
  obtain ⟨i, hi, hentry⟩ := mem_mapIdx.mp hleaf
  have hget : (tree.scopes [])[i]? = some (tree.scopes [])[i] := List.getElem?_eq_getElem hi
  have hmem : (tree.scopes [])[i] ∈ tree.scopes [] := getElem_mem hi
  generalize (tree.scopes [])[i] = entry at hentry hget hmem
  obtain ⟨scope', original⟩ := entry
  have horiginal : tree.leaves[i]? = some original := by
    rw [getElem_leaves, hget]
    rfl
  have hone := isBare_iff hexpand hchecks hmem
  simp only [Prod.mk.injEq] at hentry
  obtain ⟨rfl, rfl⟩ := hentry
  rcases (expand_stands maxViewDepth hexpand hchecks [] _ hmem).source with
    ⟨ref, name, rfl, hparts, hname⟩ | ⟨who, part, record, ref, rfl, _, hsees⟩
  · have hrefs : i ∉ references findAll tree := by
      intro hrefs
      obtain ⟨other, hother, hbare⟩ := (mem_references hfind).mp hrefs
      rw [horiginal] at hother
      cases hother
      rw [hbare] at hone
      simp [Source.parts, hparts] at hone
    rw [if_neg hrefs]
    exact .inl ⟨ref, name, rfl, hparts, hmem⟩
  · have hrefs : i ∈ references findAll tree := by
      refine (mem_references hfind).mpr ⟨_, horiginal, ?_⟩
      rw [readTable_parts]
      rfl
    have hidx := source_idxOf hfind hrefs
    rw [horiginal] at hidx
    rw [if_pos hrefs]
    exact .inr ⟨_, who, part, record, ref, rfl, hidx, hsees⟩

theorem bare_signed {ref : TableRef} {name : String}
    (hmem : (scope, Source.table ref) ∈ tree.scopes []) (hparts : ref.parts = [name]) :
    (scope, Source.table ref) ∈ (rewrite tree (references findAll tree) limit).scopes [] := by
  rw [rewrite_scopes]
  obtain ⟨i, hi, hentry⟩ := mem_iff_getElem.mp hmem
  refine mem_mapIdx.mpr ⟨i, hi, ?_⟩
  have hrefs : i ∉ references findAll tree := by
    intro hrefs
    obtain ⟨other, hother, hbare⟩ := (mem_references hfind).mp hrefs
    rw [getElem_leaves, List.getElem?_eq_getElem hi, hentry] at hother
    cases hother
    have hone := isBare_iff hexpand hchecks hmem
    rw [hbare] at hone
    simp [Source.parts, hparts] at hone
  rw [if_neg hrefs, hentry]

end Leaves

section Answer

variable {V M : Type} {engine : Engine V M} {node : Contents V → Kind → List M → M}
  {keep : Source → List (List (Row V)) → List (List (Row V))}

/-- Pruning loses no row that the source, if it is a slice, selects. -/
def Keeps (engine : Engine V M) (keep : Source → List (List (Row V)) → List (List (Row V)))
    (source : Source) : Prop :=
  ∀ cut, source = .slice cut → ∀ files,
    engine.select cut.columns cut.conditions (keep source files).flatten =
      engine.select cut.columns cut.conditions files.flatten

variable {principal : Principal} {signed : Signed} {sources : List Source}

variable {k : Nat} {source : Source} {name aliasName : String} {who : Principal}
    {record : TableRecord} {ref : TableRef} {env₁ env₂ : String → Option (Bound V M)}

theorem ticket_mem
    (htickets : signed.tickets = sources.zipIdx.map fun entry => ⟨ticketAlias entry.2, entry.1⟩)
    (hsource : sources[k]? = some source) :
    Ticket.mk (ticketAlias k) source ∈ signed.tickets := by
  rw [htickets]
  exact mem_map.mpr ⟨(source, k), mem_zipIdx_iff_getElem?.mpr hsource, rfl⟩

theorem env_ticketAlias
    (htickets : signed.tickets = sources.zipIdx.map fun entry => ⟨ticketAlias entry.2, entry.1⟩)
    (hsource : sources[k]? = some source) (contents : Contents V) :
    signed.env (M := M) keep contents (ticketAlias k) =
      some (.rows (keep source (contents source.tableName)).flatten) := by
  unfold Signed.env
  rw [htickets, find_ticket, hsource]
  rfl

theorem env_none
    (htickets : signed.tickets = sources.zipIdx.map fun entry => ⟨ticketAlias entry.2, entry.1⟩)
    (hname : ∀ k < sources.length, name ≠ ticketAlias k) (contents : Contents V) :
    signed.env (M := M) keep contents name = none := by
  unfold Signed.env
  rw [map_eq_none_iff, List.find?_eq_none]
  intro ticket hticket hsame
  rw [htickets] at hticket
  obtain ⟨k, hk, halias⟩ := mem_tickets hticket
  exact hname k hk ((of_decide_eq_true hsame).symm.trans halias)

theorem readTable_tableName (record : TableRecord) (who : Principal) (ref : TableRef) :
    (readTable catalog salt record who ref).tableName = record.name := by
  unfold Source.tableName
  rw [readTable_parts]
  rfl

theorem readSource_rows {contents₁ contents₂ : Contents V}
    (hkeep : Keeps engine keep (readTable catalog salt record who ref))
    (hshown : Shown engine catalog salt who record contents₁ contents₂)
    (h₁ : env₁ aliasName = some (.rows
      (keep (readTable catalog salt record who ref) (contents₁ record.name)).flatten))
    (h₂ : env₂ aliasName = some (.rows
      (keep (readTable catalog salt record who ref) (contents₂ record.name)).flatten)) :
    readSource engine env₁ ((readTable catalog salt record who ref).named aliasName) =
      readSource engine env₂ ((readTable catalog salt record who ref).named aliasName) := by
  unfold Shown at hshown
  unfold readTable at hkeep h₁ h₂ ⊢
  cases hpolicy : catalog.policyFor record who with
  | none =>
    simp only [hpolicy] at hshown h₁ h₂ ⊢
    rw [hshown] at h₁
    simp only [Source.named, readSource, Source.parts, h₁, h₂]
  | some policy =>
    simp only [hpolicy] at hshown hkeep h₁ h₂ ⊢
    simp only [Source.named, readSource, Source.parts, h₁, h₂]
    congr 2
    rw [hkeep _ rfl, hkeep _ rfl, engine.select_wrap, engine.select_wrap, hshown]

theorem readSource_defined (h : env₁ aliasName = env₂ aliasName) :
    readSource engine env₁ ((readTable catalog salt record who ref).named aliasName) =
      readSource engine env₂ ((readTable catalog salt record who ref).named aliasName) := by
  unfold readTable
  cases catalog.policyFor record who with
  | none | some policy => simp only [Source.named, readSource, Source.parts, h]

theorem readSource_bare (hparts : ref.parts = [name]) (h : env₁ name = env₂ name) :
    readSource engine env₁ (.table ref) = readSource engine env₂ (.table ref) := by
  simp only [readSource, Source.parts, hparts, h]

end Answer

section Main

variable {V M : Type} {engine : Engine V M} {node : Contents V → Kind → List M → M}
  {keep : Source → List (List (Row V)) → List (List (Row V))} {principal : Principal}
  {sql : Statement} {defaultCatalog defaultSchema : String} {tree : Planned}
  {checks : List Check} {limit : Option Nat} {signed : Signed}
  (hfind : (findAll tree).Perm (List.range tree.leaves.length))
  (hexpand : expand catalog salt maxViewDepth sql defaultCatalog defaultSchema principal [] none =
    .ok (tree, checks))
  (hchecks : ∀ check ∈ checks, catalog.maySelect check.subject check.securable = true)
  (hsql : signed.sql = rewrite tree (references findAll tree) limit)
  (htickets : signed.tickets =
    (sourcesOf findAll tree).zipIdx.map fun entry => ⟨ticketAlias entry.2, entry.1⟩)

include hfind hexpand hchecks hsql htickets

theorem private_of_unclaimed (hnode : ∀ kind, kind.refusal = none → ∀ contents₁ contents₂,
      node contents₁ kind = node contents₂ kind)
    (hkeep : ∀ ticket ∈ signed.tickets, Keeps engine keep ticket.source)
    (hkinds : ∀ kind ∈ tree.kinds, kind.refusal = none)
    (h : Unclaimed (writeOut catalog maxViewDepth sql defaultCatalog defaultSchema)) :
    Private engine node keep catalog salt principal signed := by
  intro contents₁ contents₂ hagree
  have hnamed : (sense engine node contents₁).named = (sense engine node contents₂).named := rfl
  have hfixed : (sense engine node contents₁).fixed = (sense engine node contents₂).fixed := rfl
  refine Term.eval_congr hnamed hfixed signed.sql [] _ _ (Around.nil _ _) ?_ ?_
  · intro kind hkind
    rw [hsql] at hkind
    exact hnode kind (rewrite_kinds hkinds kind hkind) contents₁ contents₂
  · rintro ⟨scope, source⟩ hleaf env₁ env₂ haround
    rw [hsql] at hleaf
    change readSource engine env₁ source = readSource engine env₂ source
    rcases signed_leaf hfind hexpand hchecks hleaf with
      ⟨ref, name, rfl, hparts, hmem⟩ | ⟨k, who, part, record, ref, rfl, hsource, hsees⟩
    · apply readSource_bare hparts
      have hname := haround name
      split at hname
      · exact hname
      · next hscope =>
          have hnone : ∀ k < (sourcesOf findAll tree).length, name ≠ ticketAlias k := by
            intro k hk
            rw [length_tickets hfind hexpand hchecks] at hk
            refine h (scope, [name]) ?_ name rfl hscope k hk
            rw [← expand_named maxViewDepth hexpand []]
            exact mem_map.mpr ⟨_, hmem, by simp [Source.parts, hparts]⟩
          rw [hname.1, hname.2, env_none htickets hnone, env_none htickets hnone]
    · have halias := haround (ticketAlias k)
      split at halias
      · exact readSource_defined halias
      · have hfiles := hkeep _ (ticket_mem htickets hsource)
        refine readSource_rows hfiles (hagree part who record hsees) ?_ ?_
        · rw [halias.1, env_ticketAlias htickets hsource, readTable_tableName]
        · rw [halias.2, env_ticketAlias htickets hsource, readTable_tableName]

theorem planted_of_unclaimed
    (h : Unclaimed (writeOut catalog maxViewDepth sql defaultCatalog defaultSchema)) :
    Planted signed := by
  rintro ⟨scope, source⟩ hleaf ref rfl ticket hticket hparts
  rw [hsql] at hleaf
  rw [htickets] at hticket
  obtain ⟨k, hk, halias⟩ := mem_tickets hticket
  rw [length_tickets hfind hexpand hchecks] at hk
  by_contra hscope
  rcases signed_leaf hfind hexpand hchecks hleaf with
    ⟨other, name, hsame, _, hmem⟩ | ⟨j, who, part, record, other, hsame, _, _⟩
  · cases hsame
    refine h (scope, [ticket.name]) ?_ ticket.name rfl hscope k hk halias
    rw [← expand_named maxViewDepth hexpand []]
    exact mem_map.mpr ⟨_, hmem, by simp [Source.parts, hparts]⟩
  · unfold readTable at hsame
    split at hsame
    · cases hsame
    · cases hsame

theorem unclaimed_of_planted (h : Planted signed) :
    Unclaimed (writeOut catalog maxViewDepth sql defaultCatalog defaultSchema) := by
  rintro ⟨scope, parts⟩ hleaf name rfl hscope k hk hname
  rw [← expand_named maxViewDepth hexpand []] at hleaf
  obtain ⟨⟨scope', source⟩, hmem, hentry⟩ := mem_map.mp hleaf
  simp only [Prod.mk.injEq] at hentry
  obtain ⟨rfl, hparts⟩ := hentry
  rw [← length_tickets hfind hexpand hchecks] at hk
  rcases (expand_stands maxViewDepth hexpand hchecks [] _ hmem).source with
    ⟨ref, other, rfl, _, _⟩ | ⟨who, part, record, ref, rfl, _, _⟩
  · have hsigned : (scope', Source.table ref) ∈ signed.sql.scopes [] := by
      rw [hsql]
      exact bare_signed hfind hexpand hchecks hmem hparts
    have hticket := ticket_mem htickets (List.getElem?_eq_getElem hk)
    refine hscope ?_
    rw [hname]
    refine h _ hsigned ref rfl _ hticket ?_
    rw [← hname]
    exact hparts
  · rw [readTable_parts] at hparts
    cases hparts

end Main

/-- A statement that is planned shows a reader nothing but what the reader may see,
and no name in it means a ticket unless the planner put it there, exactly if no bare
name outside the scope of a definition of it is one of the tickets' aliases. -/
theorem private_iff {V M : Type} {engine : Engine V M}
    {node : Contents V → Kind → List M → M}
    {keep : Source → List (List (Row V)) → List (List (Row V))} {principal : Principal}
    {sql : Statement} {defaultCatalog defaultSchema : String} {maxRows : Option Nat}
    {signed : Signed}
    (hfind : ∀ tree, (findAll tree).Perm (List.range tree.leaves.length))
    (hnode : ∀ kind, kind.refusal = none → ∀ contents₁ contents₂,
      node contents₁ kind = node contents₂ kind)
    (hkeep : ∀ ticket ∈ signed.tickets, Keeps engine keep ticket.source)
    (hplan : plan catalog salt findAll principal sql defaultCatalog defaultSchema maxRows =
      .ok signed) :
    (Private engine node keep catalog salt principal signed ∧ Planted signed) ↔
      Unclaimed (writeOut catalog maxViewDepth sql defaultCatalog defaultSchema) := by
  obtain ⟨tree, checks, hexpand, hchecks, hkinds, hsql, htickets⟩ := plan_ok hplan
  constructor
  · rintro ⟨_, hplanted⟩
    exact unclaimed_of_planted (hfind tree) hexpand hchecks hsql htickets hplanted
  · intro h
    constructor
    · exact private_of_unclaimed (hfind tree) hexpand hchecks hsql htickets hnode hkeep hkinds h
    · exact planted_of_unclaimed (hfind tree) hexpand hchecks hsql htickets h

def people : TableRecord where
  name := ("main", "pol", "people")
  columns := [⟨"region", "INTEGER"⟩, ⟨"ssn", "INTEGER"⟩]

def alice : Principal := ⟨"user", "alice", [], none⟩

theorem no_view : ∀ (name : TableName) (record : ViewRecord), none = some record →
    record.name = name :=
  fun _ _ h => by cases h

/-- A catalog with one table, of which a reader sees one region without its numbers. -/
def peopleOnly : Catalog where
  table name := if name = people.name then some people else none
  view _ := none
  policy _ := some ⟨some "region = 1", [⟨"ssn", .null⟩], []⟩
  canBrowse _ _ := true
  maySelect _ _ := true
  table_name := by
    intro name record h
    split at h
    · next hname =>
        cases h
        exact hname.symm
    · cases h
  view_name := no_view

/-- An engine that answers with the numbers of what it reads first. -/
def firstNumbers : Engine Nat (List (Option Nat)) where
  passes _ _ row := row "region" = some 1
  compare _ value := value.isSome
  mask _ _ _ _ := none
  table _ bound :=
    match bound with
    | .rows rows => rows.map fun row => row "ssn"
    | .defined meaning => meaning
  slice _ meaning := meaning
  unknown _ := []
  recursive _ := []

def inOrder (tree : Planned) : List Nat := List.range tree.leaves.length

/-- `SELECT * FROM people` -/
def readPeople : Statement :=
  .node (.query "select *") (.cons (.leaf ⟨["people"], "people", []⟩) .nil)

/-- `SELECT a.* FROM __t0 AS a, (WITH __t0 AS (SELECT 1 AS x) SELECT * FROM __t0) AS b,
main.pol.people AS p` -/
def readTicket : Statement :=
  .node (.query "select a.*") (.cons (.leaf ⟨["__t0"], "a", []⟩) (.cons (.node (.subquery "b")
          (.cons (.define "__t0" false (.node (.query "select 1 as x") .nil)
              (.node (.query "select *") (.cons (.leaf ⟨["__t0"], "__t0", []⟩) .nil)))
            .nil))
        (.cons (.leaf ⟨["main", "pol", "people"], "p", []⟩) .nil)))

/-- What is signed of `readTicket`: the first reference means the ticket. -/
def ticketRead : Signed where
  sql := .node (.query "select a.*") (.cons (.leaf (.table ⟨["__t0"], "a", []⟩)) (.cons
        (.node (.subquery "b") (.cons (.define "__t0" false (.node (.query "select 1 as x") .nil)
              (.node (.query "select *") (.cons (.leaf (.table ⟨["__t0"], "__t0", []⟩)) .nil)))
            .nil))
        (.cons (.leaf (.slice ⟨[.plain ⟨"region", "INTEGER"⟩, .masked ⟨"ssn", "INTEGER"⟩ .null ""],
              [.rowFilter "region = 1" alice], ["__t0"], "p"⟩))
          .nil)))
  tickets := [⟨"__t0", .slice ⟨[.plain ⟨"region", "INTEGER"⟩, .masked ⟨"ssn", "INTEGER"⟩ .null ""],
      [.rowFilter "region = 1" alice], ["main", "pol", "people"], "p"⟩⟩]

theorem plan_readTicket :
    plan peopleOnly "" inOrder alice readTicket "main" "pol" none = .ok ticketRead := by
  rfl

theorem inOrder_perm (tree : Planned) :
    (inOrder tree).Perm (List.range tree.leaves.length) := .refl _

/-- The product of the parts, as far as the first one is selected from it. Without any
part it is one row. -/
def firstRows (_ : Contents Nat) (_ : Kind) : List (List (Option Nat)) → List (Option Nat)
  | [] => [some 1]
  | first :: rest =>
    first.flatMap fun value =>
      List.replicate (rest.foldr (fun rows n => rows.length * n) 1) value

def everyFile (_ : Source) (files : List (List (Row Nat))) : List (List (Row Nat)) := files

/-- A reader of the table sees no more than its policy shows. -/
theorem private_iff_readPeople :
    ∃ signed, plan peopleOnly "" inOrder alice readPeople "main" "pol" none = .ok signed ∧
      Private firstNumbers firstRows everyFile peopleOnly "" alice signed ∧ Planted signed := by
  have hok : (plan peopleOnly "" inOrder alice readPeople "main" "pol" none).isOk = true := by
    decide
  cases hplan : plan peopleOnly "" inOrder alice readPeople "main" "pol" none with
  | error problem =>
    rw [hplan] at hok
    cases hok
  | ok signed =>
    refine ⟨signed, rfl, (private_iff inOrder_perm (fun _ _ _ _ => rfl)
      (fun _ _ _ _ _ => rfl) hplan).mpr ?_⟩
    have hnamed : named TableRef.parts []
        (writeOut peopleOnly maxViewDepth readPeople "main" "pol") =
          [([], ["main", "pol", "people"])] := by
      decide
    intro leaf hleaf name hname
    rw [hnamed, mem_singleton] at hleaf
    rw [hleaf] at hname
    cases hname

def row (region ssn : Nat) : Row Nat := fun name =>
  if name = "region" then some region else if name = "ssn" then some ssn else none

theorem shown_row (who : Principal) (record : TableRecord) :
    Shown firstNumbers peopleOnly "" who record (fun _ => [[row 1 5, row 2 7]])
      (fun _ => [[row 1 5]]) := by
  have hpolicy : peopleOnly.policyFor record who =
      some ⟨some "region = 1", [⟨"ssn", .null⟩], []⟩ := rfl
  unfold Shown
  rw [hpolicy]
  rfl

/-- With a ticket's alias defined somewhere in the text, a name outside the scope of
the definition reads the rows of the ticket's files as they are stored. -/
theorem readTicket_leaks :
    ∃ signed, plan peopleOnly "" inOrder alice readTicket "main" "pol" none = .ok signed ∧
      ¬ Private firstNumbers firstRows everyFile peopleOnly "" alice signed ∧
      ¬ Planted signed := by
  refine ⟨ticketRead, plan_readTicket, ?_, ?_⟩
  · intro h
    have hsame := h _ _ (fun _ who record _ => shown_row who record)
    have hleft : ticketRead.answer firstNumbers firstRows everyFile
        (fun _ => [[row 1 5, row 2 7]]) = [some 5, some 7] := by
      decide
    have hright : ticketRead.answer firstNumbers firstRows everyFile
        (fun _ => [[row 1 5]]) = [some 5] := by
      decide
    rw [hleft, hright] at hsame
    cases hsame
  · intro h
    have hleaf : ([], .table ⟨["__t0"], "a", []⟩) ∈ ticketRead.sql.scopes [] := mem_cons_self
    cases h _ hleaf _ rfl _ mem_cons_self rfl

end Substrate.Sql
