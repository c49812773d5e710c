import Substrate.Migrations.Scripts

/-!
An interrupted migration: when running it again ends as one run that nothing interrupts.
A statement that has run stays settled, since nothing a component drops is used by another
of its statements. A settled statement does nothing more, except a column change without a
guard, which fails.
-/

namespace Substrate.Migrations

open Lib List

def Statement.uses : Statement → List (String × String)
  | .addColumn table column _ => [(table, column)]
  | .update table columns => columns.map fun column => (table, column)
  | _ => []

def Statement.drops : Statement → List (String × String)
  | .dropColumn table column _ => [(table, column)]
  | _ => []

def Statement.bare : Statement → Bool
  | .addColumn _ _ guarded | .dropColumn _ _ guarded => ¬ guarded
  | _ => false

/-- What the statement is for is there. -/
def Statement.Settled (s : Schema) : Statement → Prop
  | .createTable table _ => s.tables.get? table ≠ none
  | .ensure object _ => object ∈ s.objects
  | .addColumn table column _ => s.hasColumns table [column]
  | .dropColumn table column _ =>
    s.tables.get? table ≠ none ∧ s.hasColumns table [column] = false
  | .update table columns => s.hasColumns table columns

section

variable {s s' : Schema} {a b : Statement}

theorem hasColumns_iff {table : String} {columns : List String} :
    s.hasColumns table columns = true ↔
      ∃ present, s.tables.get? table = some present ∧ ∀ column ∈ columns, column ∈ present := by
  simp [Schema.hasColumns, Option.any_eq_true]

theorem lacks_iff {table column : String} :
    (s.tables.get? table ≠ none ∧ s.hasColumns table [column] = false) ↔
      ∃ present, s.tables.get? table = some present ∧ column ∉ present := by
  cases h : s.tables.get? table <;> simp [Schema.hasColumns, h]

theorem exec_settled (h : a.exec s = some s') : a.Settled s' := by
  cases a with
  | createTable table columns =>
    cases h
    simp only [Statement.Settled, Table.get?_insert]
    cases s.tables.get? table <;> simp
  | ensure object on =>
    simp only [Statement.exec] at h
    split at h
    · next hthere =>
      cases h
      exact hthere
    · split at h
      · cases h
        simp [Statement.Settled]
      · cases h
  | addColumn table column guarded =>
    simp only [Statement.exec] at h
    split at h
    · cases h
    · next columns hcolumns =>
      apply hasColumns_iff.mpr
      split at h
      · next hthere =>
        cases guarded <;> simp only [if_true, Bool.false_eq_true, if_false] at h
        · cases h
        · cases h
          exact ⟨columns, hcolumns, by simpa using hthere⟩
      · cases h
        exact ⟨columns ++ [column], by simp [hcolumns], by simp⟩
  | dropColumn table column guarded =>
    simp only [Statement.exec] at h
    split at h
    · cases h
    · next columns hcolumns =>
      apply lacks_iff.mpr
      split at h
      · next hgone =>
        cases guarded <;> simp only [if_true, Bool.false_eq_true, if_false] at h
        · cases h
        · cases h
          exact ⟨columns, hcolumns, hgone⟩
      · cases h
        exact ⟨columns.filter fun c => c ≠ column, by simp [hcolumns], by simp⟩
  | update table columns =>
    simp only [Statement.exec] at h
    split at h
    · next hthere =>
      cases h
      exact hthere
    · cases h

theorem exec_of_settled (h : a.Settled s) : a.exec s = if a.bare then none else some s := by
  cases a with
  | createTable table columns =>
    have hinsert : s.tables.insert table columns = s.tables := by
      unfold Table.insert
      rw [dif_pos]
      exact by_contra fun hnone => h (Table.get?_eq_none_iff.mpr hnone)
    simp [Statement.exec, Statement.bare, hinsert]
  | ensure object on =>
    have hthere : object ∈ s.objects := h
    simp [Statement.exec, Statement.bare, hthere]
  | addColumn table column guarded =>
    obtain ⟨present, hpresent, hthere⟩ := hasColumns_iff.mp h
    have hcolumn : column ∈ present := hthere column mem_cons_self
    cases guarded <;> simp [Statement.exec, Statement.bare, hpresent, hcolumn]
  | dropColumn table column guarded =>
    obtain ⟨present, hpresent, hgone⟩ := lacks_iff.mp h
    cases guarded <;> simp [Statement.exec, Statement.bare, hpresent, hgone]
  | update table columns =>
    have hthere : s.hasColumns table columns = true := h
    simp [Statement.exec, Statement.bare, hthere]

/-- A table that is there loses only columns that the statement drops and gains only
columns that it uses, and the objects stay. -/
structure Keeps (b : Statement) (s s' : Schema) : Prop where
  tables : ∀ table present, s.tables.get? table = some present →
    ∃ after, s'.tables.get? table = some after ∧
      (∀ column ∈ present, (table, column) ∉ b.drops → column ∈ after) ∧
      ∀ column ∈ after, (table, column) ∉ b.uses → column ∈ present
  objects : ∀ object ∈ s.objects, object ∈ s'.objects

theorem Keeps.of_tables (htables : ∀ table present, s.tables.get? table = some present →
      s'.tables.get? table = some present)
    (hobjects : ∀ object ∈ s.objects, object ∈ s'.objects) : Keeps b s s' := by
  refine ⟨?_, hobjects⟩
  intro table present hpresent
  exact ⟨present, htables table present hpresent, fun _ hc _ => hc, fun _ hc _ => hc⟩

theorem Keeps.refl (b : Statement) (s : Schema) : Keeps b s s :=
  .of_tables (fun _ _ hpresent => hpresent) fun _ hobject => hobject

theorem exec_keeps (h : b.exec s = some s') : Keeps b s s' := by
  cases b with
  | createTable table columns =>
    cases h
    refine .of_tables ?_ fun _ hobject => hobject
    intro other present hpresent
    rw [Table.get?_insert]
    split
    · next heq => simp [← heq, hpresent]
    · exact hpresent
  | ensure object on =>
    simp only [Statement.exec] at h
    split at h
    · cases h
      exact .refl _ s
    · split at h
      · cases h
        exact .of_tables (fun _ _ hpresent => hpresent) fun _ hobject => mem_append_left _ hobject
      · cases h
  | addColumn table column guarded =>
    simp only [Statement.exec] at h
    split at h
    · cases h
    · split at h
      · cases guarded <;> simp only [if_true, Bool.false_eq_true, if_false] at h
        · cases h
        · cases h
          exact .refl _ s
      · cases h
        refine ⟨?_, fun _ hobject => hobject⟩
        intro other present hpresent
        by_cases heq : other = table
        · subst heq
          refine ⟨present ++ [column], by simp [hpresent], ?_, ?_⟩
          · intro c hc _
            exact mem_append_left _ hc
          · intro c hc hother
            simp only [Statement.uses, mem_singleton, Prod.mk.injEq, true_and] at hother
            simpa [hother] using hc
        · refine ⟨present, ?_, fun _ hc _ => hc, fun _ hc _ => hc⟩
          rw [Table.get?_modify_of_ne heq]
          exact hpresent
  | dropColumn table column guarded =>
    simp only [Statement.exec] at h
    split at h
    · cases h
    · split at h
      · cases guarded <;> simp only [if_true, Bool.false_eq_true, if_false] at h
        · cases h
        · cases h
          exact .refl _ s
      · cases h
        refine ⟨?_, fun _ hobject => hobject⟩
        intro other present hpresent
        by_cases heq : other = table
        · subst heq
          refine ⟨present.filter fun c => c ≠ column, by simp [hpresent], ?_, ?_⟩
          · intro c hc hkept
            simp only [Statement.drops, mem_singleton, Prod.mk.injEq, true_and] at hkept
            simp [hc, hkept]
          · intro c hc _
            exact (mem_filter.mp hc).1
        · refine ⟨present, ?_, fun _ hc _ => hc, fun _ hc _ => hc⟩
          rw [Table.get?_modify_of_ne heq]
          exact hpresent
  | update table columns =>
    simp only [Statement.exec] at h
    split at h
    · cases h
      exact .refl _ s
    · cases h

/-- Neither drops what the other relies on or makes. -/
def Apart (a b : Statement) : Prop :=
  (∀ column ∈ a.uses, column ∉ b.drops) ∧ ∀ column ∈ b.uses, column ∉ a.drops

theorem settled_stays (h : a.Settled s) (hexec : b.exec s = some s') (hapart : Apart a b) :
    a.Settled s' := by
  obtain ⟨hcolumns, hobjects⟩ := exec_keeps hexec
  have hkept : ∀ table columns, (∀ column ∈ columns, (table, column) ∉ b.drops) →
      s.hasColumns table columns = true → s'.hasColumns table columns = true := by
    intro table columns hdrops hthere
    obtain ⟨present, hpresent, hall⟩ := hasColumns_iff.mp hthere
    obtain ⟨after, hafter, hstay, _⟩ := hcolumns table present hpresent
    exact hasColumns_iff.mpr ⟨after, hafter, fun c hc => hstay c (hall c hc) (hdrops c hc)⟩
  cases a with
  | createTable table columns =>
    obtain ⟨present, hpresent⟩ := Option.ne_none_iff_exists'.mp h
    obtain ⟨after, hafter, _⟩ := hcolumns table present hpresent
    simp [Statement.Settled, hafter]
  | ensure object on => exact hobjects object h
  | addColumn table column guarded =>
    apply hkept table [column] _ h
    intro c hc
    exact hapart.1 _ (by simpa [Statement.uses] using hc)
  | dropColumn table column guarded =>
    obtain ⟨present, hpresent, hgone⟩ := lacks_iff.mp h
    obtain ⟨after, hafter, _, hback⟩ := hcolumns table present hpresent
    refine lacks_iff.mpr ⟨after, hafter, ?_⟩
    intro hthere
    apply hgone
    apply hback column hthere
    intro huses
    exact hapart.2 _ huses (by simp [Statement.drops])
  | update table columns =>
    apply hkept table columns _ h
    intro c hc
    exact hapart.1 _ (by simpa [Statement.uses] using hc)

end

def Action.Settled (db : Database) : Action → Prop
  | .run statement => statement.Settled db.schema
  | .record version => version ∈ db.recorded

def Action.bare : Action → Bool
  | .run statement => statement.bare
  | .record _ => false

def Action.Apart : Action → Action → Prop
  | .run a, .run b => Migrations.Apart a b
  | _, _ => True

section

variable {db db' : Database} {a b : Action}

theorem Action.exec_settled (h : exec a db = some db') : a.Settled db' := by
  cases a with
  | run statement =>
    obtain ⟨schema, hschema, rfl⟩ := Option.map_eq_some_iff.mp h
    exact Migrations.exec_settled hschema
  | record version =>
    simp only [exec, Option.some.injEq] at h
    subst h
    simp only [Action.Settled]
    split
    · assumption
    · simp

theorem Action.exec_of_settled (h : a.Settled db) :
    exec a db = if a.bare then none else some db := by
  cases a with
  | run statement =>
    have hexec := Migrations.exec_of_settled (show statement.Settled db.schema from h)
    cases hbare : statement.bare <;> simp [exec, hexec, Action.bare, hbare]
  | record version =>
    have hthere : version ∈ db.recorded := h
    simp [exec, hthere, Action.bare]

theorem Action.settled_stays (h : a.Settled db) (hexec : exec b db = some db')
    (hapart : a.Apart b) : a.Settled db' := by
  cases b with
  | run statement =>
    obtain ⟨schema, hschema, rfl⟩ := Option.map_eq_some_iff.mp hexec
    cases a with
    | run other => exact Migrations.settled_stays h hschema hapart
    | record version => exact h
  | record version =>
    simp only [exec, Option.some.injEq] at hexec
    subst hexec
    cases a with
    | run other =>
      simp only [Action.Settled]
      split <;> exact h
    | record other =>
      simp only [Action.Settled]
      split
      · exact h
      · exact mem_append_left _ h

theorem Action.settled_stays_play {list : List Action} (h : a.Settled db)
    (hplay : play exec list db = some db') (hapart : ∀ b ∈ list, a.Apart b) : a.Settled db' := by
  induction list generalizing db with
  | nil =>
    cases hplay
    exact h
  | cons b list ih =>
    obtain ⟨mid, hexec, hplay⟩ := Option.bind_eq_some_iff.mp hplay
    have hmid := Action.settled_stays h hexec (hapart b mem_cons_self)
    exact ih hmid hplay fun c hc => hapart c (mem_cons_of_mem _ hc)

theorem settled_of_play {list : List Action} (hplay : play exec list db = some db')
    (hapart : ∀ a ∈ list, ∀ b ∈ list, a.Apart b) : ∀ a ∈ list, a.Settled db' := by
  intro a ha
  obtain ⟨before, after, rfl⟩ := append_of_mem ha
  obtain ⟨mid, _, hplay⟩ := play_prefix exec hplay
  obtain ⟨mid', hexec, hplay⟩ := Option.bind_eq_some_iff.mp hplay
  apply Action.settled_stays_play (Action.exec_settled hexec) hplay
  intro b hb
  exact hapart a ha b (mem_append_right _ (mem_cons_of_mem _ hb))

theorem not_settled_of_play {list : List Action} (hplay : play exec list db = some db')
    (hapart : ∀ a ∈ list, ∀ b ∈ list, a.Apart b) :
    ∀ a ∈ list, a.bare = true → ¬ a.Settled db := by
  intro a ha hbare hsettled
  obtain ⟨before, after, rfl⟩ := append_of_mem ha
  obtain ⟨mid, hbefore, hplay⟩ := play_prefix exec hplay
  obtain ⟨mid', hexec, _⟩ := Option.bind_eq_some_iff.mp hplay
  have hmid : a.Settled mid := by
    apply Action.settled_stays_play hsettled hbefore
    intro b hb
    exact hapart a ha b (mem_append_left _ hb)
  rw [Action.exec_of_settled hmid, if_pos hbare] at hexec
  cases hexec

end

theorem foldl_max_le {list : List Nat} {start bound : Nat} :
    list.foldl max start ≤ bound ↔ start ≤ bound ∧ ∀ n ∈ list, n ≤ bound := by
  induction list generalizing start with
  | nil => simp
  | cons n list ih =>
    rw [foldl_cons, ih, forall_mem_cons, Nat.max_le, and_assoc]

theorem applied_record {db : Database} {version : Nat} (h : applied db + 1 = version) :
    exec (.record version) db = some { db with recorded := db.recorded ++ [version] } ∧
      applied { db with recorded := db.recorded ++ [version] } = version := by
  have hfresh : version ∉ db.recorded := by
    intro hthere
    have hle := (foldl_max_le.mp (le_refl (applied db))).2 version hthere
    omega
  refine ⟨by simp [exec, hfresh], ?_⟩
  have hmax : applied { db with recorded := db.recorded ++ [version] } =
      max (applied db) version := by
    simp [applied, foldl_append]
  omega

theorem recorded_of_script {script : Script} {db db' : Database}
    (h : play exec (script.map .run) db = some db') : db'.recorded = db.recorded := by
  induction script generalizing db with
  | nil =>
    cases h
    rfl
  | cons statement script ih =>
    obtain ⟨mid, hexec, h⟩ := Option.bind_eq_some_iff.mp h
    obtain ⟨schema, _, rfl⟩ := Option.map_eq_some_iff.mp hexec
    exact (ih h).trans rfl

theorem remaining_of_prefix {scripts : List Script} {version : Nat} {base db : Database}
    {done rest : List Action} (hsplit : actions version scripts = done ++ rest)
    (hplay : play exec done base = some db) (hbase : applied base + 1 = version) :
    ∃ m before part more, m ≤ scripts.length ∧ applied db + 1 = version + m ∧
      done = before ++ part.map .run ∧
      actions (version + m) (scripts.drop m) = part.map .run ++ rest ∧
      (scripts[m]?).getD [] = part ++ more ∧ ∀ a ∈ more, .run a ∈ rest := by
  induction scripts generalizing version base done with
  | nil =>
    obtain ⟨rfl, rfl⟩ := append_eq_nil_iff.mp hsplit.symm
    cases hplay
    exact ⟨0, [], [], [], by simp [actions, hbase]⟩
  | cons script scripts ih =>
    rcases append_eq_append_iff.mp hsplit with
      ⟨later, hdone, htail⟩ | ⟨ahead, hscript, hrest⟩
    · -- the script has run
      cases later with
      | nil =>
        rw [append_nil] at hdone
        rw [nil_append] at htail
        subst hdone
        refine ⟨0, [], script, [], by simp, ?_, by simp, ?_, by simp, by simp⟩
        · rw [applied, recorded_of_script hplay]
          exact hbase
        · rw [← htail]
          rfl
      | cons a later =>
        obtain ⟨rfl, htail'⟩ := List.cons.inj htail
        rw [hdone] at hplay
        obtain ⟨mid, hran, hplay⟩ := play_prefix exec hplay
        have hmid : applied mid + 1 = version := by
          rw [applied, recorded_of_script hran]
          exact hbase
        obtain ⟨hrecord, happlied⟩ := applied_record hmid
        rw [play_cons, hrecord, Option.bind_some] at hplay
        obtain ⟨m, before, part, more, hm, hversion, hlater, hdrop, hnext, hmore⟩ :=
          ih htail' hplay (by omega)
        refine ⟨m + 1, script.map .run ++ .record version :: before, part, more, by simpa,
          by omega, ?_, ?_, by simpa using hnext, hmore⟩
        · rw [hdone, hlater]
          simp
        · rw [← hdrop, Nat.add_assoc, Nat.add_comm 1 m]
          rfl
    · -- the script has run up to a statement
      obtain ⟨part, more, rfl, hpart, hmore⟩ := map_eq_append_iff.mp hscript
      subst hpart hmore
      refine ⟨0, [], part, more, by simp, ?_, by simp, ?_, by simp, ?_⟩
      · rw [applied, recorded_of_script hplay]
        exact hbase
      · rw [hrest]
        simp [actions]
      · intro a ha
        rw [hrest]
        exact mem_append_left _ (mem_map_of_mem ha)

theorem scripts_apart (dialect : Dialect) (component : Component) :
    ∀ a ∈ (scripts dialect component).flatten, ∀ b ∈ (scripts dialect component).flatten,
      Apart a b := by
  have hdrops : ∀ column ∈ (scripts dialect component).flatten.flatMap Statement.drops,
      column ∉ (scripts dialect component).flatten.flatMap Statement.uses := by
    cases component <;> cases dialect <;> decide
  intro a ha b hb
  refine ⟨?_, ?_⟩
  · intro column huses hdropped
    exact hdrops column (mem_flatMap.mpr ⟨b, hb, hdropped⟩) (mem_flatMap.mpr ⟨a, ha, huses⟩)
  · intro column huses hdropped
    exact hdrops column (mem_flatMap.mpr ⟨a, ha, hdropped⟩) (mem_flatMap.mpr ⟨b, hb, huses⟩)

theorem mem_actions {statement : Statement} {scripts : List Script} {version : Nat}
    (h : .run statement ∈ actions version scripts) : statement ∈ scripts.flatten := by
  induction scripts generalizing version with
  | nil => cases h
  | cons script scripts ih =>
    rcases mem_append.mp h with h | h
    · obtain ⟨other, hother, heq⟩ := mem_map.mp h
      cases heq
      exact mem_append_left _ hother
    · rcases mem_cons.mp h with heq | h
      · cases heq
      · exact mem_append_right _ (ih h)

theorem actions_apart (dialect : Dialect) (component : Component) :
    ∀ a ∈ actions 1 (scripts dialect component), ∀ b ∈ actions 1 (scripts dialect component),
      a.Apart b := by
  intro a ha b hb
  cases a with
  | record version => trivial
  | run a =>
    cases b with
    | record version => trivial
    | run b => exact scripts_apart dialect component a (mem_actions ha) b (mem_actions hb)

theorem actions_take {scripts : List Script} {version k : Nat} :
    actions version (scripts.take k) <+: actions version scripts := by
  induction scripts generalizing version k with
  | nil => simp
  | cons script scripts ih =>
    cases k with
    | zero => exact nil_prefix
    | succ k =>
      rw [take_succ_cons, actions, actions]
      exact (prefix_append_right_inj _).mpr (cons_prefix_cons.mpr ⟨rfl, ih⟩)

/-- A part of the scripts was performed once, whatever processes were at it. -/
theorem partway_of_runs {dialect : Dialect} {component : Component} {schema : Schema} {k : Nat}
    {full start : Database} {w : Crowd Database Action}
    (hfull : migrate (scripts dialect component) ⟨schema, []⟩ = some full)
    (hstart : play exec (actions 1 ((scripts dialect component).take k)) ⟨schema, []⟩ = some start)
    (hruns : Relation.ReflTransGen (Moves exec (remaining (scripts dialect component)))
      ⟨start, []⟩ w) :
    Partway exec (actions 1 (scripts dialect component)) ⟨schema, []⟩ w := by
  have hplayed : play exec (actions 1 (scripts dialect component)) ⟨schema, []⟩ = some full := hfull
  apply Partway.run _ _ _ hruns
  · intro done rest s hsplit hplay a ha s' hexec
    have hsub : ∀ b ∈ done, b ∈ actions 1 (scripts dialect component) := by
      intro b hb
      rw [hsplit]
      exact mem_append_left _ hb
    have hsettled := settled_of_play hplay
      (fun b hb c hc => actions_apart dialect component b (hsub b hb) c (hsub c hc)) a ha
    rw [Action.exec_of_settled hsettled] at hexec
    split at hexec
    · cases hexec
    · cases hexec
      rfl
  · intro done rest s hsplit hplay
    obtain ⟨m, before, part, more, _, hversion, hdone, hdrop, _⟩ :=
      remaining_of_prefix hsplit hplay rfl
    have hm : applied s = m := by omega
    have hremaining : remaining (scripts dialect component) s = part.map .run ++ rest := by
      rw [remaining, hm, ← hdrop, Nat.add_comm]
    rw [hremaining]
    refine ⟨suffix_append _ _, before, ?_⟩
    rw [hsplit, hdone, append_assoc]
  · obtain ⟨rest, hrest⟩ := @actions_take (scripts dialect component) 1 k
    exact ⟨_, rest, hrest.symm, hstart, by simp⟩

/-- **An interrupted migration can be resumed exactly when no column change without a guard
has run of the script that is next to be recorded.** -/
theorem migrate_resumes {dialect : Dialect} {component : Component} {schema : Schema} {k : Nat}
    {full start : Database} {w : Crowd Database Action}
    (hfull : migrate (scripts dialect component) ⟨schema, []⟩ = some full)
    (hstart : play exec (actions 1 ((scripts dialect component).take k)) ⟨schema, []⟩ = some start)
    (hruns : Relation.ReflTransGen (Moves exec (remaining (scripts dialect component)))
      ⟨start, []⟩ w) :
    migrate (scripts dialect component) w.state = some full ↔
      ∀ statement ∈ ((scripts dialect component)[applied w.state]?).getD [],
        statement.bare = true → ¬ statement.Settled w.state.schema := by
  obtain ⟨done, rest, hsplit, hplay, _⟩ := partway_of_runs hfull hstart hruns
  have hplayed : play exec (done ++ rest) ⟨schema, []⟩ = some full := hsplit ▸ hfull
  obtain ⟨db, hdone, hrest⟩ := play_prefix exec hplayed
  rw [hplay, Option.some.injEq] at hdone
  subst hdone
  obtain ⟨m, before, part, more, hm, hversion, hbefore, hdrop, hnext, hmore⟩ :=
    remaining_of_prefix hsplit hplay rfl
  have happlied : applied w.state = m := by omega
  have hmigrate : migrate (scripts dialect component) w.state =
      play exec (part.map .run ++ rest) w.state := by
    rw [migrate, if_neg (by omega), remaining, happlied, ← hdrop, Nat.add_comm]
  have hapart := actions_apart dialect component
  rw [hsplit] at hapart
  have hran : ∀ statement ∈ part, statement.Settled w.state.schema := by
    intro statement hstatement
    apply settled_of_play hplay _ (.run statement)
    · rw [hbefore]
      exact mem_append_right _ (mem_map_of_mem hstatement)
    · intro a ha b hb
      exact hapart a (mem_append_left _ ha) b (mem_append_left _ hb)
  have hlater : ∀ statement ∈ more, statement.bare = true → ¬ statement.Settled w.state.schema := by
    intro statement hstatement hbare
    refine not_settled_of_play hrest ?_ (.run statement) (hmore statement hstatement) hbare
    intro a ha b hb
    exact hapart a (mem_append_right _ ha) b (mem_append_right _ hb)
  have hexec : ∀ statement ∈ part,
      exec (.run statement) w.state = if statement.bare then none else some w.state :=
    fun statement hstatement =>
      Action.exec_of_settled (show (Action.run statement).Settled w.state from hran _ hstatement)
  have hrepeated : ∀ a ∈ part.map Action.run, ∀ s', exec a w.state = some s' → s' = w.state := by
    intro a ha s' h
    obtain ⟨statement, hstatement, rfl⟩ := mem_map.mp ha
    rw [hexec statement hstatement] at h
    split at h <;> cases h
    rfl
  rw [hmigrate, play_repeated hrepeated hrest, happlied, hnext]
  constructor
  · intro hall statement hstatement hbare
    rcases mem_append.mp hstatement with hstatement | hstatement
    · have hfails := hexec statement hstatement
      rw [if_pos hbare] at hfails
      exact absurd hfails (hall _ (mem_map_of_mem hstatement))
    · exact hlater statement hstatement hbare
  · intro hall a ha
    obtain ⟨statement, hstatement, rfl⟩ := mem_map.mp ha
    have hguarded : ¬ statement.bare = true := fun hbare =>
      hall statement (mem_append_left _ hstatement) hbare (hran statement hstatement)
    rw [hexec statement hstatement, if_neg hguarded]
    simp

theorem migrates_fresh (dialect : Dialect) (component : Component) :
    ∃ full, migrate (scripts dialect component) ⟨.empty, []⟩ = some full := by
  rw [← Option.isSome_iff_exists]
  cases component <;> cases dialect <;> decide +kernel

theorem stopped_after {dialect : Dialect} {component : Component} {n : Nat} {base db : Database}
    (h : play exec ((remaining (scripts dialect component) base).take n) base = some db) :
    ∃ w, Relation.ReflTransGen (Moves exec (remaining (scripts dialect component)))
      ⟨base, []⟩ w ∧ w.state = db := by
  have hrun := @Moves.alone _ _ exec (remaining (scripts dialect component)) _
    ((remaining (scripts dialect component) base).drop n) _ _ h
  rw [take_append_drop] at hrun
  exact ⟨_, .head .join hrun, rfl⟩

theorem migrate_resumes_first :
    ∃ w full, Relation.ReflTransGen (Moves exec (remaining (scripts .sqlite .runtime)))
        ⟨⟨.empty, []⟩, []⟩ w ∧ w.state.schema.tables.rows ≠ [] ∧
      migrate (scripts .sqlite .runtime) ⟨.empty, []⟩ = some full ∧
        migrate (scripts .sqlite .runtime) w.state = some full := by
  obtain ⟨full, hfull⟩ := migrates_fresh .sqlite .runtime
  have hstopped : (play exec ((remaining (scripts .sqlite .runtime) ⟨.empty, []⟩).take 3)
      ⟨.empty, []⟩).any (fun db => applied db = 0 ∧ db.schema.tables.rows ≠ []) = true := by
    decide +kernel
  obtain ⟨db, hplay, hdb⟩ := (Option.any_eq_true _ _).mp hstopped
  obtain ⟨happlied, hrows⟩ := of_decide_eq_true hdb
  obtain ⟨w, hruns, rfl⟩ := stopped_after hplay
  have hstart : play exec (actions 1 ((scripts .sqlite .runtime).take 0)) ⟨.empty, []⟩ =
      some ⟨.empty, []⟩ := rfl
  refine ⟨w, full, hruns, hrows, hfull, (migrate_resumes hfull hstart hruns).mpr ?_⟩
  rw [happlied]
  have hguarded : ∀ statement ∈ runtimeV1, statement.bare = false := by decide
  intro statement hstatement hbare
  rw [hguarded statement hstatement] at hbare
  cases hbare

/-- A migration that stops after the first statement of the third script of the runtime
cannot be resumed. -/
theorem half_migrated :
    ∃ w, Relation.ReflTransGen (Moves exec (remaining (scripts .sqlite .runtime)))
        ⟨⟨.empty, []⟩, []⟩ w ∧
      (∃ full, migrate (scripts .sqlite .runtime) ⟨.empty, []⟩ = some full) ∧
        migrate (scripts .sqlite .runtime) w.state = none := by
  have hstopped : (play exec ((remaining (scripts .sqlite .runtime) ⟨.empty, []⟩).take 32)
      ⟨.empty, []⟩).any (fun db => (migrate (scripts .sqlite .runtime) db).isNone) = true := by
    decide +kernel
  obtain ⟨db, hplay, hdb⟩ := (Option.any_eq_true _ _).mp hstopped
  obtain ⟨w, hruns, rfl⟩ := stopped_after hplay
  exact ⟨w, hruns, migrates_fresh .sqlite .runtime, Option.isNone_iff_eq_none.mp hdb⟩

theorem actions_append {version : Nat} {older newer : List Script} :
    actions version (older ++ newer) = actions version older ++
      actions (version + older.length) newer := by
  induction older generalizing version with
  | nil => rfl
  | cons script older ih =>
    simp only [cons_append, actions, ih, append_assoc, length_cons, Nat.add_assoc, Nat.add_comm 1]

theorem applied_of_play {scripts : List Script} {version : Nat} {db db' : Database}
    (hplay : play exec (actions version scripts) db = some db') (hbase : applied db + 1 = version) :
    applied db' + 1 = version + scripts.length := by
  induction scripts generalizing version db with
  | nil =>
    cases hplay
    exact hbase
  | cons script scripts ih =>
    obtain ⟨mid, hran, hplay⟩ := play_prefix exec hplay
    have hmid : applied mid + 1 = version := by
      rw [applied, recorded_of_script hran]
      exact hbase
    obtain ⟨hrecord, happlied⟩ := applied_record hmid
    rw [play_cons, hrecord, Option.bind_some] at hplay
    have hlater := ih hplay (by omega)
    rw [length_cons]
    omega

/-- A database that was brought to an earlier release comes to the later one in the state in
which it would have come there at once. -/
theorem upgrades_compose {older newer : List Script} {db mid : Database}
    (h : migrate older db = some mid) :
    migrate (older ++ newer) mid = migrate (older ++ newer) db := by
  unfold migrate at h
  split at h
  · cases h
  · next hbelow =>
    have hle := Nat.not_lt.mp hbelow
    have happlied : applied mid = older.length := by
      have hlater := applied_of_play h rfl
      rw [length_drop] at hlater
      omega
    have hlater : ¬ (older ++ newer).length < applied db := by
      rw [length_append]
      omega
    unfold migrate remaining
    rw [if_neg hlater, happlied, if_neg (by simp), drop_left, drop_append_of_le_length hle,
      actions_append, play_append]
    change _ = (play exec (remaining older db) db).bind _
    rw [h, Option.bind_some, length_drop]
    congr 2
    omega

theorem second_release_composes :
    let first : List Script := [[.createTable "notes" ["id"]]]
    let both := first ++ [[.addColumn "notes" "title" false]]
    ∃ mid, migrate first ⟨.empty, []⟩ = some mid ∧ migrate both mid = migrate both ⟨.empty, []⟩ :=
  ⟨_, rfl, upgrades_compose rfl⟩

end Substrate.Migrations
