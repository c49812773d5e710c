import Substrate.Threads.Walkable

/-!
Writers of threads, run against one another. A transaction commits at one moment,
but each of its reads may find any tables the database has held before. The run
remembers them all, and for every version swap that committed the branch and the
version its writer had read.
-/

namespace Substrate.Threads

open Lib List Option

variable {Message : Type}

structure Transaction (Message : Type) where
  op : Op Message
  seen : Nat → Tables Message

structure World (Message : Type) where
  now : Tables Message
  past : List (Tables Message)
  wins : List ((String × String) × Int)

namespace World

def empty : World Message := ⟨.empty, [], []⟩

def states (w : World Message) : List (Tables Message) := w.now :: w.past

end World

/-- The branch a transaction advances and the version it read. A branch it did not
find is at version 0. -/
def Transaction.win (c : Transaction Message) : Option ((String × String) × Int) :=
  c.op.advances.map fun key => (key, (((c.seen 0).branches.get? key).map (·.version)).getD 0)

def commit [DecidableEq Message] (c : Transaction Message) (w : World Message) : World Message :=
  match exec c.seen w.now c.op with
  | .error _ => w
  | .ok t => { now := t, past := w.now :: w.past, wins := c.win.toList ++ w.wins }

def Reads (w : World Message) (c : Transaction Message) : Prop := ∀ n, c.seen n ∈ w.states

/-- A branch made under a name used before starts above the versions it had. -/
def World.StartsAbove (w : World Message) (op : Op Message) : Prop :=
  ∀ key version, op.creates = some (key, version) → w.now.branches.get? key = none →
    ∀ older ∈ w.past, ∀ row, older.branches.get? key = some row → row.version < version

structure Fair [DecidableEq Message] (w : World Message) (c : Transaction Message) : Prop where
  reads : Reads w c
  head : ∀ t, exec c.seen w.now c.op = .ok t → c.op.HeadThere w.now
  nodes : ∀ t, exec c.seen w.now c.op = .ok t → c.op.NodesStay c.seen w.now
  versions : ∀ t, exec c.seen w.now c.op = .ok t → w.StartsAbove c.op

theorem fair_alone [DecidableEq Message] {w : World Message} {op : Op Message}
    (hhead : op.HeadThere w.now) (hversions : w.StartsAbove op) :
    Fair w ⟨op, fun _ => w.now⟩ := by
  constructor
  · exact fun _ => mem_cons_self
  · exact fun _ _ => hhead
  · exact fun _ _ pair _ _ hheld => hheld
  · exact fun _ _ => hversions

/-- Nodes keep their contents for as long as they are there. -/
def Immutable (older newer : Tables Message) : Prop :=
  ∀ id node, older.readNode id = some node → newer.readNode id = some node ∨
    newer.readNode id = none

/-- A branch that has changed has a higher version. -/
def Ordered (older newer : Tables Message) : Prop :=
  ∀ key row row', older.branches.get? key = some row → newer.branches.get? key = some row' →
    row' = row ∨ row.version < row'.version

structure Sane (w : World Message) : Prop where
  coherent : ∀ t ∈ w.states, Coherent t
  immutable : w.states.IsChain fun newer older => Immutable older newer
  ordered : w.states.Pairwise fun newer older => Ordered older newer
  passed : ∀ win ∈ w.wins, ∃ t ∈ w.states, ∃ row, t.branches.get? win.1 = some row ∧
    row.version = win.2 + 1
  once : w.wins.Nodup

theorem Sane.empty : Sane (World.empty : World Message) := by
  constructor
  · intro t ht
    cases mem_singleton.mp ht
    exact Coherent.empty
  · exact .singleton _
  · exact pairwise_singleton _ _
  · intro win hwin
    cases hwin
  · exact nodup_nil

section Step

variable [DecidableEq Message] {w : World Message} {c : Transaction Message} {t : Tables Message}

private theorem ordered_exec (hsane : Sane w) (hfair : Fair w c)
    (h : exec c.seen w.now c.op = .ok t) {older : Tables Message} (holder : older ∈ w.states) :
    Ordered older t := by
  intro key row row' hrow hrow'
  have hturn := exec_turn (fun n => hsane.coherent _ (hfair.reads n)) h key
  rw [hrow'] at hturn
  have hnow : ∀ current, w.now.branches.get? key = some current →
      current = row ∨ row.version < current.version := by
    intro current hcurrent
    rcases mem_cons.mp holder with rfl | hpast
    · rw [hrow] at hcurrent
      cases hcurrent
      exact .inl rfl
    · exact (pairwise_cons.mp hsane.ordered).1 older hpast key row current hrow hcurrent
  generalize hcurrent : w.now.branches.get? key = current at hturn
  cases hturn with
  | same => exact hnow row' hcurrent
  | made hop =>
    refine .inr (hfair.versions t h key row'.version hop hcurrent older ?_ row hrow)
    rcases mem_cons.mp holder with rfl | hpast
    · rw [hrow] at hcurrent
      cases hcurrent
    · exact hpast
  | swapped hop hread hversion hnext =>
    rcases hnow _ hcurrent with rfl | hless
    · exact .inr (by omega)
    · exact .inr (by omega)

private theorem passed_exec (hsane : Sane w) (hfair : Fair w c)
    (h : exec c.seen w.now c.op = .ok t) {win : (String × String) × Int}
    (hwin : c.win = some win) :
    ∃ row, t.branches.get? win.1 = some row ∧ row.version = win.2 + 1 := by
  obtain ⟨key, hop, rfl⟩ := map_eq_some_iff.mp hwin
  rcases exec_advances (fun n => hsane.coherent _ (hfair.reads n)) h hop with
    ⟨read, row, row', hread, _, hrow', hversion, hnext⟩ | ⟨habsent, _, row', hrow', hfirst⟩
  · refine ⟨row', hrow', ?_⟩
    simp only [hread, map_some, getD_some]
    omega
  · refine ⟨row', hrow', ?_⟩
    simp [habsent, hfirst]

private theorem once_exec (hsane : Sane w) (hfair : Fair w c)
    (h : exec c.seen w.now c.op = .ok t) {win : (String × String) × Int}
    (hwin : c.win = some win) : win ∉ w.wins := by
  intro hmem
  obtain ⟨older, holder, before, hbefore, hpassed⟩ := hsane.passed win hmem
  obtain ⟨key, hop, rfl⟩ := map_eq_some_iff.mp hwin
  simp only at hbefore hpassed
  have hseen := fun n => hsane.coherent _ (hfair.reads n)
  rcases exec_advances hseen h hop with
    ⟨read, row, row', hread, hrow, _, hversion, _⟩ | ⟨habsent, hnone, row', hrow', hfirst⟩
  · rw [hread] at hpassed
    simp only [map_some, getD_some] at hpassed
    rcases mem_cons.mp holder with rfl | hpast
    · rw [hrow] at hbefore
      cases hbefore
      omega
    · rcases (pairwise_cons.mp hsane.ordered).1 older hpast key before row hbefore hrow with
        rfl | hless
      · omega
      · omega
  · rw [habsent] at hpassed
    simp only [map_none, getD_none] at hpassed
    have hturn := exec_turn hseen h key
    rw [hnone, hrow'] at hturn
    cases hturn with
    | made hmade =>
      rcases mem_cons.mp holder with rfl | hpast
      · rw [hnone] at hbefore
        cases hbefore
      · have hless := hfair.versions t h key row'.version hmade hnone older hpast before hbefore
        omega

theorem Sane.commit (hsane : Sane w) (hfair : Fair w c) : Sane (commit c w) := by
  unfold Threads.commit
  cases h : exec c.seen w.now c.op with
  | error e => exact hsane
  | ok t =>
    have hnow : Coherent w.now := hsane.coherent _ mem_cons_self
    constructor
    · intro state hstate
      rcases mem_cons.mp hstate with rfl | hold
      · exact exec_coherent (fun n => hsane.coherent _ (hfair.reads n)) hnow
          (hfair.head _ h) (hfair.nodes _ h) h
      · exact hsane.coherent state hold
    · exact .cons_cons (fun id node hnode => exec_nodes h hnode) hsane.immutable
    · exact pairwise_cons.mpr ⟨fun older holder => ordered_exec hsane hfair h holder, hsane.ordered⟩
    · intro win hwin
      rcases mem_append.mp hwin with hnew | hold
      · exact ⟨t, mem_cons_self, passed_exec hsane hfair h (mem_toList.mp hnew)⟩
      · obtain ⟨state, hstate, hrest⟩ := hsane.passed win hold
        exact ⟨state, mem_cons_of_mem _ hstate, hrest⟩
    · rw [nodup_append]
      refine ⟨?_, hsane.once, ?_⟩
      · cases c.win with
        | none => exact nodup_nil
        | some win => exact nodup_singleton win
      · rintro win hnew _ hold rfl
        exact once_exec hsane hfair h (mem_toList.mp hnew) hold

end Step

/-- In a run of fair transactions thread history is always walkable, nodes never
change, a branch's version grows with every change of it, and no two writers that
read one version both succeed. -/
theorem history_walkable [DecidableEq Message] {w : World Message}
    (h : Steps commit Fair World.empty w) :
    (∀ t ∈ w.states, Walkable t) ∧ (w.states.IsChain fun newer older => Immutable older newer) ∧
      (w.states.Pairwise fun newer older => Ordered older newer) ∧ w.wins.Nodup := by
  have hsane : Sane w := h.invariant (fun _ _ hw hfair => hw.commit hfair) Sane.empty
  exact ⟨fun t ht => (hsane.coherent t ht).walkable, hsane.immutable, hsane.ordered, hsane.once⟩

def alone [DecidableEq Message] (w : World Message) (ops : List (Op Message)) : World Message :=
  ops.foldl (fun w op => commit ⟨op, fun _ => w.now⟩ w) w

theorem alone_reads [DecidableEq Message] (w : World Message) (ops : List (Op Message)) :
    Steps commit Reads w (alone w ops) := by
  have hturn : ∀ (w : World Message), ∀ op ∈ ops,
      Steps commit Reads w (commit ⟨op, fun _ => w.now⟩ w) := by
    intro w op _
    exact .single _ fun _ => mem_cons_self
  exact Steps.foldl ops hturn w

theorem fair_next [DecidableEq Message] {ops : List (Op Message)} {op : Op Message}
    (h : Steps commit Fair World.empty (alone World.empty ops))
    (hhead : op.HeadThere (alone World.empty ops).now)
    (hversions : (alone World.empty ops).StartsAbove op) :
    Steps commit Fair World.empty (alone World.empty (ops ++ [op])) := by
  have hlast := h.next (Transaction.mk op fun _ => (alone World.empty ops).now)
    (fair_alone hhead hversions)
  unfold alone at hlast ⊢
  rw [foldl_append]
  exact hlast

/-- A message of session `s`. -/
private def said (id : String) (parentId : Option String) : MessageNode String :=
  ⟨id, parentId, "s", "r", "hello", none, ""⟩

/-- Two messages on one branch, and a fork at the first. -/
theorem history_walkable_forked : ∃ w : World String,
    (w.now.readBranch "s" "fork").any (fun branch => branch.headMessageId = some "m") ∧
      w.wins.length = 2 ∧ (∀ t ∈ w.states, Walkable t) ∧
      (w.states.IsChain fun newer older => Immutable older newer) ∧
      (w.states.Pairwise fun newer older => Ordered older newer) ∧ w.wins.Nodup := by
  let first : Op String := .appendAndAdvance (said "m" none) "main" none none ""
  let second : Op String := .appendAndAdvance (said "n" (some "m")) "main" none (some 1) ""
  let third : Op String := .forkBranch "s" "main" "fork" (some "m") ""
  have hfirst : (alone World.empty []).StartsAbove first := by
    intro key version _ _ older holder
    cases holder
  have hsecond : (alone .empty [first]).StartsAbove second := by
    intro key version hop hnone
    cases hop
    exact absurd hnone (by decide)
  have hthird : (alone .empty [first, second]).StartsAbove third := by
    intro key version hop _ older holder row hrow
    cases hop
    have hnever : ∀ t ∈ (alone .empty [first, second]).past,
        t.branches.get? ("s", "fork") = none := by decide
    rw [hnever older holder] at hrow
    cases hrow
  have hrun₁ := fair_next (.refl _) (by exact trivial) hfirst
  have hrun₂ := fair_next hrun₁ (by exact trivial) hsecond
  have hrun₃ := fair_next hrun₂ (by exact trivial) hthird
  exact ⟨_, by decide, by decide, history_walkable hrun₃⟩

/-- What the conditions are for. Nobody looks for the head of a branch that is made.
The versions of a branch start again when it is deleted and made again, so that two
writers that read version 0 succeed. And a session can go while a fork of it is
being written. -/
theorem history_broken : (∃ w : World String, Steps commit Reads World.empty w ∧
      (∃ branch, w.now.readBranch "s" "b" = some branch ∧ branch.headMessageId = some "nope") ∧
      w.now.resolveAncestry "nope" none =
        .error (.dagIntegrity "Broken DAG: ancestor node 'nope' not found") ∧
      ¬ Walkable w.now) ∧
    (∃ w : World String, Steps commit Reads World.empty w ∧
      w.wins = [(("s", "b"), 0), (("s", "b"), 0)]) ∧
    (∃ w : World String, Steps commit Reads World.empty w ∧ ¬ Walkable w.now) := by
  refine ⟨?_, ?_, ?_⟩
  · let w : World String := alone .empty [.ensureBranch "s" "b" (some "nope") ""]
    have hbranch : w.now.readBranch "s" "b" =
        some ⟨"b", "s", none, some "nope", none, 0, ""⟩ := by decide
    have hnode : w.now.readNode "nope" = none := by decide
    have hrun : Steps commit Reads World.empty w := alone_reads World.empty _
    refine ⟨w, hrun, ⟨_, hbranch, rfl⟩, ?_, ?_⟩
    · rw [Tables.resolveAncestry, Tables.resolveFrom]
      simp only [not_mem_nil, if_false, reduceCtorEq]
      split
      · rfl
      · next found hfound =>
          rw [hnode] at hfound
          cases hfound
    · intro h
      obtain ⟨node, hfound, _⟩ := h.heads "s" "b" _ "nope" hbranch rfl
      rw [hnode] at hfound
      cases hfound
  · exact ⟨alone .empty [.ensureBranch "s" "b" none "", .renameBranch "s" "b" "x",
      .deleteBranch "s" "b", .ensureBranch "s" "b" none "", .renameBranch "s" "b" "x"],
      alone_reads _ _, by decide⟩
  · let before : World String :=
      alone .empty [.appendAndAdvance (said "m" none) "main" none none ""]
    let fork : Transaction String := ⟨.forkBranch "s" "main" "fork" none "", fun _ => before.now⟩
    let w := commit fork (alone before [.deleteSession "s"])
    have hbefore : Steps commit Reads World.empty before := alone_reads World.empty _
    have hrun : Steps commit Reads World.empty (alone before [.deleteSession "s"]) :=
      hbefore.trans (alone_reads before [.deleteSession "s"])
    have hreads : Reads (alone before [.deleteSession "s"]) fork :=
      fun _ => mem_cons_of_mem _ mem_cons_self
    have hbranch : w.now.readBranch "s" "fork" =
        some ⟨"fork", "s", none, some "m", some "m", 0, ""⟩ := by decide
    have hnode : w.now.readNode "m" = none := by decide
    refine ⟨w, hrun.next fork hreads, fun h => ?_⟩
    obtain ⟨node, hfound, _⟩ := h.heads "s" "fork" _ "m" hbranch rfl
    rw [hnode] at hfound
    cases hfound

theorem resolveFrom_keeps {t t' : Tables Message} {stop : Option String}
    (hkeep : ∀ id node, t.readNode id = some node → t'.readNode id = some node)
    {visited : List String} {chain result : List (MessageNode Message)} {curr : Option String}
    (h : t.resolveFrom stop visited chain curr = .ok result) :
    t'.resolveFrom stop visited chain curr = .ok result := by
  fun_induction Tables.resolveFrom t stop visited chain curr with
  | case1 visited chain =>
    rw [Tables.resolveFrom]
    exact h
  | case2 visited chain curr hvisited => cases h
  | case3 visited chain curr hvisited hstop =>
    rw [Tables.resolveFrom, if_neg hvisited, if_pos hstop]
    exact h
  | case4 visited chain curr hvisited hstop hnone => cases h
  | case5 visited chain curr hvisited hstop node hfound ih =>
    rw [Tables.resolveFrom, if_neg hvisited, if_neg hstop]
    have hfound' := hkeep curr node hfound
    split
    · next hnone =>
        rw [hfound'] at hnone
        cases hnone
    · next other hother =>
        rw [hfound'] at hother
        cases hother
        exact ih h

/-- Every history that is resolved in the older tables is resolved to the same one in the newer. -/
def KeepsHistories (older newer : Tables Message) : Prop :=
  ∀ leaf stop chain, older.resolveAncestry leaf stop = .ok chain →
    newer.resolveAncestry leaf stop = .ok chain

/-- A resolved history is never resolved to another one, whatever the other writers do and
however old the rows are that they have read, until a session is deleted. -/
theorem histories_kept [DecidableEq Message] (w : World Message)
    (transactions : List (Transaction Message)) :
    KeepsHistories w.now ((transactions.filter fun c => !c.op.deletesSessions).foldl
      (fun w c => commit c w) w).now := by
  intro leaf stop chain h
  refine resolveFrom_keeps (fun id node hnode => ?_) h
  refine foldl_filter_keeps (P := fun w : World Message => w.now.readNode id = some node)
    (fun w c hkeeps hnode => ?_) transactions hnode
  unfold commit
  cases hexec : exec c.seen w.now c.op with
  | error e => exact hnode
  | ok t => exact (exec_keeps hexec hnode).resolve_right fun hgone => by simp_all

end Substrate.Threads
