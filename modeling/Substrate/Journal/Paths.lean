import Mathlib.Algebra.BigOperators.Fin
import Mathlib.Algebra.Order.BigOperators.Group.Multiset
import Mathlib.Algebra.Order.Group.Multiset
import Mathlib.Data.Multiset.AddSub
import Substrate.Journal.Frame

/-!
Paths under concurrency and replay. A program is a tree of journaled calls, where
consecutive calls may be made as one batch whose members run as tasks of their own, each
on a stack that `fork_scopes` gave it.
-/

namespace Substrate

open List Function

/-- Calls in order, each with the calls its body makes. A label is the caller's
own name for a call; the journal does not see it. -/
inductive Code (ι : Type) where
  | done
  | call (label : ι) (kind : String) (body next : Code ι)
  | batch (n : Nat) (label : Fin n → ι) (kind : Fin n → String) (body : Fin n → Code ι)
      (next : Code ι)

def Code.inOrder {ι : Type} : (n : Nat) → (Fin n → ι) → (Fin n → String) →
    (Fin n → Code ι) → Code ι → Code ι
  | 0, _, _, _, next => next
  | n + 1, label, kind, body, next =>
    .call (label 0) (kind 0) (body 0) (inOrder n (label ·.succ) (kind ·.succ) (body ·.succ) next)

def Code.sequential {ι : Type} : Code ι → Code ι
  | .done => .done
  | .call label kind body next => .call label kind body.sequential next.sequential
  | .batch n label kind body next =>
    inOrder n label kind (fun i => (body i).sequential) next.sequential

/-- Code in execution: about to go on, in the body of a call, or waiting for the
members of a batch, each with the stack that overrides the journal's own. -/
inductive Task (ι : Type) where
  | code (code : Code ι)
  | inside (body : Task ι) (next : Code ι)
  | gather (n : Nat) (stack : Fin n → PathStack) (member : Fin n → Task ι) (next : Code ι)

structure Issued (ι : Type) where
  label : ι
  kind : String
  path : List Nat

variable {ι : Type}

/-- One step of a task on its path stack, with the call it issues, if any. The
members of a batch are forked from the stack as it is, and the stack itself goes
past all of them at once. -/
inductive Task.Step (journaled : ι → Bool) :
    PathStack → Task ι → List (Issued ι) → PathStack → Task ι → Prop
  | hit {stack label kind body next} : journaled label = true →
      Step journaled stack (.code (.call label kind body next))
        [⟨label, kind, stack.reverse⟩] (nextStack stack) (.code next)
  | miss {stack label kind body next} : journaled label = false →
      Step journaled stack (.code (.call label kind body next))
        [⟨label, kind, stack.reverse⟩] (bodyStack stack) (.inside (.code body) next)
  | body {stack stack' body body' issued next} :
      Step journaled stack body issued stack' body' →
      Step journaled stack (.inside body next) issued stack' (.inside body' next)
  | leave {stack next} :
      Step journaled stack (.inside (.code .done) next) [] stack.tail (.code next)
  | single {stack n label kind body next} : n ≤ 1 →
      Step journaled stack (.code (.batch n label kind body next)) []
        stack (.code (.inOrder n label kind body next))
  | fork {stack n label kind body next} : 1 < n →
      Step journaled stack (.code (.batch n label kind body next)) [] (advance stack n)
        (.gather n (fun i => advance stack i)
          (fun i => .code (.call (label i) (kind i) (body i) .done)) next)
  | member {stack n forked member next} (i : Fin n) {issued stack' task'} :
      Step journaled (forked i) (member i) issued stack' task' →
      Step journaled stack (.gather n forked member next) issued stack
        (.gather n (update forked i stack') (update member i task') next)
  | join {stack n forked member next} : (∀ i, member i = .code .done) →
      Step journaled stack (.gather n forked member next) [] stack (.code next)

/-- Any number of steps, in any order of the tasks, with the calls issued. -/
inductive Task.Run (journaled : ι → Bool) :
    PathStack → Task ι → List (Issued ι) → PathStack → Task ι → Prop
  | refl {stack task} : Run journaled stack task [] stack task
  | step {stack task issued stack' task' more stack'' task''} :
      Task.Step journaled stack task issued stack' task' →
      Run journaled stack' task' more stack'' task'' →
      Run journaled stack task (issued ++ more) stack'' task''

def live : ι → Bool := fun _ => false

/-- The paths of a program's calls, from its shape alone. -/
def Code.issues : PathStack → Code ι → Multiset (Issued ι)
  | _, .done => 0
  | stack, .call label kind body next =>
    {⟨label, kind, stack.reverse⟩} + body.issues (bodyStack stack) + next.issues (nextStack stack)
  | stack, .batch n label kind body next =>
    (∑ i, ({⟨label i, kind i, (advance stack i).reverse⟩} +
      (body i).issues (bodyStack (advance stack i)))) + next.issues (advance stack n)

def Task.depth : Task ι → Nat
  | .code _ | .gather .. => 0
  | .inside body _ => body.depth + 1

def Task.issues : PathStack → Task ι → Multiset (Issued ι)
  | stack, .code rest => rest.issues stack
  | stack, .inside body next =>
    body.issues stack + next.issues (stack.drop (body.depth + 1))
  | stack, .gather _ forked member next =>
    (∑ i, (member i).issues (forked i)) + next.issues stack

@[simp] theorem advance_zero (stack : PathStack) : advance stack 0 = stack := by
  cases stack <;> rfl

@[simp] theorem advance_advance (stack : PathStack) (m n : Nat) :
    advance (advance stack m) n = advance stack (m + n) := by
  cases stack with
  | nil => rfl
  | cons top outer => simp [advance, Nat.add_assoc]

@[simp] theorem advance_tail (stack : PathStack) (n : Nat) :
    (advance stack n).tail = stack.tail := by
  cases stack <;> rfl

@[simp] theorem advance_length (stack : PathStack) (n : Nat) :
    (advance stack n).length = stack.length := by
  cases stack <;> rfl

theorem Code.issues_inOrder (n : Nat) (label : Fin n → ι) (kind : Fin n → String)
    (body : Fin n → Code ι) (next : Code ι) (stack : PathStack) :
    (inOrder n label kind body next).issues stack =
      (Code.batch n label kind body next).issues stack := by
  induction n generalizing stack with
  | zero => simp [inOrder, issues]
  | succ n ih =>
    have hrest := ih (label ·.succ) (kind ·.succ) (body ·.succ) (nextStack stack)
    simp only [inOrder, issues] at hrest ⊢
    rw [hrest, Fin.sum_univ_succ]
    simp only [nextStack, advance_advance, Fin.val_zero, advance_zero, Fin.val_succ, Nat.add_comm 1]
    simp only [add_assoc]

variable {stack stack' : PathStack}

theorem Task.Step.outer {journaled : ι → Bool} {task task' : Task ι} {issued : List (Issued ι)}
    (h : Task.Step journaled stack task issued stack' task') :
    stack'.drop (task'.depth + 1) = stack.drop (task.depth + 1) := by
  induction h with
  | hit => simp [depth, nextStack]
  | miss => simp [depth, bodyStack, nextStack]
  | body _ ih =>
    have htail := congrArg List.tail ih
    simpa only [tail_drop, depth] using htail
  | leave | fork => simp [depth]
  | single | member | join => rfl

private theorem sum_update {n : Nat} (forked : Fin n → PathStack) (member : Fin n → Task ι)
    (i : Fin n) (stack : PathStack) (task : Task ι) :
    ∑ j, (update member i task j).issues (update forked i stack j) =
      task.issues stack + ∑ j ∈ Finset.univ.erase i, (member j).issues (forked j) := by
  rw [← Finset.add_sum_erase _ _ (Finset.mem_univ i)]
  simp only [update_self]
  congr 1
  refine Finset.sum_congr rfl fun j hj => ?_
  rw [update_of_ne (Finset.ne_of_mem_erase hj),
    update_of_ne (Finset.ne_of_mem_erase hj)]

theorem Task.Step.issues_le {journaled : ι → Bool} {task task' : Task ι}
    {issued : List (Issued ι)} (h : Task.Step journaled stack task issued stack' task') :
    (issued : Multiset (Issued ι)) + task'.issues stack' ≤ task.issues stack ∧
      (journaled = live → (issued : Multiset (Issued ι)) + task'.issues stack' =
        task.issues stack) := by
  induction h with
  | hit hjournaled =>
    refine ⟨?_, ?_⟩
    · simp only [Task.issues, Code.issues, Multiset.coe_singleton]
      rw [add_right_comm]
      exact Multiset.le_add_right ..
    · rintro rfl
      cases hjournaled
  | miss =>
    simp [Task.issues, Code.issues, Task.depth, bodyStack]
  | body hstep ih =>
    simp only [Task.issues]
    rw [hstep.outer, ← add_assoc]
    exact ⟨add_le_add_left ih.1 _, fun hlive => by rw [ih.2 hlive]⟩
  | leave => simp [Task.issues, Code.issues, Task.depth]
  | single => simp [Task.issues, Code.issues_inOrder]
  | fork => simp [Task.issues, Code.issues]
  | @member stack n forked member next i issued stack' task' hstep ih =>
    simp only [Task.issues, sum_update]
    rw [← Finset.add_sum_erase _ _ (Finset.mem_univ i), add_assoc (task'.issues stack'),
      ← add_assoc (issued : Multiset (Issued ι)), add_assoc ((member i).issues (forked i))]
    exact ⟨add_le_add_left ih.1 _, fun hlive => by rw [ih.2 hlive]⟩
  | join hdone => simp [Task.issues, hdone, Code.issues]

theorem Task.Run.issues_le {journaled : ι → Bool} {task task' : Task ι} {issued : List (Issued ι)}
    (h : Task.Run journaled stack task issued stack' task') :
    (issued : Multiset (Issued ι)) + task'.issues stack' ≤ task.issues stack ∧
      (journaled = live → (issued : Multiset (Issued ι)) + task'.issues stack' =
        task.issues stack) := by
  induction h with
  | refl => simp
  | step hstep hrun ih =>
    obtain ⟨hle, heq⟩ := hstep.issues_le
    rw [← Multiset.coe_add, add_assoc]
    refine ⟨le_trans (add_le_add_right ih.1 _) hle, fun hlive => ?_⟩
    rw [ih.2 hlive, heq hlive]

theorem Task.Step.length {journaled : ι → Bool} {task task' : Task ι} {issued : List (Issued ι)}
    (h : Task.Step journaled stack task issued stack' task') (hdeep : task.depth < stack.length) :
    task'.depth < stack'.length ∧ stack'.length + task.depth = stack.length + task'.depth := by
  induction h with
  | hit | single | fork | member | join => simpa [depth, nextStack] using hdeep
  | miss =>
    simp only [depth, bodyStack, nextStack, length_cons, advance_length] at hdeep ⊢
    exact ⟨by omega, trivial⟩
  | body hstep ih =>
    simp only [depth] at hdeep ⊢
    have hinner := ih (by omega)
    omega
  | @leave stack next =>
    cases stack with
    | nil => simp [depth] at hdeep
    | cons top outer =>
      simp only [depth, length_cons, tail_cons] at hdeep ⊢
      exact ⟨by omega, trivial⟩

theorem Task.Run.length {journaled : ι → Bool} {task task' : Task ι} {issued : List (Issued ι)}
    (h : Task.Run journaled stack task issued stack' task') (hdeep : task.depth < stack.length) :
    stack'.length + task.depth = stack.length + task'.depth := by
  induction h with
  | refl => rfl
  | step hstep hrun ih =>
    obtain ⟨hdeep', hfirst⟩ := hstep.length hdeep
    have hrest := ih hdeep'
    omega

theorem advance_atOrPast (hne : stack ≠ []) (n : Nat) : AtOrPast stack (advance stack n) := by
  cases stack with
  | nil => exact absurd rfl hne
  | cons top outer => exact ⟨top, top + n, outer, rfl, rfl, by omega⟩

theorem advance_ne_nil (hne : stack ≠ []) (n : Nat) : advance stack n ≠ [] := by
  cases stack with
  | nil => exact absurd rfl hne
  | cons top outer => simp [advance]

theorem Code.issues_ahead (code : Code ι) (hne : stack ≠ []) :
    ∀ call ∈ code.issues stack, Ahead stack call.path := by
  induction code generalizing stack with
  | done => simp [issues]
  | call label kind body next ihBody ihNext =>
    intro call hcall
    simp only [issues, Multiset.mem_add, Multiset.mem_singleton] at hcall
    rcases hcall with (rfl | hbody) | hnext
    · exact ahead_own hne
    · exact (ihBody (by simp [bodyStack]) call hbody).of_body hne
    · exact (ihNext (advance_ne_nil hne 1) call hnext).of_next
  | batch n label kind body next ihBody ihNext =>
    intro call hcall
    simp only [issues, Multiset.mem_add, Multiset.mem_sum, Multiset.mem_singleton] at hcall
    rcases hcall with ⟨i, _, rfl | hbody⟩ | hnext
    · exact (advance_atOrPast hne i).ahead (ahead_own (advance_ne_nil hne i))
    · have hinner := ihBody i (by simp [bodyStack]) call hbody
      exact (advance_atOrPast hne i).ahead (hinner.of_body (advance_ne_nil hne i))
    · exact (advance_atOrPast hne n).ahead (ihNext (advance_ne_nil hne n) call hnext)

def Code.Distinct (code : Code ι) : Prop :=
  ∀ stack, stack ≠ [] → ((code.issues stack).map (·.path)).Nodup

private theorem distinct_call (label : ι) (kind : String) {body next : Code ι}
    (hbody : body.Distinct) (hnext : next.Distinct) :
    (Code.call label kind body next).Distinct := by
  intro stack hne
  have hbodyAhead : ∀ call ∈ body.issues (bodyStack stack), Ahead (bodyStack stack) call.path :=
    body.issues_ahead (by simp [bodyStack])
  have hnextAhead : ∀ call ∈ next.issues (nextStack stack), Ahead (nextStack stack) call.path :=
    next.issues_ahead (advance_ne_nil hne 1)
  simp only [Code.issues, Multiset.map_add, Multiset.map_singleton]
  rw [Multiset.nodup_add, Multiset.nodup_add]
  have hfirst : Disjoint {stack.reverse} ((body.issues (bodyStack stack)).map (·.path)) := by
    rw [Multiset.disjoint_left]
    intro path hown hin
    obtain ⟨call, hcall, rfl⟩ := Multiset.mem_map.mp hin
    rw [Multiset.mem_singleton] at hown
    exact own_not_body stack (hown ▸ hbodyAhead call hcall)
  have hsecond : Disjoint ({stack.reverse} + (body.issues (bodyStack stack)).map (·.path))
      ((next.issues (nextStack stack)).map (·.path)) := by
    rw [Multiset.disjoint_left]
    intro path hbefore hin
    obtain ⟨call, hcall, rfl⟩ := Multiset.mem_map.mp hin
    have hlater := hnextAhead call hcall
    rcases Multiset.mem_add.mp hbefore with hown | hbelow
    · rw [Multiset.mem_singleton] at hown
      exact own_not_next stack (hown ▸ hlater)
    · obtain ⟨inner, hinner, hpath⟩ := Multiset.mem_map.mp hbelow
      exact (hbodyAhead inner hinner).body_not_next (hpath ▸ hlater)
  exact ⟨⟨Multiset.nodup_singleton _, hbody _ (by simp [bodyStack]), hfirst⟩,
    hnext _ (advance_ne_nil hne 1), hsecond⟩

private theorem distinct_inOrder (n : Nat) (label : Fin n → ι) (kind : Fin n → String)
    {body : Fin n → Code ι} {next : Code ι} (hbody : ∀ i, (body i).Distinct)
    (hnext : next.Distinct) : (Code.inOrder n label kind body next).Distinct := by
  induction n with
  | zero => exact hnext
  | succ n ih =>
    exact distinct_call _ _ (hbody 0) (ih (label ·.succ) (kind ·.succ) fun i => hbody i.succ)

theorem Code.distinct (code : Code ι) : code.Distinct := by
  induction code with
  | done =>
    intro stack _
    simp [issues]
  | call label kind body next ihBody ihNext => exact distinct_call label kind ihBody ihNext
  | batch n label kind body next ihBody ihNext =>
    intro stack hne
    rw [← issues_inOrder]
    exact distinct_inOrder n label kind ihBody ihNext stack hne

namespace Task.Run

variable {journaled : ι → Bool} {stack stack' stack'' : PathStack} {task task' task'' : Task ι}
  {issued more : List (Issued ι)}

theorem trans (h : Run journaled stack task issued stack' task')
    (h' : Run journaled stack' task' more stack'' task'') :
    Run journaled stack task (issued ++ more) stack'' task'' := by
  induction h with
  | refl => exact h'
  | step hstep _ ih =>
    rw [append_assoc]
    exact .step hstep (ih h')

theorem body (h : Run journaled stack task issued stack' task') (next : Code ι) :
    Run journaled stack (.inside task next) issued stack' (.inside task' next) := by
  induction h with
  | refl => exact .refl
  | step hstep _ ih => exact .step (.body hstep) ih

theorem member {n : Nat} (i : Fin n) {forked : Fin n → PathStack} {members : Fin n → Task ι}
    (h : Run journaled (forked i) (members i) issued stack' task') (base : PathStack)
    (next : Code ι) :
    Run journaled base (.gather n forked members next) issued base
      (.gather n (update forked i stack') (update members i task') next) := by
  generalize hstack : forked i = start at h
  generalize htask : members i = first at h
  induction h generalizing forked members with
  | refl =>
    rw [← hstack, ← htask, update_eq_self, update_eq_self]
    exact .refl
  | @step _ _ _ middle task₁ _ _ _ hstep _ ih =>
    subst hstack htask
    have hrest := @ih (update forked i middle) (update members i task₁)
      (update_self ..) (update_self ..)
    rw [update_idem, update_idem] at hrest
    exact .step (.member i hstep) hrest

end Task.Run

/-- The program runs live to its end on any stack. -/
def Code.Ends (code : Code ι) : Prop :=
  ∀ stack, ∃ issued stack', Task.Run live stack (.code code) issued stack' (.code .done)

private theorem ends_call (label : ι) (kind : String) {body next : Code ι} (hbody : body.Ends)
    (hnext : next.Ends) : (Code.call label kind body next).Ends := by
  intro stack
  obtain ⟨issued, stack', hinner⟩ := hbody (bodyStack stack)
  obtain ⟨more, stack'', hlater⟩ := hnext stack'.tail
  exact ⟨_, _, .step (.miss rfl) ((hinner.body next).trans (.step .leave hlater))⟩

private theorem ends_inOrder (n : Nat) (label : Fin n → ι) (kind : Fin n → String)
    {body : Fin n → Code ι} {next : Code ι} (hbody : ∀ i, (body i).Ends) (hnext : next.Ends) :
    (Code.inOrder n label kind body next).Ends := by
  induction n with
  | zero => exact hnext
  | succ n ih =>
    exact ends_call _ _ (hbody 0) (ih (label ·.succ) (kind ·.succ) fun i => hbody i.succ)

private theorem gather_ends {n : Nat} {forked : Fin n → PathStack} {members : Fin n → Task ι}
    (hends : ∀ i, ∃ issued stack', Task.Run live (forked i) (members i) issued stack'
      (.code .done)) (base : PathStack) (next : Code ι) (finished : Finset (Fin n)) :
    ∃ issued forked' members', Task.Run live base (.gather n forked members next) issued base
        (.gather n forked' members' next) ∧
      (∀ i ∈ finished, members' i = .code .done) ∧
      ∀ i ∉ finished, members' i = members i ∧ forked' i = forked i := by
  induction finished using Finset.induction_on with
  | empty => exact ⟨[], forked, members, .refl, by simp, fun _ _ => ⟨rfl, rfl⟩⟩
  | insert i finished hnew ih =>
    obtain ⟨issued, forked', members', hrun, hdone, hrest⟩ := ih
    obtain ⟨hmember, hstack⟩ := hrest i hnew
    obtain ⟨more, stack', hone⟩ := hends i
    rw [← hmember, ← hstack] at hone
    refine ⟨_, _, _, hrun.trans (hone.member i base next), ?_, ?_⟩
    · intro j hj
      by_cases hsame : j = i
      · rw [hsame, update_self]
      · rw [update_of_ne hsame]
        exact hdone j ((Finset.mem_insert.mp hj).resolve_left hsame)
    · intro j hj
      rw [Finset.mem_insert, not_or] at hj
      rw [update_of_ne hj.1, update_of_ne hj.1]
      exact hrest j hj.2

theorem Code.ends (code : Code ι) : code.Ends := by
  induction code with
  | done => exact fun stack => ⟨[], stack, .refl⟩
  | call label kind body next ihBody ihNext => exact ends_call label kind ihBody ihNext
  | batch n label kind body next ihBody ihNext =>
    intro stack
    by_cases hsingle : n ≤ 1
    · obtain ⟨issued, stack', hrun⟩ := ends_inOrder n label kind ihBody ihNext stack
      exact ⟨_, _, .step (.single hsingle) hrun⟩
    · have hdone : Code.Ends (Code.done : Code ι) := fun stack => ⟨[], stack, .refl⟩
      obtain ⟨issued, forked, members, hrun, hfinished, _⟩ := gather_ends
        (fun i => ends_call (label i) (kind i) (ihBody i) hdone (advance stack i))
        (advance stack n) next Finset.univ
      obtain ⟨more, stack', hlater⟩ := ihNext (advance stack n)
      have hjoin : ∀ i, members i = .code .done := fun i => hfinished i (Finset.mem_univ i)
      exact ⟨_, _, .step (.fork (by omega)) (hrun.trans (.step (.join hjoin) hlater))⟩

theorem Code.issues_sequential (code : Code ι) (stack : PathStack) :
    code.sequential.issues stack = code.issues stack := by
  induction code generalizing stack with
  | done => rfl
  | call label kind body next ihBody ihNext =>
    simp only [sequential, issues, ihBody, ihNext]
  | batch n label kind body next ihBody ihNext =>
    simp only [sequential, issues_inOrder, issues, ihBody, ihNext]

def Issued.id (makeId : String → String → String) (call : Issued ι) : String :=
  makeId (pathText call.path) call.kind

/-- Replay path alignment, for one program started on the journal's first stack. -/
structure PathsAligned (code : Code ι) : Prop where
  live_run : ∃ lived stack, Task.Run live [0] (.code code) lived stack (.code .done)
  same : ∀ journaled issued stack task lived stack',
    Task.Run journaled [0] (.code code) issued stack task →
    Task.Run live [0] (.code code) lived stack' (.code .done) →
      (issued : Multiset (Issued ι)) ≤ lived
  distinct : ∀ journaled issued stack task,
    Task.Run journaled [0] (.code code) issued stack task → (issued.map (·.path)).Nodup
  batched : ∀ lived stack lived' stack', Task.Run live [0] (.code code) lived stack (.code .done) →
    Task.Run live [0] (.code code.sequential) lived' stack' (.code .done) →
      (lived : Multiset (Issued ι)) = lived'
  depth_one : ∀ journaled issued stack,
    Task.Run journaled [0] (.code code) issued stack (.code .done) → stack.length = 1
  ids : ∀ makeId, Function.Injective2 makeId → ∀ journaled issued stack task,
    Task.Run journaled [0] (.code code) issued stack task → (issued.map (·.id makeId)).Nodup

private theorem live_issues {code : Code ι} {stack : PathStack} {lived : List (Issued ι)}
    (h : Task.Run live [0] (.code code) lived stack (.code .done)) :
    (lived : Multiset (Issued ι)) = code.issues [0] := by
  have heq := h.issues_le.2 rfl
  simpa [Task.issues, Code.issues] using heq

/-- Replay path alignment: whatever is journaled and however the members of a
batch interleave, each call that is issued gets the path of the live run, in
which no call is journaled; no two calls get the same path; a batch gets the
paths of its calls made one after another; and the scope stack ends at depth
one. With an injective hash, effect ids are distinct. -/
theorem paths_aligned (code : Code ι) : PathsAligned code := by
  have hdistinct : ∀ journaled issued stack task,
      Task.Run journaled [0] (.code code) issued stack task → (issued.map (·.path)).Nodup := by
    intro journaled issued stack task h
    have hle : (issued : Multiset (Issued ι)) ≤ code.issues [0] :=
      (Multiset.le_add_right ..).trans h.issues_le.1
    have hnodup := Multiset.nodup_of_le (Multiset.map_le_map hle) (code.distinct [0] (by simp))
    rwa [Multiset.map_coe, Multiset.coe_nodup] at hnodup
  refine ⟨code.ends [0], ?_, hdistinct, ?_, ?_, ?_⟩
  · intro journaled issued stack task lived stack' h hlive
    rw [live_issues hlive]
    exact (Multiset.le_add_right ..).trans h.issues_le.1
  · intro lived stack lived' stack' h h'
    rw [live_issues h, live_issues h', Code.issues_sequential]
  · intro journaled issued stack h
    have hlength := h.length (by simp [Task.depth])
    simpa [Task.depth] using hlength
  · intro makeId hinjective journaled issued stack task h
    have hpaths := hdistinct journaled issued stack task h
    rw [List.Nodup, pairwise_map] at hpaths ⊢
    exact hpaths.imp fun hne hid => hne (pathText_injective (hinjective hid).1)

end Substrate
