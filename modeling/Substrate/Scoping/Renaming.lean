import Substrate.Lib.Transition
import Substrate.Scoping.Threads

/-!
A bound thread store is the store itself under renaming. What it adds is the wall: an id
that is not the tenant's is not found, and nothing is pointed at it.
-/

namespace Substrate.Scoping

open Threads

variable {Message : Type} [DecidableEq Message]

namespace Scope

variable (scope : Scope)

/-- The call on the inner store: its sessions under the tenant, all else as it was. -/
def inward : Call Message → Call Message
  | .appendNode node => .appendNode (scope.nodeIn node)
  | .getNode nodeId => .getNode nodeId
  | .getBranch sessionId branchId => .getBranch (scope.add sessionId) branchId
  | .listBranches sessionId => .listBranches (scope.add sessionId)
  | .ensureBranch sessionId branchId head createdAt =>
    .ensureBranch (scope.add sessionId) branchId head createdAt
  | .forkBranch sessionId sourceId newId forkFrom createdAt =>
    .forkBranch (scope.add sessionId) sourceId newId forkFrom createdAt
  | .renameBranch sessionId branchId newName =>
    .renameBranch (scope.add sessionId) branchId newName
  | .setBranchHead sessionId branchId newHeadId expectedHeadId expectedVersion =>
    .setBranchHead (scope.add sessionId) branchId newHeadId expectedHeadId expectedVersion
  | .appendAndAdvance node branchId expectedHeadId expectedVersion createdAt =>
    .appendAndAdvance (scope.nodeIn node) branchId expectedHeadId expectedVersion createdAt
  | .saveCheckpoint checkpoint => .saveCheckpoint (scope.checkpointIn checkpoint)
  | .getCheckpoint checkpointId => .getCheckpoint checkpointId
  | .listCheckpoints sessionId => .listCheckpoints (scope.add sessionId)
  | .deleteBranch sessionId branchId => .deleteBranch (scope.add sessionId) branchId
  | .deleteSession sessionId => .deleteSession (scope.add sessionId)

/-- The call looks up, or points at, an id that is not the tenant's. -/
def foreign (t : Tables Message) : Call Message → Bool
  | .getNode nodeId => (t.readNode nodeId).any fun node => ¬ scope.owns node.sessionId
  | .ensureBranch _ _ (some head) _ => scope.mine t head = none
  | .setBranchHead _ _ newHeadId _ _ => scope.mine t newHeadId = none
  | .saveCheckpoint checkpoint => scope.mine t checkpoint.anchorMessageId = none
  | .getCheckpoint checkpointId =>
    (t.checkpoints.get? checkpointId).any fun checkpoint => ¬ scope.owns checkpoint.sessionId
  | _ => false

/-- What the wall makes of such a call. -/
def refusal : Call Message → Threads.Reply Message
  | .getNode _ => .node none
  | .getCheckpoint _ => .checkpoint none
  | .ensureBranch _ _ (some head) _ => .failed (notOfScope head)
  | .setBranchHead _ _ newHeadId _ _ => .failed (notOfScope newHeadId)
  | .saveCheckpoint _ =>
    .failed (.valueError "a checkpoint must anchor on a node of its own scope")
  | _ => .done

end Scope

def expectsNoHead : Call Message → Bool
  | .setBranchHead _ _ _ (some none) _ => true
  | .appendAndAdvance _ _ (some none) _ _ => true
  | _ => false

def pointsInside : Call Message → Bool
  | .setBranchHead .. => true
  | .saveCheckpoint _ => true
  | _ => false

namespace Scope

variable {scope : Scope} {t : Tables Message}

omit [DecidableEq Message] in
theorem passed_of_given {expected : Option (Option String)} (h : expected ≠ some none) :
    passed expected = expected := by
  rcases expected with _ | _ | head
  · rfl
  · exact absurd rfl h
  · rfl

omit [DecidableEq Message] in
theorem session_ne_of_not_mine {nodeId sessionId : String} {node : MessageNode Message}
    (hmine : scope.mine t nodeId = none) (hread : t.readNode nodeId = some node) :
    node.sessionId ≠ scope.add sessionId := by
  intro hsession
  have howns : scope.owns node.sessionId = true := hsession ▸ scope.owns_add sessionId
  unfold mine at hmine
  rw [hread, Option.filter_some, if_pos howns] at hmine
  cases hmine

omit [DecidableEq Message] in
theorem setBranchHead_foreign {sessionId branchId newHeadId : String}
    {expectedHeadId : Option (Option String)} {expectedVersion : Option Int}
    (hmine : scope.mine t newHeadId = none) (t' : Tables Message) :
    setBranchHead (fun _ => t) t (scope.add sessionId) branchId newHeadId expectedHeadId
      expectedVersion ≠ .ok t' := by
  intro hok
  unfold setBranchHead at hok
  obtain ⟨branch, _, hok⟩ := Lib.bind_ok_iff.mp hok
  obtain ⟨_, _, hok⟩ := Lib.bind_ok_iff.mp hok
  cases hread : t.readNode newHeadId with
  | none => simp [hread] at hok
  | some node =>
    simp only [hread] at hok
    split at hok
    · next hsession => exact session_ne_of_not_mine hmine hread hsession
    · cases hok

omit [DecidableEq Message] in
theorem saveCheckpoint_foreign {checkpoint : HistoryCheckpoint}
    (hmine : scope.mine t checkpoint.anchorMessageId = none) (t' : Tables Message) :
    saveCheckpoint (fun _ => t) t (scope.checkpointIn checkpoint) ≠ .ok t' := by
  intro hok
  unfold saveCheckpoint at hok
  split at hok
  · cases hok
  · next node hread =>
    split at hok
    · next hsession => exact session_ne_of_not_mine hmine hread hsession
    · cases hok

omit [DecidableEq Message] in
theorem settled_failed {reply : Tables Message → Threads.Reply Message}
    {result : Except ThreadError (Tables Message)} (h : ∀ t', result ≠ .ok t') :
    ∃ e, (settled t reply result).1 = .failed e := by
  cases result with
  | ok t' => exact absurd rfl (h t')
  | error e => exact ⟨e, rfl⟩

theorem perform_foreign {call : Call Message} (hinside : pointsInside call = true)
    (hforeign : scope.foreign t call = true) :
    ∃ e, (perform (scope.inward call) t).1 = .failed e := by
  cases call with
  | setBranchHead =>
    exact settled_failed (setBranchHead_foreign (of_decide_eq_true hforeign))
  | saveCheckpoint =>
    exact settled_failed (saveCheckpoint_foreign (of_decide_eq_true hforeign))
  | _ => cases hinside

theorem threads_of_foreign {call : Call Message} (hforeign : scope.foreign t call = true) :
    scope.threads call t = (refusal call, t) := by
  cases call with
  | getNode nodeId =>
    simp only [foreign] at hforeign
    cases hread : t.readNode nodeId with
    | none => simp [hread] at hforeign
    | some node =>
      have howns : scope.owns node.sessionId = false := by simpa [hread] using hforeign
      simp [threads, mine, hread, refusal, howns]
  | getCheckpoint checkpointId =>
    simp only [foreign] at hforeign
    cases hread : t.checkpoints.get? checkpointId with
    | none => simp [hread] at hforeign
    | some checkpoint =>
      have howns : scope.owns checkpoint.sessionId = false := by simpa [hread] using hforeign
      simp [threads, hread, refusal, howns]
  | ensureBranch sessionId branchId head createdAt =>
    cases head with
    | none => cases hforeign
    | some head =>
      have hmine : scope.mine t head = none := of_decide_eq_true hforeign
      simp only [threads, hmine, if_true, refusal]
  | setBranchHead sessionId branchId newHeadId =>
    have hmine : scope.mine t newHeadId = none := of_decide_eq_true hforeign
    simp only [threads, hmine, if_true, refusal]
  | saveCheckpoint checkpoint =>
    have hmine : scope.mine t checkpoint.anchorMessageId = none := of_decide_eq_true hforeign
    simp only [threads, hmine, if_true, refusal]
  | _ => cases hforeign

theorem threads_of_own {call : Call Message} (hgiven : expectsNoHead call = false)
    (hown : scope.foreign t call = false) :
    scope.threads call t = scope.forward (scope.inward call) t := by
  cases call with
  | getNode nodeId =>
    simp only [foreign] at hown
    cases hread : t.readNode nodeId with
    | none => simp [threads, mine, forward, inward, perform, replyOut, hread]
    | some node =>
      have howns : scope.owns node.sessionId = true := by simpa [hread] using hown
      simp [threads, mine, forward, inward, perform, replyOut, hread, howns]
  | getCheckpoint checkpointId =>
    simp only [foreign] at hown
    cases hread : t.checkpoints.get? checkpointId with
    | none => simp [threads, forward, inward, perform, replyOut, hread]
    | some checkpoint =>
      have howns : scope.owns checkpoint.sessionId = true := by simpa [hread] using hown
      simp [threads, forward, inward, perform, replyOut, hread, howns]
  | ensureBranch sessionId branchId head createdAt =>
    cases head with
    | none => rfl
    | some head =>
      have hmine : scope.mine t head ≠ none := of_decide_eq_false hown
      simp only [threads, hmine, if_false, inward]
  | setBranchHead sessionId branchId newHeadId expectedHeadId expectedVersion =>
    have hmine : scope.mine t newHeadId ≠ none := of_decide_eq_false hown
    have hpassed : passed expectedHeadId = expectedHeadId := by
      apply passed_of_given
      rintro rfl
      cases hgiven
    simp only [threads, hmine, if_false, inward, hpassed]
  | appendAndAdvance node branchId expectedHeadId expectedVersion createdAt =>
    have hpassed : passed expectedHeadId = expectedHeadId := by
      apply passed_of_given
      rintro rfl
      cases hgiven
    simp only [threads, inward, hpassed]
  | saveCheckpoint checkpoint =>
    have hmine : scope.mine t checkpoint.anchorMessageId ≠ none := of_decide_eq_false hown
    simp only [threads, hmine, if_false, inward]
  | _ => rfl

/-- A call that does not expect the branch to have no head replies what the inner store
replies under the renamed sessions, and leaves what that leaves; only where it names an
id that is not the tenant's is it refused and nothing changed, and where that is a head
to move to or an anchor the inner store refuses it too. -/
theorem bound_is_store (scope : Scope) (t : Tables Message) (call : Call Message)
    (hgiven : expectsNoHead call = false) :
    (scope.foreign t call = false → scope.threads call t = scope.forward (scope.inward call) t) ∧
    (scope.foreign t call = true → scope.threads call t = (refusal call, t) ∧
        (pointsInside call = true → ∃ e, (perform (scope.inward call) t).1 = .failed e)) := by
  constructor
  · exact threads_of_own hgiven
  · intro hforeign
    constructor
    · exact threads_of_foreign hforeign
    · intro hinside
      exact perform_foreign hinside hforeign

def acme : Scope := ⟨"acme", by decide⟩

theorem bound_is_store_append :
    let call : Call Unit :=
      .appendAndAdvance ⟨"n", none, "s", "r", (), none, "t"⟩ "main" none (some 0) "t"
    acme.threads call .empty = acme.forward (acme.inward call) .empty :=
  (bound_is_store acme .empty _ rfl).1 rfl

/-- The store makes a branch with any head; a handle of it does not. -/
theorem unknown_head_refused :
    let call : Call Unit := .ensureBranch "s" "main" (some "n") "t"
    (∃ e, (acme.threads call .empty).1 = .failed e) ∧
      ∃ branch, (acme.forward (acme.inward call) .empty).1 = .branch (some branch) := by
  constructor
  · exact ⟨notOfScope "n", rfl⟩
  · simp only [forward, inward, perform, settled, Tables.branchReply, Tables.readBranch,
      ensureBranch, Tables.insertBranch, Tables.empty, Lib.Table.get?_insert, replyOut]
    exact ⟨_, rfl⟩

end Scope

end Substrate.Scoping
