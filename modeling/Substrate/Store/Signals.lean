import Substrate.Store.Wakeup

/-!
The signal buffer, read as one queue for each run and name. `signal` appends to
a queue unless the run has ended, `consume` takes from its front, and ending a
run empties its queues; nothing else touches them. A claim, once made, answers
its id for good: no call overwrites or deletes one.
-/

namespace Substrate.Store

open Lib List Bool

def buffered (s : Store) (runId : RunId) (name : String) : List JsonObject :=
  (s.signals.filter fun row => row.runId = runId && row.name = name).map (·.payload)

theorem childSignal_injective : Function.Injective childSignal := by
  intro a b h
  have hchars := congrArg String.toList h
  unfold childSignal at hchars
  rw [String.toList_append, String.toList_append] at hchars
  exact String.toList_inj.mp (append_cancel_left hchars)

variable {α : Type}

private theorem filter_of_find {p : α → Bool} {items : List α} {a : α}
    (hfound : items.find? p = some a) : items.filter p = a :: (items.eraseP p).filter p := by
  induction items with
  | nil => cases hfound
  | cons first rest ih =>
    by_cases hmatch : p first = true
    · rw [List.find?_cons_of_pos hmatch] at hfound
      cases hfound
      rw [eraseP_cons_of_pos hmatch, filter_cons_of_pos hmatch]
    · rw [List.find?_cons_of_neg hmatch] at hfound
      rw [eraseP_cons_of_neg hmatch, filter_cons_of_neg hmatch,
        filter_cons_of_neg hmatch, ih hfound]

private theorem filter_eraseP_of_disjoint {p q : α → Bool}
    (hdisjoint : ∀ a, p a = true → q a = false) (items : List α) :
    (items.eraseP p).filter q = items.filter q := by
  induction items with
  | nil => rfl
  | cons first rest ih =>
    by_cases hmatch : p first = true
    · have hskip : ¬ q first = true := by simp [hdisjoint first hmatch]
      rw [eraseP_cons_of_pos hmatch, filter_cons_of_neg hskip]
    · rw [eraseP_cons_of_neg hmatch]
      simp only [filter_cons, ih]

section Queues

variable {s s' : Store} {runId : RunId} {name : String}

theorem buffered_congr (h : s'.signals = s.signals) :
    s'.buffered runId name = s.buffered runId name := by
  unfold buffered
  rw [h]

theorem buffered_bufferSignal_self (s : Store) (runId : RunId) (name : String)
    (payload : JsonObject) :
    (s.bufferSignal runId name payload).buffered runId name =
      s.buffered runId name ++ [payload] := by
  simp [buffered, bufferSignal, filter_append]

variable {other : RunId} {otherName : String} {how : Ending}

theorem buffered_bufferSignal_other (payload : JsonObject)
    (hother : ¬ (other = runId ∧ otherName = name)) :
    (s.bufferSignal other otherName payload).buffered runId name = s.buffered runId name := by
  have hskip : (decide (other = runId) && decide (otherName = name)) = false := by
    simpa using hother
  simp [buffered, bufferSignal, filter_append, hskip]

theorem buffered_signal_other (payload : JsonObject)
    (hother : ¬ (other = runId ∧ otherName = name)) :
    (s.signal other otherName payload).1.buffered runId name = s.buffered runId name := by
  have hbuffer := buffered_bufferSignal_other (s := s) payload hother
  rcases signal_cases s other otherName payload with h | h | h
  · rw [h]
  · rw [h, hbuffer]
  · rw [h]
    exact hbuffer

theorem buffered_signal_open (hopen : ¬ Ended s runId) (payload : JsonObject) :
    (s.signal runId name payload).1.buffered runId name = s.buffered runId name ++ [payload] := by
  have hbuffer := buffered_bufferSignal_self s runId name payload
  unfold signal
  cases hrow : s.runs.get? runId with
  | none => exact hbuffer
  | some row =>
    have hstatus : ¬ row.status.isTerminal = true := fun hended => hopen ⟨row, hrow, hended⟩
    simp only
    rw [if_neg hstatus]
    split <;> exact hbuffer

theorem buffered_dropSignals_other (hne : other ≠ runId) :
    (s.dropSignals other).buffered runId name = s.buffered runId name := by
  unfold buffered dropSignals
  simp only [List.filter_filter]
  congr 1
  apply List.filter_congr
  intro row _
  by_cases hrun : row.runId = runId
  · simp [hrun, Ne.symm hne]
  · simp [hrun]

theorem buffered_close_other {env : TxEnv} (hne : other ≠ runId) :
    (s.close env other how).buffered runId name = s.buffered runId name := by
  unfold close
  rw [buffered_dropSignals_other hne]
  exact buffered_congr (append_signals s env other how.entry)

theorem buffered_reportEnd_other {child : RunId} {row : RunRow} (hne : other ≠ child) :
    (s.reportEnd other row how).buffered runId (childSignal child) =
      s.buffered runId (childSignal child) := by
  unfold reportEnd
  split
  · exact buffered_signal_other _ fun hsame => hne (childSignal_injective hsame.2)
  · rfl

theorem find_signal_none :
    (s.signals.find? fun row => row.runId = runId && row.name = name) = none ↔
      s.buffered runId name = [] := by
  rw [List.find?_eq_none, buffered, map_eq_nil_iff, filter_eq_nil_iff]

theorem buffered_claimSignal_self {row : SignalRow} (claimId : String)
    (hfound : (s.signals.find? fun row => row.runId = runId && row.name = name) = some row) :
    s.buffered runId name =
      row.payload :: (s.claimSignal runId name claimId row.payload).buffered runId name := by
  unfold buffered claimSignal
  rw [filter_of_find hfound]
  rfl

theorem buffered_claimSignal_other {claimId : String} {payload : JsonObject}
    (hother : ¬ (other = runId ∧ otherName = name)) :
    (s.claimSignal other otherName claimId payload).buffered runId name =
      s.buffered runId name := by
  unfold buffered claimSignal
  simp only
  congr 1
  apply filter_eraseP_of_disjoint
  intro row htaken
  simp only [and_eq_true, decide_eq_true_eq] at htaken
  by_contra hkept
  simp only [not_eq_false, and_eq_true, decide_eq_true_eq] at hkept
  exact hother ⟨htaken.1.symm.trans hkept.1, htaken.2.symm.trans hkept.2⟩

theorem consume_spec (s : Store) (runId : RunId) (name claimId : String) :
    (∃ payload, s.claims.get? claimId = some payload ∧
        s.consume runId name claimId = (s, some payload)) ∨
      (s.claims.get? claimId = none ∧ s.buffered runId name = [] ∧
        s.consume runId name claimId = (s, none)) ∨
      ∃ payload rest, s.claims.get? claimId = none ∧ s.buffered runId name = payload :: rest ∧
        s.consume runId name claimId = (s.claimSignal runId name claimId payload, some payload) ∧
        (s.claimSignal runId name claimId payload).buffered runId name = rest := by
  unfold consume
  cases hclaim : s.claims.get? claimId with
  | some payload => exact .inl ⟨payload, rfl, rfl⟩
  | none =>
    cases hfound : s.signals.find? fun row => row.runId = runId && row.name = name with
    | none => exact .inr (.inl ⟨rfl, find_signal_none.mp hfound, rfl⟩)
    | some row =>
      exact .inr (.inr ⟨row.payload, _, rfl,
        buffered_claimSignal_self claimId hfound, rfl, rfl⟩)

end Queues

theorem signals_kept (m : Move) (s : Store)
    (hsignal : ∀ runId name payload, m ≠ .signal runId name payload)
    (hfinish : ∀ env runId read how, m ≠ .finish env runId read how)
    (hclaim : ∀ runId name claimId payload, m ≠ .claimSignal runId name claimId payload) :
    (m.apply s).signals = s.signals := by
  cases m with
  | signal runId name payload => exact absurd rfl (hsignal runId name payload)
  | finish env runId read how => exact absurd rfl (hfinish env runId read how)
  | claimSignal runId name claimId payload => exact absurd rfl (hclaim runId name claimId payload)
  | nack env agent failure => exact nack_signals env agent s failure
  | suspend env runId wake =>
    change (s.suspend env runId wake).1.signals = s.signals
    unfold suspend
    simp only
    split <;> rfl
  | _ => rfl

variable {s : Store} {claimId : String} {payload : JsonObject}

theorem claims_kept (m : Move) (hclaim : s.claims.get? claimId = some payload) :
    (m.apply s).claims.get? claimId = some payload := by
  have hsignal : ∀ (t : Store) runId name payload,
      (t.signal runId name payload).1.claims = t.claims := by
    intro t runId name payload
    rcases signal_cases t runId name payload with h | h | h <;> rw [h] <;> rfl
  cases m with
  | claimSignal runId name other taken =>
    change (s.claims.insert other taken).get? claimId = some payload
    rw [Table.get?_insert]
    by_cases hsame : claimId = other
    · subst hsame
      simp [hclaim]
    · simp [hsame, hclaim]
  | signal runId name sent =>
    change (s.signal runId name sent).1.claims.get? claimId = some payload
    rw [hsignal, hclaim]
  | nack env agent failure =>
    change (nack env agent s failure).claims.get? claimId = some payload
    unfold nack
    split
    · exact hclaim
    · simp only
      split <;> exact hclaim
  | finish env runId read how =>
    have hclose : (s.close env runId how).claims = s.claims := by
      unfold close append
      split
      · rfl
      · cases how.entry.spend <;> rfl
    change ((s.close env runId how).reportEnd runId read how).claims.get? claimId = _
    unfold reportEnd
    split
    · rw [hsignal, hclose, hclaim]
    · rw [hclose, hclaim]
  | suspend env runId wake =>
    change (s.suspend env runId wake).1.claims.get? claimId = some payload
    unfold suspend
    simp only
    split <;> exact hclaim
  | _ => exact hclaim

private theorem erase_claims (s : Store) (tenant : Tenant) (threadId : Option String)
    (agent : Option Address) (channels : List String) :
    (s.erase tenant threadId agent channels).claims = s.claims := by
  have hmail : ∀ (t : Store) address, (dropMail t address).claims = t.claims := by
    intro t address
    unfold dropMail
    split <;> rfl
  have hlinks : ∀ (t : Store) (row : RunId × RunRow),
      ((t.forgetRun row.1).forgetLinks row.1).claims = t.claims := fun _ _ => rfl
  unfold erase
  simp only
  rw [foldl_keeps (fun t : Store => t.claims) hmail]
  cases agent <;> simp only [dropSpend, dropAccounts] <;> split <;>
    exact foldl_keeps (fun t : Store => t.claims) hlinks _ s

private theorem prune_claims (s : Store) (before : Time) : (s.prune before).claims = s.claims := by
  have hturn : ∀ (t : Store) (row : RunId × RunRow), (t.dropRun row.1).claims = t.claims :=
    fun _ _ => rfl
  exact foldl_keeps (fun t : Store => t.claims) hturn _ _

theorem claims_exec (call : Call) (hclaim : s.claims.get? claimId = some payload) :
    (exec call s).claims.get? claimId = some payload := by
  cases hrun : s.perform call.env call.op with
  | error e => rwa [exec_error hrun]
  | ok s' =>
    rw [exec_ok hrun]
    cases hdeletes : call.op.deletes with
    | false =>
      exact Steps.invariant (P := fun t => t.claims.get? claimId = some payload)
        (fun _ m ht _ => claims_kept m ht) (perform_moves_any hdeletes hrun) hclaim
    | true =>
      obtain ⟨env, op⟩ := call
      cases op with
      | erase tenant threadId agent channels =>
        cases hrun
        rwa [erase_claims]
      | prune before =>
        cases hrun
        rwa [prune_claims]
      | _ => cases hdeletes

theorem claims_calls {s' : Store} (h : Calls s s') (hclaim : s.claims.get? claimId = some payload) :
    s'.claims.get? claimId = some payload :=
  Steps.invariant (P := fun t => t.claims.get? claimId = some payload)
    (fun _ call ht _ => claims_exec call ht) h hclaim

/-- Whoever asks under the claim id is given the answer that was given, and takes nothing. -/
def KeepsAnswer (claimId : String) (answer : Option JsonObject) (s : Store) : Prop :=
  ∀ payload, answer = some payload →
    ∀ runId name, s.consume runId name claimId = (s, some payload)

theorem answers_kept (s : Store) (runId : RunId) (name claimId : String) (calls : List Call) :
    KeepsAnswer claimId (s.consume runId name claimId).2
      (execAll calls (s.consume runId name claimId).1) := by
  intro payload hanswer other name'
  have hclaim : (s.consume runId name claimId).1.claims.get? claimId = some payload := by
    rcases consume_spec s runId name claimId with
      ⟨found, hfound, hconsume⟩ | ⟨-, -, hconsume⟩ | ⟨found, rest, hnone, -, hconsume, -⟩ <;>
      rw [hconsume] at hanswer ⊢ <;> cases hanswer
    · exact hfound
    · exact (Lib.Table.get?_insert_of_none hnone).trans (if_pos rfl)
  rw [consume, claims_calls (calls_execAll calls _) hclaim]

end Substrate.Store
