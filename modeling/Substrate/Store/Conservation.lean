import Substrate.Store.Erase
import Substrate.Store.Mail

/-!
Where a message is. A message known by its agent and its id is pending, acknowledged or
dead-lettered, and the three tables that say so agree: each row is there once, and no two
tables claim the message.
-/

namespace Substrate.Store

open Lib List

def pendingCount (s : Store) (agent : Address) (msgId : String) : Nat :=
  s.inbox.countP fun row => row.agent = agent && row.msg.id = msgId

def letterCount (s : Store) (agent : Address) (msgId : String) : Nat :=
  s.deadLetters.countP fun row => row.agent = agent && row.msg.id = msgId

def recorded (s : Store) (agent : Address) (msgId : String) : Bool :=
  (s.processed.get? (agent, msgId)).isSome

inductive Place where
  | unknown
  | pending
  | acknowledged
  | dead
  deriving DecidableEq, Repr

namespace Place

def rows : Place → Nat × Bool × Nat
  | unknown => (0, false, 0)
  | pending => (1, false, 0)
  | acknowledged => (0, true, 0)
  | dead => (0, true, 1)

theorem rows_injective : Function.Injective rows := by
  intro a b h
  cases a <;> cases b <;> first | rfl | cases h

/-- The steps a transaction takes without redriving. -/
def Leads (place place' : Place) : Prop :=
  place = place' ∨ place = unknown ∨ place = pending ∧ place' ≠ unknown

variable {a b : Place}

theorem Leads.trans {c : Place} (h : Leads a b) (h' : Leads b c) : Leads a c := by
  rcases h with rfl | rfl | ⟨rfl, hb⟩
  · exact h'
  · exact .inr (.inl rfl)
  · rcases h' with rfl | rfl | ⟨rfl, hc⟩
    · exact .inr (.inr ⟨rfl, hb⟩)
    · exact absurd rfl hb
    · exact .inr (.inr ⟨rfl, hc⟩)

theorem Leads.known (h : Leads a b) (ha : a ≠ unknown) : b ≠ unknown := by
  rcases h with rfl | rfl | ⟨_, hb⟩
  · exact ha
  · exact absurd rfl ha
  · exact hb

end Place

/-- The three tables agree that the message is at this place. -/
def Holds (s : Store) (agent : Address) (msgId : String) (place : Place) : Prop :=
  (s.pendingCount agent msgId, s.recorded agent msgId, s.letterCount agent msgId) = place.rows

instance (s : Store) (agent : Address) (msgId : String) (place : Place) :
    Decidable (s.Holds agent msgId place) :=
  inferInstanceAs (Decidable (_ = _))

variable {s : Store} {agent : Address} {msgId : String} {place : Place}

theorem Holds.unique {place' : Place} (h : s.Holds agent msgId place)
    (h' : s.Holds agent msgId place') : place = place' :=
  Place.rows_injective (h.symm.trans h')

theorem Holds.same {s' : Store} (h : s.Holds agent msgId place)
    (hpending : s'.pendingCount agent msgId = s.pendingCount agent msgId)
    (hrecorded : s'.recorded agent msgId = s.recorded agent msgId)
    (hletters : s'.letterCount agent msgId = s.letterCount agent msgId) :
    s'.Holds agent msgId place := by
  unfold Holds
  rw [hpending, hrecorded, hletters]
  exact h

theorem holds_init (agent : Address) (msgId : String) : init.Holds agent msgId .unknown := rfl

theorem hasMail_pending : s.hasMail agent msgId = true ↔ 0 < s.pendingCount agent msgId := by
  unfold hasMail pendingCount
  rw [countP_pos_iff, any_eq_true]

theorem hasMail_none : s.hasMail agent msgId = false ↔ s.pendingCount agent msgId = 0 := by
  rw [← Bool.not_eq_true, hasMail_pending]
  omega

theorem Holds.refused (h : s.Holds agent msgId place) (hknown : place ≠ .unknown) (env : TxEnv)
    {delivery : Delivery} (hagent : delivery.agent = agent) (hid : delivery.msg.id = msgId)
    (wake : Bool) : s.deliver env delivery wake = .ok (s, { accepted := false }) := by
  subst hagent hid
  unfold deliver
  cases hmail : s.hasMail delivery.agent delivery.msg.id with
  | true => rfl
  | false =>
    have hrecorded : s.recorded delivery.agent delivery.msg.id = true := by
      have hnone := hasMail_none.mp hmail
      cases place with
      | unknown => exact absurd rfl hknown
      | pending =>
        have hone := congrArg Prod.fst h
        simp only [hnone, Place.rows] at hone
        omega
      | acknowledged | dead => exact congrArg (·.2.1) h
    unfold recorded at hrecorded
    rw [hrecorded]
    rfl

theorem mail_kept (m : Move) (s : Store) (hmail : ∀ delivery, m ≠ .insertMail delivery)
    (hack : ∀ env agent msgId, m ≠ .ack env agent msgId)
    (hnack : ∀ env agent failure, m ≠ .nack env agent failure)
    (hforget : ∀ agent msgId, m ≠ .forgetDeadLetter agent msgId) :
    (m.apply s).processed = s.processed ∧ (m.apply s).deadLetters = s.deadLetters := by
  by_cases hruns : m.ofRuns = true
  · obtain ⟨runs, wake, events, signals, hshape⟩ := apply_ofRuns hruns s
    rw [hshape]
    exact ⟨rfl, rfl⟩
  cases m with
  | insertMail delivery => exact absurd rfl (hmail delivery)
  | ack env agent msgId => exact absurd rfl (hack env agent msgId)
  | nack env agent failure => exact absurd rfl (hnack env agent failure)
  | forgetDeadLetter agent msgId => exact absurd rfl (hforget agent msgId)
  | charge | insertRow | recordSpawn | claimSignal | accountLimit => exact ⟨rfl, rfl⟩
  | _ => exact absurd rfl hruns

section Statements

variable {s : Store} {env : TxEnv} {agent other : Address} {msgId otherId : String}
  {place : Place}

private theorem ack_pending : (ackOne env agent s msgId).pendingCount agent msgId = 0 := by
  unfold pendingCount ackOne
  rw [countP_filter, countP_eq_zero]
  intro row _ hrow
  rw [Bool.and_eq_true, Bool.not_eq_true'] at hrow
  rw [hrow.1] at hrow
  cases hrow.2

private theorem ack_recorded : (ackOne env agent s msgId).recorded agent msgId = true := by
  unfold recorded ackOne
  rw [Table.get?_insert, if_pos rfl]
  rfl

private theorem ack_other (hne : ¬ (other = agent ∧ otherId = msgId)) :
    (ackOne env agent s msgId).pendingCount other otherId = s.pendingCount other otherId ∧
      (ackOne env agent s msgId).recorded other otherId = s.recorded other otherId := by
  constructor
  · unfold pendingCount ackOne
    rw [countP_filter]
    apply countP_congr
    intro row _
    constructor
    · intro hrow
      rw [Bool.and_eq_true] at hrow
      exact hrow.1
    · intro hrow
      rw [hrow, Bool.true_and]
      simp only [Bool.and_eq_true, decide_eq_true_eq] at hrow
      obtain ⟨rfl, rfl⟩ := hrow
      rw [Bool.not_eq_true', ← Bool.not_eq_true, Bool.and_eq_true, decide_eq_true_eq,
        decide_eq_true_eq]
      exact hne
  · unfold recorded ackOne
    rw [Table.get?_insert, if_neg]
    intro hkey
    exact hne (Prod.mk.inj hkey)

private theorem ack_leads (h : s.Holds other otherId place) :
    ∃ place', (ackOne env agent s msgId).Holds other otherId place' ∧ place.Leads place' := by
  by_cases hsame : other = agent ∧ otherId = msgId
  · obtain ⟨rfl, rfl⟩ := hsame
    have hletters : (ackOne env other s otherId).letterCount other otherId =
        s.letterCount other otherId := rfl
    have hcount := congrArg (·.2.2) h
    simp only at hcount
    unfold Holds
    rw [ack_pending, ack_recorded, hletters, hcount]
    cases place with
    | unknown => exact ⟨.acknowledged, rfl, .inr (.inl rfl)⟩
    | pending => exact ⟨.acknowledged, rfl, .inr (.inr ⟨rfl, by simp⟩)⟩
    | acknowledged => exact ⟨.acknowledged, rfl, .inl rfl⟩
    | dead => exact ⟨.dead, rfl, .inl rfl⟩
  · obtain ⟨hpending, hrecorded⟩ := @ack_other s env _ _ _ _ hsame
    exact ⟨place, h.same hpending hrecorded rfl, .inl rfl⟩

private theorem insert_leads {delivery : Delivery}
    (hfree : s.hasMail delivery.agent delivery.msg.id = false)
    (hnew : s.processed.get? (delivery.agent, delivery.msg.id) = none)
    (h : s.Holds other otherId place) :
    ∃ place', (s.insertMail delivery).Holds other otherId place' ∧
      (place' = place ∨ place = .unknown ∧ place' = .pending) ∧
      (other = delivery.agent → otherId = delivery.msg.id → place' = .pending) := by
  have hcount : (s.insertMail delivery).pendingCount other otherId = s.pendingCount other otherId +
        if other = delivery.agent ∧ otherId = delivery.msg.id then 1 else 0 := by
    unfold pendingCount insertMail
    rw [countP_append, countP_singleton]
    simp only [Bool.and_eq_true, decide_eq_true_eq, eq_comm (a := other), eq_comm (a := otherId)]
  by_cases hsame : other = delivery.agent ∧ otherId = delivery.msg.id
  · obtain ⟨rfl, rfl⟩ := hsame
    have hplace : place = .unknown := by
      have hrecorded : s.recorded delivery.agent delivery.msg.id = false := by
        unfold recorded
        rw [hnew]
        rfl
      have hzero := hasMail_none.mp hfree
      unfold Holds at h
      rw [hrecorded, hzero] at h
      cases place with
      | unknown => rfl
      | pending | acknowledged | dead => cases h
    subst hplace
    refine ⟨.pending, ?_, .inr ⟨rfl, rfl⟩, fun _ _ => rfl⟩
    have hrest := (Prod.mk.inj h).2
    unfold Holds
    rw [hcount, if_pos ⟨rfl, rfl⟩, hasMail_none.mp hfree]
    exact Prod.ext rfl hrest
  · refine ⟨place, ?_, .inl rfl, fun hagent hid => absurd ⟨hagent, hid⟩ hsame⟩
    unfold Holds
    rw [hcount, if_neg hsame]
    exact h

private theorem nack_leads {failure : Nack} (h : s.Holds other otherId place) :
    ∃ place', (nack env agent s failure).Holds other otherId place' ∧ place.Leads place' := by
  unfold nack
  cases hfind : s.inbox.find? fun row =>
      row.agent = agent && row.msg.id = failure.msgId with
  | none => exact ⟨place, h, .inl rfl⟩
  | some row =>
    simp only
    split
    · refine ⟨place, h.same ?_ rfl rfl, .inl rfl⟩
      change List.countP _ (s.inbox.map _) = s.inbox.countP _
      rw [countP_map]
      refine countP_congr fun old _ => ?_
      simp only [Function.comp_apply]
      split <;> rfl
    · have hmatch := List.find?_some hfind
      have hid : row.msg.id = failure.msgId := by
        simp only [Bool.and_eq_true, decide_eq_true_eq] at hmatch
        exact hmatch.2
      by_cases hsame : other = agent ∧ otherId = failure.msgId
      · obtain ⟨rfl, rfl⟩ := hsame
        have hpending : 0 < s.pendingCount other failure.msgId := by
          refine hasMail_pending.mp ?_
          unfold hasMail
          rw [any_eq_true]
          exact ⟨row, mem_of_find?_eq_some hfind, hmatch⟩
        have hplace : place = .pending := by
          have hcount := congrArg Prod.fst h
          simp only at hcount
          cases place with
          | pending => rfl
          | unknown | acknowledged | dead =>
            rw [hcount] at hpending
            exact absurd hpending (Nat.lt_irrefl 0)
        subst hplace
        refine ⟨.dead, ?_, .inr (.inr ⟨rfl, by simp⟩)⟩
        have hletters := congrArg (·.2.2) h
        simp only at hletters
        unfold Holds
        rw [ack_pending, ack_recorded]
        refine Prod.ext rfl (Prod.ext rfl ?_)
        change List.countP _ (s.deadLetters ++ [_]) = 1
        rw [countP_append, countP_singleton]
        change s.letterCount other failure.msgId + _ = 1
        rw [hletters]
        simp [hid, Place.rows]
      · obtain ⟨hpending, hrecorded⟩ := @ack_other
          { s with deadLetters := s.deadLetters ++ [_] } env _ _ _ _ hsame
        refine ⟨place, h.same hpending hrecorded ?_, .inl rfl⟩
        change List.countP _ (s.deadLetters ++ [_]) = s.letterCount other otherId
        rw [countP_append, countP_singleton, if_neg]
        · rfl
        · simp only [Bool.and_eq_true, decide_eq_true_eq, hid]
          rintro ⟨rfl, rfl⟩
          exact hsame ⟨rfl, rfl⟩

private theorem forget_self (h : s.Holds agent msgId .dead) :
    (s.forgetDeadLetter agent msgId).Holds agent msgId .unknown := by
  have hcount : s.letterCount agent msgId = 1 := congrArg (·.2.2) h
  have hpending : s.pendingCount agent msgId = 0 := congrArg Prod.fst h
  have hrecorded : (s.forgetDeadLetter agent msgId).recorded agent msgId = false := by
    unfold recorded forgetDeadLetter
    rw [Table.get?_erase, if_pos rfl]
    rfl
  have hletters : (s.forgetDeadLetter agent msgId).letterCount agent msgId = 0 := by
    have hpos : 0 < s.letterCount agent msgId := by omega
    obtain ⟨letter, hmem, hmatch⟩ := countP_pos_iff.mp hpos
    obtain ⟨a, before, after, _, ha, hsplit, herase⟩ := exists_of_eraseP
      (p := fun row => row.agent = agent && row.msg.id = msgId) hmem hmatch
    unfold letterCount at hcount ⊢
    rw [hsplit, countP_append, countP_cons, if_pos ha] at hcount
    unfold forgetDeadLetter
    rw [herase, countP_append]
    omega
  unfold Holds
  rw [hrecorded, hletters]
  exact Prod.ext hpending rfl

private theorem forget_other (hne : ¬ (other = agent ∧ otherId = msgId))
    (h : s.Holds other otherId place) :
    (s.forgetDeadLetter agent msgId).Holds other otherId place := by
  refine h.same rfl ?_ ?_
  · unfold recorded forgetDeadLetter
    rw [Table.get?_erase, if_neg]
    intro hkey
    exact hne (Prod.mk.inj hkey)
  · unfold letterCount forgetDeadLetter
    rcases exists_or_eq_self_of_eraseP
        (fun row : DeadLetter => row.agent = agent && row.msg.id = msgId) s.deadLetters with
      hsame | ⟨a, before, after, _, ha, hsplit, herase⟩
    · rw [hsame]
    · rw [herase, hsplit, countP_append, countP_append, countP_cons_of_neg]
      simp only [Bool.and_eq_true, decide_eq_true_eq] at ha ⊢
      rintro ⟨hagent, hid⟩
      exact hne ⟨hagent.symm.trans ha.1, hid.symm.trans ha.2⟩

end Statements

section Transactions

variable {L : Licence} {may : Move → Prop} {s s' : Store} {agent : Address} {msgId : String}
  {place : Place}

private def quiet : Move → Bool
  | .ack .. | .nack .. | .forgetDeadLetter .. => false
  | _ => true

variable {m : Move} {env : TxEnv} {delivery : Delivery} {wake : Bool} {result : DeliverResult}

private theorem quiet_of_routine (h : m.routine = true) : quiet m = true := by
  cases m with
  | ack | nack | forgetDeadLetter => cases h
  | _ => rfl

private theorem quiet_holds (hok : m.Ok L s) (hquiet : quiet m = true)
    (h : s.Holds agent msgId place) :
    ∃ place', (m.apply s).Holds agent msgId place' ∧
      (place' = place ∨ place = .unknown ∧ place' = .pending) := by
  by_cases hmail : ∃ delivery, m = .insertMail delivery
  · obtain ⟨delivery, rfl⟩ := hmail
    obtain ⟨place', hplace', hstep, _⟩ := insert_leads hok.1 hok.2 h
    exact ⟨place', hplace', hstep⟩
  · simp only [not_exists] at hmail
    have hack : ∀ env other otherId, m ≠ .ack env other otherId := by
      rintro env other otherId rfl
      cases hquiet
    have hnack : ∀ env other failure, m ≠ .nack env other failure := by
      rintro env other failure rfl
      cases hquiet
    obtain ⟨hprocessed, hletters⟩ := mail_kept m s hmail hack hnack (by
      rintro other otherId rfl
      cases hquiet)
    refine ⟨place, h.same ?_ ?_ ?_, .inl rfl⟩
    · exact congrArg (List.countP _) (inbox_kept m s hmail hack hnack)
    · exact congrArg (fun t : Table (Address × String) Time =>
        (t.get? (agent, msgId)).isSome) hprocessed
    · exact congrArg (List.countP _) hletters

private theorem move_leads (hok : m.Ok L s)
    (hforget : ∀ other otherId, m ≠ .forgetDeadLetter other otherId)
    (h : s.Holds agent msgId place) :
    ∃ place', (m.apply s).Holds agent msgId place' ∧ place.Leads place' := by
  by_cases hquiet : quiet m = true
  · obtain ⟨place', hplace', hstep⟩ := quiet_holds hok hquiet h
    refine ⟨place', hplace', ?_⟩
    rcases hstep with rfl | ⟨rfl, rfl⟩
    · exact .inl rfl
    · exact .inr (.inl rfl)
  · cases m with
    | ack env other otherId => exact ack_leads h
    | nack env other failure => exact nack_leads h
    | forgetDeadLetter other otherId => exact absurd rfl (hforget other otherId)
    | _ => exact absurd rfl hquiet

private theorem moves_lead (h : MovesBy L may s s')
    (hmay : ∀ m, may m → ∀ other otherId, m ≠ .forgetDeadLetter other otherId)
    (hplace : s.Holds agent msgId place) :
    ∃ place', s'.Holds agent msgId place' ∧ place.Leads place' := by
  refine Steps.invariant
    (P := fun t => ∃ place', t.Holds agent msgId place' ∧ place.Leads place') ?_ h
    ⟨place, hplace, .inl rfl⟩
  rintro t m ⟨mid, hmid, hlead⟩ ⟨hok, hm⟩
  obtain ⟨last, hlast, hstep⟩ := move_leads hok (hmay m hm) hmid
  exact ⟨last, hlast, hlead.trans hstep⟩

private theorem routine_pending (h : RoutineMoves L s s')
    (hplace : s.Holds agent msgId .pending) : s'.Holds agent msgId .pending := by
  refine Steps.invariant (P := fun t => t.Holds agent msgId .pending) ?_ h hplace
  rintro t m hpending ⟨hok, _, hroutine⟩
  obtain ⟨place', hplace', hstep⟩ := quiet_holds hok (quiet_of_routine hroutine) hpending
  rcases hstep with rfl | ⟨hunknown, _⟩
  · exact hplace'
  · cases hunknown

private theorem deliver_accepted (h : s.deliver env delivery wake = .ok (s', result))
    (haccepted : result.accepted = true) :
    s.hasMail delivery.agent delivery.msg.id = false ∧
      s.processed.get? (delivery.agent, delivery.msg.id) = none ∧
      RoutineMoves L (s.insertMail delivery) s' := by
  unfold deliver at h
  split at h
  · cases h
    cases haccepted
  rename_i hmail
  split at h
  · cases h
    cases haccepted
  rename_i hprocessed
  refine ⟨Bool.eq_false_iff.mpr hmail, by simpa using hprocessed, ?_⟩
  split at h
  · exact (wakeAgent_free h).routine
  · cases h
    exact Steps.refl _

private theorem wakeAgent_accepted (h : s.wakeAgent env delivery = .ok (s', result)) :
    result.accepted = true := by
  unfold wakeAgent at h
  split at h
  · obtain ⟨⟨t, runId⟩, _, ht⟩ := bind_ok_iff.mp h
    cases ht
    rfl
  · split at h <;> cases h <;> rfl

private theorem unknown_accepted (hplace : s.Holds delivery.agent delivery.msg.id .unknown)
    (h : s.deliver env delivery wake = .ok (s', result)) : result.accepted = true := by
  have hfree : s.hasMail delivery.agent delivery.msg.id = false :=
    hasMail_none.mpr (congrArg Prod.fst hplace)
  have hnew : (s.processed.get? (delivery.agent, delivery.msg.id)).isSome = false :=
    congrArg (·.2.1) hplace
  unfold deliver at h
  simp only [hfree, hnew, if_false, Bool.false_eq_true] at h
  split at h
  · exact wakeAgent_accepted h
  · cases h
    rfl

theorem deliver_pending (hplace : s.Holds delivery.agent delivery.msg.id place)
    (h : s.deliver env delivery wake = .ok (s', result)) (haccepted : result.accepted = true) :
    s'.Holds delivery.agent delivery.msg.id .pending := by
  obtain ⟨hfree, hnew, hmoves⟩ := deliver_accepted (L := Licence.any) h haccepted
  obtain ⟨place', hplace', _, hown⟩ := insert_leads hfree hnew hplace
  rw [hown rfl rfl] at hplace'
  exact routine_pending hmoves hplace'

theorem redrive_pending (hplace : s.Holds agent msgId place)
    (h : s.redrive env agent msgId = .ok (s', true)) :
    place = .dead ∧ s'.Holds agent msgId .pending := by
  unfold redrive at h
  split at h
  · cases h
  · rename_i letter hletter
    have hmatch := List.find?_some hletter
    have hid : letter.msg.id = msgId := by
      simp only [Bool.and_eq_true, decide_eq_true_eq] at hmatch
      exact hmatch.2
    have hpos : 0 < s.letterCount agent msgId :=
      countP_pos_iff.mpr ⟨letter, mem_of_find?_eq_some hletter, hmatch⟩
    have hdead : place = .dead := by
      have hcount := congrArg (·.2.2) hplace
      simp only at hcount
      cases place with
      | dead => rfl
      | unknown | pending | acknowledged =>
        rw [hcount] at hpos
        exact absurd hpos (Nat.lt_irrefl 0)
    subst hdead
    refine ⟨rfl, ?_⟩
    have hforgotten := forget_self hplace
    obtain ⟨⟨t, result⟩, hdeliver, ht⟩ := bind_ok_iff.mp h
    cases ht
    subst hid
    exact deliver_pending hforgotten hdeliver (unknown_accepted hforgotten hdeliver)

theorem redrive_false (hplace : s.Holds agent msgId place)
    (h : s.redrive env agent msgId = .ok (s', false)) : s' = s ∧ place ≠ .dead := by
  unfold redrive at h
  split at h
  · rename_i hnone
    cases h
    refine ⟨rfl, ?_⟩
    rintro rfl
    have hone : s.letterCount agent msgId = 1 := congrArg (·.2.2) hplace
    have hzero : s.letterCount agent msgId = 0 :=
      countP_eq_zero.mpr fun row hrow => List.find?_eq_none.mp hnone row hrow
    omega
  · obtain ⟨⟨t, result⟩, _, ht⟩ := bind_ok_iff.mp h
    cases ht

private theorem redrive_other {other : Address} {otherId : String} {hit : Bool}
    (hne : ¬ (agent = other ∧ msgId = otherId)) (hplace : s.Holds agent msgId place)
    (h : s.redrive env other otherId = .ok (s', hit)) :
    ∃ place', s'.Holds agent msgId place' ∧ place.Leads place' := by
  rcases redrive_ok h with rfl | ⟨letter, result, _, hdeliver⟩
  · exact ⟨place, hplace, .inl rfl⟩
  · have hmoves : RoutineMoves Licence.any _ s' := deliver_moves hdeliver
    refine moves_lead hmoves ?_ (forget_other hne hplace)
    rintro m ⟨_, hroutine⟩ _ _ rfl
    cases hroutine

end Transactions

def Op.KeepsLetter (s : Store) (agent : Address) (msgId : String) : Op → Prop
  | .prune before => ∀ at', s.processed.get? (agent, msgId) = some at' → at' < before →
      s.letterCount agent msgId = 0
  | _ => True

/-- A call does not make the store forget a message: `prune` does with the ids
recorded before its date, `erase` with the mail of an address it leaves without
runs. -/
def Op.Remembers (s : Store) (agent : Address) (msgId : String) : Op → Prop
  | .prune before => ∀ at', s.processed.get? (agent, msgId) = some at' → before ≤ at'
  | .erase tenant threadId only _ => s.vacates tenant threadId only agent = false
  | _ => True

private theorem prune_mail (s : Store) (before : Time) :
    (s.prune before).inbox = s.inbox ∧ (s.prune before).deadLetters = s.deadLetters ∧
      (s.prune before).processed = s.processed.filter fun _ at' => !(at' < before) := by
  have hfold := fun rows (t : Store) =>
    foldl_keeps (fun u : Store => (u.inbox, u.deadLetters, u.processed))
      (fun (u : Store) (row : RunId × RunRow) =>
        (rfl : ((u.dropRun row.1).inbox, _, _) = (u.inbox, u.deadLetters, u.processed))) rows t
  have hsame := hfold (s.runs.rows.filter fun row => pruneMatch before row.2)
    { s with processed := s.processed.filter fun _ at' => !(at' < before) }
  exact ⟨congrArg Prod.fst hsame, congrArg (·.2.1) hsame, congrArg (·.2.2) hsame⟩

variable {s : Store} {agent : Address} {msgId : String} {place : Place} {call : Call}

private theorem prune_holds {before : Time} (hkeeps : (Op.prune before).KeepsLetter s agent msgId)
    (h : s.Holds agent msgId place) :
    ∃ place', (s.prune before).Holds agent msgId place' ∧
      (place ≠ .unknown → (Op.prune before).Remembers s agent msgId → place' ≠ .unknown) := by
  obtain ⟨hinbox, hdead, hprocessed⟩ := prune_mail s before
  have hpending : (s.prune before).pendingCount agent msgId = s.pendingCount agent msgId :=
    congrArg (List.countP _) hinbox
  have hletters : (s.prune before).letterCount agent msgId = s.letterCount agent msgId :=
    congrArg (List.countP _) hdead
  have hrecorded : (s.prune before).recorded agent msgId =
      ((s.processed.get? (agent, msgId)).filter fun at' => !(at' < before)).isSome := by
    unfold recorded
    rw [hprocessed, Table.get?_filter]
  cases hfound : s.processed.get? (agent, msgId) with
  | none =>
    refine ⟨place, h.same hpending ?_ hletters, fun hknown _ => hknown⟩
    unfold recorded at hrecorded ⊢
    rw [hrecorded, hfound]
    rfl
  | some at' =>
    by_cases hold : at' < before
    · have hnone := hkeeps at' hfound hold
      have hwas : s.recorded agent msgId = true := by
        unfold recorded
        rw [hfound]
        rfl
      have hplace : place = .acknowledged := by
        have hrest := congrArg Prod.snd h
        simp only [hwas, hnone] at hrest
        cases place with
        | acknowledged => rfl
        | unknown | pending | dead => cases hrest
      subst hplace
      refine ⟨.unknown, ?_, fun _ hremembers => ?_⟩
      · unfold Holds
        rw [hrecorded, hfound, hletters, hnone, hpending]
        have hzero : s.pendingCount agent msgId = 0 := congrArg Prod.fst h
        rw [hzero]
        simp [hold, Place.rows]
      · exact absurd (hremembers at' hfound) (Int.not_le.mpr hold)
    · refine ⟨place, h.same hpending ?_ hletters, fun hknown _ => hknown⟩
      rw [hrecorded, hfound]
      unfold recorded
      rw [hfound]
      simp [hold]

private theorem erase_holds {tenant : Tenant} {threadId : Option String} {only : Option Address}
    {channels : List String} (h : s.Holds agent msgId place) :
    ∃ place', (s.erase tenant threadId only channels).Holds agent msgId place' ∧
      (place ≠ .unknown → s.vacates tenant threadId only agent = false → place' ≠ .unknown) := by
  have herased := erase_tables s tenant threadId only channels
  have hrecorded : (s.erase tenant threadId only channels).recorded agent msgId =
      (!s.vacates tenant threadId only agent && s.recorded agent msgId) := by
    unfold recorded
    rw [herased.processed, Table.get?_filter]
    cases s.processed.get? (agent, msgId) <;> cases s.vacates tenant threadId only agent <;> rfl
  cases hvacates : s.vacates tenant threadId only agent with
  | true =>
    refine ⟨.unknown, ?_, fun _ hkept => by cases hkept⟩
    have hpending : (s.erase tenant threadId only channels).pendingCount agent msgId = 0 := by
      unfold pendingCount
      rw [herased.inbox, countP_filter, countP_eq_zero]
      intro row _ hrow
      simp only [Bool.and_eq_true, decide_eq_true_eq] at hrow
      rw [hrow.1.1, hvacates] at hrow
      cases hrow.2
    have hletters : (s.erase tenant threadId only channels).letterCount agent msgId = 0 := by
      unfold letterCount
      rw [herased.deadLetters, countP_filter, countP_eq_zero]
      intro row _ hrow
      simp only [Bool.and_eq_true, decide_eq_true_eq] at hrow
      rw [hrow.1.1, hvacates] at hrow
      cases hrow.2
    unfold Holds
    rw [hpending, hrecorded, hletters, hvacates]
    rfl
  | false =>
    refine ⟨place, h.same ?_ ?_ ?_, fun hknown _ => hknown⟩
    · unfold pendingCount
      rw [herased.inbox, countP_filter]
      refine countP_congr fun row _ => ?_
      simp only [Bool.and_eq_true, decide_eq_true_eq, Bool.not_eq_true']
      constructor
      · exact fun hrow => hrow.1
      · rintro ⟨rfl, hid⟩
        exact ⟨⟨rfl, hid⟩, hvacates⟩
    · rw [hrecorded, hvacates]
      rfl
    · unfold letterCount
      rw [herased.deadLetters, countP_filter]
      refine countP_congr fun row _ => ?_
      simp only [Bool.and_eq_true, decide_eq_true_eq, Bool.not_eq_true']
      constructor
      · exact fun hrow => hrow.1
      · rintro ⟨rfl, hid⟩
        exact ⟨⟨rfl, hid⟩, hvacates⟩

theorem exec_holds (hkeeps : call.op.KeepsLetter s agent msgId) (h : s.Holds agent msgId place) :
    ∃ place', (exec call s).Holds agent msgId place' ∧
      (place ≠ .unknown → call.op.Remembers s agent msgId → place' ≠ .unknown) := by
  have hlead : ∀ {t : Store}, (∃ place', t.Holds agent msgId place' ∧ place.Leads place') →
      ∃ place', t.Holds agent msgId place' ∧
        (place ≠ .unknown → call.op.Remembers s agent msgId → place' ≠ .unknown) := by
    rintro t ⟨place', hplace', hstep⟩
    exact ⟨place', hplace', fun hknown _ => hstep.known hknown⟩
  cases hrun : s.perform call.env call.op with
  | error e =>
    rw [exec_error hrun]
    exact hlead ⟨place, h, .inl rfl⟩
  | ok s' =>
    rw [exec_ok hrun]
    obtain ⟨env, op⟩ := call
    cases op with
    | prune before =>
      cases hrun
      exact prune_holds hkeeps h
    | erase tenant threadId only channels =>
      cases hrun
      exact erase_holds h
    | redrive other otherId =>
      obtain ⟨⟨t, hit⟩, hredrive, ht⟩ := bind_ok_iff.mp hrun
      cases ht
      by_cases hsame : agent = other ∧ msgId = otherId
      · obtain ⟨rfl, rfl⟩ := hsame
        cases hit with
        | true =>
          exact ⟨.pending, (redrive_pending h hredrive).2, fun _ _ => by simp⟩
        | false =>
          rw [(redrive_false h hredrive).1]
          exact hlead ⟨place, h, .inl rfl⟩
      · exact hlead (redrive_other hsame h hredrive)
    | _ =>
      have hmoves := perform_asked (by rfl) hrun
      refine hlead (moves_lead hmoves ?_ h)
      rintro m hasks other otherId rfl
      rcases hasks with hroutine | hrequest
      · cases hroutine
      · cases hrequest

/-- What becomes of a message: it is at one place, pending when it is accepted,
and from then on at a known place and refused. A redrive takes it from the dead
letters to the inbox. -/
structure Conserved (s : Store) (agent : Address) (msgId : String) : Prop where
  placed : ∃ place, s.Holds agent msgId place
  accepted : ∀ env (delivery : Delivery) wake s' result, delivery.agent = agent →
    delivery.msg.id = msgId → s.deliver env delivery wake = .ok (s', result) →
    result.accepted = true → s'.Holds agent msgId .pending
  kept : ∀ place, s.Holds agent msgId place → place ≠ .unknown →
    ∀ t, Steps exec (fun u call => call.op.KeepsLetter u agent msgId ∧
        call.op.Remembers u agent msgId) s t →
      ∃ place', place' ≠ .unknown ∧ t.Holds agent msgId place' ∧
        ∀ env (delivery : Delivery) wake, delivery.agent = agent → delivery.msg.id = msgId →
          t.deliver env delivery wake = .ok (t, { accepted := false })
  redriven : ∀ env s', s.redrive env agent msgId = .ok (s', true) →
    s.Holds agent msgId .dead ∧ s'.Holds agent msgId .pending
  spared : ∀ env s', s.redrive env agent msgId = .ok (s', false) →
    s' = s ∧ ¬ s.Holds agent msgId .dead

/-- Messages are conserved, as long as no id is dropped of a letter that stays. -/
theorem messages_conserved {s : Store} {agent : Address} {msgId : String}
    (h : Steps exec (fun t call => call.op.KeepsLetter t agent msgId) init s) :
    Conserved s agent msgId := by
  obtain ⟨place, hplace⟩ : ∃ place, s.Holds agent msgId place := by
    refine Steps.invariant (P := fun t => ∃ place, t.Holds agent msgId place) ?_ h
      ⟨.unknown, holds_init agent msgId⟩
    rintro t call ⟨place, hplace⟩ hkeeps
    obtain ⟨place', hplace', _⟩ := exec_holds hkeeps hplace
    exact ⟨place', hplace'⟩
  refine ⟨⟨place, hplace⟩, ?_, ?_, ?_, ?_⟩
  · rintro env delivery wake s' result rfl rfl hdeliver haccepted
    exact deliver_pending hplace hdeliver haccepted
  · intro known hknown hne t hlater
    have hkept : ∃ place', place' ≠ .unknown ∧ t.Holds agent msgId place' := by
      refine Steps.invariant (P := fun u => ∃ place', place' ≠ .unknown ∧
        u.Holds agent msgId place') ?_ hlater ⟨known, hne, hknown⟩
      rintro u call ⟨mid, hmid, hholds⟩ ⟨hkeeps, hremembers⟩
      obtain ⟨last, hlast, hstays⟩ := exec_holds hkeeps hholds
      exact ⟨last, hstays hmid hremembers, hlast⟩
    obtain ⟨place', hne', hplace'⟩ := hkept
    exact ⟨place', hne', hplace', fun env delivery wake hagent hid =>
      hplace'.refused hne' env hagent hid wake⟩
  · intro env s' hredrive
    obtain ⟨rfl, hpending⟩ := redrive_pending hplace hredrive
    exact ⟨hplace, hpending⟩
  · intro env s' hredrive
    obtain ⟨hsame, hne⟩ := redrive_false hplace hredrive
    exact ⟨hsame, fun hdead => hne (hplace.unique hdead)⟩

private def report (id : String) : Delivery where
  agent := "agent"
  msg := { id, sender := "user" }

private def deadLettered : List Call :=
  [⟨.plain 0, .createRun { agent := "agent", runId := some "r" } [report "m"]⟩,
   ⟨.plain 1, .lease "w" 1 99 1⟩,
   ⟨.plain 2, .commit (firstLease "r")
     { nack := [{ msgId := "m", error := { code := "bad", message := "no" }, final := true }] }⟩]

private theorem deadLettered_keeps (hcall : call ∈ deadLettered) (s : Store) :
    call.op.KeepsLetter s "agent" "m" := by
  simp only [deadLettered, mem_cons, not_mem_nil, or_false] at hcall
  rcases hcall with rfl | rfl | rfl <;> trivial

theorem messages_conserved_dead : (execAll deadLettered init).Holds "agent" "m" .dead ∧
      Conserved (execAll deadLettered init) "agent" "m" :=
  ⟨by decide, messages_conserved (Steps.foldl deadLettered
    (fun s call hcall => Steps.single call (deadLettered_keeps hcall s)) init)⟩

/-- A message is accepted again beside its own dead letter: `prune` dropped its id
and left the letter. -/
theorem message_twice :
    let pruned := exec ⟨.plain 50, .prune 40⟩ (execAll deadLettered init)
    let again := exec ⟨.plain 60, .deliver (report "m") true⟩ pruned
    Calls init again ∧ (¬ ∃ place, pruned.Holds "agent" "m" place) ∧
      again.pendingCount "agent" "m" = 1 ∧ again.letterCount "agent" "m" = 1 ∧
      ¬ ∃ place, again.Holds "agent" "m" place := by
  refine ⟨?_, ?_, by decide, by decide, ?_⟩
  · exact ((calls_execAll deadLettered init).next _ trivial).next _ trivial
  · rintro ⟨place, hplace⟩
    revert hplace
    cases place <;> decide
  · rintro ⟨place, hplace⟩
    revert hplace
    cases place <;> decide

end Substrate.Store
