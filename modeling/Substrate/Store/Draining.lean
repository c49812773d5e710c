import Mathlib.Data.String.Basic
import Substrate.Lib.StableSort
import Substrate.Store.Mail

/-!
What a worker reads of its agent's mail. The first attempt of a run drains at most 100
messages and records their ids; a later one finds them again among the first 1000 in the
order of senders, as far as the mail that came in since leaves them there.
-/

namespace Substrate.Store

open Lib List

/-- `_journaled_drain`, with the ids that the journal has on record. -/
def journaledDrain (s : Store) (agent : Address) : Option (List String) → List Message
  | none => s.drain agent 100
  | some ids =>
    ids.filterMap fun id => (s.drain agent 1000).reverse.find? fun message => message.id = id

/-- Calls that settle no mail of the agent. -/
def LeavesMail (agent : Address) (s : Store) (call : Call) : Prop :=
  call.op.deletes = false ∧ ∀ lease work row, call.op = .commit lease work →
    s.runs.get? lease.runId = some row → row.agent = agent → work.ack = [] ∧ work.nack = []

/-- What has come in for the agent since an earlier state. -/
def cameIn (s s' : Store) (agent : Address) : List InboxRow :=
  (s'.inboxOf agent).drop (s.inboxOf agent).length

/-- The last message drained, and those that now come before it, are on one page. -/
def FitsPage (s s' : Store) (agent : Address) : Prop :=
  ∀ last, (s.drain agent 100).getLast? = some last →
    (s.drain agent 100).length +
      (cameIn s s' agent).countP (fun row => row.msg.sender < last.sender) ≤ 1000

variable {s s' : Store} {agent other : Address} {call : Call} {env : TxEnv}

theorem drain_eq (s : Store) (agent : Address) (limit : Nat) : s.drain agent limit =
    ((byKey (fun row : InboxRow => row.msg.sender) (s.inboxOf agent)).take limit).map (·.msg) :=
  rfl

theorem moves_inbox (h : MovesBy Licence.any
      (fun m => (∀ env agent id, m ≠ .ack env agent id) ∧ ∀ env agent failure,
        m ≠ .nack env agent failure) s s') :
    s.inboxOf agent <+: s'.inboxOf agent := by
  refine Steps.invariant (P := fun t => s.inboxOf agent <+: Store.inboxOf t agent) ?_ h prefix_rfl
  rintro t m ht ⟨_, hack, hnack⟩
  by_cases hmail : ∃ delivery, m = .insertMail delivery
  · obtain ⟨delivery, rfl⟩ := hmail
    refine ht.trans ?_
    change List.filter _ _ <+: List.filter _ (t.inbox ++ _)
    rw [filter_append]
    exact prefix_append ..
  · simp only [not_exists] at hmail
    unfold inboxOf
    rwa [inbox_kept m t hmail hack hnack]

theorem ackOne_other (hne : other ≠ agent) (s : Store) (msgId : String) :
    (ackOne env other s msgId).inboxOf agent = s.inboxOf agent := by
  unfold ackOne inboxOf
  rw [List.filter_filter]
  refine List.filter_congr fun row _ => ?_
  by_cases hrow : row.agent = agent
  · simp [hrow, hne.symm]
  · simp [hrow]

theorem nack_other (hne : other ≠ agent) (s : Store) (failure : Nack) :
    (nack env other s failure).inboxOf agent = s.inboxOf agent := by
  unfold nack
  split
  · rfl
  · simp only
    split
    · change (s.inbox.map _).filter _ = s.inbox.filter _
      induction s.inbox with
      | nil => rfl
      | cons row rest ih =>
        by_cases hrow : row.agent = agent
        · simpa [hrow, hne.symm] using ih
        · by_cases hmine : row.agent = other ∧ row.msg.id = failure.msgId <;>
            simpa [hrow, hmine, hne] using ih
    · exact ackOne_other hne _ _

theorem exec_inbox (hleaves : LeavesMail agent s call) :
    s.inboxOf agent <+: (exec call s).inboxOf agent := by
  cases h : s.perform call.env call.op with
  | error e => simp only [exec_error h, prefix_rfl]
  | ok s' =>
    rw [exec_ok h]
    have hroutine : ∀ m : Move, m.routine = true → (∀ env agent id, m ≠ .ack env agent id) ∧
        ∀ env agent failure, m ≠ .nack env agent failure := by
      intro m hm
      constructor <;> rintro _ _ _ rfl <;> cases hm
    by_cases hcommit : ∃ lease work, call.op = .commit lease work
    · obtain ⟨lease, work, hop⟩ := hcommit
      rw [hop] at h
      obtain ⟨⟨t, result⟩, hdone, hok⟩ := bind_ok_iff.mp h
      cases hok
      obtain ⟨row, hrow, _, htail⟩ := commit_tail (L := Licence.any) hroutine
        (Licence.allows_all (fun _ => trivial) ..) trivial
        (fun _ _ => ⟨nofun, nofun⟩) hdone
      have hwritten : (appendAll call.env lease.runId s work.entries).1.inboxOf agent =
          s.inboxOf agent := by
        refine appendAll_keeps (fun t => t.inboxOf agent) (fun t entry => ?_) work.entries s
        unfold append
        split
        · rfl
        · cases entry.spend <;> rfl
      have hhandled : (handled (appendAll call.env lease.runId s work.entries).1 call.env row.agent
          work).inboxOf agent = s.inboxOf agent := by
        by_cases hmine : row.agent = agent
        · obtain ⟨hack, hnack⟩ := hleaves.2 lease work row hop hrow hmine
          rw [handled, hack, hnack]
          exact hwritten
        · refine (foldl_keeps (fun t : Store => t.inboxOf agent) (nack_other hmine) _ _).trans ?_
          exact (foldl_keeps (fun t : Store => t.inboxOf agent) (ackOne_other hmine) _ _).trans
            hwritten
      rw [← hhandled]
      exact moves_inbox htail
    · refine moves_inbox (perform_any (fun m hm _ => hroutine m hm) ?_ hleaves.1 h)
      intro m hasked
      constructor <;> rintro _ _ _ rfl
      all_goals
        obtain ⟨lease, work, hop, _⟩ := hasked
        exact hcommit ⟨lease, work, hop⟩

theorem inbox_grows (h : Steps exec (LeavesMail agent) s s') :
    s'.inboxOf agent = s.inboxOf agent ++ cameIn s s' agent := by
  have hprefix : s.inboxOf agent <+: s'.inboxOf agent :=
    Steps.invariant (P := fun t => s.inboxOf agent <+: Store.inboxOf t agent)
      (fun t call ht hleaves => ht.trans (exec_inbox hleaves)) h prefix_rfl
  exact (prefix_iff_eq_append.mp hprefix).symm

theorem found_iff {given page all : List Message} (hall : (all.map (·.id)).Nodup)
    (hgiven : ∀ m ∈ given, m ∈ all) (hpage : ∀ m ∈ page, m ∈ all) :
    (given.map (·.id)).filterMap (fun id => page.reverse.find? fun m => m.id = id) = given ↔
      ∀ m ∈ given, m ∈ page := by
  have hsame : ∀ m ∈ given, ∀ found, (page.reverse.find? fun other => other.id = m.id) = some found →
      found = m := by
    intro m hm found hfound
    have hid : found.id = m.id := by simpa using find?_some hfound
    exact inj_on_of_nodup_map hall (hpage found (mem_reverse.mp (mem_of_find?_eq_some hfound)))
      (hgiven m hm) hid
  rw [filterMap_map]
  constructor
  · intro h m hm
    have hsome := filterMap_length_eq_length.mp (congrArg List.length h) m hm
    obtain ⟨found, hfound⟩ := Option.isSome_iff_exists.mp hsome
    rw [← hsame m hm found hfound]
    exact mem_reverse.mp (mem_of_find?_eq_some hfound)
  · intro h
    have hfound : ∀ m ∈ given,
        ((fun id => page.reverse.find? fun m => m.id = id) ∘ (·.id)) m = some m := by
      intro m hm
      have hsome : (page.reverse.find? fun other => other.id = m.id).isSome :=
        find?_isSome.mpr ⟨m, mem_reverse.mpr (h m hm), by simp⟩
      obtain ⟨found, hfound⟩ := Option.isSome_iff_exists.mp hsome
      exact hfound.trans (congrArg some (hsame m hm found hfound))
    rw [filterMap_congr hfound]
    exact filterMap_some ..

theorem replayed_iff {before after : List Message} {last : Message}
    (hids : ((before ++ last :: after).map (·.id)).Nodup) (front : List Message)
    (hfront : ∀ m ∈ front, m ∈ before) (n : Nat) :
    ((front ++ [last]).map (·.id)).filterMap (fun id =>
        ((before ++ last :: after).take n).reverse.find? fun m => m.id = id) = front ++ [last] ↔
      before.length < n := by
  have hgiven : ∀ m ∈ front ++ [last], m ∈ before ∨ m = last := by
    intro m hm
    exact (mem_append.mp hm).imp (hfront m) mem_singleton.mp
  rw [found_iff hids (fun m hm => ?_) fun m => mem_of_mem_take]
  · constructor
    · intro hpage
      exact (mem_take_iff (Nodup.of_map _ hids)).mp (hpage last (by simp))
    · intro hlt m hm
      obtain ⟨rest, hrest⟩ := take_past last after hlt
      rw [hrest]
      rcases hgiven m hm with hbefore | rfl
      · exact mem_append_left _ hbefore
      · simp
  · rcases hgiven m hm with hbefore | rfl
    · exact mem_append_left _ hbefore
    · simp

theorem replayed_of_grown (hgrows : s'.inboxOf agent = s.inboxOf agent ++ cameIn s s' agent)
    (hdistinct : ((s'.inboxOf agent).map (·.msg.id)).Nodup) :
    s'.journaledDrain agent (some ((s.journaledDrain agent none).map (·.id))) =
      s.journaledDrain agent none ↔ FitsPage s s' agent := by
  unfold journaledDrain FitsPage
  simp only [drain_eq]
  rcases eq_nil_or_concat' ((byKey (fun row : InboxRow => row.msg.sender)
    (s.inboxOf agent)).take 100) with hnone | ⟨front, last, hpage⟩
  · simp [hnone]
  obtain ⟨before, after, hafter, hfront, hlength⟩ := page_append (cameIn s s' agent) hpage
  rw [← hgrows] at hafter
  have hids : ((before.map (·.msg) ++ last.msg :: after.map (·.msg)).map (·.id)).Nodup := by
    rw [← map_cons, ← map_append, ← hafter, map_map]
    exact ((byKey_perm _ _).map _).nodup_iff.mpr hdistinct
  have hmessages : ∀ m ∈ front.map (·.msg), m ∈ before.map (·.msg) := by
    intro m hm
    obtain ⟨row, hrow, rfl⟩ := mem_map.mp hm
    exact mem_map_of_mem (hfront row hrow)
  rw [hpage, hafter, map_take, map_append, map_append, map_cons, map_singleton,
    replayed_iff hids _ hmessages, length_map, hlength, length_append, length_map, length_singleton]
  constructor
  · rintro hlt other hother
    obtain rfl : last.msg = other := by simpa using hother
    omega
  · intro hfits
    have hle := hfits last.msg (by simp)
    omega

/-- A later attempt is given the messages of the first one if and only if the last of them is
on the page that it reads. -/
theorem drain_replayed_iff (h : Steps exec (LeavesMail agent) s s')
    (hdistinct : ((s'.inboxOf agent).map (·.msg.id)).Nodup) :
    s'.journaledDrain agent (some ((s.journaledDrain agent none).map (·.id))) =
      s.journaledDrain agent none ↔ FitsPage s s' agent :=
  replayed_of_grown (inbox_grows h) hdistinct

/-- One message, and any number that come in later from a sender before its own. -/
def oneMessage : Store where
  inbox := [{ agent := "agent", tenant := "default", msg := { id := "", sender := "b" } }]

def later (n : Nat) : Delivery where
  agent := "agent"
  msg := { id := String.ofList (replicate (n + 1) 'm'), sender := "a" }

theorem later_injective : Function.Injective fun n => (later n).msg.id := by
  intro a b h
  have hlength := congrArg (fun id : String => id.toList.length) h
  simpa [later] using hlength

theorem leaves_deliver (agent : Address) (s : Store) (delivery : Delivery) :
    LeavesMail agent s ⟨.plain 0, .deliver delivery false⟩ :=
  ⟨rfl, fun _ _ _ h => by cases h⟩

theorem drain_replayed_iff_one :
    let s' := exec ⟨.plain 0, .deliver (later 0) false⟩ oneMessage
    s'.journaledDrain "agent" (some ((oneMessage.journaledDrain "agent" none).map (·.id))) =
      oneMessage.journaledDrain "agent" none ↔ FitsPage oneMessage s' "agent" :=
  drain_replayed_iff (Steps.single _ (leaves_deliver ..)) (by decide)

theorem later_drained (n : Nat) : ∃ t, Steps exec (LeavesMail "agent") oneMessage t ∧
    t.processed = .empty ∧ t.inbox = oneMessage.inbox ++ (range n).map fun i =>
      { agent := "agent", tenant := "default", msg := (later i).msg } := by
  induction n with
  | zero => exact ⟨oneMessage, Steps.refl _, rfl, rfl⟩
  | succ n ih =>
    obtain ⟨t, hsteps, hprocessed, hinbox⟩ := ih
    have hnone : t.hasMail "agent" (later n).msg.id = false := by
      refine Bool.eq_false_iff.mpr fun hmail => ?_
      obtain ⟨row, hrow, hsame⟩ := any_eq_true.mp hmail
      have hid : row.msg.id = (later n).msg.id := by
        simp only [Bool.and_eq_true, decide_eq_true_eq] at hsame
        exact hsame.2
      rw [hinbox] at hrow
      rcases mem_append.mp hrow with hrow | hrow
      · rw [mem_singleton.mp hrow] at hid
        simpa [later] using congrArg String.toList hid
      · obtain ⟨i, hi, rfl⟩ := mem_map.mp hrow
        exact (mem_range.mp hi).ne (later_injective hid)
    have hdelivered : exec ⟨.plain 0, .deliver (later n) false⟩ t = t.insertMail (later n) := by
      have hdeliver : t.deliver (.plain 0) (later n) false =
          .ok (t.insertMail (later n), { accepted := true }) := by
        have hfresh : (t.processed.get? ((later n).agent, (later n).msg.id)).isSome = false := by
          rw [hprocessed]
          rfl
        have hmine : t.hasMail (later n).agent (later n).msg.id = false := hnone
        simp only [deliver, hmine, hfresh, Bool.false_eq_true, if_false]
        rfl
      exact exec_ok (by simp only [perform, hdeliver, bind, Except.bind]; rfl)
    refine ⟨_, hsteps.next _ (leaves_deliver _ _ (later n)), ?_, ?_⟩
    · rw [hdelivered]
      exact hprocessed
    · rw [hdelivered, range_succ, map_append, ← append_assoc, ← hinbox]
      rfl

theorem later_lost {n : Nat} (hn : 1000 ≤ n) : ∃ s', Steps exec (LeavesMail "agent") oneMessage s' ∧
    ((s'.inboxOf "agent").map (·.msg.id)).Nodup ∧
    s'.journaledDrain "agent" (some ((oneMessage.journaledDrain "agent" none).map (·.id))) ≠
      oneMessage.journaledDrain "agent" none := by
  obtain ⟨t, hsteps, _, hinbox⟩ := later_drained n
  have hmine : t.inboxOf "agent" = t.inbox := by
    unfold inboxOf
    rw [hinbox]
    simp [oneMessage]
  have hids : ((t.inboxOf "agent").map (·.msg.id)).Nodup := by
    rw [hmine, hinbox, map_append, map_map]
    refine nodup_cons.mpr ⟨fun hmem => ?_, nodup_range.map later_injective⟩
    obtain ⟨i, _, hid⟩ := mem_map.mp hmem
    simpa [later] using congrArg String.toList hid
  refine ⟨t, hsteps, hids, fun h => ?_⟩
  have hfits := (replayed_of_grown (inbox_grows hsteps) hids).mp h { id := "", sender := "b" } rfl
  have hlater : cameIn oneMessage t "agent" = (range n).map fun i =>
      { agent := "agent", tenant := "default", msg := (later i).msg } := by
    rw [cameIn, hmine, hinbox]
    rfl
  have hbefore : (cameIn oneMessage t "agent").countP (fun row => row.msg.sender < "b") = n := by
    rw [hlater, countP_eq_length.mpr, length_map, length_range]
    intro row hrow
    obtain ⟨i, _, rfl⟩ := mem_map.mp hrow
    exact decide_eq_true (by decide : "a" < "b")
  have hone : (oneMessage.drain "agent" 100).length = 1 := rfl
  rw [hone, hbefore] at hfits
  omega

theorem drain_loses_message : ∃ s', Steps exec (LeavesMail "agent") oneMessage s' ∧
    ((s'.inboxOf "agent").map (·.msg.id)).Nodup ∧
    s'.journaledDrain "agent" (some ((oneMessage.journaledDrain "agent" none).map (·.id))) ≠
      oneMessage.journaledDrain "agent" none :=
  later_lost (le_refl 1000)

end Substrate.Store
