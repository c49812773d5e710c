import Substrate.Lib.Numbering
import Substrate.Store.Calls

/-!
The sequence numbers of a run's journal, and a reader that follows it. Entries are only
added, with the next number, and only the sweep of `lease` deletes live ones of an ended
run.
-/

namespace Substrate.Store

open Lib List Bool

/-- The entries of a run, oldest first. -/
def journal (s : Store) (runId : RunId) : List EventRow :=
  s.events.filter fun row => row.runId = runId

def durable (row : EventRow) : Bool := !row.ephemeral

/-- What `dropLive` deletes. -/
def stale (s : Store) (now : Time) (row : EventRow) : Bool :=
  row.ephemeral &&
    ((s.runs.get? row.runId).bind (·.terminatedAt)).any (· < now - ephemeralGrace)

/-- A lease that gets as far as dropping live output does so in a state like this. -/
def Sweeps (P : Store → Time → Prop) (s : Store) (call : Call) : Prop :=
  ∀ worker capacity leaseFor now, call.op = .lease worker capacity leaseFor now →
    ∀ t, ((s.reclaim now).wakeTimers call.env now).sweepDeadlines call.env now = .ok t → P t now

def readEvents (s : Store) (runId : RunId) (fromSeq : Nat) : List EventRow :=
  ((s.journal runId).filter fun row => fromSeq ≤ row.seq).insertionSort fun a b => a.seq ≤ b.seq

variable {L : Licence} {m : Move} {s s' : Store} {runId : RunId} {call : Call}

/-- A journal is kept, or has one entry more, with the next number. -/
def Grows (runId : RunId) (s s' : Store) : Prop :=
  s'.journal runId = s.journal runId ∨ ∃ row : EventRow,
    row.seq = numberAfter EventRow.seq 0 (s.journal runId) ∧
      s'.journal runId = s.journal runId ++ [row]

theorem Grows.of_events {t : Store} (h : Grows runId s t) (hevents : s'.events = t.events) :
    Grows runId s s' := by
  unfold Grows journal at h ⊢
  rwa [hevents]

theorem insertEvent_grows (env : TxEnv) (other : RunId) (entry : NewEntry) :
    Grows runId s (s.insertEvent env other entry) := by
  let row : EventRow :=
    { runId := other, seq := s.nextSeq other, kind := entry.kind, payload := entry.payload
      ts := env.clock, ephemeral := entry.ephemeral, dedupKey := entry.dedupKey }
  have hparts : (s.insertEvent env other entry).journal runId =
      s.journal runId ++ [row].filter fun row => row.runId = runId :=
    filter_append ..
  by_cases hsame : other = runId
  · subst hsame
    have hrow : ([row].filter fun row => row.runId = other) = [row] := by simp [row]
    exact .inr ⟨row, rfl, by rw [hparts, hrow]⟩
  · have hrow : ([row].filter fun row => row.runId = runId) = [] := by simp [row, hsame]
    exact .inl (by rw [hparts, hrow, append_nil])

theorem move_grows (hlive : ∀ now, m ≠ .dropLive now) (s : Store) : Grows runId s (m.apply s) := by
  cases m with
  | write env other entry => exact insertEvent_grows env other entry
  | finish env other read how =>
    have happend : Grows runId s (s.append env other how.entry).1 := by
      unfold append
      split
      · exact .inl rfl
      · exact insertEvent_grows env other how.entry
    exact happend.of_events (reportEnd_events ..)
  | dropLive now => exact absurd rfl (hlive now)
  | signal => exact .inl (congrArg (List.filter _) (signal_events ..))
  | nack => exact .inl (congrArg (List.filter _) (nack_events ..))
  | suspend => exact .inl (congrArg (List.filter _) (suspend_events ..))
  | _ => exact .inl rfl

theorem dropLive_journal (s : Store) (now : Time) :
    (s.dropLive now).journal runId = (s.journal runId).filter fun row => !s.stale now row :=
  List.filter_comm ..

theorem exec_journal {P : List EventRow → Prop}
    (hgrow : ∀ rows row, P rows → row.seq = numberAfter EventRow.seq 0 rows → P (rows ++ [row]))
    (hkeeps : call.op.deletes = false) (h : P (s.journal runId))
    (hdrop : Sweeps (fun t now => P (t.journal runId) →
      P ((t.dropLive now).journal runId)) s call) :
    P ((exec call s).journal runId) := by
  have hmoves : ∀ {t t' : Store},
      MovesBy Licence.any (fun m => ∀ now, m ≠ .dropLive now) t t' →
        P (t.journal runId) → P (t'.journal runId) := by
    intro t t' hmoves ht
    refine Steps.invariant (P := fun u => P (u.journal runId)) ?_ hmoves ht
    rintro u m hu ⟨_, hlive⟩
    have hgrows : Grows runId u (m.apply u) := move_grows hlive u
    rcases hgrows with hsame | ⟨row, hrow, hmore⟩
    · rwa [hsame]
    · rw [hmore]
      exact hgrow _ row hu hrow
  have hroutine : ∀ m : Move, m.routine = true → ∀ now, m ≠ .dropLive now := by
    rintro m hm now rfl
    cases hm
  cases hperform : s.perform call.env call.op with
  | error e => rwa [exec_error hperform]
  | ok s' =>
    rw [exec_ok hperform]
    by_cases hlease : ∃ worker capacity leaseFor now, call.op = .lease worker capacity leaseFor now
    · obtain ⟨worker, capacity, leaseFor, now, hop⟩ := hlease
      rw [hop] at hperform
      obtain ⟨⟨u, leases⟩, hgranted, hok⟩ := bind_ok_iff.mp hperform
      cases hok
      have hfree : ∀ m : Move, m.free = true → ∀ now, m ≠ .dropLive now :=
        fun m hm => hroutine m (Move.routine_of_free hm)
      obtain ⟨t, hbefore, hswept, hclaims⟩ := lease_stages (L := Licence.any) hfree
        (fun t hswept => sweepDeadlines_moves hfree trivial hswept) hgranted
      have hgranting : MovesBy Licence.any (fun m => ∀ now, m ≠ .dropLive now) (t.dropLive now) u :=
        claims_moves (fun _ _ => nofun) hclaims
      exact hmoves hgranting (hdrop _ _ _ _ hop t hswept (hmoves hbefore h))
    · refine hmoves (perform_any (fun m hm _ => hroutine m hm) ?_ hkeeps hperform) h
      rintro m hasked now rfl
      obtain ⟨worker, capacity, leaseFor, hop⟩ := hasked
      exact hlease ⟨worker, capacity, leaseFor, now, hop⟩

/-- The sweep of a lease does not delete a run's last entry. -/
def SparesLast (runId : RunId) : Store → Call → Prop :=
  Sweeps fun t now => ∀ row, (t.journal runId).getLast? = some row → t.stale now row = false

/-- It deletes none of its entries. -/
def SparesAll (runId : RunId) : Store → Call → Prop :=
  Sweeps fun t now => ∀ row ∈ t.journal runId, t.stale now row = false

theorem exec_continues {old : List EventRow} (hold : Numbered EventRow.seq old)
    (hkeeps : call.op.deletes = false) (hspares : SparesLast runId s call)
    (h : Continues EventRow.seq durable old (s.journal runId)) :
    Continues EventRow.seq durable old ((exec call s).journal runId) := by
  refine exec_journal (fun _ _ hrows => hrows.append) hkeeps h ?_
  intro worker capacity leaseFor now hop t hswept ht
  rw [dropLive_journal]
  refine ht.drop hold (fun row hrow => ?_) fun row hrow => ?_
  · simp only [durable, not_eq_true'] at hrow
    simp [stale, hrow]
  · rw [hspares worker capacity leaseFor now hop t hswept row hrow]
    rfl

theorem exec_contiguous (hkeeps : call.op.deletes = false) (hspares : SparesAll runId s call)
    (h : Contiguous EventRow.seq (s.journal runId)) :
    Contiguous EventRow.seq ((exec call s).journal runId) := by
  refine exec_journal (fun _ _ hrows => hrows.append) hkeeps h ?_
  intro worker capacity leaseFor now hop t hswept ht
  rwa [dropLive_journal, filter_eq_self.mpr fun row hrow => by
    rw [hspares worker capacity leaseFor now hop t hswept row hrow]; rfl]

/-- The store, and a reader of one run: the number it reads from and what it has seen. -/
structure Tail where
  store : Store := {}
  seq : Nat := 0
  seen : List EventRow := []

namespace Tail

/-- One turn of `tail`. -/
def read (runId : RunId) (w : Tail) : Tail :=
  let entries := w.store.readEvents runId w.seq
  { w with
    seen := w.seen ++ entries
    seq := entries.foldl (fun _ entry => entry.seq + 1) w.seq }

/-- A call of the store, or a turn of the reader. -/
def step (runId : RunId) : Option Call → Tail → Tail
  | some call, w => { w with store := exec call w.store }
  | none, w => w.read runId

/-- The calls that delete no run, of which `P` holds. -/
def Allows (P : Store → Call → Prop) (w : Tail) (act : Option Call) : Prop :=
  ∀ call, act = some call → call.op.deletes = false ∧ P w.store call

abbrev Runs (runId : RunId) (P : Store → Call → Prop) : Tail → Tail → Prop :=
  Steps (step runId) (Allows P)

/-- Entries written later have larger numbers than all there ever were, they are numbered
from 0 while none is dropped, and the reader has seen the durable ones up to its number; all
of them, when it has just read. -/
structure Kept (runId : RunId) (w : Tail) : Prop where
  fresh : ∀ {first later}, Runs runId (SparesLast runId) first w →
    Runs runId (SparesLast runId) {} first → Runs runId (SparesLast runId) w later →
      ∀ old ∈ first.store.journal runId, ∀ row ∈ later.store.journal runId,
        row ∈ w.store.journal runId ∨ old.seq < row.seq
  ordered : (w.store.journal runId).Pairwise fun a b => a.seq < b.seq
  contiguous : Runs runId (SparesAll runId) {} w →
    (w.store.journal runId).map EventRow.seq = range (w.store.journal runId).length
  seen : w.seen.filter durable <+: w.store.durableEvents runId
  caught : (w.read runId).seen.filter durable = w.store.durableEvents runId

variable {P : Store → Call → Prop} {w w' : Tail}

theorem Runs.continues (h : Runs runId (SparesLast runId) w w')
    (hold : Numbered EventRow.seq (w.store.journal runId)) :
    Continues EventRow.seq durable (w.store.journal runId) (w'.store.journal runId) := by
  refine Steps.invariant (P := fun u => Continues EventRow.seq durable (w.store.journal runId)
    (u.store.journal runId)) (fun u act hu hact => ?_) h .refl
  cases act with
  | none => exact hu
  | some call => exact exec_continues hold (hact call rfl).1 (hact call rfl).2 hu

theorem Runs.contiguous (h : Runs runId (SparesAll runId) {} w) :
    Contiguous EventRow.seq (w.store.journal runId) := by
  refine Steps.invariant (P := fun u => Contiguous EventRow.seq (u.store.journal runId))
    (fun u act hu hact => ?_) h ?_
  swap
  · rfl
  cases act with
  | none => exact hu
  | some call => exact exec_contiguous (hact call rfl).1 (hact call rfl).2 hu

theorem Runs.numbered (h : Runs runId (SparesLast runId) {} w) :
    Numbered EventRow.seq (w.store.journal runId) :=
  (h.continues Pairwise.nil).numbered Pairwise.nil

theorem readEvents_eq {s : Store} (hnum : Numbered EventRow.seq (s.journal runId)) (fromSeq : Nat) :
    s.readEvents runId fromSeq = (s.journal runId).filter fun row => fromSeq ≤ row.seq :=
  Pairwise.insertionSort_eq ((hnum.sublist filter_sublist).imp fun hlt => hlt.le)

theorem durableEvents_eq (s : Store) : s.durableEvents runId = (s.journal runId).filter durable := by
  unfold durableEvents journal
  rw [List.filter_filter]
  exact List.filter_congr fun row _ => and_comm ..

theorem read_durable (hnum : Numbered EventRow.seq (w.store.journal runId))
    (h : Trails EventRow.seq durable (w.store.journal runId) w.seq w.seen) :
    (w.read runId).seen.filter durable = (w.store.journal runId).filter durable := by
  unfold read
  rw [readEvents_eq hnum]
  exact h.read hnum

theorem Runs.follows (h : Runs runId (SparesLast runId) {} w) :
    Trails EventRow.seq durable (w.store.journal runId) w.seq w.seen := by
  have hboth : Numbered EventRow.seq (w.store.journal runId) ∧
      Trails EventRow.seq durable (w.store.journal runId) w.seq w.seen := by
    refine Steps.invariant (P := fun u => Numbered EventRow.seq (u.store.journal runId) ∧
      Trails EventRow.seq durable (u.store.journal runId) u.seq u.seen) ?_ h ?_
    swap
    · exact ⟨Pairwise.nil, rfl, le_rfl⟩
    rintro u act ⟨hnum, hu⟩ hact
    cases act with
    | none =>
      have hread := read_durable hnum hu
      refine ⟨hnum, ?_⟩
      have hseq : (u.read runId).seq = numberAfter EventRow.seq 0 (u.store.journal runId) := by
        unfold read
        rw [readEvents_eq hnum]
        exact hu.number hnum
      change Trails EventRow.seq durable (u.store.journal runId) (u.read runId).seq _
      rw [hseq]
      exact Trails.caught hread
    | some call =>
      have hnext := exec_continues hnum (hact call rfl).1 (hact call rfl).2 .refl
      exact ⟨hnext.numbered hnum, hu.continues hnext⟩
  exact hboth.2

theorem tail_misses_nothing (h : Runs runId (SparesLast runId) {} w) : w.Kept runId where
  fresh hfirst hinit hlater old hold row hrow := by
    have hbefore := hfirst.continues hinit.numbered
    obtain ⟨keep, new, hparts, _, _, hafter⟩ := (Runs.continues hlater h.numbered).parts
    rw [hparts] at hrow
    rcases mem_append.mp hrow with hrow | hrow
    · exact .inl (mem_of_mem_filter hrow)
    · exact .inr ((lt_numberAfter hold).trans_le (hbefore.grows.trans (hafter row hrow)))
  ordered := h.numbered
  contiguous hall := hall.contiguous
  seen := by
    have hnum : Numbered EventRow.seq ((w.store.journal runId).filter durable) :=
      h.numbered.sublist filter_sublist
    rw [durableEvents_eq, h.follows.seen]
    exact ⟨_, hnum.split w.seq⟩
  caught := by
    rw [durableEvents_eq]
    exact read_durable h.numbered h.follows

/-- A run that ends, and what is written for it and read of it afterwards. -/
def play (acts : List (Option Call)) : Tail := acts.foldl (fun w act => step "r" act w) {}

theorem runs_play (acts : List (Option Call)) (hkeeps : ∀ act ∈ acts, ∀ call, act = some call →
    call.op.deletes = false) : Runs "r" (fun _ _ => True) {} (play acts) := by
  have hone : ∀ w, ∀ act ∈ acts, Runs "r" (fun _ _ => True) w (step "r" act w) :=
    fun w act hact => Steps.single act fun call hcall => ⟨hkeeps act hact call hcall, trivial⟩
  exact Steps.foldl acts hone ({} : Tail)

def ended : List (Option Call) :=
  [some ⟨.plain 0, .createRun { agent := "agent", runId := some "r" } []⟩,
    some ⟨.plain 0, .lease "w" 1 100 0⟩,
    some ⟨.plain 0, .commit (firstLease "r") { outcome := some (.ending .complete) }⟩]

def lateEntries : List (Option Call) :=
  [some ⟨.plain 1, .annotate "r" [{ kind := "live", payload := [], ephemeral := true }]⟩, none,
    some ⟨.plain 200000000, .lease "w" 0 100 200000000⟩,
    some ⟨.plain 200000001, .annotate "r" [{ kind := "late", payload := [] }]⟩]

theorem number_reused : ∃ w, Runs "r" (fun _ _ => True) {} w ∧ ¬ w.Kept "r" ∧
    (w.store.durableEvents "r").map (fun row => (row.kind, row.seq)) =
      [("run.completed", 0), ("late", 1)] ∧
    (w.read "r").seen.map (fun row => (row.kind, row.seq)) =
      [("run.completed", 0), ("live", 1)] := by
  have hdurable : ((play (ended ++ lateEntries)).store.durableEvents "r").map
      (fun row => (row.kind, row.seq)) = [("run.completed", 0), ("late", 1)] := by decide +kernel
  have hseen : ((play (ended ++ lateEntries)).read "r").seen.map
      (fun row => (row.kind, row.seq)) = [("run.completed", 0), ("live", 1)] := by decide +kernel
  refine ⟨_, runs_play _ ?_, fun hkept => ?_, hdurable, hseen⟩
  · simp [ended, lateEntries, Op.deletes]
  · rw [← hkept.caught] at hdurable
    have hmem : ("late", 1) ∈ ((play (ended ++ lateEntries)).read "r").seen.map
        fun row => (row.kind, row.seq) := by
      refine ((filter_sublist (p := durable)).map _).subset ?_
      rw [hdurable]
      simp
    rw [hseen] at hmem
    simp at hmem

theorem tail_misses_nothing_ended : (play ended).Kept "r" := by
  refine tail_misses_nothing ((((Steps.refl _).next (some _) ?_).next (some _) ?_).next (some _) ?_)
  · rintro call ⟨⟩
    exact ⟨rfl, nofun⟩
  · rintro call ⟨⟩
    refine ⟨rfl, ?_⟩
    rintro _ _ _ _ ⟨⟩ t ⟨⟩ row ⟨⟩
  · rintro call ⟨⟩
    exact ⟨rfl, nofun⟩

end Tail

end Substrate.Store
