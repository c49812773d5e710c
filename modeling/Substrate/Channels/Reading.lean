import Substrate.Channels.Traffic

/-!
Reading a channel from a run. `read_channel` looks up the agent's cursor, fetches what
follows it, moves the cursor past that and lets the journal record what was read: four
transactions.
-/

namespace Substrate

open Lib Channels List

inductive ReadStage where
  | looked (cursor : Int)
  | fetched (cursor : Int) (entries : List ChannelEntry)
  | marked (entries : List ChannelEntry)
  | finished

/-- A read under way, by the effect it belongs to. It is live while its attempt
holds the lease. -/
structure Reading where
  call : String
  live : Bool := true
  stage : ReadStage

/-- A run that reads: the database, the results its journal holds, and the reads
under way. -/
structure Reader where
  db : Database
  results : List (String × List ChannelEntry) := []
  readings : List Reading := []

inductive ReaderStep where
  | traffic (env : TxEnv) (op : Database.Op)
  | look (call : String)
  | fetch (i : Nat) (limit : Nat)
  | mark (i : Nat)
  | record (i : Nat)
  | fail (i : Nat)
  | cut

def Database.Op.spares (me : Address) : Database.Op → Prop
  | .store (.erase ..) => False
  | .store _ => True
  | .channel op => op.spares me

def Reading.pending (r : Reading) : Bool :=
  r.live && match r.stage with
    | .marked _ => true
    | _ => false

namespace Reader

def spoken (entries : List ChannelEntry) : List ChannelEntry :=
  entries.filter fun entry => entry.kind.isSpoken

def setStage (w : Reader) (i : Nat) (r : Reading) (stage : ReadStage) : Reader :=
  { w with readings := w.readings.set i { r with stage } }

def look (channel : String) (me : Address) (w : Reader) (call : String) : Reader :=
  if (w.results.any fun result => result.1 = call) ||
      (w.readings.any fun r => r.live && r.call = call) then w
  else
    { w with
      readings := w.readings ++ [{ call, stage := .looked (w.db.channels.cursorOf channel me) }] }

def fetch (channel : String) (w : Reader) (i limit : Nat) : Reader :=
  match w.readings[i]? with
  | some r =>
    match r.stage with
    | .looked cursor =>
      w.setStage i r (.fetched cursor (w.db.channels.read channel cursor limit))
    | _ => w
  | none => w

/-- Move the cursor past what was fetched, the markers too. -/
def mark (channel : String) (me : Address) (w : Reader) (i : Nat) : Reader :=
  match w.readings[i]? with
  | some r =>
    match r.stage with
    | .fetched _ entries =>
      match entries.getLast? with
      | some last =>
        { w.setStage i r (.marked entries) with
          db := { w.db with channels := w.db.channels.markRead channel me last.seq } }
      | none => w
    | _ => w
  | none => w

/-- Record the result; the commit of an attempt that lost its lease is refused. -/
def record (w : Reader) (i : Nat) : Reader :=
  match w.readings[i]? with
  | some r =>
    if r.live then
      match r.stage with
      | .fetched _ [] => { w.setStage i r .finished with results := w.results ++ [(r.call, [])] }
      | .marked entries =>
        { w.setStage i r .finished with results := w.results ++ [(r.call, spoken entries)] }
      | _ => w
    else w
  | none => w

def fail (w : Reader) (i : Nat) : Reader :=
  match w.readings[i]? with
  | some r => w.setStage i r .finished
  | none => w

def cut (w : Reader) : Reader :=
  { w with readings := w.readings.map fun r => { r with live := false } }

def step (channel : String) (me : Address) : ReaderStep → Reader → Reader
  | .traffic env op, w => { w with db := Database.exec (env, op) w.db }
  | .look call, w => w.look channel me call
  | .fetch i limit, w => w.fetch channel i limit
  | .mark i, w => w.mark channel me i
  | .record i, w => w.record i
  | .fail i, w => w.fail i
  | .cut, w => w.cut

def Allowed (me : Address) : ReaderStep → Prop
  | .traffic _ op => op.spares me
  | _ => True

/-- The cursor is moved by an attempt that holds its lease and from where it looked it up, and no
attempt ends with a result to record. -/
def Orderly (channel : String) (me : Address) (w : Reader) : ReaderStep → Prop
  | .mark i => ∀ r cursor entries last, w.readings[i]? = some r → r.stage = .fetched cursor entries →
      entries.getLast? = some last →
        if r.live then w.db.channels.cursorOf channel me = cursor
        else w.db.channels.cursor? channel me = none ∨ last.seq ≤ w.db.channels.cursorOf channel me
  | .fail i => ∀ r, w.readings[i]? = some r → r.pending = false
  | .cut => ∀ r ∈ w.readings, r.pending = false
  | _ => True

abbrev Runs (channel : String) (me : Address) : Reader → Reader → Prop :=
  Steps (step channel me) fun _ label => Allowed me label

abbrev OrderlyRuns (channel : String) (me : Address) : Reader → Reader → Prop :=
  Steps (step channel me) fun w label => Allowed me label ∧ Orderly channel me w label

/-- No attempt is between moving the cursor and recording. -/
def AtRest (w : Reader) : Prop := ∀ r ∈ w.readings, r.pending = false

/-- A message or notice after `start` is still after the cursor, or in exactly
one recorded result. -/
def Accounted (channel : String) (me : Address) (start : Int) (w : Reader) : Prop :=
  ∀ seq entry, w.db.channels.entries.get? (channel, seq) = some entry →
    entry.kind.isSpoken = true → start < seq → w.db.channels.cursorOf channel me < seq ∨
        (w.results.countP fun result => result.2.any fun e => e.seq = seq) = 1

end Reader

namespace Channels

variable {c : Channels} {channel : String} {e last : ChannelEntry} {after : Int} {limit : Nat}

theorem mem_entriesOf {p : Int → EntryRow → Bool} :
    e ∈ c.entriesOf channel p ↔ e.channel = channel ∧
      c.entries.get? (channel, e.seq) = some e.toEntryRow ∧ p e.seq e.toEntryRow = true := by
  unfold entriesOf
  simp only [mem_map, mem_insertionSort, mem_filter, Bool.and_eq_true,
    decide_eq_true_eq, Prod.exists]
  constructor
  · rintro ⟨name, seq, row, ⟨hrow, rfl, hp⟩, rfl⟩
    exact ⟨rfl, Table.mem_rows_iff.mp hrow, hp⟩
  · rintro ⟨hchannel, hrow, hp⟩
    refine ⟨channel, e.seq, e.toEntryRow, ⟨Table.mem_rows_iff.mpr hrow, rfl, hp⟩, ?_⟩
    cases e
    simp only at hchannel
    subst hchannel
    rfl

theorem entriesOf_sorted (c : Channels) (channel : String) (p : Int → EntryRow → Bool) :
    (c.entriesOf channel p).Pairwise fun a b => a.seq ≤ b.seq := by
  unfold entriesOf
  rw [pairwise_map]
  exact pairwise_insertionSort (fun a b : (String × Int) × EntryRow => a.1.2 ≤ b.1.2) _

theorem mem_read (h : e ∈ c.read channel after limit) :
    after < e.seq ∧ c.entries.get? (channel, e.seq) = some e.toEntryRow := by
  have hmem := mem_entriesOf.mp (mem_of_mem_take h)
  exact ⟨by simpa using hmem.2.2, hmem.2.1⟩

theorem le_getLast {entries : List ChannelEntry}
    (hsorted : entries.Pairwise fun a b => a.seq ≤ b.seq) (hlast : entries.getLast? = some last)
    (he : e ∈ entries) : e.seq ≤ last.seq := by
  obtain ⟨front, rfl⟩ := List.getLast?_eq_some_iff.mp hlast
  rcases mem_append.mp he with hfront | hback
  · exact (pairwise_append.mp hsorted).2.2 e hfront last mem_cons_self
  · rw [mem_singleton.mp hback]

theorem read_sorted (c : Channels) (channel : String) (after : Int) (limit : Nat) :
    (c.read channel after limit).Pairwise fun a b => a.seq ≤ b.seq :=
  (entriesOf_sorted c channel _).sublist (take_sublist ..)

theorem read_covers {seq : Int} {entry : EntryRow}
    (hlast : (c.read channel after limit).getLast? = some last)
    (hentry : c.entries.get? (channel, seq) = some entry) (hafter : after < seq)
    (hbefore : seq ≤ last.seq) : ∃ e ∈ c.read channel after limit, e.seq = seq := by
  have hall : ({ entry with channel, seq } : ChannelEntry) ∈
      c.entriesOf channel fun seq _ => after < seq :=
    mem_entriesOf.mpr ⟨rfl, hentry, by simpa using hafter⟩
  have hsorted := entriesOf_sorted c channel fun seq _ => decide (after < seq)
  rw [← take_append_drop limit (c.entriesOf channel fun seq _ => after < seq)] at hall hsorted
  rcases mem_append.mp hall with htaken | hleft
  · exact ⟨_, htaken, rfl⟩
  · have hmem : last ∈ c.read channel after limit := mem_of_getLast? hlast
    have hle := (pairwise_append.mp hsorted).2.2 last hmem _ hleft
    exact ⟨last, hmem, by simp only at hle; omega⟩

end Channels

namespace Reader

def holds (seq : Int) (r : Reading) : Bool :=
  r.live && match r.stage with
    | .marked entries => (spoken entries).any fun e => e.seq = seq
    | _ => false

def given (w : Reader) (seq : Int) : Nat :=
  (w.results.countP fun result => result.2.any fun e => e.seq = seq) + w.readings.countP (holds seq)

variable {i : Nat} {seq cursor start : Int} {r : Reading} {w w' : Reader} {stage : ReadStage}
    {c : Channels} {channel : String} {entries : List ChannelEntry} {me : Address}
    {db : Database}

private theorem countP_set_eq {α : Type} {p : α → Bool} {items : List α} {a b : α}
    (h : items[i]? = some a) :
    (items.set i b).countP p + (if p a then 1 else 0) =
      items.countP p + (if p b then 1 else 0) := by
  obtain ⟨hlt, hget⟩ := List.getElem?_eq_some_iff.mp h
  have hle := boole_getElem_le_countP (p := p) hlt
  rw [countP_set hlt, hget]
  rw [hget] at hle
  omega

theorem holds_pending (h : r.pending = false) : holds seq r = false := by
  unfold Reading.pending at h
  unfold holds
  cases hlive : r.live with
  | false => rfl
  | true =>
    rw [hlive] at h
    cases hstage : r.stage with
    | marked entries =>
      rw [hstage] at h
      cases h
    | _ => rfl

theorem given_rest (h : w.AtRest) (seq : Int) :
    w.given seq = w.results.countP fun result => result.2.any fun e => e.seq = seq := by
  have hnone : w.readings.countP (holds seq) = 0 := by
    apply countP_eq_zero.mpr
    intro r hr
    rw [holds_pending (h r hr)]
    decide
  unfold given
  rw [hnone, Nat.add_zero]

theorem given_setStage (hget : w.readings[i]? = some r) (hbefore : holds seq r = false)
    (hafter : holds seq { r with stage } = false) :
    (w.setStage i r stage).given seq = w.given seq := by
  have hcount := countP_set_eq (p := holds seq) (b := { r with stage }) hget
  rw [hbefore, hafter] at hcount
  unfold given setStage
  simp only at hcount ⊢
  omega

/-- What a read fetched: entries of the log after the cursor it looked up, without gaps. -/
structure Fetched (c : Channels) (channel : String) (cursor : Int) (entries : List ChannelEntry) :
    Prop where
  sorted : entries.Pairwise fun a b => a.seq ≤ b.seq
  after : ∀ e ∈ entries, cursor < e.seq
  stored : ∀ e ∈ entries, ∃ entry, c.entries.get? (channel, e.seq) = some entry ∧
    entry.kind = e.kind
  covers : ∀ last, entries.getLast? = some last → ∀ seq entry,
    c.entries.get? (channel, seq) = some entry → cursor < seq → seq ≤ last.seq →
      ∃ e ∈ entries, e.seq = seq

theorem fetched_read (c : Channels) (channel : String) (cursor : Int) (limit : Nat) :
    Fetched c channel cursor (c.read channel cursor limit) where
  sorted := read_sorted c channel cursor limit
  after := fun _ he => (mem_read he).1
  stored := fun e he => ⟨e.toEntryRow, (mem_read he).2, rfl⟩
  covers := fun _ hlast _ _ hentry hafter hbefore => read_covers hlast hentry hafter hbefore

theorem Fetched.longer {c' : Channels} (h : Fetched c channel cursor entries)
    (hnumbered : Numbered c) (hlog : Extends channel c c') :
    Fetched c' channel cursor entries where
  sorted := h.sorted
  after := h.after
  stored := by
    intro e he
    obtain ⟨entry, hentry, hkind⟩ := h.stored e he
    obtain ⟨entry', hentry', hkind'⟩ := hlog.kept e.seq entry hentry
    exact ⟨entry', hentry', hkind'.trans hkind⟩
  covers := by
    intro last hlast seq entry' hentry' hafter hbefore
    cases hentry : c.entries.get? (channel, seq) with
    | some entry => exact h.covers last hlast seq entry hentry hafter hbefore
    | none =>
      obtain ⟨hlow, _⟩ := hlog.fresh seq entry' hentry' hentry
      obtain ⟨stored, hstored, _⟩ := h.stored last (mem_of_getLast? hlast)
      have hnext := hnumbered channel last.seq stored hstored
      omega

/-- The invariant of an orderly run that reads a channel from `start` on. -/
structure Sound (channel : String) (me : Address) (start : Int) (w : Reader) : Prop where
  numbered : Numbered w.db.channels
  ahead : w.db.channels.cursorOf channel me ≤ start ∨
    w.db.channels.cursorOf channel me < w.db.channels.nextOf channel
  counted : ∀ seq entry, w.db.channels.entries.get? (channel, seq) = some entry →
    entry.kind.isSpoken = true → start < seq → seq ≤ w.db.channels.cursorOf channel me →
      w.given seq = 1
  behind : w.db.channels.cursor? channel me ≠ none → ∀ seq,
    w.db.channels.cursorOf channel me < seq → w.given seq = 0
  fetched : ∀ r ∈ w.readings, ∀ cursor entries, r.stage = .fetched cursor entries →
    Fetched w.db.channels channel cursor entries

theorem cursorOf_markRead (c : Channels) (channel : String) (me : Address) (upto : Int) :
    (c.markRead channel me upto).cursorOf channel me =
      if c.cursor? channel me = none then -1 else max (c.cursorOf channel me) upto := by
  unfold markRead Channels.advance cursor? cursorOf
  simp only [Table.get?_modify_self]
  cases c.members.get? (channel, me) with
  | none => rfl
  | some row =>
    simp only [Option.map_some, reduceCtorEq, if_false]
    split
    · change upto = max row.cursor upto
      omega
    · omega

theorem cursor?_markRead (c : Channels) (channel : String) (me : Address) (upto : Int) :
    (c.markRead channel me upto).cursor? channel me = none ↔ c.cursor? channel me = none := by
  unfold markRead Channels.advance cursor?
  simp [Table.get?_modify_self]

theorem cursorOf_none (h : c.cursor? channel me = none) : c.cursorOf channel me = -1 := by
  rw [cursorOf_eq, h]
  rfl

theorem Sound.setStage (h : Sound channel me start w) (hget : w.readings[i]? = some r)
    (hbefore : r.pending = false) (hafter : ∀ entries, stage ≠ .marked entries)
    (hfetched : ∀ cursor entries, stage = .fetched cursor entries →
      Fetched w.db.channels channel cursor entries) :
    Sound channel me start (w.setStage i r stage) := by
  have hgiven : ∀ seq, (w.setStage i r stage).given seq = w.given seq := by
    intro seq
    apply given_setStage hget (holds_pending hbefore)
    apply holds_pending
    unfold Reading.pending
    cases r.live with
    | false => rfl
    | true =>
      cases stage with
      | marked entries => exact absurd rfl (hafter entries)
      | _ => rfl
  constructor
  · exact h.numbered
  · exact h.ahead
  · intro seq entry hentry hspoken hstart hcursor
    rw [hgiven]
    exact h.counted seq entry hentry hspoken hstart hcursor
  · intro hmember seq hseq
    rw [hgiven]
    exact h.behind hmember seq hseq
  · intro other hother cursor entries hstage
    rcases mem_or_eq_of_mem_set hother with hold | rfl
    · exact h.fetched other hold cursor entries hstage
    · exact hfetched cursor entries hstage

theorem Sound.traffic (h : Sound channel me start w)
    (htraffic : Traffic me w.db.channels db.channels) : Sound channel me start { w with db } := by
  have hcursor : db.channels.cursorOf channel me = w.db.channels.cursorOf channel me := by
    rw [cursorOf_eq, cursorOf_eq, htraffic.cursor]
  have hlog := htraffic.log channel
  constructor
  · exact h.numbered.longer htraffic.log
  · simp only [hcursor]
    have hnext := hlog.next
    rcases h.ahead with hstart | hnumber
    · exact .inl hstart
    · exact .inr (by omega)
  · intro seq entry' hentry' hspoken hstart hseq
    simp only [hcursor] at hseq
    cases hentry : w.db.channels.entries.get? (channel, seq) with
    | some entry =>
      obtain ⟨kept, hkept, hkind⟩ := hlog.kept seq entry hentry
      rw [Option.some.inj (hentry'.symm.trans hkept), hkind] at hspoken
      exact h.counted seq entry hentry hspoken hstart hseq
    | none =>
      obtain ⟨hlow, _⟩ := hlog.fresh seq entry' hentry' hentry
      rcases h.ahead with hbefore | hnumber
      · omega
      · omega
  · intro hmember seq hseq
    simp only [hcursor] at hseq
    simp only [htraffic.cursor] at hmember
    exact h.behind hmember seq hseq
  · intro r hr cursor entries hstage
    exact (h.fetched r hr cursor entries hstage).longer h.numbered hlog

theorem exec_traffic {env : TxEnv} {op : Database.Op} (hspares : op.spares me) :
    Traffic me db.channels (Database.exec (env, op) db).channels := by
  unfold Database.exec
  cases hrun : db.perform env op with
  | error error => exact Traffic.refl me _
  | ok db' =>
    cases op with
    | channel op => exact Database.performChannel_traffic hspares hrun
    | store op =>
      have hsame : db'.channels = db.channels := by
        cases op with
        | erase => cases hspares
        | _ =>
          unfold Database.perform at hrun
          simp only at hrun
          split at hrun
          · cases hrun
            rfl
          · cases hrun
      simp only
      rw [hsame]
      exact Traffic.refl me _

theorem holds_marked (hlive : r.live = true) (seq : Int) :
    holds seq { r with stage := .marked entries } = (spoken entries).any fun e => e.seq = seq := by
  simp only [holds, hlive, Bool.true_and]

theorem spoken_any : ((spoken entries).any fun e => e.seq = seq) = true ↔
      ∃ e ∈ entries, e.kind.isSpoken = true ∧ e.seq = seq := by
  simp only [spoken, any_eq_true, mem_filter, decide_eq_true_eq, and_assoc]

theorem given_mark (hget : w.readings[i]? = some r) (hstage : r.stage = .fetched cursor entries)
    (hlive : r.live = true) (seq : Int) :
    (w.setStage i r (.marked entries)).given seq =
      w.given seq + if (spoken entries).any fun e => e.seq = seq then 1 else 0 := by
  have hcount := countP_set_eq (p := holds seq) (b := { r with stage := .marked entries }) hget
  have hbefore : holds seq r = false := by
    unfold holds
    rw [hstage]
    cases r.live <;> rfl
  rw [hbefore, holds_marked hlive] at hcount
  unfold given setStage
  simp only [Bool.false_eq_true, if_false] at hcount ⊢
  omega

theorem Sound.moved {upto : Int} {readings : List Reading} (h : Sound channel me start w)
    (hnumber : upto < w.db.channels.nextOf channel)
    (hreadings : ∀ r ∈ readings, ∀ cursor entries, r.stage = .fetched cursor entries →
      r ∈ w.readings)
    (hcounted : ∀ seq entry, w.db.channels.entries.get? (channel, seq) = some entry →
      entry.kind.isSpoken = true → start < seq →
        seq ≤ (w.db.channels.markRead channel me upto).cursorOf channel me →
          Reader.given { w with readings } seq = 1)
    (hbehind : w.db.channels.cursor? channel me ≠ none → ∀ seq,
      (w.db.channels.markRead channel me upto).cursorOf channel me < seq →
        Reader.given { w with readings } seq = 0) :
    Sound channel me start
      { w with
        readings
        db := { w.db with channels := w.db.channels.markRead channel me upto } } := by
  constructor
  · exact h.numbered
  · simp only [cursorOf_markRead]
    split
    · rename_i hnone
      rw [← cursorOf_none hnone]
      exact h.ahead
    · have hahead := h.ahead
      change _ ∨ _ < w.db.channels.nextOf channel
      omega
  · exact hcounted
  · intro hmember
    exact hbehind fun hnone => hmember ((cursor?_markRead ..).mpr hnone)
  · intro r hr cursor entries hstage
    exact (h.fetched r (hreadings r hr cursor entries hstage) cursor entries hstage).longer
      h.numbered (Extends.same rfl rfl)

theorem Sound.markDead {channel : String} {me : Address} {start : Int} {w : Reader} {i : Nat}
    {r : Reading} {entries : List ChannelEntry} {last : ChannelEntry}
    (h : Sound channel me start w) (hget : w.readings[i]? = some r) (hlive : r.live = false)
    (hnumber : last.seq < w.db.channels.nextOf channel)
    (hreadings : ∀ other ∈ w.readings.set i { r with stage := .marked entries },
      ∀ cursor entries, other.stage = .fetched cursor entries → other ∈ w.readings)
    (hold : w.db.channels.cursor? channel me = none ∨
      last.seq ≤ w.db.channels.cursorOf channel me) :
    Sound channel me start
      { w.setStage i r (.marked entries) with
        db := { w.db with channels := w.db.channels.markRead channel me last.seq } } := by
  have hsame : (w.db.channels.markRead channel me last.seq).cursorOf channel me =
      w.db.channels.cursorOf channel me := by
    rw [cursorOf_markRead]
    split
    · rename_i hnone
      rw [cursorOf_none hnone]
    · rename_i hmember
      rcases hold with hnone | hle
      · exact absurd hnone hmember
      · omega
  have hgiven : ∀ seq, (w.setStage i r (.marked entries)).given seq = w.given seq := by
    intro seq
    apply given_setStage hget
    · simp only [holds, hlive, Bool.false_and]
    · simp only [holds, hlive, Bool.false_and]
  apply h.moved hnumber hreadings
  · intro seq entry hentry hspoken hstart hseq
    rw [hsame] at hseq
    exact (hgiven seq).trans (h.counted seq entry hentry hspoken hstart hseq)
  · intro hmember seq hseq
    rw [hsame] at hseq
    exact (hgiven seq).trans (h.behind hmember seq hseq)

theorem Sound.markLive {channel : String} {me : Address} {start cursor : Int} {w : Reader}
    {i : Nat} {r : Reading} {entries : List ChannelEntry} {last : ChannelEntry}
    (h : Sound channel me start w) (hget : w.readings[i]? = some r) (hlive : r.live = true)
    (hstage : r.stage = .fetched cursor entries) (hlast : entries.getLast? = some last)
    (hnumber : last.seq < w.db.channels.nextOf channel)
    (hreadings : ∀ other ∈ w.readings.set i { r with stage := .marked entries },
      ∀ cursor entries, other.stage = .fetched cursor entries → other ∈ w.readings)
    (hfrom : w.db.channels.cursorOf channel me = cursor) :
    Sound channel me start
      { w.setStage i r (.marked entries) with
        db := { w.db with channels := w.db.channels.markRead channel me last.seq } } := by
  have hfetched := h.fetched r (mem_of_getElem? hget) cursor entries hstage
  have hcount := given_mark hget hstage hlive
  apply h.moved hnumber hreadings
  · intro seq entry hentry hspoken hstart hseq
    refine (hcount seq).trans ?_
    rcases Int.lt_or_le (w.db.channels.cursorOf channel me) seq with hnew | hold
    · have hmember : w.db.channels.cursor? channel me ≠ none := by
        intro hnone
        rw [cursorOf_markRead, if_pos hnone] at hseq
        rw [cursorOf_none hnone] at hnew
        omega
      rw [cursorOf_markRead, if_neg hmember] at hseq
      obtain ⟨e, he, heq⟩ := hfetched.covers last hlast seq entry hentry (by omega) (by omega)
      obtain ⟨kept, hkept, hkind⟩ := hfetched.stored e he
      rw [heq, hentry] at hkept
      have hin : ((spoken entries).any fun e => e.seq = seq) = true := by
        refine spoken_any.mpr ⟨e, he, ?_, heq⟩
        rw [← hkind, ← Option.some.inj hkept]
        exact hspoken
      rw [h.behind hmember seq hnew, if_pos hin]
    · have hout : ((spoken entries).any fun e => e.seq = seq) = false := by
        rw [Bool.eq_false_iff]
        intro hin
        obtain ⟨e, he, _, heq⟩ := spoken_any.mp hin
        have hafter := hfetched.after e he
        omega
      rw [h.counted seq entry hentry hspoken hstart hold, hout]
      rfl
  · intro hmember seq hseq
    rw [cursorOf_markRead, if_neg hmember] at hseq
    have hout : ((spoken entries).any fun e => e.seq = seq) = false := by
      rw [Bool.eq_false_iff]
      intro hin
      obtain ⟨e, he, _, heq⟩ := spoken_any.mp hin
      have hle := le_getLast hfetched.sorted hlast he
      omega
    refine (hcount seq).trans ?_
    rw [h.behind hmember seq (by omega), hout]
    rfl

theorem Sound.mark (h : Sound channel me start w) (horderly : Orderly channel me w (.mark i)) :
    Sound channel me start (w.mark channel me i) := by
  unfold Reader.mark
  cases hget : w.readings[i]? with
  | none => exact h
  | some r =>
    cases hstage : r.stage with
    | looked | marked | finished =>
      simp only [hstage]
      exact h
    | fetched cursor entries =>
      simp only [hstage]
      cases hlast : entries.getLast? with
      | none => exact h
      | some last =>
        have hfetched := h.fetched r (mem_of_getElem? hget) cursor entries hstage
        obtain ⟨stored, hstored, _⟩ := hfetched.stored last (mem_of_getLast? hlast)
        have hnumber := h.numbered channel last.seq stored hstored
        have hreadings : ∀ other ∈ w.readings.set i { r with stage := .marked entries },
            ∀ cursor entries, other.stage = .fetched cursor entries → other ∈ w.readings := by
          intro other hother cursor' entries' hother'
          rcases mem_or_eq_of_mem_set hother with hold | rfl
          · exact hold
          · cases hother'
        have hguard := horderly r cursor entries last hget hstage hlast
        cases hlive : r.live with
        | false =>
          rw [hlive] at hguard
          exact h.markDead hget hlive hnumber hreadings hguard
        | true =>
          rw [hlive, if_pos rfl] at hguard
          exact h.markLive hget hlive hstage hlast hnumber hreadings hguard

theorem given_record (hget : w.readings[i]? = some r) {result : List ChannelEntry}
    (hsame : holds seq r = result.any fun e => e.seq = seq) :
    Reader.given { w.setStage i r .finished with results := w.results ++ [(r.call, result)] } seq =
      w.given seq := by
  have hcount := countP_set_eq (p := holds seq) (b := { r with stage := .finished }) hget
  have hover : holds seq { r with stage := .finished } = false := by
    unfold holds
    cases r.live <;> rfl
  rw [hover, hsame] at hcount
  unfold given setStage
  simp only [countP_append, countP_cons, countP_nil, Bool.false_eq_true, if_false] at hcount ⊢
  omega

theorem Sound.of_given {w' : Reader} (h : Sound channel me start w) (hdb : w'.db = w.db)
    (hgiven : ∀ seq, w'.given seq = w.given seq)
    (hfetched : ∀ r ∈ w'.readings, ∀ cursor entries, r.stage = .fetched cursor entries →
      Fetched w.db.channels channel cursor entries) : Sound channel me start w' := by
  constructor <;> rw [hdb]
  · exact h.numbered
  · exact h.ahead
  · intro seq entry hentry hspoken hstart hseq
    exact (hgiven seq).trans (h.counted seq entry hentry hspoken hstart hseq)
  · intro hmember seq hseq
    exact (hgiven seq).trans (h.behind hmember seq hseq)
  · exact hfetched

theorem Sound.record (h : Sound channel me start w) : Sound channel me start (w.record i) := by
  have hmoved : ∀ r result, w.readings[i]? = some r →
      (∀ seq, holds seq r = result.any fun e => e.seq = seq) →
      Sound channel me start
        { w.setStage i r .finished with results := w.results ++ [(r.call, result)] } := by
    intro r result hget hsame
    refine h.of_given rfl (fun seq => given_record hget (hsame seq)) ?_
    intro other hother cursor entries hstage
    rcases mem_or_eq_of_mem_set hother with hold | rfl
    · exact h.fetched other hold cursor entries hstage
    · cases hstage
  unfold Reader.record
  cases hget : w.readings[i]? with
  | none => exact h
  | some r =>
    simp only
    cases hlive : r.live with
    | false => exact h
    | true =>
      simp only [if_true]
      cases hstage : r.stage with
      | looked | finished => exact h
      | fetched cursor entries =>
        cases entries with
        | nil =>
          apply hmoved r [] hget
          intro seq
          simp only [holds, hstage, Bool.and_false, any_nil]
        | cons first rest => exact h
      | marked entries =>
        apply hmoved r (spoken entries) hget
        intro seq
        simp only [holds, hstage, hlive, Bool.true_and]

theorem Sound.cut (h : Sound channel me start w) (hrest : w.AtRest) :
    Sound channel me start w.cut := by
  have hdead : w.cut.AtRest := by
    intro r hr
    obtain ⟨old, _, rfl⟩ := mem_map.mp hr
    rfl
  have hgiven : ∀ seq, w.cut.given seq = w.given seq := by
    intro seq
    rw [given_rest hdead, given_rest hrest]
    rfl
  refine h.of_given rfl hgiven ?_
  intro r hr cursor entries hstage
  obtain ⟨old, hold, rfl⟩ := mem_map.mp hr
  exact h.fetched old hold cursor entries hstage

theorem Sound.look {call : String} (h : Sound channel me start w) :
    Sound channel me start (w.look channel me call) := by
  unfold Reader.look
  split
  · exact h
  have hgiven : ∀ seq, Reader.given { w with
      readings := w.readings ++
        [{ call, stage := .looked (w.db.channels.cursorOf channel me) }] } seq = w.given seq := by
    intro seq
    unfold given
    simp only [countP_append, countP_cons, countP_nil]
    rfl
  refine h.of_given rfl hgiven ?_
  intro r hr cursor entries hstage
  rcases mem_append.mp hr with hold | hnew
  · exact h.fetched r hold cursor entries hstage
  · rw [mem_singleton.mp hnew] at hstage
    cases hstage

theorem sound_step (label : ReaderStep) (h : Sound channel me start w)
    (hallowed : Allowed me label) (horderly : Orderly channel me w label) :
    Sound channel me start (step channel me label w) := by
  cases label with
  | traffic env op => exact h.traffic (exec_traffic hallowed)
  | look call => exact h.look
  | fetch i limit =>
    change Sound channel me start (w.fetch channel i limit)
    unfold Reader.fetch
    cases hget : w.readings[i]? with
    | none => exact h
    | some r =>
      cases hstage : r.stage with
      | fetched | marked | finished =>
        simp only [hstage]
        exact h
      | looked cursor =>
        simp only [hstage]
        apply h.setStage hget
        · unfold Reading.pending
          rw [hstage]
          cases r.live <;> rfl
        · intro entries heq
          cases heq
        · intro cursor' entries heq
          cases heq
          exact fetched_read ..
  | mark i => exact h.mark horderly
  | record i => exact h.record
  | fail i =>
    change Sound channel me start (w.fail i)
    unfold Reader.fail
    cases hget : w.readings[i]? with
    | none => exact h
    | some r =>
      apply h.setStage hget (horderly r hget)
      · intro entries heq
        cases heq
      · intro cursor entries heq
        cases heq
  | cut => exact h.cut horderly

/-- In every orderly run, each message or notice written after the agent's
initial cursor is, whenever no attempt is about to record, still after the
cursor or in exactly one recorded result. -/
theorem read_loses_nothing {db : Database} (h : Database.Calls {} db) {channel : String}
    {me : Address} {w : Reader}
    (hrun : OrderlyRuns channel me { db } w)
    (hrest : w.AtRest) : Accounted channel me (db.channels.cursorOf channel me) w := by
  have hinit : Sound channel me (db.channels.cursorOf channel me) { db } := by
    constructor
    · exact Database.numbered_reachable h
    · exact .inl (Int.le_refl _)
    · intro seq entry _ _ hstart hseq
      simp only at hseq
      omega
    · intro _ seq _
      rfl
    · intro r hr
      cases hr
  have hsound := Steps.invariant (P := Sound channel me (db.channels.cursorOf channel me))
    (fun w label hw hok => sound_step label hw hok.1 hok.2) hrun hinit
  intro seq entry hentry hspoken hstart
  rcases Int.lt_or_le (w.db.channels.cursorOf channel me) seq with hafter | hbefore
  · exact .inl hafter
  · right
    rw [← given_rest hrest]
    exact hsound.counted seq entry hentry hspoken hstart hbefore

private def spokenTo : Database :=
  Database.exec (.plain 0, .channel (.append "c" { sender := "user/u", text := "hi" }))
    (Database.exec (.plain 0,
      .channel (.openChannel "c" "default" [{ agent := "a", mode := .muted }] 40 0)) {})

private theorem spokenTo_reachable : Database.Calls {} spokenTo :=
  (Steps.single _ trivial).trans (Steps.single _ trivial)

private def heard : Reader :=
  step "c" "a" (.record 0) (step "c" "a" (.mark 0) (step "c" "a" (.fetch 0 200)
    (step "c" "a" (.look "read") { db := spokenTo })))

private theorem orderly_next (h : OrderlyRuns channel me w w') (label : ReaderStep)
    (hallowed : Allowed me label) (horderly : Orderly channel me w' label) :
    OrderlyRuns channel me w (step channel me label w') :=
  Steps.next h label ⟨hallowed, horderly⟩

theorem read_loses_nothing_heard :
    Accounted "c" "a" (-1) heard ∧ heard.results.map (fun result => result.2.map (·.text)) =
      [["hi"]] := by
  have hfetched : OrderlyRuns "c" "a" { db := spokenTo } (step "c" "a" (.fetch 0 200)
      (step "c" "a" (.look "read") { db := spokenTo })) :=
    orderly_next (orderly_next (Steps.refl _) (.look "read") trivial trivial) (.fetch 0 200)
      trivial trivial
  have hmark : Orderly "c" "a" (step "c" "a" (.fetch 0 200)
      (step "c" "a" (.look "read") { db := spokenTo })) (.mark 0) := by
    intro r cursor entries last hget hstage hlast
    cases hget
    cases hstage
    rw [if_pos rfl]
    rfl
  have hrun : OrderlyRuns "c" "a" { db := spokenTo } heard :=
    orderly_next (orderly_next hfetched (.mark 0) trivial hmark) (.record 0) trivial trivial
  have hrest : heard.AtRest := by
    unfold AtRest
    decide
  exact ⟨read_loses_nothing spokenTo_reachable hrun hrest, by decide⟩

/-- The first attempt ends after it moved the cursor, and the second finds
nothing to read. -/
private def missed : Reader :=
  step "c" "a" (.record 1) (step "c" "a" (.fetch 1 200) (step "c" "a" (.look "read")
    (step "c" "a" .cut (step "c" "a" (.mark 0) (step "c" "a" (.fetch 0 200)
      (step "c" "a" (.look "read") { db := spokenTo }))))))

private theorem runs_next (h : Runs channel me w w') (label : ReaderStep)
    (hallowed : Allowed me label) : Runs channel me w (step channel me label w') :=
  Steps.next h label hallowed

/-- A message is in no recorded result and not after the cursor. -/
theorem read_loses_message : ¬ ∀ (db : Database), Database.Calls {} db →
    ∀ (channel : String) (me : Address) (w : Reader), Runs channel me { db } w → w.AtRest →
      Accounted channel me (db.channels.cursorOf channel me) w := by
  intro h
  have hcut : Runs "c" "a" { db := spokenTo } (step "c" "a" .cut (step "c" "a" (.mark 0)
      (step "c" "a" (.fetch 0 200) (step "c" "a" (.look "read") { db := spokenTo })))) :=
    runs_next (runs_next (runs_next (runs_next (Steps.refl _) (.look "read") trivial)
      (.fetch 0 200) trivial) (.mark 0) trivial) .cut trivial
  have hrun : Runs "c" "a" { db := spokenTo } missed :=
    runs_next (runs_next (runs_next hcut (.look "read") trivial) (.fetch 1 200) trivial)
      (.record 1) trivial
  have hrest : missed.AtRest := by
    unfold AtRest
    decide
  have hfound : (missed.db.channels.entries.get? ("c", 0)).any (·.kind.isSpoken) = true := by
    decide
  obtain ⟨entry, hentry, hspoken⟩ := (Option.any_eq_true ..).mp hfound
  rcases h spokenTo spokenTo_reachable "c" "a" missed hrun hrest 0 entry hentry hspoken
    (by decide) with hafter | honce
  · exact absurd hafter (by decide)
  · exact absurd honce (by decide)

end Reader

end Substrate
