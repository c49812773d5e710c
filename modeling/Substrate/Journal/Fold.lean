import Mathlib.Logic.Function.Basic
import Std.Data.String.ToNat
import Substrate.Types

/-!
What a journal remembers. Every attempt of a run starts by folding the run's durable
record into two dictionaries: what is known about each effect id, and which kind and
digest were recorded at each path. `foldEntry` reads the entries as they are stored, key
by key.
-/

namespace Substrate

open List

/-- A path stack, innermost scope first: each number is the index of the next
call in its scope. -/
abbrev PathStack := List Nat

def pathText (path : List Nat) : String := ".".intercalate (path.map toString)

def advance : PathStack → Nat → PathStack
  | [], _ => []
  | top :: outer, n => (top + n) :: outer

/-- The stack after `alloc_path`. -/
def nextStack (stack : PathStack) : PathStack := advance stack 1

/-- The stack on which the body of a call runs: `enter_scope`, after the call
has taken its path. -/
def bodyStack (stack : PathStack) : PathStack := 0 :: nextStack stack

private theorem dot_notMem_toString (n : Nat) : '.' ∉ (toString n).toList := by
  intro hdot
  have hdigit : ('.' : Char).isDigit = true := by
    apply Nat.isDigit_of_mem_toDigits (b := 10) (n := n) (by omega) (by omega)
    simpa [toString, Nat.repr] using hdot
  exact absurd hdigit (by decide)

theorem pathText_injective : Function.Injective pathText := by
  have hsplit : ∀ p : List Nat, ((pathText p).split '.').toList.map (·.copy) =
      if p = [] then [""] else p.map toString := by
    intro p
    have hdots : ∀ t ∈ p.map toString, '.' ∉ t.toList := by
      intro t ht
      obtain ⟨n, _, rfl⟩ := mem_map.mp ht
      exact dot_notMem_toString n
    have hparts := String.toList_split_intercalate hdots
    simp only [map_eq_nil_iff] at hparts
    exact hparts
  have hempty : ∀ p : List Nat, [""] ≠ p.map toString := by
    intro p heq
    obtain ⟨n, _, hn⟩ := mem_map.mp (heq ▸ mem_singleton_self "")
    exact absurd (congrArg String.length hn) (by simp [toString, Nat.repr])
  intro path path' h
  have hparts := (hsplit path).symm.trans (h ▸ hsplit path')
  by_cases hnil : path = [] <;> by_cases hnil' : path' = []
  · rw [hnil, hnil']
  · rw [if_pos hnil, if_neg hnil'] at hparts
    exact absurd hparts (hempty path')
  · rw [if_neg hnil, if_pos hnil'] at hparts
    exact absurd hparts.symm (hempty path)
  · rw [if_neg hnil, if_neg hnil'] at hparts
    exact map_injective_iff.mpr (fun m n hmn => Nat.repr_injective hmn) hparts

inductive KnownState where
  | completed
  | pending
  | absent
  deriving DecidableEq, Repr

/-- What the record says about one effect id: `_Known`. -/
structure Known where
  state : KnownState
  kind : String := ""
  digest : String := ""
  value : Option JsonObject := none
  artifactRef : Option String := none

/-- The dictionaries `_known` and `_by_path`. -/
structure Memory where
  known : String → Option Known := fun _ => none
  byPath : String → Option (String × String) := fun _ => none

namespace Memory

def setKnown (m : Memory) (id : String) (known : Known) : Memory :=
  { m with known := Function.update m.known id (some known) }

def setPath (m : Memory) (path : String) (prior : String × String) : Memory :=
  { m with byPath := Function.update m.byPath path (some prior) }

@[simp] theorem setKnown_known_self (m : Memory) (id : String) (known : Known) :
    (m.setKnown id known).known id = some known := Function.update_self ..

variable {other : String}

@[simp] theorem setKnown_known_of_ne (m : Memory) {id : String} (known : Known) (hne : other ≠ id) :
    (m.setKnown id known).known other = m.known other :=
  Function.update_of_ne hne ..

@[simp] theorem setKnown_byPath (m : Memory) (id : String) (known : Known) :
    (m.setKnown id known).byPath = m.byPath := rfl

@[simp] theorem setPath_byPath_self (m : Memory) (path : String) (prior : String × String) :
    (m.setPath path prior).byPath path = some prior := Function.update_self ..

@[simp] theorem setPath_byPath_of_ne (m : Memory) {path : String} (prior : String × String)
    (hne : other ≠ path) :
    (m.setPath path prior).byPath other = m.byPath other := Function.update_of_ne hne ..

@[simp] theorem setPath_known (m : Memory) (path : String) (prior : String × String) :
    (m.setPath path prior).known = m.known := rfl

/-- A step that a later attempt must not take for one that never ran. -/
def Holds (m : Memory) (id : String) : Prop :=
  ∃ known, m.known id = some known ∧ (known.state = .completed ∨ known.state = .pending)

end Memory

/-- A `KeyError`: the entry lacks a field that the fold subscripts. -/
inductive FoldError where
  | keyError (key : String)
  deriving DecidableEq, Repr

/-- `payload[key]`, for a field that holds text. -/
def JsonObject.require (fields : JsonObject) (key : String) : Except FoldError String :=
  match fields.text? key with
  | some value => .ok value
  | none => .error (.keyError key)

/-- `payload.get(key) or {}`. -/
def JsonObject.object (fields : JsonObject) (key : String) : JsonObject :=
  match fields.lookup key with
  | some (.obj value) => value
  | _ => []

/-- `_fold`. -/
def foldEntry (m : Memory) (entryKind : String) (payload : JsonObject) :
    Except FoldError Memory := do
  if entryKind = "effect.intent" then
    let effectId ← payload.require "effect_id"
    let path ← payload.require "path"
    let kind ← payload.require "kind"
    let digest ← payload.require "digest"
    let m' := m.setPath path (kind, digest)
    if (m'.known effectId).any (·.state = .completed) then return m'
    return m'.setKnown effectId { state := .pending, kind, digest }
  else if entryKind = "effect.result" then
    let effectId ← payload.require "effect_id"
    let status ← payload.require "status"
    if status = "ok" then
      let known := m.known effectId
      let kind := (payload.text? "kind").getD ""
      let digest := (payload.text? "digest").getD ""
      let m' := m.setKnown effectId
        { state := .completed
          kind := (known.map (·.kind)).getD kind
          digest := (known.map (·.digest)).getD digest
          value := some (payload.object "value")
          artifactRef := payload.text? "artifact_ref" }
      match payload.text? "path" with
      | some path => return m'.setPath path (kind, digest)
      | none => return m'
    else return m.setKnown effectId { state := .absent }
  else return m

/-- `Journal.__init__`: the durable entries in order. -/
def foldEntries (entries : List NewEntry) : Except FoldError Memory :=
  entries.foldlM (fun m entry => foldEntry m entry.kind entry.payload) {}

/-- A journaled call as it is identified: its path, its kind, the digest of its
arguments and its effect id. -/
structure CallId where
  id : String
  path : String
  kind : String
  digest : String
  deriving DecidableEq, Repr

/-- A recorded value, in place or as a reference into the blob store. -/
inductive Stored where
  | value (value : JsonObject)
  | ref (ref : String)

/-- The value an entry or a `_Known` holds in place. -/
def Stored.inline : Stored → JsonObject
  | .value held => held
  | .ref _ => []

def Stored.artifactRef : Stored → Option String
  | .value _ => none
  | .ref name => some name

/-- The journal's entries: the intent of a step, and its outcome. `once` marks
the outcome of an atomic step, which carries a dedup key. -/
inductive Record where
  | intent (call : CallId) (idempotent : Bool)
  | ok (call : CallId) (stored : Stored) (once : Bool)
  | failed (id : String) (error : ErrorInfo)
  | aborted (id : String) (reason : String)

namespace Record

def id : Record → String
  | intent call _ | ok call _ _ => call.id
  | failed id _ | aborted id _ => id

def call? : Record → Option CallId
  | intent call _ | ok call _ _ => some call
  | failed _ _ | aborted _ _ => none

def isEnd : Record → Bool
  | failed _ _ | aborted _ _ => true
  | intent _ _ | ok _ _ _ => false

def isOutcome : Record → Bool
  | intent _ _ => false
  | ok _ _ _ | failed _ _ | aborted _ _ => true

def dedupKey : Record → Option String
  | ok call _ true => some ("effect:" ++ call.id)
  | _ => none

def entry : Record → NewEntry
  | intent call idempotent =>
    { kind := "effect.intent"
      payload := [("effect_id", .str call.id), ("path", .str call.path),
        ("kind", .str call.kind), ("digest", .str call.digest),
        ("idempotent", .bool idempotent)] }
  | ok call stored once =>
    { kind := "effect.result"
      payload := [("effect_id", .str call.id), ("path", .str call.path),
        ("kind", .str call.kind), ("digest", .str call.digest), ("status", .str "ok"),
        match stored with
        | .value value => ("value", .obj value)
        | .ref ref => ("artifact_ref", .str ref)]
      dedupKey := (ok call stored once).dedupKey }
  | failed id error =>
    { kind := "effect.result"
      payload := [("effect_id", .str id), ("status", .str "error"), ("error", error.dump)] }
  | aborted id reason =>
    { kind := "effect.result"
      payload := [("effect_id", .str id), ("status", .str "aborted"),
        ("reason", .str reason)] }

end Record

namespace Memory

/-- What the fold learns from one of the journal's entries. -/
def learn (m : Memory) : Record → Memory
  | .intent call _ =>
    let m' := m.setPath call.path (call.kind, call.digest)
    if (m.known call.id).any (·.state = .completed) then m'
    else m'.setKnown call.id
      { state := .pending, kind := call.kind, digest := call.digest }
  | .ok call stored _ =>
    (m.setKnown call.id
      { state := .completed
        kind := ((m.known call.id).map (·.kind)).getD call.kind
        digest := ((m.known call.id).map (·.digest)).getD call.digest
        value := some stored.inline
        artifactRef := stored.artifactRef }).setPath call.path (call.kind, call.digest)
  | .failed id _ | .aborted id _ => m.setKnown id { state := .absent }

def ofLog (log : List Record) : Memory := log.foldl learn {}

end Memory

namespace Memory

theorem ofLog_append (log more : List Record) :
    ofLog (log ++ more) = more.foldl learn (ofLog log) := foldl_append ..

@[simp] theorem ofLog_append_singleton (log : List Record) (r : Record) :
    ofLog (log ++ [r]) = (ofLog log).learn r := ofLog_append log [r]

variable {r : Record} {id : String} {call : CallId}

theorem learn_known_of_ne (m : Memory) (hne : id ≠ r.id) : (m.learn r).known id = m.known id := by
  cases r with
  | intent call idempotent =>
    simp only [Record.id] at hne
    simp only [learn]
    split
    · rfl
    · simp [hne]
  | ok call stored once | failed other error | aborted other reason =>
    simp only [Record.id] at hne
    simp [learn, hne]

theorem learn_byPath_of_ne (m : Memory) {path : String}
    (hne : ∀ call, r.call? = some call → path ≠ call.path) :
    (m.learn r).byPath path = m.byPath path := by
  cases r with
  | intent call idempotent =>
    have hpath := hne call rfl
    simp only [learn]
    split <;> simp [hpath]
  | ok call stored once =>
    have hpath := hne call rfl
    simp [learn, hpath]
  | failed other error | aborted other reason => rfl

theorem learn_byPath_self (m : Memory) (hcall : r.call? = some call) :
    (m.learn r).byPath call.path = some (call.kind, call.digest) := by
  cases r with
  | intent other idempotent =>
    cases hcall
    simp only [learn]
    split <;> simp
  | ok other stored once =>
    cases hcall
    simp [learn]
  | failed other error | aborted other reason => cases hcall

theorem holds_learn_call (m : Memory) (hcall : r.call? = some call) : (m.learn r).Holds r.id := by
  cases r with
  | intent other idempotent =>
    simp only [learn, Record.id]
    split
    · rename_i hdone
      cases hknown : m.known other.id with
      | none => simp [hknown] at hdone
      | some known =>
        rw [hknown, Option.any_some, decide_eq_true_eq] at hdone
        exact ⟨known, hknown, Or.inl hdone⟩
    · exact ⟨_, setKnown_known_self .., Or.inr rfl⟩
  | ok other stored once => exact ⟨_, setKnown_known_self .., Or.inl rfl⟩
  | failed other error | aborted other reason => cases hcall

theorem Holds.learn {m : Memory} (h : m.Holds id) (hend : r.isEnd = true → r.id ≠ id) :
    (m.learn r).Holds id := by
  by_cases hid : id = r.id
  · subst hid
    cases r with
    | intent call idempotent | ok call stored once => exact holds_learn_call m rfl
    | failed other error | aborted other reason => exact absurd rfl (hend rfl)
  · obtain ⟨known, hknown, hstate⟩ := h
    exact ⟨known, by rw [learn_known_of_ne m hid, hknown], hstate⟩

end Memory

theorem foldEntry_entry (m : Memory) (r : Record) :
    foldEntry m r.entry.kind r.entry.payload = .ok (m.learn r) := by
  have hbind : ∀ {α β : Type} (a : α) (f : α → Except FoldError β), (Except.ok a >>= f) = f a :=
    fun _ _ => rfl
  cases r with
  | intent call idempotent =>
    cases hdone : (m.known call.id).any (·.state = .completed) <;>
      simp [foldEntry, Record.entry, JsonObject.require, JsonObject.text?, lookup_cons, hbind,
        Memory.learn, hdone, pure, Except.pure]
  | ok call stored once =>
    cases stored <;>
      simp [foldEntry, Record.entry, JsonObject.require, JsonObject.text?, JsonObject.object,
        lookup_cons, hbind, Memory.learn, Stored.inline, Stored.artifactRef, pure, Except.pure]
  | failed id error | aborted id reason =>
    simp [foldEntry, Record.entry, JsonObject.require, JsonObject.text?, lookup_cons, hbind,
      Memory.learn, pure, Except.pure]

def NewEntry.isEffect (entry : NewEntry) : Bool :=
  entry.kind = "effect.intent" || entry.kind = "effect.result"

theorem foldEntries_journal {entries : List NewEntry} {log : List Record}
    (h : entries.filter NewEntry.isEffect = log.map Record.entry) :
    foldEntries entries = .ok (.ofLog log) := by
  unfold foldEntries Memory.ofLog
  generalize ({} : Memory) = m
  induction entries generalizing log m with
  | nil =>
    cases log with
    | nil => rfl
    | cons r log => cases h
  | cons entry entries ih =>
    rw [foldlM_cons]
    cases heffect : entry.isEffect with
    | false =>
      rw [filter_cons_of_neg (by simp [heffect])] at h
      have hskip : foldEntry m entry.kind entry.payload = .ok m := by
        simp only [NewEntry.isEffect, Bool.or_eq_false_iff, decide_eq_false_iff_not] at heffect
        rw [foldEntry, if_neg heffect.1, if_neg heffect.2]
        rfl
      rw [hskip]
      exact ih h m
    | true =>
      rw [filter_cons_of_pos heffect] at h
      cases log with
      | nil => cases h
      | cons r log =>
        obtain ⟨rfl, hrest⟩ := cons.inj h
        rw [foldEntry_entry]
        exact ih hrest (m.learn r)

theorem foldEntries_step :
    let call : CallId := ⟨"e", "0", "tool.call", "d"⟩
    foldEntries [(Record.intent call false).entry, { kind := "llm.call" },
      (Record.ok call (.ref "blob") false).entry] =
        .ok (.ofLog [.intent call false, .ok call (.ref "blob") false]) :=
  foldEntries_journal rfl

end Substrate
