import Mathlib.Data.List.DropRight
import Substrate.Lib.Table
import Substrate.Lib.Transition
import Substrate.Types

/-!
An issuer's public keys as `jwks.py` holds them. They are read again when a token names an
unknown key or the set has aged, never more often than `min_refresh`; they stay in use while
the issuer cannot be reached, for `stale_seconds`, and then the source fails closed.
-/

namespace Substrate.Identity.Jwks

open Lib List Option

/-- An exception, by the classes that `key_for` tells apart. -/
inductive Raised where
  | http
  | value
  | key
  | jwt
  | other (name : String)
  deriving DecidableEq, Repr

/-- The classes that `key_for` takes for a failed refresh. -/
def Raised.caught : Raised → Bool
  | .other _ => false
  | _ => true

/-- `json` is what `response.json()` returns or raises. -/
structure Response where
  status : Nat
  size : Nat
  json : Except Raised Json

abbrev Exchange := Except Raised Response

def allowedAlgorithms : List String := ["RS256", "ES256", "EdDSA"]

def maxBytes : Nat := 256 * 1024

/-- What both readers do with a response before they look at the document. -/
def Exchange.document (exchange : Exchange) : Except Raised Json := do
  let response ← exchange
  if 200 ≤ response.status ∧ response.status < 300 then
    if maxBytes < response.size then .error .value else response.json
  else .error .http

def checkUrl (insecureHttp : Bool) (url : String) : Except Raised String :=
  if "https://".toList.isPrefixOf url.toList ||
      insecureHttp && "http://".toList.isPrefixOf url.toList then .ok url
  else .error .value

/-- `.get(key)`, which only an object has. -/
def fieldOf (document : Json) (key : String) : Except Raised (Option Json) :=
  match document with
  | .obj fields => .ok (fields.lookup key)
  | _ => .error (.other "AttributeError")

def discoverJwksUri (issuer : String) (insecureHttp : Bool) (exchange : Exchange) :
    Except Raised String := do
  let base := String.ofList (issuer.toList.rdropWhile (· = '/'))
  let _ ← checkUrl insecureHttp (base ++ "/.well-known/openid-configuration")
  let document ← exchange.document
  match ← fieldOf document "issuer" with
  | some (.str named) =>
    if named = issuer then
      match ← fieldOf document "jwks_uri" with
      | some (.str uri) => .ok uri
      | some _ => .error .value  -- its text is no URL
      | none => .error .key
    else .error .value
  | _ => .error .value

inductive JwksUrl where
  | fixed (url : String)
  | discovered (issuer : String)

structure JwksSource where
  url : JwksUrl
  algorithms : List String := allowedAlgorithms
  insecureHttp : Bool := false
  ttl : Int := 300
  minRefresh : Int := 30
  stale : Int := 3600
  allowed : algorithms ≠ [] ∧ ∀ a ∈ algorithms, a ∈ allowedAlgorithms
  checked : ∀ u, url = .fixed u → checkUrl insecureHttp u = .ok u

/-- A key id is a text; `none` is a number or `true`, which no token names. -/
abbrev Keys (Key : Type) := Table (Option String) (Key × Option String)

/-- `jwk.key_id or ""`, as a key of a dictionary. -/
def keyId (fields : JsonObject) : Except Raised (Option String) :=
  match fields.lookup "kid" with
  | none | some .null | some (.bool false) | some (.num 0) | some (.arr []) | some (.obj []) =>
    .ok (some "")
  | some (.str kid) => .ok (some kid)
  | some (.bool true) | some (.num _) => .ok none
  | some (.arr _) | some (.obj _) => .error (.other "TypeError")

/-- `for entry in document.get("keys", [])`. -/
def entriesOf (document : Json) : Except Raised (List Json) := do
  match (← fieldOf document "keys").getD (.arr []) with
  | .arr items => .ok items
  | .str text => .ok (text.toList.map fun c => .str (String.singleton c))
  | .obj fields => .ok (fields.map fun field => .str field.1)
  | _ => .error (.other "TypeError")

/-- One call of `key_for`: the token's header, how the clock moves on before and between its
readings, and what the two requests bring back when they are made. -/
structure Visit where
  kid : String
  alg : Option String
  wait : Nat
  start : Nat := 0
  fetch : Nat := 0
  finish : Nat := 0
  discovery : Exchange := .error .http
  answer : Exchange

structure State (Key : Type) where
  keys : Keys Key := .empty
  fetched : Option Int := none
  attempted : Option Int := none
  clock : Int

inductive Outcome (Key : Type) where
  | found (key : Key)
  | identityProviderUnavailable (message : String)
  | invalidToken (message : String)
  | raised (e : Raised)
  deriving DecidableEq

def Visit.now (v : Visit) (clock : Int) : Int := clock + v.wait

def Visit.attempted (v : Visit) (clock : Int) : Int := v.now clock + v.start

def Visit.fetched (v : Visit) (clock : Int) : Int := v.attempted clock + v.fetch

def Visit.checked (v : Visit) (clock : Int) : Int := v.fetched clock + v.finish

/-- `now - mark > span`, where no mark is minus infinity. -/
def older (mark : Option Int) (now span : Int) : Bool :=
  mark.all fun time => span < now - time

/-- `now - mark >= span`. -/
def rested (mark : Option Int) (now span : Int) : Bool :=
  mark.all fun time => span ≤ now - time

namespace JwksSource

variable {Key : Type} (source : JwksSource) (pyJWK : JsonObject → Except Raised Key)

def resolveUrl (discovery : Exchange) : Except Raised String :=
  match source.url with
  | .fixed url => checkUrl source.insecureHttp url
  | .discovered issuer =>
    discoverJwksUri issuer source.insecureHttp discovery >>= checkUrl source.insecureHttp

/-- `value in (None, *values)`. -/
def oneOf (values : List String) : Option Json → Bool
  | none | some .null => true
  | some (.str value) => value ∈ values
  | some _ => false

/-- The entry names no algorithm or one that is allowed, and is not marked for encryption. -/
def admits (fields : JsonObject) : Bool :=
  oneOf source.algorithms (fields.lookup "alg") && oneOf ["sig"] (fields.lookup "use")

def readEntry : Json → Except Raised (Option (Option String × Key × Option String))
  | .obj fields =>
    if source.admits fields then
      match pyJWK fields with
      | .ok key => (keyId fields).map fun kid => some (kid, key, JsonObject.text? fields "alg")
      | .error .jwt => .ok none
      | .error e => .error e
    else .ok none
  | _ => .error (.other "AttributeError")

def readEntries (keys : Keys Key) : List Json → Except Raised (Keys Key)
  | [] => .ok keys
  | entry :: rest =>
    match source.readEntry pyJWK entry with
    | .error e => .error e
    | .ok none => readEntries keys rest
    | .ok (some (kid, key)) => readEntries (keys.upsert kid key fun _ => key) rest

def document (v : Visit) : Except Raised Json := do
  let _ ← source.resolveUrl v.discovery
  v.answer.document

/-- The document and the keys read from it. -/
def fetchKeys (v : Visit) : Except Raised (Json × Keys Key) := do
  let document ← source.document v
  let entries ← entriesOf document
  let keys ← source.readEntries pyJWK .empty entries
  pure (document, keys)

def refresh (s : State Key) (v : Visit) : State Key × Option Raised :=
  let s := { s with attempted := some (v.attempted s.clock) }
  match source.fetchKeys pyJWK v with
  | .ok (_, keys) => ({ s with keys, fetched := some (v.fetched s.clock) }, none)
  | .error e => (s, some e)

def due (s : State Key) (v : Visit) : Bool :=
  ((s.keys.get? (some v.kid)).isNone || older s.fetched (v.now s.clock) source.ttl) &&
    rested s.attempted (v.now s.clock) source.minRefresh

def judge (s : State Key) (v : Visit) (now : Int) : Outcome Key :=
  if s.keys.rows.isEmpty || older s.fetched now source.stale then
    .identityProviderUnavailable "Cannot reach the token issuer's key endpoint"
  else
    match s.keys.get? (some v.kid) with
    | none => .invalidToken "Access token rejected: unknown signing key"
    | some (key, alg) =>
      if alg.isSome && v.alg ≠ alg then
        .invalidToken "Access token rejected: algorithm does not match the key"
      else .found key

def attempt (s : State Key) (v : Visit) : State Key × Option Raised :=
  if source.due s v then source.refresh pyJWK s v else (s, none)

def keyFor (s : State Key) (v : Visit) : State Key × Outcome Key :=
  let (t, raised) := source.attempt pyJWK s v
  ({ t with clock := v.checked s.clock },
    match raised.filter fun e => !e.caught with
    | some e => .raised e
    | none => source.judge t v (v.checked s.clock))

/-- A call and the state it was made in. -/
structure Call (Key : Type) where
  before : State Key
  visit : Visit

/-- The calls, the newest first, and the state they lead to. -/
def run (clock : Int) : List Visit → List (Call Key) × State Key
  | [] => ([], { clock })
  | v :: earlier =>
    let (calls, s) := run clock earlier
    (⟨s, v⟩ :: calls, (source.keyFor pyJWK s v).1)

/-- The document publishes a key under an id, for signatures and for `alg`. -/
def Offers (document : Json) (kid : String) (key : Key) (alg : Option String) : Prop :=
  ∃ entries fields, entriesOf document = .ok entries ∧ .obj fields ∈ entries ∧
    source.admits fields = true ∧ pyJWK fields = .ok key ∧ keyId fields = .ok (some kid) ∧
    JsonObject.text? fields "alg" = alg

/-- What an entry gives for a key id. -/
def offer (kid : Option String) (entry : Json) : Option (Key × Option String) :=
  match source.readEntry pyJWK entry with
  | .ok (some found) => if kid = found.1 then some found.2 else none
  | _ => none

/-- The document and the time of a call's fetch, if it made one and read it to the end. -/
def success (c : Call Key) : Option (Json × Int) :=
  if source.due c.before c.visit then
    match source.fetchKeys pyJWK c.visit with
    | .ok (document, _) => some (document, c.visit.fetched c.before.clock)
    | .error _ => none
  else none

def lastSuccess (calls : List (Call Key)) : Option (Json × Int) :=
  calls.findSome? (source.success pyJWK)

def Call.time (c : Call Key) : Int := c.visit.attempted c.before.clock

/-- No document can be had: the URL cannot be found out, the request fails, or its response has
another status than 2xx, is too large or is not JSON. -/
def Fails (v : Visit) : Prop := ∃ e, source.document v = .error e ∧ e.caught = true

/-- A call may refresh, and its refresh reads a document whose entries `PyJWK` all reads or
refuses, the last one with the token's key id being a key for the token's algorithm. -/
structure Publishes (s : State Key) (v : Visit) (key : Key) : Prop where
  rested : rested s.attempted (v.now s.clock) source.minRefresh = true
  wanted : s.keys.get? (some v.kid) = none ∨ older s.fetched (v.now s.clock) source.ttl = true
  young : v.finish ≤ source.stale
  offered : ∃ document entries alg, source.document v = .ok document ∧
    entriesOf document = .ok entries ∧
    (∀ e ∈ entries, ∃ o, source.readEntry pyJWK e = .ok o) ∧
    entries.reverse.findSome? (source.offer pyJWK (some v.kid)) = some (key, alg) ∧
    (alg = none ∨ v.alg = alg)

/-- What holds after any calls, and of any call that comes next. -/
structure Sound (calls : List (Call Key)) (s : State Key) : Prop where
  throttled : calls.Pairwise fun later earlier =>
    source.due later.before later.visit = true → source.due earlier.before earlier.visit = true →
      earlier.time + source.minRefresh ≤ later.time
  backed : ∀ v key, (source.keyFor pyJWK s v).2 = .found key → ∃ document time alg,
    source.lastSuccess pyJWK (⟨s, v⟩ :: calls) = some (document, time) ∧
      source.Offers pyJWK document v.kid key alg ∧ (alg = none ∨ v.alg = alg) ∧
      v.checked s.clock - time ≤ source.stale
  kept : ∀ v e, source.fetchKeys pyJWK v = .error e →
    (source.keyFor pyJWK s v).1.keys = s.keys ∧ (source.keyFor pyJWK s v).1.fetched = s.fetched
  calm : ∀ v, source.Fails v → ∀ e, (source.keyFor pyJWK s v).2 ≠ .raised e
  accepted : ∀ v key, source.Publishes pyJWK s v key → (source.keyFor pyJWK s v).2 = .found key

/-- The keys held are those of the last document read; no attempt is later than the last one
noted, and that one is not in the future. -/
structure Held (calls : List (Call Key)) (s : State Key) : Prop where
  early : ∀ t, s.attempted = some t → t ≤ s.clock
  reached : ∀ c ∈ calls, source.due c.before c.visit = true →
    ∃ t, s.attempted = some t ∧ c.time ≤ t
  empty : source.lastSuccess pyJWK calls = none → s.keys = .empty ∧ s.fetched = none
  backed : ∀ document time, source.lastSuccess pyJWK calls = some (document, time) →
    s.fetched = some time ∧ ∃ entries, entriesOf document = .ok entries ∧
      source.readEntries pyJWK .empty entries = .ok s.keys

variable {source pyJWK}

theorem get?_put (keys : Keys Key) (kid kid' : Option String) (key : Key × Option String) :
    (keys.upsert kid key fun _ => key).get? kid' =
      if kid' = kid then some key else keys.get? kid' := by
  unfold Table.upsert
  rw [Table.get?_modify, Table.get?_insert]
  split <;> rfl

theorem readEntries_clean {entries : List Json} {kid : Option String}
    (hclean : ∀ entry ∈ entries, ∃ o, source.readEntry pyJWK entry = .ok o) (keys : Keys Key) :
    ∃ keys', source.readEntries pyJWK keys entries = .ok keys' ∧ keys'.get? kid =
      (entries.reverse.findSome? (source.offer pyJWK kid)).or (keys.get? kid) := by
  induction entries generalizing keys with
  | nil => exact ⟨keys, rfl, rfl⟩
  | cons entry rest ih =>
    have ih := ih fun e he => hclean e (mem_cons_of_mem _ he)
    obtain ⟨o, ho⟩ := hclean entry mem_cons_self
    simp only [reverse_cons, findSome?_append, findSome?_singleton, readEntries, offer, ho]
    cases o with
    | none =>
      rw [Option.or_none]
      exact ih keys
    | some found =>
      obtain ⟨keys', hread, hget⟩ := ih (keys.upsert found.1 found.2 fun _ => found.2)
      refine ⟨keys', hread, ?_⟩
      rw [hget, get?_put, Option.or_assoc]
      dsimp only
      congr 1
      split <;> rfl

theorem fetchKeys_ok {v : Visit} {document : Json} {keys : Keys Key} :
    source.fetchKeys pyJWK v = .ok (document, keys) ↔ source.document v = .ok document ∧
      ∃ entries, entriesOf document = .ok entries ∧
        source.readEntries pyJWK .empty entries = .ok keys := by
  unfold fetchKeys
  constructor
  · intro h
    obtain ⟨document', hdocument, h⟩ := bind_ok_iff.mp h
    obtain ⟨entries, hentries, h⟩ := bind_ok_iff.mp h
    obtain ⟨keys', hread, h⟩ := bind_ok_iff.mp h
    cases h
    exact ⟨hdocument, entries, hentries, hread⟩
  · rintro ⟨hdocument, entries, hentries, hread⟩
    simp only [hdocument, hentries, hread, bind, Except.bind, pure, Except.pure]

theorem attempt_cases (source : JwksSource) (pyJWK : JsonObject → Except Raised Key)
    (s : State Key) (v : Visit) :
    (source.due s v = false ∧ source.attempt pyJWK s v = (s, none) ∧
        source.success pyJWK ⟨s, v⟩ = none) ∨
      (∃ document keys, source.fetchKeys pyJWK v = .ok (document, keys) ∧
        source.attempt pyJWK s v = ({ s with
          keys
          attempted := some (v.attempted s.clock)
          fetched := some (v.fetched s.clock) }, none) ∧
        source.success pyJWK ⟨s, v⟩ = some (document, v.fetched s.clock)) ∨
      (∃ e, source.fetchKeys pyJWK v = .error e ∧
        source.attempt pyJWK s v = ({ s with attempted := some (v.attempted s.clock) }, some e) ∧
        source.success pyJWK ⟨s, v⟩ = none) := by
  unfold attempt success refresh
  cases hdue : source.due s v with
  | false => exact .inl ⟨rfl, rfl, rfl⟩
  | true =>
    cases hfetch : source.fetchKeys pyJWK v with
    | ok found => exact .inr (.inl ⟨found.1, found.2, rfl, rfl, rfl⟩)
    | error e => exact .inr (.inr ⟨e, rfl, rfl, rfl⟩)

variable {calls : List (Call Key)} {s : State Key}

theorem keyFor_fst (s : State Key) (v : Visit) : (source.keyFor pyJWK s v).1 =
    { (source.attempt pyJWK s v).1 with clock := v.checked s.clock } := rfl

theorem lastSuccess_cons (c : Call Key) (calls : List (Call Key)) :
    source.lastSuccess pyJWK (c :: calls) =
      (source.success pyJWK c).or (source.lastSuccess pyJWK calls) := by
  unfold lastSuccess
  rw [findSome?_cons]
  cases source.success pyJWK c <;> rfl

theorem Held.reach (h : source.Held pyJWK calls s) (v : Visit) :
    ∀ c ∈ ⟨s, v⟩ :: calls, source.due c.before c.visit = true → c.time ≤ v.attempted s.clock := by
  intro c hc hdue
  rcases mem_cons.mp hc with rfl | hc
  · exact Int.le_refl _
  · obtain ⟨t, hattempted, hle⟩ := h.reached c hc hdue
    have hearly := h.early t hattempted
    unfold Visit.attempted Visit.now
    omega

theorem Held.step (h : source.Held pyJWK calls s) (v : Visit) :
    source.Held pyJWK (⟨s, v⟩ :: calls) (source.keyFor pyJWK s v).1 := by
  have hclock : s.clock ≤ v.attempted s.clock ∧ v.attempted s.clock ≤ v.checked s.clock := by
    unfold Visit.checked Visit.fetched Visit.attempted Visit.now
    omega
  rw [keyFor_fst]
  rcases attempt_cases source pyJWK s v with ⟨hdue, hattempt, hnone⟩ |
      ⟨document, keys, hfetch, hattempt, hsuccess⟩ | ⟨e, -, hattempt, hnone⟩
  · rw [hattempt]
    refine ⟨?_, ?_, ?_, ?_⟩
    · intro t hattempted
      have hearly := h.early t hattempted
      dsimp only
      omega
    · intro c hc hother
      rcases mem_cons.mp hc with rfl | hc
      · rw [hdue] at hother
        cases hother
      · exact h.reached c hc hother
    · rw [lastSuccess_cons, hnone]
      exact h.empty
    · rw [lastSuccess_cons, hnone]
      exact h.backed
  · rw [hattempt]
    refine ⟨?_, fun c hc hother => ⟨_, rfl, h.reach v c hc hother⟩, ?_, ?_⟩
    · rintro t ⟨⟩
      exact hclock.2
    · rw [lastSuccess_cons, hsuccess]
      nofun
    · rw [lastSuccess_cons, hsuccess]
      rintro _ _ ⟨⟩
      exact ⟨rfl, (fetchKeys_ok.mp hfetch).2⟩
  · rw [hattempt]
    refine ⟨?_, fun c hc hother => ⟨_, rfl, h.reach v c hc hother⟩, ?_, ?_⟩
    · rintro t ⟨⟩
      exact hclock.2
    · rw [lastSuccess_cons, hnone]
      exact h.empty
    · rw [lastSuccess_cons, hnone]
      exact h.backed

theorem judge_found {v : Visit} {now : Int} {key : Key} : source.judge s v now = .found key ↔
    ∃ alg, s.keys.get? (some v.kid) = some (key, alg) ∧ (alg = none ∨ v.alg = alg) ∧
      older s.fetched now source.stale = false := by
  unfold judge
  constructor
  · intro h
    split at h
    · cases h
    · next hnot =>
      simp only [Bool.or_eq_true, not_or, Bool.not_eq_true] at hnot
      split at h
      · cases h
      · next key' alg hget =>
        split at h
        · cases h
        · next halg =>
          cases h
          refine ⟨alg, hget, ?_, hnot.2⟩
          cases alg with
          | none => exact .inl rfl
          | some name => simpa using halg
  · rintro ⟨alg, hget, halg, hyoung⟩
    have hheld : s.keys.rows.isEmpty = false := by
      rw [isEmpty_eq_false_iff]
      exact ne_nil_of_mem (Table.mem_rows_iff.mpr hget)
    rw [hheld, hyoung, hget]
    cases alg with
    | none => rfl
    | some name => simp [halg.resolve_left fun h => by cases h]

theorem Publishes.found {v : Visit} {key : Key} (h : source.Publishes pyJWK s v key) :
    (source.keyFor pyJWK s v).2 = .found key := by
  obtain ⟨document, entries, alg, hdocument, hentries, hclean, hlast, halg⟩ := h.offered
  obtain ⟨keys, hread, hget⟩ := readEntries_clean hclean .empty
  rw [hlast] at hget
  have hok := fetchKeys_ok.mpr ⟨hdocument, _, hentries, hread⟩
  have hdue : source.due s v = true := by
    unfold due
    rw [h.rested, Bool.and_true, Bool.or_eq_true, isNone_iff_eq_none]
    exact h.wanted
  have hyoung := h.young
  rcases attempt_cases source pyJWK s v with
    ⟨hnot, -⟩ | ⟨document', keys', hfetch, hattempt, -⟩ | ⟨e, herror, -⟩
  · rw [hdue] at hnot
    cases hnot
  · rw [hok] at hfetch
    cases hfetch
    unfold keyFor
    rw [hattempt]
    refine judge_found.mpr ⟨alg, hget, halg, ?_⟩
    apply decide_eq_false
    unfold Visit.checked
    omega
  · rw [hok] at herror
    cases herror

end JwksSource

end Substrate.Identity.Jwks
