import Substrate.Identity.Cookies
import Substrate.Lib.Runs

/-!
Browser sessions of the gateway (`oidc-bff/src/bff.ts`). The session of a browser lies
sealed in its cookies.
-/

namespace Substrate.Identity

open Lib Function

/-- `seal` and `unseal` of `crypto.ts`: the text of a session sealed at some time, and the
session in a text if it is a sealed one. -/
structure Vault where
  sealed : Nat → Nat → Text
  unsealed : Text → Option Nat
  unsealed_sealed : ∀ session nonce, unsealed (sealed session nonce) = some session
  unsealed_nil : unsealed [] = none

/-- What a response says about the session cookie: nothing, to set it to the session sealed
so, or to expire it. -/
inductive Body where
  | nothing
  | sets (session nonce : Nat)
  | clears
  deriving DecidableEq, Repr

/-- Where a request stands: sent, waiting for the refresh of a token at an instance, with what
came of the refresh, or answered. -/
inductive Stage where
  | sent
  | waiting (bff token : Nat)
  | resolved (session : Option Nat)
  | answered (body : Body)
  deriving DecidableEq, Repr

structure Request where
  cookies : Jar
  stage : Stage

/-- Where the refresh of a token stands: asked, or answered by the provider. -/
inductive Refresh where
  | asked
  | rotated (session : Nat)
  | refused
  deriving DecidableEq, Repr

/-- What `getSession` finds of the times of a session: the access token is good for a while,
or is to be refreshed, or the refresh token or the sealed value has run out. -/
inductive View where
  | fresh | stale | overdue
  deriving DecidableEq, Repr

/-- The browser, the instances of the gateway with their `inflight`, and the provider: which
session is the newest, which tokens it was sent and which of them it refused. `ended` says
that the session has run out: its refresh token at the provider, or its age. -/
structure World where
  jar : Jar
  requests : Nat → Option Request
  opened : Nat
  inflight : Nat × Nat → Option Refresh
  issued : Nat
  nonce : Nat
  sent : List Nat
  refusals : List Nat
  ended : Bool

inductive Action where
  | request
  | handle (rid bff : Nat) (view : View)
  | provider (bff token : Nat) (ok : Bool)
  | reply (bff token : Nat)
  | answer (rid : Nat)
  | arrive (rid : Nat)
  | runsOut
  deriving DecidableEq, Repr

namespace World

variable (vault : Vault) (s : World)

/-- The browser has signed in, and nothing is under way. -/
def init : World where
  jar index := (chunks (vault.sealed 0 0))[index]?
  requests _ := none
  opened := 0
  inflight _ := none
  issued := 0
  nonce := 1
  sent := []
  refusals := []
  ended := false

def setStage (rid : Nat) (request : Request) (stage : Stage) : World :=
  { s with
    requests := update s.requests rid (some { request with stage := stage }) }

def request : World :=
  { s with
    requests := update s.requests s.opened (some ⟨s.jar, .sent⟩)
    opened := s.opened + 1 }

/-- `refreshed`: the request shares the refresh of the token at its instance or begins it. -/
def refreshed (rid bff token : Nat) (request : Request) : World :=
  let waiting := s.setStage rid request (.waiting bff token)
  match s.inflight (bff, token) with
  | some _ => waiting
  | none =>
    { waiting with
      inflight := update s.inflight (bff, token) (some .asked)
      sent := token :: s.sent }

/-- `getSession` up to its first wait. Without a session the answer is that of
`unauthorized`. -/
def handle (rid bff : Nat) (view : View) : Option World :=
  match s.requests rid with
  | some ⟨cookies, .sent⟩ =>
    match (readCookie cookies).bind vault.unsealed, view with
    | none, _ => some (s.setStage rid ⟨cookies, .sent⟩ (.answered .clears))
    | some _, .fresh => some (s.setStage rid ⟨cookies, .sent⟩ (.answered .nothing))
    | some token, .stale => some (s.refreshed rid bff token ⟨cookies, .sent⟩)
    | some _, .overdue =>
      if s.ended = true then some (s.setStage rid ⟨cookies, .sent⟩ (.answered .clears))
      else none
  | _ => none

/-- The provider answers: it gives a new session for the newest token, and refuses a used
one, or any when the session has run out. -/
def provider (bff token : Nat) (ok : Bool) : Option World :=
  match s.inflight (bff, token), ok with
  | some .asked, true =>
    if token = s.issued then
      some { s with
        issued := s.issued + 1
        inflight := update s.inflight (bff, token) (some (.rotated (s.issued + 1))) }
    else none
  | some .asked, false =>
    if token ≠ s.issued ∨ s.ended = true then
      some { s with
        refusals := token :: s.refusals
        inflight := update s.inflight (bff, token) (some .refused) }
    else none
  | _, _ => none

/-- A refresh is over: `inflight` forgets it, and all that wait for it have its result. -/
def settle (bff token : Nat) (session : Option Nat) : World :=
  { s with
    inflight := update s.inflight (bff, token) none
    requests := fun rid => (s.requests rid).map fun request =>
      if request.stage = .waiting bff token then { request with stage := .resolved session }
      else request }

def reply (bff token : Nat) : Option World :=
  match s.inflight (bff, token) with
  | some (.rotated session) => some (s.settle bff token (some session))
  | some .refused => some (s.settle bff token none)
  | _ => none

/-- `getSession` returns and the response is made. `setCookies` may throw. -/
def answer (rid : Nat) : Option World :=
  match s.requests rid with
  | some ⟨cookies, .resolved (some session)⟩ =>
    if (setCookies cookies (vault.sealed session s.nonce)).isSome = true then
      some { s.setStage rid ⟨cookies, .sent⟩ (.answered (.sets session s.nonce)) with
        nonce := s.nonce + 1 }
    else some { s.setStage rid ⟨cookies, .sent⟩ (.answered .nothing) with nonce := s.nonce + 1 }
  | some ⟨cookies, .resolved none⟩ =>
    some (s.setStage rid ⟨cookies, .sent⟩ (.answered .clears))
  | _ => none

def headers (cookies : Jar) : Body → List SetCookie
  | .nothing => []
  | .sets session nonce => (setCookies cookies (vault.sealed session nonce)).getD []
  | .clears => clearCookies cookies 0

/-- The browser applies a response. -/
def arrive (rid : Nat) : Option World :=
  match s.requests rid with
  | some ⟨cookies, .answered body⟩ =>
    some { s with
      jar := s.jar.apply (headers vault cookies body)
      requests := update s.requests rid none }
  | _ => none

end World

/-- One step. -/
def step (vault : Vault) : Action → World → Option World
  | .request, s => some s.request
  | .handle rid bff view, s => s.handle vault rid bff view
  | .provider bff token ok, s => s.provider bff token ok
  | .reply bff token, s => s.reply bff token
  | .answer rid, s => s.answer vault rid
  | .arrive rid, s => s.arrive vault rid
  | .runsOut, s => some { s with ended := true }

end Substrate.Identity
