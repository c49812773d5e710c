import Substrate.Lib.Json
import Substrate.Lib.Runs

/-!
The audit log of the catalog (`CatalogStore` in `catalog/store.py`). Every event records
the hash of the one before it and a hash of its own, over that and over what it says.
`verify_audit` recomputes the chain, and `purge_history` deletes what is old.
-/

namespace Substrate.Audit

open Lib Lib.Json

/-- What an event says (`AUDIT_FIELDS`). The detail is the text it is stored as. -/
structure Entry where
  time : Text
  requestId : Option Text
  principal : Option Text
  actor : Option Text
  action : Text
  securable : Option Text
  outcome : Text
  detail : Option Text
  deriving DecidableEq, Repr

def Entry.fields (entry : Entry) : List (Option Text) :=
  [some entry.time, entry.requestId, entry.principal, entry.actor, some entry.action,
    entry.securable, some entry.outcome, entry.detail]

/-- A row of `audit_events`. -/
structure Row where
  id : Nat
  entry : Entry
  prevHash : Option Text
  hash : Option Text
  deriving DecidableEq, Repr

/-- `r["prev_hash"] or ""`. -/
def Row.recorded (row : Row) : Text := row.prevHash.getD []

structure Log where
  rows : List Row
  nextId : Nat
  deriving DecidableEq, Repr

def Log.init : Log := ⟨[], 1⟩

section

variable (sha256 : Text → Text)

def hashedText (previous : Text) (entry : Entry) : Text := previous ++ bar :: dumps entry.fields

def Row.text (row : Row) : Text := hashedText row.recorded row.entry

def auditHash (previous : Text) (entry : Entry) : Text := sha256 (hashedText previous entry)

def audit (entry : Entry) (log : Log) : Log :=
  let previous := (log.rows.getLast?.bind Row.hash).getD []
  { rows := log.rows ++ [⟨log.nextId, entry, some previous, some (auditHash sha256 previous entry)⟩]
    nextId := log.nextId + 1 }

/-- What `verify_audit` answers. -/
structure Report where
  ok : Bool
  eventsChecked : Nat
  firstBadId : Option Nat
  deriving DecidableEq, Repr

/-- The loop of `verify_audit`. -/
def check : Option Text → Nat → List Row → Report
  | _, checked, [] => ⟨true, checked, none⟩
  | previous, checked, row :: rest =>
    match row.hash with
    | none => check none checked rest
    | some hash =>
      let expected := previous.getD row.recorded
      if row.recorded ≠ expected ∨ hash ≠ auditHash sha256 row.recorded row.entry then
        ⟨false, checked, some row.id⟩
      else check (some hash) (checked + 1) rest

def verifyAudit (limit : Nat) (rows : List Row) : Report := check sha256 none 0 (rows.take limit)

/-- `verify_audit` over all rows. -/
def verifyAll (rows : List Row) : Report := verifyAudit sha256 rows.length rows

def earlier : Text → Text → Bool
  | _, [] => false
  | [], _ :: _ => true
  | c :: x, d :: y => c.toNat < d.toNat || (c = d && earlier x y)

/-- The rows that `purge_history` leaves. -/
def keeps (cutoff : Text) (row : Row) : Bool := !earlier row.entry.time cutoff

/-- `purge_history`, as far as the audit log goes. -/
def purgeHistory (olderThanDays : Int) (cutoff : Text) (log : Log) : Log :=
  if olderThanDays ≤ 0 then log else { log with rows := log.rows.filter (keeps cutoff) }

inductive Action where
  | audit (entry : Entry)
  | purge (olderThanDays : Int) (cutoff : Text)
  deriving DecidableEq, Repr

def step : Action → Log → Option Log
  | .audit entry, log => some (audit sha256 entry log)
  | .purge olderThanDays cutoff, log => some (purgeHistory olderThanDays cutoff log)

end

end Substrate.Audit
