import Mathlib.Data.List.TakeWhile
import Substrate.Compaction.Strategies
import Substrate.Lib.Quoting

/-!
Names under a tenant (`types/scope.py`, `stores/scoped.py`). The tenant is
percent-encoded and ends with a slash, so no name is under two tenants.
-/

namespace Substrate.Scoping

open Lib

/-- `Scope`, whose tenant is more than blank. -/
structure Scope where
  tenantId : String
  named : (tenantId.toList.any fun c => ¬ Compaction.isSpace c) = true

namespace Scope

def tenant (scope : Scope) : List Char := quote scope.tenantId.toList

def start (scope : Scope) : List Char := scope.tenant ++ ['/']

def add (scope : Scope) (name : String) : String := String.ofList (scope.start ++ name.toList)

def strip (scope : Scope) (name : String) : String :=
  String.ofList (name.toList.drop scope.start.length)

def owns (scope : Scope) (name : String) : Bool := scope.start.isPrefixOf name.toList

theorem owns_iff {scope : Scope} {name : String} :
    scope.owns name = true ↔ ∃ rest, name.toList = scope.start ++ rest := by
  unfold owns
  rw [List.isPrefixOf_iff_prefix]
  constructor
  · rintro ⟨rest, hrest⟩
    exact ⟨rest, hrest.symm⟩
  · rintro ⟨rest, hrest⟩
    exact ⟨rest, hrest.symm⟩

@[simp] theorem owns_add (scope : Scope) (name : String) : scope.owns (scope.add name) = true :=
  owns_iff.mpr ⟨name.toList, by simp [add]⟩

def head (name : List Char) : List Char := name.takeWhile fun c => c ≠ '/'

def ns (scope : Scope) (namespace' : String) : String :=
  if namespace' = "" then String.ofList scope.tenant else scope.add namespace'

def spans (scope : Scope) (namespace' : String) : Bool := head namespace'.toList = scope.tenant

end Scope

end Substrate.Scoping
