import Mathlib.Data.List.Infix
import Substrate.Lib.Retry

/-!
The erasure of a user or a tenant (`gdpr/eraser.py`). What a deployment holds is a list of
items: the rows, the runs of the runtime with their journals and its channels, the nodes
and task boards of the conversation folder, files, documents and memories (of the folder
or of the data service) and the keys of Redis.
-/

namespace Substrate.Gdpr

open Lib

abbrev Text := List Char

/-- A tenant's id is not blank, as `Scope` requires. -/
structure TenantId where
  id : Text
  named : id.all Char.isWhitespace = false

/-- What a deployment holds. `account` of a thread is its `user_id`, a row of `users`; an
account is such a row. The owner of a Redis key is whose data it holds. -/
inductive Item where
  | thread (id : Text) (tenant user account : Option Text)
  | group (id tenant user : Text)
  | agent (id tenant user : Text)
  | member (group agent : Text)
  | account (id : Text)
  | run (id tenant : Text) (thread : Option Text) (agent : Text)
  | channel (name tenant : Text)
  | node (tenant conversation : Text)
  | board (tenant conversation : Text)
  | file (key : Text)
  | document (collection name : Text)
  | memory (tenant : Text) (user : Option Text)
  | key (name : Text) (owner : Option (Text × Text))
  deriving DecidableEq

/-- What the erasure is given: the data service's administrator or a file store, fenced to the
tenant or not, and the other stores. -/
structure Config where
  dataAdmin : Bool
  fenced : Bool
  folder : Bool
  memoryStore : Bool
  runtimeStore : Bool
  redis : Bool

def atOrUnder (name key : Text) : Bool := key = name || (name ++ ['/']).isPrefixOf key

def tenantPrefix (tenant : Text) : Text := "tenants/".toList ++ tenant

def userPrefix (tenant user : Text) : Text := tenantPrefix tenant ++ "/users/".toList ++ user

/-- `_id` of the layout accepts an id, and the store's `_check` the prefixes made of it. -/
def validId (id : Text) : Bool :=
  id ≠ [] && !id.contains '/' && !id.contains '\\' && id ≠ ['.'] && id ≠ ['.', '.'] &&
    !id.contains (Char.ofNat 0)

def alphanumeric (c : Char) : Bool := c.isAlpha || c.isDigit

def matchesId (more : List Char) (rest : Nat) : Text → Bool
  | [] => false
  | c :: cs => alphanumeric c && cs.all (fun c => alphanumeric c || more.contains c) &&
      cs.length ≤ rest

def subjectAccepted : Text → Bool := matchesId ['.', '_', '@', '+', '-'] 199

def tenantAccepted : Text → Bool := matchesId ['.', '_', '-'] 127

/-- `Group.channel`. -/
def channelOf (group : Text) : Text := "group/".toList ++ group

/-- The key of `member_actor`. -/
def memberKey (agent group : Text) : Text := agent ++ '@' :: group

/-- `str` of a member's actor. -/
def memberAddress (key : Text) : Text := "member/".toList ++ key

def threadIds (tenant user : Text) (d : List Item) : List Text := d.filterMap fun
    | .thread id (some t) (some u) _ => if t = tenant ∧ u = user then some id else none
    | _ => none

def groupIds (tenant user : Text) (d : List Item) : List Text := d.filterMap fun
    | .group id t u => if t = tenant ∧ u = user then some id else none
    | _ => none

def agentIds (tenant user : Text) (d : List Item) : List Text := d.filterMap fun
    | .agent id t u => if t = tenant ∧ u = user then some id else none
    | _ => none

def memberKeys (d : List Item) (group : Text) : List Text := d.filterMap fun
    | .member g a => if g = group then some (memberKey a g) else none
    | _ => none

def tenantThreadIds (tenant : Text) (d : List Item) : List Text := d.filterMap fun
    | .thread id (some t) _ _ => if t = tenant then some id else none
    | _ => none

/-- `users` of `erase_tenant`. -/
def tenantUsers (tenant : Text) (d : List Item) : List Text := d.filterMap fun
    | .thread _ (some t) (some u) _ => if t = tenant ∧ u ≠ [] then some u else none
    | _ => none

def tenantGroupIds (tenant : Text) (d : List Item) : List Text := d.filterMap fun
    | .group id t _ => if t = tenant then some id else none
    | _ => none

def tenantAgentIds (tenant : Text) (d : List Item) : List Text := d.filterMap fun
    | .agent id t _ => if t = tenant then some id else none
    | _ => none

def whole (removes : Item → Bool) : Removal Item := ⟨removes, true, false⟩

def accepting (accepted : Bool) (removes : Item → Bool) : Removal Item :=
  ⟨fun x => accepted && removes x, true, !accepted⟩

def onlyIf (present : Bool) (steps : List (Removal Item)) : List (Removal Item) :=
  if present then steps else []

/-- `channel_delete`. -/
def deleteChannel (name : Text) : Removal Item := whole fun
    | .channel n _ => n = name
    | _ => false

/-- `runtime_store.erase` of a thread. -/
def eraseThread (tenant thread : Text) : Removal Item := whole fun
    | .run _ t th _ => t = tenant && th = some thread
    | _ => false

/-- `runtime_store.erase` of an agent. -/
def eraseAgent (tenant agent : Text) : Removal Item := whole fun
    | .run _ t _ a => t = tenant && a = agent
    | _ => false

/-- `runtime_store.erase` of a tenant. -/
def eraseRuntime (tenant : Text) : Removal Item := whole fun
    | .run _ t _ _ => t = tenant
    | .channel _ t => t = tenant
    | _ => false

/-- `erase_conversation` of the folder: the nodes, then the boards. -/
def eraseConversation (tenant conversation : Text) : List (Removal Item) := [whole fun
    | .node t c => t = tenant && atOrUnder conversation c
    | _ => false,
   whole fun
    | .board t c => t = tenant && atOrUnder conversation c
    | _ => false]

def filesUnder (name : Text) : Item → Bool
  | .file key => atOrUnder name key
  | _ => false

def documentsUnder (name : Text) : Item → Bool
  | .document collection _ => atOrUnder name collection
  | _ => false

def memoriesOf (tenant : Text) (user : Option Text) : Item → Bool
  | .memory t u => t = tenant && (user.isNone || u = user)
  | _ => false

/-- `_redis_sweep`: every key that contains one of the identifiers. -/
def redisSweep (identifiers : List Text) : Removal Item := ⟨fun
    | .key name _ => identifiers.any fun identifier => decide (identifier <:+: name)
    | _ => false, false, false⟩

def eraseInDataService (accepted : Bool) (tenant : Text) (user : Option Text) (name : Text) :
    List (Removal Item) :=
  [accepting accepted (documentsUnder name), accepting accepted (memoriesOf tenant user),
    accepting accepted (filesUnder name)]

variable (config : Config) (uuidOf : Text → Option Text)

def eraseGroups (tenant user : Text) (d : List Item) : List (Removal Item) :=
  (groupIds tenant user d).flatMap fun group =>
    onlyIf config.runtimeStore (deleteChannel (channelOf group) ::
      (memberKeys d group).map fun key => eraseAgent tenant (memberAddress key)) ++
    onlyIf config.folder ((memberKeys d group).flatMap fun key => eraseConversation tenant key)

/-- The transaction: the user's threads, groups and agents, the members that go with them, and
the account, with the threads that hang on it. -/
def commitUser (tenant user : Text) (d : List Item) : Item → Bool
  | .thread _ t u account => (t = some tenant && u = some user) ||
      (account.isSome && account = uuidOf user && d.any fun x => x = .account (account.getD []))
  | .group _ t u | .agent _ t u => t = tenant && u = user
  | .member g a => (groupIds tenant user d).contains g || (agentIds tenant user d).contains a
  | .account id => uuidOf user = some id
  | _ => false

def userAccepted (tenant user : Text) : Bool :=
  if config.dataAdmin then tenantAccepted tenant && subjectAccepted user
  else validId tenant && validId user

/-- Files, documents and memory, in the data service or in the local stores. -/
def eraseContents (tenant user : Text) : List (Removal Item) :=
  let name := userPrefix tenant user
  if config.dataAdmin then
    eraseInDataService (userAccepted config tenant user) tenant (some user) name
  else
    accepting (userAccepted config tenant user) (filesUnder name) ::
      onlyIf config.folder [whole (documentsUnder name)] ++
      onlyIf config.memoryStore [whole (memoriesOf tenant (some user))]

def eraseUser (tenant : TenantId) (user : Text) : Erasure Item where
  before := eraseGroups config tenant.id user
  commit := commitUser uuidOf tenant.id user
  after d :=
    let ids := threadIds tenant.id user d
    eraseContents config tenant.id user ++
      onlyIf config.runtimeStore (ids.map (eraseThread tenant.id)) ++
      onlyIf config.folder (ids.flatMap (eraseConversation tenant.id)) ++
      onlyIf config.redis [redisSweep (user :: ids)]

/-- The transaction: the tenant's threads, groups and agents, and the members that go with
them. -/
def commitTenant (tenant : Text) (d : List Item) : Item → Bool
  | .thread _ t _ _ => t = some tenant
  | .group _ t _ | .agent _ t _ => t = tenant
  | .member g a => (tenantGroupIds tenant d).contains g || (tenantAgentIds tenant d).contains a
  | _ => false

/-- `folder.tenant(tenant).erase()`. Without a data service the files and the memory are the
folder's. -/
def eraseFolder (tenant : Text) : List (Removal Item) := [whole fun
    | .node t _ => t = tenant
    | _ => false,
   whole fun
    | .board t _ => t = tenant
    | _ => false] ++
  onlyIf (!config.dataAdmin) [accepting (validId tenant) (filesUnder (tenantPrefix tenant)),
      whole (memoriesOf tenant none)]

def tenantPrefixAccepted (tenant : Text) : Bool :=
  if config.dataAdmin then tenantAccepted tenant else validId tenant && !config.fenced

def eraseTenant (tenant : TenantId) : Erasure Item where
  before _ := []
  commit := commitTenant tenant.id
  after d :=
    let name := tenantPrefix tenant.id
    let accepted := tenantPrefixAccepted config tenant.id
    onlyIf config.dataAdmin (eraseInDataService accepted tenant.id none name) ++
      onlyIf config.folder (eraseFolder config tenant.id) ++
      onlyIf (!config.dataAdmin) (accepting accepted (filesUnder name) ::
        onlyIf config.folder [whole (documentsUnder name)] ++
        onlyIf config.memoryStore [whole (memoriesOf tenant.id none)]) ++
      onlyIf config.runtimeStore [eraseRuntime tenant.id] ++
      onlyIf config.redis [redisSweep (tenantThreadIds tenant.id d ++ tenantUsers tenant.id d)]

end Substrate.Gdpr
