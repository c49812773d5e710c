import Substrate.Gdpr.Eraser

/-!
Whether an erasure can be finished by asking again, and takes only what it names. Of a
user, it can when no attempt is cut short between the transaction and the end, or when it
has left nothing that only the threads lead to. Of a tenant, in a fenced file store it
never completes.
-/

namespace Substrate.Gdpr

open Lib List

inductive Subject where
  | user (tenant : TenantId) (user : Text)
  | tenant (tenant : TenantId)

variable (config : Config) (uuidOf : Text → Option Text)

def erasure : Subject → Erasure Item
  | .user tenant user => eraseUser config uuidOf tenant user
  | .tenant tenant => eraseTenant config tenant

def userMemberKeys (tenant user : Text) (d : List Item) : List Text :=
  (groupIds tenant user d).flatMap (memberKeys d)

/-- An item is the subject's. -/
def Names (d : List Item) : Subject → Item → Prop
  | .user tenant user, .thread _ t u _ => t = some tenant.id ∧ u = some user
  | .user tenant user, .group _ t u | .user tenant user, .agent _ t u => t = tenant.id ∧ u = user
  | .user tenant user, .member g a =>
    g ∈ groupIds tenant.id user d ∨ a ∈ agentIds tenant.id user d
  | .user _ user, .account id => uuidOf user = some id
  | .user tenant user, .run _ t thread agent => t = tenant.id ∧
      ((∃ id ∈ threadIds tenant.id user d, thread = some id) ∨
        ∃ key ∈ userMemberKeys tenant.id user d, agent = memberAddress key)
  | .user tenant user, .channel name _ => ∃ g ∈ groupIds tenant.id user d, name = channelOf g
  | .user tenant user, .node t c | .user tenant user, .board t c => t = tenant.id ∧
      ∃ name ∈ threadIds tenant.id user d ++ userMemberKeys tenant.id user d,
        atOrUnder name c = true
  | .user tenant user, .file name | .user tenant user, .document name _ =>
    atOrUnder (userPrefix tenant.id user) name = true
  | .user tenant user, .memory t u => t = tenant.id ∧ u = some user
  | .user tenant user, .key _ owner => owner = some (tenant.id, user)
  | .tenant tenant, .thread _ t _ _ => t = some tenant.id
  | .tenant tenant, .group _ t _ | .tenant tenant, .agent _ t _ | .tenant tenant, .run _ t _ _
  | .tenant tenant, .channel _ t | .tenant tenant, .node t _ | .tenant tenant, .board t _
  | .tenant tenant, .memory t _ => t = tenant.id
  | .tenant tenant, .member g a =>
    g ∈ tenantGroupIds tenant.id d ∨ a ∈ tenantAgentIds tenant.id d
  | .tenant _, .account _ => False
  | .tenant tenant, .file name | .tenant tenant, .document name _ =>
    atOrUnder (tenantPrefix tenant.id) name = true
  | .tenant tenant, .key _ owner => ∃ user, owner = some (tenant.id, user)

/-- A user has a thread, a group or an agent in the tenant. -/
def UserOf (tenant user : Text) (d : List Item) : Prop :=
  threadIds tenant user d ≠ [] ∨ groupIds tenant user d ≠ [] ∨ agentIds tenant user d ≠ []

/-- An erasure that is asked for again after attempts that were cut short completes, leaves
nothing that one uninterrupted call removes, removes what the erasure of each user of the
tenant removes, and takes only what is the subject's. -/
structure Erases (subject : Subject) (cuts : List (Cut Item)) (d : List Item) : Prop where
  completes : (erasure config uuidOf subject).completes
    ((erasure config uuidOf subject).attempts cuts d) = true
  finished : ∀ x ∈ (erasure config uuidOf subject).full
    ((erasure config uuidOf subject).attempts cuts d), x ∈ (erasure config uuidOf subject).full d
  covers : ∀ tenant, subject = .tenant tenant → ∀ user, UserOf tenant.id user d →
    (eraseUser config uuidOf tenant user).completes d = true →
    ∀ x ∈ (erasure config uuidOf subject).full d, x ∈ (eraseUser config uuidOf tenant user).full d
  named : ∀ x ∈ d, x ∉ (erasure config uuidOf subject).full
    ((erasure config uuidOf subject).attempts cuts d) → Names uuidOf d subject x

def Accepted : Subject → Prop
  | .user tenant user => userAccepted config tenant.id user = true
  | .tenant tenant => tenantPrefixAccepted config tenant.id = true

/-- A key of Redis contains an identifier of the user. -/
def userSwept (tenant user : Text) (d : List Item) (name : Text) : Prop :=
  ∃ id ∈ user :: threadIds tenant user d, id <:+: name

/-- A key of Redis contains an identifier of the tenant. -/
def tenantSwept (tenant : Text) (d : List Item) (name : Text) : Prop :=
  ∃ id ∈ tenantThreadIds tenant d ++ tenantUsers tenant d, id <:+: name

/-- The tenant's erasure reaches what a user's erasure does: the user has no account, the
channels of the groups are the tenant's, and a key that names the user names a user or thread
of the tenant's threads. -/
structure Covered (tenant user : Text) (d : List Item) : Prop where
  account : ∀ id, uuidOf user = some id → Item.account id ∉ d
  channels : config.runtimeStore = true → ∀ g ∈ groupIds tenant user d, ∀ t,
    Item.channel (channelOf g) t ∈ d → t = tenant
  keys : config.redis = true → ∀ name owner, Item.key name owner ∈ d →
    userSwept tenant user d name → tenantSwept tenant d name

/-- What identifiers lead to is the subject's. -/
def Apart (d : List Item) : Subject → Prop
  | .user tenant user =>
    (∀ id t u account, Item.thread id t u (some account) ∈ d → uuidOf user = some account →
      Item.account account ∈ d → t = some tenant.id ∧ u = some user) ∧
    (config.redis = true → ∀ name owner, Item.key name owner ∈ d →
      userSwept tenant.id user d name → owner = some (tenant.id, user))
  | .tenant tenant => config.redis = true → ∀ name owner, Item.key name owner ∈ d →
      tenantSwept tenant.id d name → ∃ user, owner = some (tenant.id, user)

section

variable {config} {uuidOf}

variable {keep : Item → Bool} {present : Bool} {steps : List (Removal Item)} {x : Item}
    {tenant user id : Text} {d : List Item} {subject : Subject}

theorem filterMap_kept {α : Type} {f : Item → Option α} (d : List Item)
    (h : ∀ x, keep x = false → f x = none) : (d.filter keep).filterMap f = d.filterMap f := by
  rw [filterMap_filter]
  apply filterMap_congr
  intro x _
  cases hkeep : keep x with
  | true => rfl
  | false => exact (h x hkeep).symm

theorem taken_onlyIf : taken (onlyIf present steps) x ↔ present = true ∧ taken steps x := by
  cases present with
  | true => exact ⟨fun h => ⟨rfl, h⟩, fun h => h.2⟩
  | false => exact ⟨fun h => absurd h taken_nil, fun h => by cases h.1⟩

/-- The items that the erasure of a user takes. -/
def userTakes (config : Config) (uuidOf : Text → Option Text) (tenant user : Text)
    (d : List Item) : Item → Prop
  | .thread _ t u account => (t = some tenant ∧ u = some user) ∨
      ∃ id, account = some id ∧ uuidOf user = some id ∧ Item.account id ∈ d
  | .group _ t u | .agent _ t u => t = tenant ∧ u = user
  | .member g a => g ∈ groupIds tenant user d ∨ a ∈ agentIds tenant user d
  | .account id => uuidOf user = some id
  | .run _ t thread agent => config.runtimeStore = true ∧ t = tenant ∧
      ((∃ id ∈ threadIds tenant user d, thread = some id) ∨
        ∃ key ∈ userMemberKeys tenant user d, agent = memberAddress key)
  | .channel name _ => config.runtimeStore = true ∧
      ∃ g ∈ groupIds tenant user d, name = channelOf g
  | .node t c | .board t c => config.folder = true ∧ t = tenant ∧
      ∃ name ∈ threadIds tenant user d ++ userMemberKeys tenant user d, atOrUnder name c = true
  | .file name => userAccepted config tenant user = true ∧
      atOrUnder (userPrefix tenant user) name = true
  | .document name _ =>
    (if config.dataAdmin then userAccepted config tenant user else config.folder) = true ∧
      atOrUnder (userPrefix tenant user) name = true
  | .memory t u =>
    (if config.dataAdmin then userAccepted config tenant user else config.memoryStore) = true ∧
      t = tenant ∧ u = some user
  | .key name _ => config.redis = true ∧ userSwept tenant user d name

theorem taken_eraseGroups :
    taken (eraseGroups config tenant user d) x ↔
      (config.runtimeStore = true ∧ ∃ g ∈ groupIds tenant user d,
        (deleteChannel (channelOf g)).removes x = true ∨
          ∃ key ∈ memberKeys d g, (eraseAgent tenant (memberAddress key)).removes x = true) ∨
      (config.folder = true ∧ ∃ key ∈ userMemberKeys tenant user d,
        taken (eraseConversation tenant key) x) := by
  unfold eraseGroups userMemberKeys
  simp only [taken_flatMap, taken_append, taken_onlyIf, taken_cons, taken_map, mem_flatMap]
  constructor
  · rintro ⟨g, hg, ⟨hruntime, h⟩ | ⟨hfolder, key, hkey, h⟩⟩
    · exact Or.inl ⟨hruntime, g, hg, h⟩
    · exact Or.inr ⟨hfolder, key, ⟨g, hg, hkey⟩, h⟩
  · rintro (⟨hruntime, g, hg, h⟩ | ⟨hfolder, key, ⟨g, hg, hkey⟩, h⟩)
    · exact ⟨g, hg, Or.inl ⟨hruntime, h⟩⟩
    · exact ⟨g, hg, Or.inr ⟨hfolder, key, hkey, h⟩⟩

theorem taken_userAfter {tenant : TenantId} :
    taken ((eraseUser config uuidOf tenant user).after d) x ↔
      taken (eraseContents config tenant.id user) x ∨
      (config.runtimeStore = true ∧ ∃ id ∈ threadIds tenant.id user d,
        (eraseThread tenant.id id).removes x = true) ∨
      (config.folder = true ∧ ∃ id ∈ threadIds tenant.id user d,
        taken (eraseConversation tenant.id id) x) ∨
      (config.redis = true ∧ (redisSweep (user :: threadIds tenant.id user d)).removes x = true) := by
  unfold eraseUser
  simp only [taken_append, taken_onlyIf, taken_map, taken_flatMap, taken_cons, taken_nil,
    or_false, or_assoc]

theorem userTakes_iff {tenant : TenantId} :
    userTakes config uuidOf tenant.id user d x ↔
      taken (eraseGroups config tenant.id user d) x ∨ commitUser uuidOf tenant.id user d x = true ∨
        taken ((eraseUser config uuidOf tenant user).after d) x := by
  rw [taken_eraseGroups, taken_userAfter]
  cases x <;> cases hadmin : config.dataAdmin <;>
    simp [userTakes, commitUser, eraseContents, eraseInDataService, hadmin, deleteChannel,
      eraseAgent, eraseConversation, eraseThread, redisSweep, whole, accepting, filesUnder,
      documentsUnder, memoriesOf, taken_onlyIf, userSwept]
  case thread.false | thread.true =>
    rename_i account
    cases account with
    | none => simp
    | some id => simp [eq_comm]
  case run.false | run.true =>
    simp only [userMemberKeys, mem_flatMap]
    grind
  case node.false | node.true | board.false | board.true => grind

theorem mem_full_user {tenant : TenantId} :
    x ∈ (eraseUser config uuidOf tenant user).full d ↔
      x ∈ d ∧ ¬userTakes config uuidOf tenant.id user d x := by
  rw [Erasure.mem_full, userTakes_iff, spared_iff, spared_iff, ← Bool.not_eq_true]
  change _ ∧ ¬taken (eraseGroups config tenant.id user d) x ∧
    ¬commitUser uuidOf tenant.id user d x = true ∧ _ ↔ _
  tauto

/-- The items that the erasure of a tenant takes. -/
def tenantTakes (config : Config) (tenant : Text) (d : List Item) : Item → Prop
  | .thread _ t _ _ => t = some tenant
  | .group _ t _ | .agent _ t _ => t = tenant
  | .member g a => g ∈ tenantGroupIds tenant d ∨ a ∈ tenantAgentIds tenant d
  | .account _ => False
  | .run _ t _ _ | .channel _ t => config.runtimeStore = true ∧ t = tenant
  | .node t _ | .board t _ => config.folder = true ∧ t = tenant
  | .file name => (tenantPrefixAccepted config tenant = true ∨
      config.folder = true ∧ config.dataAdmin = false ∧ validId tenant = true) ∧
        atOrUnder (tenantPrefix tenant) name = true
  | .document name _ =>
    (if config.dataAdmin then tenantPrefixAccepted config tenant else config.folder) = true ∧
      atOrUnder (tenantPrefix tenant) name = true
  | .memory t _ => (if config.dataAdmin then tenantPrefixAccepted config tenant
      else config.folder || config.memoryStore) = true ∧ t = tenant
  | .key name _ => config.redis = true ∧ tenantSwept tenant d name

theorem tenantTakes_iff {tenant : TenantId} :
    tenantTakes config tenant.id d x ↔
      commitTenant tenant.id d x = true ∨ taken ((eraseTenant config tenant).after d) x := by
  cases x <;> cases hadmin : config.dataAdmin <;>
    simp [tenantTakes, commitTenant, eraseTenant, eraseInDataService, eraseFolder, hadmin,
      eraseRuntime, redisSweep, whole, accepting, filesUnder, documentsUnder, memoriesOf,
      taken_onlyIf, tenantSwept]
  case file.false | memory.false | key.false | key.true => grind

theorem mem_full_tenant {tenant : TenantId} :
    x ∈ (eraseTenant config tenant).full d ↔ x ∈ d ∧ ¬tenantTakes config tenant.id d x := by
  rw [Erasure.mem_full, tenantTakes_iff, spared_iff, spared_iff, ← Bool.not_eq_true]
  change _ ∧ ¬taken [] x ∧ ¬commitTenant tenant.id d x = true ∧ _ ↔ _
  have hnil : ¬taken [] x := taken_nil
  tauto

theorem mem_threadIds :
    id ∈ threadIds tenant user d ↔ ∃ account, .thread id (some tenant) (some user) account ∈ d := by
  unfold threadIds
  rw [mem_filterMap]
  constructor
  · rintro ⟨x, hx, hid⟩
    split at hid
    · rename_i there t u account
      split at hid
      · rename_i heq
        obtain ⟨rfl, rfl⟩ := heq
        cases hid
        exact ⟨account, hx⟩
      · cases hid
    · cases hid
  · rintro ⟨account, hx⟩
    exact ⟨_, hx, if_pos ⟨rfl, rfl⟩⟩

theorem mem_groupIds : id ∈ groupIds tenant user d ↔ .group id tenant user ∈ d := by
  unfold groupIds
  rw [mem_filterMap]
  constructor
  · rintro ⟨x, hx, hid⟩
    split at hid
    · split at hid
      · rename_i heq
        obtain ⟨rfl, rfl⟩ := heq
        cases hid
        exact hx
      · cases hid
    · cases hid
  · intro hx
    exact ⟨_, hx, if_pos ⟨rfl, rfl⟩⟩

theorem mem_agentIds : id ∈ agentIds tenant user d ↔ .agent id tenant user ∈ d := by
  unfold agentIds
  rw [mem_filterMap]
  constructor
  · rintro ⟨x, hx, hid⟩
    split at hid
    · split at hid
      · rename_i heq
        obtain ⟨rfl, rfl⟩ := heq
        cases hid
        exact hx
      · cases hid
    · cases hid
  · intro hx
    exact ⟨_, hx, if_pos ⟨rfl, rfl⟩⟩

theorem mem_tenantThreadIds :
    id ∈ tenantThreadIds tenant d ↔ ∃ user account, .thread id (some tenant) user account ∈ d := by
  unfold tenantThreadIds
  rw [mem_filterMap]
  constructor
  · rintro ⟨x, hx, hid⟩
    split at hid
    · rename_i there t u account
      split at hid
      · rename_i heq
        cases heq
        cases hid
        exact ⟨u, account, hx⟩
      · cases hid
    · cases hid
  · rintro ⟨user, account, hx⟩
    exact ⟨_, hx, if_pos rfl⟩

theorem mem_tenantUsers :
    user ∈ tenantUsers tenant d ↔
      user ≠ [] ∧ ∃ id account, .thread id (some tenant) (some user) account ∈ d := by
  unfold tenantUsers
  rw [mem_filterMap]
  constructor
  · rintro ⟨x, hx, hid⟩
    split at hid
    · rename_i there t u account
      split at hid
      · rename_i heq
        obtain ⟨rfl, hne⟩ := heq
        cases hid
        exact ⟨hne, there, account, hx⟩
      · cases hid
    · cases hid
  · rintro ⟨hne, id, account, hx⟩
    exact ⟨_, hx, if_pos ⟨rfl, hne⟩⟩

theorem mem_tenantGroupIds :
    id ∈ tenantGroupIds tenant d ↔ ∃ user, .group id tenant user ∈ d := by
  unfold tenantGroupIds
  rw [mem_filterMap]
  constructor
  · rintro ⟨x, hx, hid⟩
    split at hid
    · rename_i there t u
      split at hid
      · rename_i heq
        cases heq
        cases hid
        exact ⟨u, hx⟩
      · cases hid
    · cases hid
  · rintro ⟨user, hx⟩
    exact ⟨_, hx, if_pos rfl⟩

theorem mem_tenantAgentIds :
    id ∈ tenantAgentIds tenant d ↔ ∃ user, .agent id tenant user ∈ d := by
  unfold tenantAgentIds
  rw [mem_filterMap]
  constructor
  · rintro ⟨x, hx, hid⟩
    split at hid
    · rename_i there t u
      split at hid
      · rename_i heq
        cases heq
        cases hid
        exact ⟨u, hx⟩
      · cases hid
    · cases hid
  · rintro ⟨user, hx⟩
    exact ⟨_, hx, if_pos rfl⟩

def Item.isRow : Item → Bool
  | .thread .. | .group .. | .agent .. | .member .. | .account .. => true
  | _ => false

theorem isRow_of_taken (h : taken (eraseGroups config tenant user d) x) : x.isRow = false := by
  rcases taken_eraseGroups.mp h with ⟨_, g, _, hremoves | ⟨key, _, hremoves⟩⟩ | ⟨_, key, _, htaken⟩
  · cases x <;> first | rfl | cases hremoves
  · cases x <;> first | rfl | cases hremoves
  · obtain ⟨step, hstep, hremoves⟩ := htaken
    rcases mem_cons.mp hstep with rfl | hstep
    · cases x <;> first | rfl | cases hremoves
    · rw [mem_singleton.mp hstep] at hremoves
      cases x <;> first | rfl | cases hremoves

theorem any_filter_kept {p : Item → Bool} (d : List Item) (h : ∀ x, keep x = false → p x = false) :
    (d.filter keep).any p = d.any p := by
  rw [any_filter]
  congr 1
  funext x
  cases hkeep : keep x with
  | true => rfl
  | false => exact (h x hkeep).symm

theorem reads_kept (d : List Item) (h : ∀ x, keep x = false → x.isRow = false)
    (tenant user group : Text) :
    threadIds tenant user (d.filter keep) = threadIds tenant user d ∧
      groupIds tenant user (d.filter keep) = groupIds tenant user d ∧
      agentIds tenant user (d.filter keep) = agentIds tenant user d ∧
      memberKeys (d.filter keep) group = memberKeys d group := by
  refine ⟨filterMap_kept d ?_, filterMap_kept d ?_, filterMap_kept d ?_, filterMap_kept d ?_⟩
  all_goals
    intro x hx
    have hrow := h x hx
    cases x <;> first | rfl | cases hrow

theorem lawful_user (config : Config) (uuidOf : Text → Option Text) (tenant : TenantId)
    (user : Text) :
    (eraseUser config uuidOf tenant user).Lawful where
  quiet d step hstep := by
    change step ∈ eraseGroups config tenant.id user d at hstep
    unfold eraseGroups at hstep
    obtain ⟨g, _, hstep⟩ := mem_flatMap.mp hstep
    rcases mem_append.mp hstep with hstep | hstep
    · unfold onlyIf at hstep
      split at hstep
      · rcases mem_cons.mp hstep with rfl | hstep
        · rfl
        · obtain ⟨key, _, rfl⟩ := mem_map.mp hstep
          rfl
      · cases hstep
    · unfold onlyIf at hstep
      split at hstep
      · obtain ⟨key, _, hstep⟩ := mem_flatMap.mp hstep
        rcases mem_cons.mp hstep with rfl | hstep
        · rfl
        · rw [mem_singleton.mp hstep]
          rfl
      · cases hstep
  same d keep hkeep := by
    have hrow : ∀ x, keep x = false → x.isRow = false := by
      intro x hx
      have hspared : spared (eraseGroups config tenant.id user d) x = false := hkeep x hx
      have htaken : taken (eraseGroups config tenant.id user d) x := by
        by_contra hnot
        rw [spared_iff.mpr hnot] at hspared
        cases hspared
      exact isRow_of_taken htaken
    obtain ⟨hthreads, hgroups, hagents, _⟩ := reads_kept d hrow tenant.id user []
    have hmembers : memberKeys (d.filter keep) = memberKeys d :=
      funext fun g => (reads_kept d hrow tenant.id user g).2.2.2
    refine ⟨?_, ?_, ?_⟩
    · change eraseGroups config tenant.id user (d.filter keep) = eraseGroups config tenant.id user d
      unfold eraseGroups
      rw [hgroups, hmembers]
    · change commitUser uuidOf tenant.id user (d.filter keep) = commitUser uuidOf tenant.id user d
      funext x
      cases x with
      | thread id t u account =>
        have hany : (d.filter keep).any (fun x => x = .account (account.getD [])) =
            d.any fun x => x = .account (account.getD []) := by
          apply any_filter_kept
          intro y hy
          have hrowy := hrow y hy
          cases y <;> first | rfl | cases hrowy
        unfold commitUser
        dsimp only
        rw [hany]
      | member g a =>
        unfold commitUser
        dsimp only
        rw [hgroups, hagents]
      | _ => rfl
    · unfold eraseUser
      dsimp only
      rw [hthreads]
  gone d keep hgone := by
    have hnot : ∀ x ∈ d.filter keep, commitUser uuidOf tenant.id user d x ≠ true := by
      intro x hx hremoved
      obtain ⟨hmem, hkeep⟩ := mem_filter.mp hx
      rw [hgone x hmem hremoved] at hkeep
      cases hkeep
    have hthreads : threadIds tenant.id user (d.filter keep) = [] := by
      apply eq_nil_iff_forall_not_mem.mpr
      intro id hid
      obtain ⟨account, hx⟩ := mem_threadIds.mp hid
      exact hnot _ hx (by simp [commitUser])
    have hgroups : groupIds tenant.id user (d.filter keep) = [] := by
      apply eq_nil_iff_forall_not_mem.mpr
      intro id hid
      exact hnot _ (mem_groupIds.mp hid) (by simp [commitUser])
    have hagents : agentIds tenant.id user (d.filter keep) = [] := by
      apply eq_nil_iff_forall_not_mem.mpr
      intro id hid
      exact hnot _ (mem_agentIds.mp hid) (by simp [commitUser])
    refine ⟨?_, ?_, ?_⟩
    · change eraseGroups config tenant.id user (d.filter keep) = []
      unfold eraseGroups
      rw [hgroups]
      rfl
    · intro x hx
      apply Bool.eq_false_iff.mpr
      intro hremoved
      have hspared := hnot x hx
      change commitUser uuidOf tenant.id user (d.filter keep) x = true at hremoved
      cases x with
      | thread id t u account =>
        simp only [commitUser, Bool.or_eq_true] at hremoved
        rcases hremoved with hremoved | hremoved
        · apply hspared
          simp only [commitUser, Bool.or_eq_true]
          exact Or.inl hremoved
        · simp only [Bool.and_eq_true, decide_eq_true_eq, any_eq_true] at hremoved
          obtain ⟨⟨hsome, haccount⟩, y, hy, rfl⟩ := hremoved
          obtain ⟨a, rfl⟩ := Option.isSome_iff_exists.mp hsome
          exact hnot _ hy (by simp [commitUser, ← haccount])
      | member g a =>
        simp only [commitUser, hgroups, hagents] at hremoved
        cases hremoved
      | _ => exact hspared hremoved
    · unfold eraseUser
      dsimp only
      rw [hthreads]
      rfl
  less d x htaken := by
    rw [taken_userAfter] at htaken ⊢
    rcases htaken with h | ⟨_, id, hid, _⟩ | ⟨_, id, hid, _⟩ | ⟨hredis, h⟩
    · exact Or.inl h
    · cases hid
    · cases hid
    · refine Or.inr (Or.inr (Or.inr ⟨hredis, ?_⟩))
      cases x with
      | key name owner =>
        obtain ⟨id, hid, hin⟩ := any_eq_true.mp h
        refine any_eq_true.mpr ⟨id, ?_, hin⟩
        rw [mem_singleton.mp hid]
        exact mem_cons_self
      | _ => cases h

theorem lawful_tenant (tenant : TenantId) : (eraseTenant config tenant).Lawful where
  quiet d step hstep := nomatch hstep
  same d keep hkeep := by
    have hall : ∀ x ∈ d, keep x = true := by
      intro x _
      by_contra hx
      have hspared := hkeep x (Bool.eq_false_iff.mpr hx)
      cases hspared
    rw [filter_eq_self.mpr hall]
    exact ⟨rfl, rfl, rfl⟩
  gone d keep hgone := by
    have hnot : ∀ x ∈ d.filter keep, commitTenant tenant.id d x ≠ true := by
      intro x hx hremoved
      obtain ⟨hmem, hkeep⟩ := mem_filter.mp hx
      rw [hgone x hmem hremoved] at hkeep
      cases hkeep
    have hthreads : tenantThreadIds tenant.id (d.filter keep) = [] := by
      apply eq_nil_iff_forall_not_mem.mpr
      intro id hid
      obtain ⟨user, account, hx⟩ := mem_tenantThreadIds.mp hid
      exact hnot _ hx (by simp [commitTenant])
    have husers : tenantUsers tenant.id (d.filter keep) = [] := by
      apply eq_nil_iff_forall_not_mem.mpr
      intro id hid
      obtain ⟨_, thread, account, hx⟩ := mem_tenantUsers.mp hid
      exact hnot _ hx (by simp [commitTenant])
    have hgroups : tenantGroupIds tenant.id (d.filter keep) = [] := by
      apply eq_nil_iff_forall_not_mem.mpr
      intro id hid
      obtain ⟨user, hx⟩ := mem_tenantGroupIds.mp hid
      exact hnot _ hx (by simp [commitTenant])
    have hagents : tenantAgentIds tenant.id (d.filter keep) = [] := by
      apply eq_nil_iff_forall_not_mem.mpr
      intro id hid
      obtain ⟨user, hx⟩ := mem_tenantAgentIds.mp hid
      exact hnot _ hx (by simp [commitTenant])
    refine ⟨rfl, ?_, ?_⟩
    · intro x hx
      apply Bool.eq_false_iff.mpr
      intro hremoved
      have hspared := hnot x hx
      change commitTenant tenant.id (d.filter keep) x = true at hremoved
      cases x with
      | member g a =>
        simp only [commitTenant, hgroups, hagents] at hremoved
        cases hremoved
      | _ => exact hspared hremoved
    · unfold eraseTenant
      dsimp only
      rw [hthreads, husers]
      rfl
  less d x htaken := by
    unfold eraseTenant at htaken ⊢
    dsimp only at htaken ⊢
    rw [taken_append] at htaken ⊢
    rcases htaken with h | h
    · exact Or.inl h
    · obtain ⟨hredis, h⟩ := taken_onlyIf.mp h
      rcases taken_cons.mp h with h | h
      · cases x <;> cases h
      · exact absurd h taken_nil

theorem lawful (config : Config) (uuidOf : Text → Option Text) (subject : Subject) :
    (erasure config uuidOf subject).Lawful := by
  cases subject with
  | user tenant user => exact lawful_user config uuidOf tenant user
  | tenant tenant => exact lawful_tenant tenant

theorem all_onlyIf {p : Removal Item → Bool} :
    (onlyIf present steps).all p = (!present || steps.all p) := by
  cases present <;> rfl

theorem completes_user {tenant : TenantId} :
    (eraseUser config uuidOf tenant user).completes d = true ↔
      userAccepted config tenant.id user = true := by
  have hquiet : (eraseGroups config tenant.id user d).all (fun step => !step.raises) = true := by
    rw [all_eq_true]
    intro step hstep
    rw [(lawful_user config uuidOf tenant user).quiet d step hstep]
    rfl
  unfold Erasure.completes Erasure.steps
  rw [all_append, all_cons]
  change ((eraseGroups config tenant.id user d).all (fun step => !step.raises) && _) = true ↔ _
  rw [hquiet]
  cases hadmin : config.dataAdmin <;>
    simp [Erasure.commitStep, eraseUser, eraseContents, eraseInDataService, hadmin, all_onlyIf,
      whole, accepting, eraseThread, eraseConversation, redisSweep]

theorem completes_tenant {tenant : TenantId} :
    (eraseTenant config tenant).completes d = true ↔
      tenantPrefixAccepted config tenant.id = true := by
  unfold Erasure.completes Erasure.steps
  cases hadmin : config.dataAdmin <;>
    simp [Erasure.commitStep, eraseTenant, eraseInDataService, eraseFolder, hadmin, all_onlyIf,
      whole, accepting, eraseRuntime, redisSweep, tenantPrefixAccepted]
  grind

theorem completes_iff :
    (erasure config uuidOf subject).completes d = true ↔ Accepted config subject := by
  cases subject with
  | user tenant user => exact completes_user
  | tenant tenant => exact completes_tenant

theorem userPrefix_eq (tenant user : Text) :
    userPrefix tenant user = tenantPrefix tenant ++ '/' :: ("users/".toList ++ user) := by
  unfold userPrefix
  rw [append_assoc]
  rfl

theorem atOrUnder_tenant {name : Text} (h : atOrUnder (userPrefix tenant user) name = true) :
    atOrUnder (tenantPrefix tenant) name = true := by
  have hstart : tenantPrefix tenant ++ ['/'] <+: userPrefix tenant user := by
    rw [userPrefix_eq]
    exact ⟨"users/".toList ++ user, by rw [append_assoc]; rfl⟩
  have hname : userPrefix tenant user <+: name := by
    unfold atOrUnder at h
    rcases Bool.or_eq_true_iff.mp h with h | h
    · rw [of_decide_eq_true h]
    · exact (prefix_append _ _).trans ( isPrefixOf_iff_prefix.mp h)
  unfold atOrUnder
  rw [Bool.or_eq_true]
  exact Or.inr ( isPrefixOf_iff_prefix.mpr (hstart.trans hname))

theorem tenantGroupIds_of (h : id ∈ groupIds tenant user d) : id ∈ tenantGroupIds tenant d :=
  mem_tenantGroupIds.mpr ⟨user, mem_groupIds.mp h⟩

theorem tenantAgentIds_of (h : id ∈ agentIds tenant user d) : id ∈ tenantAgentIds tenant d :=
  mem_tenantAgentIds.mpr ⟨user, mem_agentIds.mp h⟩

theorem Covered.takes (h : Covered config uuidOf tenant user d)
    (haccepted : tenantPrefixAccepted config tenant = true) (hx : x ∈ d)
    (htakes : userTakes config uuidOf tenant user d x) : tenantTakes config tenant d x := by
  cases x with
  | thread id t u account =>
    rcases htakes with ⟨ht, _⟩ | ⟨a, _, huuid, ha⟩
    · exact ht
    · exact absurd ha (h.account a huuid)
  | group id t u | agent id t u => exact htakes.1
  | member g a => exact htakes.imp tenantGroupIds_of tenantAgentIds_of
  | account id => exact absurd hx (h.account id htakes)
  | run id t thread agent | node t c | board t c => exact ⟨htakes.1, htakes.2.1⟩
  | channel name t =>
    obtain ⟨hruntime, g, hg, rfl⟩ := htakes
    exact ⟨hruntime, h.channels hruntime g hg t hx⟩
  | file name => exact ⟨Or.inl haccepted, atOrUnder_tenant htakes.2⟩
  | document collection name =>
    refine ⟨?_, atOrUnder_tenant htakes.2⟩
    have hpresent := htakes.1
    split at hpresent
    · rename_i hadmin
      rw [if_pos hadmin]
      exact haccepted
    · rename_i hlocal
      rw [if_neg hlocal]
      exact hpresent
  | memory t u =>
    refine ⟨?_, htakes.2.1⟩
    have hpresent := htakes.1
    split at hpresent
    · rename_i hadmin
      rw [if_pos hadmin]
      exact haccepted
    · rename_i hlocal
      rw [if_neg hlocal, hpresent, Bool.or_true]
  | key name owner => exact ⟨htakes.1, h.keys htakes.1 name owner hx htakes.2⟩

theorem covers_iff {tenant : TenantId} (haccepted : tenantPrefixAccepted config tenant.id = true) :
    (∀ x ∈ (eraseTenant config tenant).full d, x ∈ (eraseUser config uuidOf tenant user).full d) ↔
      Covered config uuidOf tenant.id user d := by
  constructor
  · intro hcovers
    have htakes : ∀ x ∈ d, userTakes config uuidOf tenant.id user d x →
        tenantTakes config tenant.id d x := by
      intro x hx huser
      by_contra hnot
      exact (mem_full_user.mp (hcovers x (mem_full_tenant.mpr ⟨hx, hnot⟩))).2 huser
    refine ⟨fun id hid hmem => ?_, fun hruntime g hg t hmem => ?_,
      fun hredis name owner hmem hswept => ?_⟩
    · exact htakes _ hmem hid
    · exact (htakes _ hmem ⟨hruntime, g, hg, rfl⟩).2
    · exact (htakes _ hmem ⟨hredis, hswept⟩).2
  · intro hcovered x hx
    obtain ⟨hmem, hnot⟩ := mem_full_tenant.mp hx
    exact mem_full_user.mpr ⟨hmem, fun huser => hnot (hcovered.takes haccepted hmem huser)⟩

theorem named_user_iff {tenant : TenantId} :
    (∀ x ∈ d, userTakes config uuidOf tenant.id user d x → Names uuidOf d (.user tenant user) x) ↔
      Apart config uuidOf d (.user tenant user) := by
  constructor
  · intro hnamed
    refine ⟨fun id t u account hmem huuid haccount => ?_, fun hredis name owner hmem hswept => ?_⟩
    · exact hnamed _ hmem (Or.inr ⟨account, rfl, huuid, haccount⟩)
    · exact hnamed _ hmem ⟨hredis, hswept⟩
  · rintro ⟨hthreads, hkeys⟩ x hx htakes
    cases x with
    | thread id t u account =>
      rcases htakes with hown | ⟨a, rfl, huuid, ha⟩
      · exact hown
      · exact hthreads id t u a hx huuid ha
    | group id t u | agent id t u | member g a | account id => exact htakes
    | run id t thread agent | channel name t | node t c | board t c | file name
    | document collection name | memory t u => exact htakes.2
    | key name owner => exact hkeys htakes.1 name owner hx htakes.2

theorem named_tenant_iff {tenant : TenantId} :
    (∀ x ∈ d, tenantTakes config tenant.id d x → Names uuidOf d (.tenant tenant) x) ↔
      Apart config uuidOf d (.tenant tenant) := by
  constructor
  · intro hnamed hredis name owner hmem hswept
    exact hnamed _ hmem ⟨hredis, hswept⟩
  · intro hkeys x hx htakes
    cases x with
    | thread id t u account | group id t u | agent id t u | member g a | account id =>
      exact htakes
    | run id t thread agent | channel name t | node t c | board t c | file name
    | document collection name | memory t u => exact htakes.2
    | key name owner => exact hkeys htakes.1 name owner hx htakes.2

theorem named_iff :
    (∀ x ∈ d, x ∉ (erasure config uuidOf subject).full d → Names uuidOf d subject x) ↔
      Apart config uuidOf d subject := by
  cases subject with
  | user tenant user =>
    rw [← named_user_iff]
    refine forall₂_congr fun x hx => ?_
    have hfull : x ∉ (eraseUser config uuidOf tenant user).full d ↔
        userTakes config uuidOf tenant.id user d x := by
      rw [mem_full_user]
      tauto
    exact imp_congr hfull Iff.rfl
  | tenant tenant =>
    rw [← named_tenant_iff]
    refine forall₂_congr fun x hx => ?_
    have hfull : x ∉ (eraseTenant config tenant).full d ↔ tenantTakes config tenant.id d x := by
      rw [mem_full_tenant]
      tauto
    exact imp_congr hfull Iff.rfl

end

/-- An erasure that is asked for again does what it is to do, exactly when its ids are
accepted and a tenant's store is not fenced; no attempt was cut short after the transaction
and left what only the rows led to; a tenant's erasure reaches what its users' do; and what
identifiers lead to is the subject's. -/
theorem erases_iff (subject : Subject) (cuts : List (Cut Item)) (d : List Item) :
    Erases config uuidOf subject cuts d ↔
      Accepted config subject ∧ (erasure config uuidOf subject).Clean cuts d ∧
      (∀ tenant, subject = .tenant tenant → ∀ user, UserOf tenant.id user d →
        userAccepted config tenant.id user = true → Covered config uuidOf tenant.id user d) ∧
      Apart config uuidOf d subject := by
  have hlawful := lawful config uuidOf subject
  have hsame : (erasure config uuidOf subject).Clean cuts d → ∀ x,
      x ∈ (erasure config uuidOf subject).full ((erasure config uuidOf subject).attempts cuts d) ↔
        x ∈ (erasure config uuidOf subject).full d := by
    intro hclean x
    exact ⟨(Erasure.finished_iff hlawful cuts d).mpr hclean x, Erasure.full_attempts hlawful cuts⟩
  constructor
  · rintro ⟨hcompletes, hfinished, hcovers, hnamed⟩
    have haccepted := completes_iff.mp hcompletes
    have hclean := (Erasure.finished_iff hlawful cuts d).mp hfinished
    refine ⟨haccepted, hclean, ?_, named_iff.mp fun x hx hnot => ?_⟩
    · rintro tenant rfl user huser hok
      exact (covers_iff haccepted).mp (hcovers tenant rfl user huser (completes_user.mpr hok))
    · exact hnamed x hx fun hfinal => hnot ((hsame hclean x).mp hfinal)
  · rintro ⟨haccepted, hclean, hcovered, hapart⟩
    refine ⟨completes_iff.mpr haccepted, (Erasure.finished_iff hlawful cuts d).mpr hclean, ?_,
      fun x hx hnot => named_iff.mpr hapart x hx fun hfull => hnot ((hsame hclean x).mpr hfull)⟩
    rintro tenant rfl user huser hcompletes
    exact (covers_iff haccepted).mpr (hcovered tenant rfl user huser (completes_user.mp hcompletes))

section

def acme : TenantId := ⟨['a'], rfl⟩

def localStores : Config := ⟨false, true, true, true, true, true⟩

def oneRun : List Item :=
  [.thread ['t'] (some ['a']) (some ['u']) none, .run ['r'] ['a'] (some ['t']) ['x']]

/-- An attempt fails after the transaction, and the run is never found again. -/
theorem run_left : ¬∀ (config : Config) (uuidOf : Text → Option Text) (subject : Subject)
    (cuts : List (Cut Item)) (d : List Item), Erases config uuidOf subject cuts d := by
  intro h
  have hfinished := (h localStores (fun _ => none) (.user acme ['u']) [⟨1, fun _ => true⟩]
    oneRun).finished (.run ['r'] ['a'] (some ['t']) ['x'])
  have hleft : Item.run ['r'] ['a'] (some ['t']) ['x'] ∈
      (eraseUser localStores (fun _ => none) acme ['u']).full
        ((eraseUser localStores (fun _ => none) acme ['u']).attempts [⟨1, fun _ => true⟩] oneRun) := by
    decide
  have hgone : Item.run ['r'] ['a'] (some ['t']) ['x'] ∉
      (eraseUser localStores (fun _ => none) acme ['u']).full oneRun := by
    decide
  exact hgone (hfinished hleft)

end

end Substrate.Gdpr
