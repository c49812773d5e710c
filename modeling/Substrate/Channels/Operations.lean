import Substrate.Channels.State

/-!
The channel methods, each the body of one transaction over the run tables and
the channel tables, statement by statement in the order of the source. What is
published to observers after a commit is left out.
-/

namespace Substrate

open Lib

namespace Channels

/-- `_set_member`: a member that is there keeps its cursor. -/
def setMember (c : Channels) (channel : String) (member : Member) : Channels :=
  let inbox := match member.inbox with
    | some inbox => some inbox
    | none => if member.kind.hasInbox then some member.agent else none
  let joined := match c.channels.get? channel with
    | some row => row.nextSeq
    | none => 0
  { c with
    members := c.members.upsert (channel, member.agent)
      { mode := member.mode, cursor := member.cursor, kind := member.kind, inbox
        joinedSeq := joined }
      fun row => { row with mode := member.mode, kind := member.kind, inbox } }

/-- `channel_open`. -/
def openChannel (c : Channels) (channel : String) (tenant : Tenant) (members : List Member)
    (breaker : Int) (engage : Time) : Channels :=
  members.foldl (fun c member => c.setMember channel member)
    { c with channels := c.channels.insert channel { tenant, breaker, engage } }

/-- `channel_configure`. -/
def configure (c : Channels) (channel : String) (breaker : Option Int) (engage : Option Time) :
    Channels :=
  { c with
    channels := c.channels.modify channel fun row =>
      { row with breaker := breaker.getD row.breaker, engage := engage.getD row.engage } }

/-- `channel_remove_member`. -/
def removeMember (c : Channels) (channel : String) (agent : Address) : Channels :=
  { c with members := c.members.erase (channel, agent) }

/-- `UPDATE rt_channel_members SET cursor = ? WHERE … AND cursor < ?`. -/
def advance (c : Channels) (channel : String) (agent : Address) (upto : Int) : Channels :=
  { c with
    members := c.members.modify (channel, agent) fun row =>
      if row.cursor < upto then { row with cursor := upto } else row }

/-- `channel_mark_read`. -/
def markRead (c : Channels) (channel : String) (agent : Address) (upto : Int) : Channels :=
  c.advance channel agent upto

/-- `channel_mark_delivered`. -/
def markDelivered (c : Channels) (channel : String) (participant : Address) (upto : Int) :
    Channels :=
  { c with
    members := c.members.modify (channel, participant) fun row =>
      if row.delivered < upto then { row with delivered := upto } else row }

/-- The cursor of a member, or `-1` for one the channel does not have. -/
def cursorOf (c : Channels) (channel : String) (agent : Address) : Int :=
  match c.members.get? (channel, agent) with
  | some row => row.cursor
  | none => -1

/-- `channel_read`. -/
def read (c : Channels) (channel : String) (after : Int) (limit : Nat) : List ChannelEntry :=
  (c.entriesOf channel fun seq _ => after < seq).take limit

/-- `_write_entry`. The table has a unique key, unique ids and, within a
channel, unique deduplication keys. -/
def writeEntry (c : Channels) (channel : String) (seq : Int) (entry : EntryRow) :
    Except ChannelError Channels :=
  if (c.entries.get? (channel, seq)).isSome || (c.entries.rows.any fun row => row.2.id = entry.id) ||
      (c.findDedup channel entry.dedupKey).isSome then
    .error (.duplicateEntry channel seq)
  else .ok { c with entries := c.entries.insert (channel, seq) entry }

def setNext (c : Channels) (channel : String) (next : Int) : Channels :=
  { c with channels := c.channels.modify channel fun row => { row with nextSeq := next } }

def newEntryId (c : Channels) (env : TxEnv) : String := env.newId c.entries.rows.length

/-- `_write_marker`: an entry that records something happened, with no wake, no
cursor and no depth. -/
def writeMarker (c : Channels) (env : TxEnv) (channel : String) (seq : Int) (sender : Address)
    (kind : EntryKind) (text : String) (replyTo : Option Int) (data : JsonObject) :
    Except ChannelError Channels := do
  let c ← c.writeEntry channel seq
    { id := c.newEntryId env, sender, kind, text, replyTo, at' := env.clock, data }
  return c.setNext channel (seq + 1)

/-- `_cause_depth`: the depth of what a post answers. -/
def causeDepth (c : Channels) (channel : String) (causeSeq : Option Int) : Nat :=
  match causeSeq with
  | some seq =>
    match c.entries.get? (channel, seq) with
    | some row => row.depth
    | none => 0
  | none =>
    match c.latestMessage channel with
    | some entry => entry.depth
    | none => 0

def wakeReason (mode : Mode) (address : Address) (mentions : List String)
    (repliedTo : Option Address) (engaged : Bool) : Option WakeReason :=
  let named := mentions.contains address
  if mode = .muted then if named then some .direct else none
  else if named || mentions.contains everyone || repliedTo = some address then some .direct
  else if engaged then some .engaged
  else if mode = .all then some .ambient
  else none

def setMemberRow (c : Channels) (channel : String) (agent : Address)
    (f : MemberRow → MemberRow) : Channels :=
  { c with members := c.members.modify (channel, agent) f }

def engage (c : Channels) (channel : String) (agent : Address) (until' : Time) : Channels :=
  c.setMemberRow channel agent fun member => { member with engagedUntil := some until' }

def setNoticed (c : Channels) (channel : String) (agent : Address) (noticed : Bool) : Channels :=
  c.setMemberRow channel agent fun member => { member with exhaustedNoticed := noticed }

def count (c : Channels) (channel : String) (seq : Int) (byAgent : Bool) : Channels :=
  { c with
    channels := c.channels.modify channel fun row =>
      { row with nextSeq := seq + 1, paused := byAgent && row.paused } }

/-- `_SYSTEM`. -/
def systemSender : Address := "system/channel"

def pausedText (depth : Nat) : String := "Paused: agents have spoken " ++ toString (depth - 1) ++
    " times in a row without a person. A new message from a person resumes the conversation."

def noticeName (address : Address) : String :=
  let name := String.ofList ((Address.key address).toList.takeWhile (· ≠ '@'))
  if name = "" then address else name

def exhaustedText (addresses : List Address) : String :=
  String.intercalate ", " (addresses.map noticeName) ++ " " ++
    (if addresses.length = 1 then "has" else "have") ++
      " used up the budget and will not answer until it is topped up."

/-- Whether a sender is a person: what the channel says of it, or its type when
the channel does not know it. -/
def isPerson (c : Channels) (channel : String) (sender : Address) : Bool :=
  match c.members.get? (channel, sender) with
  | some row => row.kind.isPerson
  | none => Address.type sender = "user"

end Channels

/-- `exhausted`: the first account at a limit, or past one when `strict`. -/
def Store.exhausted (s : Store) (accounts : List String) (strict : Bool) : Option String :=
  let at' (spent : Nat) (limit : Option Nat) : Bool :=
    limit.any fun limit => if strict then limit < spent else limit ≤ spent
  accounts.find? fun account =>
    (s.accounts.get? account).any fun row =>
      at' row.spent.tokens row.maxTokens || at' row.spent.costMicros row.maxCostMicros ||
        at' row.spent.turns row.maxTurns

structure Post where
  sender : Address
  text : String
  mentions : List String := []
  replyTo : Option Int := none
  causedBy : Option String := none
  readUpTo : Option Int := none
  kind : EntryKind := .message
  dedupKey : Option String := none
  data : JsonObject := []
  causeSeq : Option Int := none
  fresh : Bool := false

structure AppendResult where
  seq : Option Int := none
  id : Option String := none
  stale : Bool := false
  paused : Bool := false
  latest : Int := -1
  woken : List Address := []
  deriving DecidableEq, Repr

namespace Database

open Channels

def wakeAccounts (channel : String) (address : Address) (tenant : Tenant) : List String :=
  ["channel:" ++ channel, "agent:" ++ address, "tenant:" ++ tenant]

def wakeMessage (channel : String) (seq : Int) (address sender : Address) (reason : WakeReason) :
    Message where
  id := "chan:" ++ channel ++ ":" ++ toString seq ++ ":" ++ address
  sender := sender
  payload := .obj [("channel", .str channel), ("seq", .num seq), ("reason", .str reason.value)]
  correlationId := "chan:" ++ channel

/-- One turn of the loop over the members an entry may concern. Woken addresses
and members whose budget has run out unannounced are gathered. -/
def wakeMember (env : TxEnv) (channel : String) (row : ChannelRow) (seq : Int) (post : Post)
    (repliedTo : Option Address) (turn : Database × List Address × List Address)
    (member : Address × MemberRow) : Except ChannelError (Database × List Address × List Address) :=
  let (d, woken, unannounced) := turn
  let (address, memberRow) := member
  match memberRow.inbox with
  | none => .ok turn
  | some inbox =>
    match wakeReason memberRow.mode address post.mentions repliedTo
        (decide (env.clock < memberRow.engagedUntil.getD 0)) with
    | none => .ok turn
    | some reason =>
      let c :=
        if reason = .direct then d.channels.engage channel address (env.clock + row.engage)
        else d.channels
      let accounts := wakeAccounts channel address row.tenant
      if (d.store.exhausted accounts false).isSome then
        .ok ({ d with channels := c }, woken,
          if memberRow.exhaustedNoticed then unannounced else unannounced ++ [address])
      else
        match d.store.deliver env
            { agent := inbox, msg := wakeMessage channel seq address post.sender reason
              tenant := row.tenant, accounts } true with
        | .error error => .error (.store error)
        | .ok (s, _) =>
          .ok ({ store := s, channels :=
                  if memberRow.exhaustedNoticed then c.setNoticed channel address false
                  else c }, woken ++ [inbox], unannounced)

/-- The entry a post writes. -/
def Post.entry (post : Post) (env : TxEnv) (id : String) (depth : Nat) : EntryRow where
  id := id
  sender := post.sender
  kind := post.kind
  text := post.text
  mentions := post.mentions
  replyTo := post.replyTo
  causedBy := post.causedBy
  causeSeq := post.causeSeq
  depth := depth
  at' := env.clock
  dedupKey := post.dedupKey
  data := post.data

/-- Write a post's entry, move the channel's counter past it, and the sender's
own cursor too. To speak is to be part of the conversation that follows. -/
def logPost (c : Channels) (env : TxEnv) (channel : String) (row : ChannelRow) (post : Post)
    (byAgent : Bool) (depth : Nat) : Except ChannelError Channels := do
  let c ← c.writeEntry channel row.nextSeq (Post.entry post env (c.newEntryId env) depth)
  return ((c.count channel row.nextSeq byAgent).advance channel post.sender row.nextSeq).engage
    channel post.sender (env.clock + row.engage)

/-- Say once that members' budgets have run out, so that the silence is not a
mystery. The result is the latest sequence number. -/
def announce (c : Channels) (env : TxEnv) (channel : String) (seq : Int)
    (unannounced : List Address) : Except ChannelError (Channels × Int) :=
  if unannounced.isEmpty then .ok (c, seq)
  else do
    let c ← (unannounced.foldl (fun c address => c.setNoticed channel address true) c).writeMarker
      env channel (seq + 1) systemSender .system (exhaustedText unannounced) none
      [("budget_exhausted", .arr (unannounced.map .str))]
    return (c, seq + 1)

/-- The second half of `channel_append`: write the entry and wake whom it
concerns. -/
def publish (d : Database) (env : TxEnv) (channel : String) (row : ChannelRow) (post : Post)
    (byAgent : Bool) (depth : Nat) : Except ChannelError (Database × AppendResult) := do
  let seq := row.nextSeq
  let c ← logPost d.channels env channel row post byAgent depth
  let repliedTo := post.replyTo.bind fun replyTo =>
    (c.entries.get? (channel, replyTo)).map (·.sender)
  let (d', woken, unannounced) ← (c.othersOf channel post.sender).foldlM
    (wakeMember env channel row seq post repliedTo) ({ d with channels := c }, [], [])
  let (c, latest) ← announce d'.channels env channel seq unannounced
  return ({ d' with channels := c },
    { seq := some seq, id := some (d.channels.newEntryId env), latest, woken })

def postDepth (c : Channels) (channel : String) (post : Post) (chained : Bool) : Nat :=
  if chained then c.causeDepth channel post.causeSeq + 1 else 0

def pause (c : Channels) (env : TxEnv) (channel : String) (row : ChannelRow) (depth : Nat) :
    Except ChannelError Channels := do
  let c ← c.writeMarker env channel row.nextSeq systemSender .system (pausedText depth) none []
  return { c with channels := c.channels.modify channel fun row => { row with paused := true } }

/-- `channel_append`. -/
def append (d : Database) (env : TxEnv) (channel : String) (post : Post) :
    Except ChannelError (Database × AppendResult) :=
  match d.channels.channels.get? channel with
  | none => .error (.unknownChannel channel)
  | some row =>
    let latest := row.nextSeq - 1
    match d.channels.findDedup channel post.dedupKey with
    | some (seq, done) => .ok (d, { seq := some seq, id := some done.id, latest })
    | none =>
      let byAgent := !d.channels.isPerson channel post.sender
      let chained := byAgent && !post.fresh
      if chained && row.paused then .ok (d, { paused := true, latest })
      else if post.readUpTo.any fun upto =>
          d.channels.entries.rows.any fun entry =>
            entry.1.1 = channel && decide (upto < entry.1.2) &&
              entry.2.sender ≠ post.sender && entry.2.kind = .message then
        .ok (d, { stale := true, latest })
      else
        let depth := postDepth d.channels channel post chained
        if chained && decide (row.breaker < depth) then do
          let c ← pause d.channels env channel row depth
          return ({ d with channels := c }, { paused := true, latest := row.nextSeq })
        else d.publish env channel row post byAgent depth

/-- `_own_message`: the message, if its sender wrote it and it is still there. -/
def ownMessage (c : Channels) (channel : String) (seq : Int) (sender : Address) :
    Option (ChannelRow × EntryRow) :=
  match c.channels.get? channel, c.entries.get? (channel, seq) with
  | some row, some entry =>
    if entry.kind ≠ .message || entry.sender ≠ sender || entry.deletedAt.isSome then none
    else some (row, entry)
  | _, _ => none

def setEntry (c : Channels) (channel : String) (seq : Int) (f : EntryRow → EntryRow) : Channels :=
  { c with entries := c.entries.modify (channel, seq) f }

def editEntry (text : String) (at' : Time) (entry : EntryRow) : EntryRow :=
  { entry with text, editedAt := some at' }

def blankEntry (at' : Time) (entry : EntryRow) : EntryRow :=
  { entry with text := "", data := [], mentions := [], deletedAt := some at' }

def blankEdits (c : Channels) (channel : String) (seq : Int) : Channels :=
  { c with
    entries := c.entries.map fun key entry =>
      if key.1 = channel && entry.kind = EntryKind.edit && entry.replyTo = some seq then
        { entry with text := "", data := [] }
      else entry }

/-- `channel_edit`. -/
def edit (c : Channels) (env : TxEnv) (channel : String) (seq : Int) (sender : Address)
    (text : String) : Except ChannelError (Channels × Option Int) :=
  match ownMessage c channel seq sender with
  | none => .ok (c, none)
  | some (row, entry) => do
      let c := setEntry c channel seq (editEntry text env.clock)
      let c ← c.writeMarker env channel row.nextSeq sender .edit text (some seq)
        [("previous", .str entry.text)]
      return (c, some row.nextSeq)

/-- `channel_tombstone`. -/
def tombstone (c : Channels) (env : TxEnv) (channel : String) (seq : Int) (sender : Address) :
    Except ChannelError (Channels × Option Int) :=
  match ownMessage c channel seq sender with
  | none => .ok (c, none)
  | some (row, _) => do
      let c := blankEdits (setEntry c channel seq (blankEntry env.clock)) channel seq
      let c ← c.writeMarker env channel row.nextSeq sender .tombstone "" (some seq) []
      return (c, some row.nextSeq)

/-- The participant's reaction to an entry; without one, an empty reaction
marked by the entry itself. -/
def reactionOf (c : Channels) (channel : String) (seq : Int) (participant : Address) :
    ReactionRow :=
  (c.reactions.get? (channel, seq, participant)).getD { emoji := "", markerSeq := seq }

/-- `channel_react`. -/
def react (c : Channels) (env : TxEnv) (channel : String) (seq : Int) (participant : Address)
    (emoji : String) : Except ChannelError (Channels × Option Int) :=
  match c.channels.get? channel, c.entries.get? (channel, seq) with
  | some row, some target =>
    if target.kind ≠ .message then .ok (c, none)
    else
      let current := reactionOf c channel seq participant
      if current.emoji = emoji then .ok (c, some current.markerSeq)
      else do
        let c :=
          if emoji = "" then
            { c with reactions := c.reactions.erase (channel, seq, participant) }
          else
            { c with
              reactions := c.reactions.upsert (channel, seq, participant)
                { emoji, markerSeq := row.nextSeq }
                fun _ => { emoji, markerSeq := row.nextSeq } }
        let c ← c.writeMarker env channel row.nextSeq participant .reaction emoji (some seq) []
        return (c, some row.nextSeq)
  | _, _ => .ok (c, none)

def dropChannel (c : Channels) (channel : String) : Channels where
  channels := c.channels.erase channel
  members := c.members.filter fun key _ => key.1 ≠ channel
  entries := c.entries.filter fun key _ => key.1 ≠ channel
  reactions := c.reactions.filter fun key _ => key.1 ≠ channel

/-- `channel_delete`. -/
def delete (d : Database) (channel : String) : Database where
  store := d.store.dropAccounts ["channel:" ++ channel]
  channels := dropChannel d.channels channel

/-- `SELECT channel FROM rt_channels WHERE tenant = ?`. -/
def channelsOf (c : Channels) (tenant : Tenant) : List String :=
  (c.channels.rows.filter fun row => row.2.tenant = tenant).map Prod.fst

/-- `erase` over all tables: a whole-tenant erasure deletes the tenant's
channels too. -/
def erase (d : Database) (tenant : Tenant) (threadId : Option String) (agent : Option Address) :
    Database where
  store := d.store.erase tenant threadId agent (channelsOf d.channels tenant)
  channels :=
    if threadId.isNone && agent.isNone then
      (channelsOf d.channels tenant).foldl dropChannel d.channels
    else d.channels

end Database

inductive ChannelOp where
  | openChannel (channel : String) (tenant : Tenant) (members : List Member) (breaker : Int)
      (engage : Time)
  | configure (channel : String) (breaker : Option Int) (engage : Option Time)
  | setMember (channel : String) (member : Member)
  | removeMember (channel : String) (agent : Address)
  | markRead (channel : String) (agent : Address) (upto : Int)
  | markDelivered (channel : String) (participant : Address) (upto : Int)
  | append (channel : String) (post : Post)
  | edit (channel : String) (seq : Int) (sender : Address) (text : String)
  | tombstone (channel : String) (seq : Int) (sender : Address)
  | react (channel : String) (seq : Int) (participant : Address) (emoji : String)
  | delete (channel : String)

namespace Database

def performChannel (env : TxEnv) (d : Database) : ChannelOp → Except ChannelError Database
  | .openChannel channel tenant members breaker engage =>
    .ok { d with channels := d.channels.openChannel channel tenant members breaker engage }
  | .configure channel breaker engage =>
    .ok { d with channels := d.channels.configure channel breaker engage }
  | .setMember channel member => .ok { d with channels := d.channels.setMember channel member }
  | .removeMember channel agent =>
    .ok { d with channels := d.channels.removeMember channel agent }
  | .markRead channel agent upto =>
    .ok { d with channels := d.channels.markRead channel agent upto }
  | .markDelivered channel participant upto =>
    .ok { d with channels := d.channels.markDelivered channel participant upto }
  | .append channel post => return (← d.append env channel post).1
  | .edit channel seq sender text =>
    return { d with channels := (← edit d.channels env channel seq sender text).1 }
  | .tombstone channel seq sender =>
    return { d with channels := (← tombstone d.channels env channel seq sender).1 }
  | .react channel seq participant emoji =>
    return { d with channels := (← react d.channels env channel seq participant emoji).1 }
  | .delete channel => .ok (d.delete channel)

inductive Op where
  | store (op : Store.Op)
  | channel (op : ChannelOp)

/-- One transaction over all tables. -/
def perform (env : TxEnv) (d : Database) : Op → Except ChannelError Database
  | .store (.erase tenant threadId agent _) => .ok (d.erase tenant threadId agent)
  | .store op =>
    match d.store.perform env op with
    | .ok s => .ok { d with store := s }
    | .error error => .error (.store error)
  | .channel op => d.performChannel env op

def exec (call : TxEnv × Op) (d : Database) : Database :=
  match d.perform call.1 call.2 with
  | .ok d' => d'
  | .error _ => d

end Database

end Substrate
