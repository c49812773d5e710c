import Substrate.Store.Operations

/-!
The channel tables. A channel is one ordered log that several parties write to, each
reader with a cursor of its own.
-/

namespace Substrate

open Lib

inductive Mode where
  | all
  | mentions
  | muted
  deriving DecidableEq, Repr

inductive WakeReason where
  | direct
  | engaged
  | ambient
  deriving DecidableEq, Repr

def WakeReason.value : WakeReason → String
  | .direct => "direct"
  | .engaged => "engaged"
  | .ambient => "ambient"

inductive ParticipantKind where
  | human
  | agent
  | system
  | external
  deriving DecidableEq, Repr

/-- `_PERSON`. -/
def ParticipantKind.isPerson : ParticipantKind → Bool
  | .human | .external => true
  | .agent | .system => false

/-- `_WITH_INBOX`. -/
def ParticipantKind.hasInbox : ParticipantKind → Bool
  | .agent | .system => true
  | .human | .external => false

inductive EntryKind where
  | message
  | system
  | edit
  | reaction
  | tombstone
  deriving DecidableEq, Repr

/-- `SPOKEN`: the kinds a reader sees as the conversation. -/
def EntryKind.isSpoken : EntryKind → Bool
  | .message | .system => true
  | .edit | .reaction | .tombstone => false

def everyone : String := "everyone"

def Address.type (address : Address) : String := String.ofList (address.toList.takeWhile (· ≠ '/'))

def Address.key (address : Address) : String :=
  String.ofList ((address.toList.dropWhile (· ≠ '/')).drop 1)

/-- A row of `rt_channels`. -/
structure ChannelRow where
  tenant : Tenant := "default"
  breaker : Int := 40
  engage : Time := 600000000
  nextSeq : Int := 0
  paused : Bool := false
  deriving DecidableEq, Repr

structure Member where
  agent : Address
  mode : Mode := .all
  cursor : Int := -1
  kind : ParticipantKind := .agent
  inbox : Option Address := none

/-- A row of `rt_channel_members`. -/
structure MemberRow where
  mode : Mode
  cursor : Int := -1
  kind : ParticipantKind
  inbox : Option Address
  delivered : Int := -1
  joinedSeq : Int := 0
  engagedUntil : Option Time := none
  exhaustedNoticed : Bool := false

/-- A row of `rt_channel_entries`, with the columns beside its key. -/
structure EntryRow where
  id : String
  sender : Address
  kind : EntryKind := .message
  text : String := ""
  mentions : List String := []
  replyTo : Option Int := none
  causedBy : Option String := none
  causeSeq : Option Int := none
  depth : Nat := 0
  at' : Time
  editedAt : Option Time := none
  deletedAt : Option Time := none
  dedupKey : Option String := none
  data : JsonObject := []

/-- A row of `rt_channel_reactions`. -/
structure ReactionRow where
  emoji : String
  markerSeq : Int

structure ChannelEntry extends EntryRow where
  channel : String
  seq : Int

structure Channels where
  channels : Table String ChannelRow := .empty
  members : Table (String × Address) MemberRow := .empty
  entries : Table (String × Int) EntryRow := .empty
  reactions : Table (String × Int × Address) ReactionRow := .empty

structure Database where
  store : Store := {}
  channels : Channels := {}

inductive ChannelError where
  | unknownChannel (channel : String)
  | duplicateEntry (channel : String) (seq : Int)
  | store (error : StoreError)
  deriving DecidableEq, Repr

namespace Channels

/-- The entries of a channel that satisfy `p`, by sequence number. -/
def entriesOf (c : Channels) (channel : String) (p : Int → EntryRow → Bool) : List ChannelEntry :=
  ((c.entries.rows.filter fun row => row.1.1 = channel && p row.1.2 row.2).insertionSort
    fun a b => a.1.2 ≤ b.1.2).map fun row =>
      { row.2 with channel, seq := row.1.2 }

def othersOf (c : Channels) (channel : String) (sender : Address) : List (Address × MemberRow) :=
  ((c.members.rows.filter fun row => row.1.1 = channel && row.1.2 ≠ sender).insertionSort
    fun a b => a.1.2 ≤ b.1.2).map fun row => (row.1.2, row.2)

def findDedup (c : Channels) (channel : String) (key : Option String) : Option (Int × EntryRow) :=
  key.bind fun key =>
    (c.entries.rows.find? fun row => row.1.1 = channel && row.2.dedupKey = some key).map
      fun row => (row.1.2, row.2)

def latestMessage (c : Channels) (channel : String) : Option ChannelEntry :=
  (c.entriesOf channel fun _ entry => entry.kind = .message).getLast?

end Channels

end Substrate
