import Substrate.Files.Custody
import Substrate.Files.Normal
import Substrate.Files.Places
import Substrate.Lib.Staging

/-!
The routes of files (`routes/files.py`) and the files of documents (`documents/volume.py`),
with the paths and prefixes as they are given. Every route brings its path into normal form
before it does anything; a copy puts files where the normal forms of its prefixes lead, which
need not be in normal form themselves.
-/

namespace Substrate.Files

open Lib

inductive Action where
  | read | write
  deriving DecidableEq, Repr

structure Site where
  nfc : Path → Path
  settings : Settings
  authorize : Principal → Path → Action → Except Problem Unit
  authorizePrefix : Principal → Path → Action → Except Problem Unit

/-- An item of `sign`. -/
structure SignItem where
  action : Action
  path : Path
  size : Option Nat
  contentType : String
  sha256 : String

/-- The requests, with the paths as they come. Those that begin with `bundle` are made for
documents. -/
inductive Route where
  | initiate (volume : String) (caller : Principal) (path : Path) (size : Nat)
      (contentType sha256 : String) (ifMatch : Option Nat) (ifNoneMatch : Bool)
  | complete (volume : String) (caller : Principal) (id : String) (parts : Bool)
      (ifMatch : Option Nat) (ifNoneMatch : Bool)
  | sign (volume : String) (caller : Principal) (items : List SignItem)
  | createSession (caller : Principal) (size : Nat) (contentType sha256 : String)
  | send (key : ObjectKey)
  | promote (volume : String) (caller : Principal) (id : String) (path : Path) (parts : Bool)
      (ifMatch : Option Nat) (ifNoneMatch : Bool)
  | deleteFile (volume : String) (caller : Principal) (path : Path) (ifMatch : Option Nat)
      (stamp : Nat)
  | deletePrefix (volume : String) (caller : Principal) (start : Path) (stamp : Nat)
  | copyPrefix (volume : String) (caller : Principal) (source destination : Path)
      (overwrite : Bool) (order : List (Path × FileRow) → List (Path × FileRow))
      (horder : ∀ rows, (order rows).Perm rows) (newId : Path → String) (stamp : Nat)
  | restoreFile (volume : String) (caller : Principal) (path : Path) (version : Option Nat)
      (ifMatch : Option Nat) (id : String) (stamp : Nat)
  | bundleUpload (volume : String) (path : Path) (data : List UInt8)
      (sha256 contentType : String)
  | bundleDelete (volume : String) (path : Path) (stamp : Nat)
  | bundleDeletePrefix (volume : String) (start : Path) (stamp : Nat)
  | bundleCopy (volume : String) (source destination : Path)
      (order : List (Path × FileRow) → List (Path × FileRow))
      (horder : ∀ rows, (order rows).Perm rows) (newId : Path → String) (stamp : Nat)
  | sweep (order : List ((String × Nat) × VersionRow) → List ((String × Nat) × VersionRow))
  | erase (volume : String) (start : Path) (chosen : List (UploadRow → Bool))
  | unregister (volume : String)

def accepted {α : Type} (r : Except Problem α) : Op α :=
  match r with
  | .ok a => .ret a
  | .error problem => .raise problem

def overlaps (a b : Path) : Bool := b.isPrefixOf a || a.isPrefixOf b

namespace Site

variable (site : Site)

/-- One item of `sign`. -/
def signItem (volume : String) (caller : Principal) (item : SignItem) : Op Unit :=
  Process.catching (do
    let path ← accepted (normalizePath site.nfc item.path)
    match item.action with
    | .read => do
        allow (site.authorize caller path .read)
        let found ← head volume path
        if found.isNone then fail (notFound "File") else .ret ()
    | .write => do
        allow (site.authorize caller path .write)
        match item.size.filter fun size => size ≤ singlePutMax with
        | none => fail ⟨400, "invalid-request", "A put needs a size of at most 64 MiB", []⟩
        | some size =>
          discard (initiateUpload site.settings volume caller path size item.contentType
            item.sha256 none false)) fun _ => .ret ()

/-- `_pending_allowed`, for several uploads. -/
def pendingRoom (caller : Principal) (extra : Nat) : Op Unit := do
  let count ← look fun s =>
    s.tables.uploads.count fun row => row.createdBy = caller.id && row.state = .pending
  if count + extra > maxPending then
    fail ⟨429, "rate-limited", "Too many unfinished uploads; finish or wait for them to expire",
      [("retry_after", 60)]⟩
  else .ret ()

def sign (volume : String) (caller : Principal) (items : List SignItem) : Op Unit := do
  let puts := items.countP fun item => item.action = .write
  if 0 < puts then pendingRoom caller puts else .ret ()
  Process.each (site.signItem volume caller) items

/-- `copy_prefix`, the route. -/
def copyFolder (volume : String) (caller : Principal) (source destination : Path)
    (overwrite : Bool) (order : List (Path × FileRow) → List (Path × FileRow))
    (newId : Path → String) (stamp : Nat) : Op Unit := do
  let source ← accepted (normalizePrefix site.nfc source)
  let destination ← accepted (normalizePrefix site.nfc destination)
  if source = [] ∨ destination = [] then
    fail ⟨400, "invalid-request", "Source and destination prefixes are required", []⟩
  else if overlaps source destination then
    fail ⟨400, "invalid-request", "The prefixes must not contain one another", []⟩
  else do
    allow (site.authorizePrefix caller source .read)
    allow (site.authorizePrefix caller destination .write)
    discard (transact (.copyPrefix volume source destination caller.id overwrite order newId stamp)
      (Files.copyPrefix volume source destination caller.id overwrite order newId stamp))

def process : Route → Op Unit
  | .initiate volume caller path size contentType sha256 ifMatch ifNoneMatch => do
      let path ← accepted (normalizePath site.nfc path)
      allow (site.authorize caller path .write)
      discard (initiateUpload site.settings volume caller path size contentType sha256 ifMatch
        ifNoneMatch)
  | .complete volume caller id parts ifMatch ifNoneMatch =>
    discard (completeUpload (fun caller path => site.authorize caller path .write) volume
      caller id parts ifMatch ifNoneMatch)
  | .sign volume caller items => site.sign volume caller items
  | .createSession caller size contentType sha256 =>
    discard (createSession site.settings caller size contentType sha256)
  | .send key => Process.perform (.put key) fun _ _ => .ok ()
  | .promote volume caller id path parts ifMatch ifNoneMatch => do
      let path ← accepted (normalizePath site.nfc path)
      discard (promote (fun caller path => site.authorize caller path .write) volume caller id
        path parts ifMatch ifNoneMatch)
  | .deleteFile volume caller path ifMatch stamp => do
      let path ← accepted (normalizePath site.nfc path)
      allow (site.authorize caller path .write)
      let removed ← transact (.softDelete volume path ifMatch stamp)
        (softDelete volume path ifMatch stamp)
      if removed.isNone then fail (notFound "File") else .ret ()
  | .deletePrefix volume caller start stamp => do
      let start ← accepted (normalizePrefix site.nfc start)
      if start = [] then
        fail ⟨400, "invalid-request", "A prefix is required; delete the volume instead", []⟩
      else do
        allow (site.authorizePrefix caller start .write)
        discard (transact (.deletePrefix volume start stamp)
          (Files.deletePrefix volume start stamp))
  | .copyPrefix volume caller source destination overwrite order _ newId stamp =>
    site.copyFolder volume caller source destination overwrite order newId stamp
  | .restoreFile volume caller path version ifMatch id stamp => do
      let path ← accepted (normalizePath site.nfc path)
      allow (site.authorize caller path .write)
      discard (transact (.restore volume path version caller.id ifMatch id stamp)
        (restore volume path version caller.id ifMatch id stamp))
  | .bundleUpload volume path data sha256 contentType => do
      let path ← accepted (normalizePath site.nfc path)
      uploadBytes volume path data sha256 contentType
  | .bundleDelete volume path stamp => do
      let path ← accepted (normalizePath site.nfc path)
      discard (transact (.softDelete volume path none stamp) (softDelete volume path none stamp))
  | .bundleDeletePrefix volume start stamp => do
      let start ← accepted (normalizePrefix site.nfc start)
      discard (transact (.deletePrefix volume start stamp) (Files.deletePrefix volume start stamp))
  | .bundleCopy volume source destination order _ newId stamp => do
      let source ← accepted (normalizePrefix site.nfc source)
      let destination ← accepted (normalizePrefix site.nfc destination)
      discard (transact (.copyPrefix volume source destination writer true order newId stamp)
        (Files.copyPrefix volume source destination writer true order newId stamp))
  | .sweep order => Files.sweep site.settings order
  | .erase volume start chosen => eraseFiles volume start chosen
  | .unregister volume => Process.perform (.unregister volume) fun _ _ => .ok ()

end Site

def Deed.InPlace (P : Path → Prop) : Deed → Prop
  | .call (.commit _ path _ _ _ _ _ _ _) => P path
  | .call (.createUpload _ row) => ∀ volume path, row.target = some (volume, path) → P path
  | .call (.copyPrefix _ _ _ _ _ order _ _) => ∀ rows, (order rows).Perm rows
  | _ => True

def Deed.Lands (P : Path → Prop) (t : Tables) : Deed → Prop
  | .call (.copyPrefix volume source destination _ overwrite _ _ _) =>
    Files.Lands P volume source destination overwrite t
  | _ => True

section

variable {P : Path → Prop}

theorem Placed.call {t : Tables} (h : Placed P t) (call : Call)
    (hplace : (Deed.call call).InPlace P) (hlands : (Deed.call call).Lands P t) :
    Placed P (call.apply t) := by
  cases call with
  | commit volume path key content by_ ifMatch ifNoneMatch id stamp =>
    exact h.after (plants_commitVersion hplace key content by_ ifMatch ifNoneMatch id stamp)
  | softDelete volume path ifMatch stamp =>
    exact h.after ((deletes_softDelete path ifMatch stamp).mono fun _ hw => hw.plants)
  | deletePrefix volume start stamp =>
    exact h.after ((deletes_deletePrefix start stamp).mono fun _ hw => hw.plants)
  | copyPrefix volume source destination by_ overwrite order newId stamp =>
    exact h.copy hplace hlands
  | restore volume path version by_ ifMatch id stamp =>
    exact h.after (plants_restore volume path version by_ ifMatch id stamp)
  | purge cutoff limit order stamp => exact h.after (plants_purgeVersions cutoff limit order stamp)
  | erase volume start => exact h.after (plants_erasePrefix volume start)
  | createUpload id row =>
    have hwrites : (createUpload id row).Writes (Write.Plants P) :=
      plants_update hplace fun _ => trivial
    exact h.after hwrites
  | moveUpload id expected state =>
    have hwrites : (moveUpload id expected state).Writes (Write.Plants P) :=
      plants_update trivial fun _ => trivial
    exact h.after hwrites
  | forgetUpload id =>
    have hwrites : (forgetUpload id).Writes (Write.Plants P) :=
      plants_update trivial fun _ => trivial
    exact h.after hwrites
  | eraseUploads chosen =>
    have hwrites : (eraseUploads chosen).Writes (Write.Plants P) :=
      fun _ => plants_update trivial fun _ => trivial
    exact h.after hwrites
  | dropVolume volume =>
    have hwrites : (dropVolume volume).Writes (Write.Plants P) :=
      plants_update trivial fun _ => trivial
    exact h.after hwrites

theorem Placed.deed {s : Store} (h : Placed P s.tables) {deed : Deed} (c : Chance)
    (hplace : deed.InPlace P) (hlands : deed.Lands P s.tables) :
    Placed P (deed.apply c s).tables := by
  cases deed with
  | call call => exact h.call call hplace hlands
  | look | issue | unregister volume => exact h
  | put key | write key blob | delete why keys | deleteVolume volume =>
    simp only [Deed.apply]
    split <;> exact h
  | copy source destination =>
    simp only [Deed.apply]
    repeat' split
    all_goals exact h

/-- Whatever it finds, as long as all paths are of the kind, the process puts files only at
such paths. -/
abbrev Puts {α : Type} (P : Path → Prop) (p : Op α) : Prop :=
  p.Only (fun s => Placed P s.tables) (Deed.InPlace P)

namespace Puts

variable {α β : Type}

theorem seq {p : Op α} {f : α → Op β} (h : Puts P p) (hf : ∀ a, Puts P (f a)) :
    Puts P (p >>= f) := Process.Only.seq h hf

theorem idle {p : Op α} (h : Idle p) : Puts P p := by
  induction p with
  | ret a | raise e => trivial
  | act deed next ih =>
    refine ⟨?_, fun c s _ => ih c s (h.2 c s)⟩
    rcases h.1 with rfl | rfl
    · trivial
    · trivial

theorem discard {p : Op α} (h : Puts P p) : Puts P (discard p) := h.seq fun _ => trivial

theorem perform {deed : Deed} (h : deed.InPlace P) (answer : Chance → Store → Except Problem α) :
    Puts P (Process.perform deed answer) := Process.Only.perform h answer

theorem allow (r : Except Problem Unit) : Puts P (allow r) := by
  cases r with
  | ok _ | error problem => trivial

theorem accepted {r : Except Problem α} {f : α → Op β} (h : ∀ a, r = .ok a → Puts P (f a)) :
    Puts P (accepted r >>= f) := by
  cases r with
  | ok a => exact h a rfl
  | error problem => trivial

theorem look {α : Type} (query : Store → α) : Puts P (look query) := perform (by trivial) _

theorem clock : Puts P clock := perform (by trivial) _

theorem issue : Puts P issue := perform (by trivial) _

theorem transact {call : Call} (h : (Deed.call call).InPlace P) (t : Transaction α) :
    Puts P (transact call t) := perform h _

theorem openUpload (settings : Settings) (caller : Principal)
    {target : Option (String × Path)} (key : ObjectKey) (size : Nat)
    (contentType sha256 : String) (multipart : Bool)
    (htarget : ∀ volume path, target = some (volume, path) → P path) :
    Puts P (openUpload settings caller target key size contentType sha256 multipart) := by
  have hbegin : Puts P beginUpload := perform (by trivial) _
  apply seq hbegin
  intro uploadId
  apply seq issue
  intro id
  apply seq clock
  intro now
  apply seq
  · apply transact
    exact htarget
  · exact fun _ => trivial

theorem initiateUpload (settings : Settings) (volume : String) (caller : Principal)
    {path : Path} (size : Nat) (contentType sha256 : String) (ifMatch : Option Nat)
    (ifNoneMatch : Bool) (hpath : P path) :
    Puts P (initiateUpload settings volume caller path size contentType sha256 ifMatch
      ifNoneMatch) := by
  unfold Files.initiateUpload
  split
  · trivial
  · apply seq (idle (Idle.failFast volume path size ifMatch ifNoneMatch))
    intro _
    apply seq (idle (Idle.pendingAllowed caller))
    intro _
    apply seq issue
    intro name
    apply openUpload
    rintro _ _ heq
    cases heq
    exact hpath

theorem createSession (settings : Settings) (caller : Principal) (size : Nat)
    (contentType sha256 : String) :
    Puts P (createSession settings caller size contentType sha256) := by
  unfold Files.createSession
  split
  · trivial
  · apply seq (idle (Idle.pendingAllowed caller))
    intro _
    apply seq issue
    intro session
    apply seq issue
    intro name
    exact openUpload _ _ _ _ _ _ _ nofun

theorem upload (id : String) : Puts P (upload id) := perform (by trivial) _

theorem move (id : String) (expected state : UploadState) : Puts P (move id expected state) :=
  transact (by trivial) _

theorem deleteObjects (why : Reason) (keys : List ObjectKey) :
    Puts P (deleteObjects why keys) := perform (by trivial) _

theorem suppress {p : Op Unit} (h : Puts P p) : Puts P (suppress p) :=
  Process.Only.catching h fun _ => trivial

theorem claim (id : String) (row : UploadRow) (caller : Principal) :
    Puts P (claim id row caller) := by
  unfold Files.claim
  split
  · trivial
  · apply seq clock
    intro now
    split
    · trivial
    · apply seq (move _ _ _)
      intro moved
      split
      · trivial
      · exact seq (upload id) fun _ => trivial

theorem verifiedObject (id : String) (row : UploadRow) (parts : Bool) :
    Puts P (verifiedObject id row parts) := by
  unfold Files.verifiedObject assembled
  apply seq
  · split
    · split
      · trivial
      · exact perform (by trivial) _
    · trivial
  · intro _
    have hhead : Puts P (headObject row.objectKey) := perform (by trivial) _
    unfold checkedObject
    apply seq hhead
    intro blob
    cases blob with
    | none => trivial
    | some blob =>
      dsimp only
      split
      · exact seq (deleteObjects _ _) fun _ => trivial
      · split
        · exact seq (deleteObjects _ _) fun _ => trivial
        · trivial

theorem giveUp (id : String) (row : UploadRow) (problem : Problem) :
    Puts P (giveUp id row problem) := by
  unfold Files.giveUp
  split
  · exact seq (move _ _ _) fun _ => trivial
  · exact seq (move _ _ _) fun _ => suppress (deleteObjects _ _)

theorem commitUpload (volume : String) {path : Path} (hpath : P path) (key : ObjectKey)
    (row : UploadRow) (verified : String × Bool) (caller : Principal) (ifMatch : Option Nat)
    (ifNoneMatch : Bool) :
    Puts P (commitUpload volume path key row verified caller ifMatch ifNoneMatch) := by
  apply seq issue
  intro id
  apply seq clock
  intro now
  exact perform (by exact hpath) _

theorem completeUpload (rule : WriteRule) (volume : String) (caller : Principal) (id : String)
    (parts : Bool) (ifMatch : Option Nat) (ifNoneMatch : Bool) :
    Puts P (completeUpload rule volume caller id parts ifMatch ifNoneMatch) := by
  unfold Files.completeUpload
  apply Process.Only.after trivial
  intro c s hplaced row hrow
  have hget : s.tables.uploads.get? id = some row := by
    split at hrow
    · cases hrow
    · next hget =>
        cases hrow
        exact hget
  cases htarget : row.target with
  | none => trivial
  | some target =>
    obtain ⟨owner, path⟩ := target
    have hpath : P path := hplaced.uploads id row owner path hget htarget
    dsimp only
    split
    · trivial
    · apply seq (allow _)
      intro _
      apply seq
      · split
        · exact look _
        · trivial
      · intro found
        cases found with
        | some found => trivial
        | none =>
          dsimp only
          apply seq (claim _ _ _)
          intro _
          apply seq
          · apply Process.Only.catching
            · exact seq (verifiedObject _ _ _) fun _ => commitUpload _ hpath _ _ _ _ _ _
            · exact fun problem => seq (giveUp _ _ _) fun _ => trivial
          · intro _
            exact seq (move _ _ _) fun _ => trivial

theorem promote (rule : WriteRule) (volume : String) (caller : Principal) (id : String)
    {path : Path} (hpath : P path) (parts : Bool) (ifMatch : Option Nat) (ifNoneMatch : Bool) :
    Puts P (promote rule volume caller id path parts ifMatch ifNoneMatch) := by
  unfold Files.promote
  apply seq (upload id)
  intro row
  split
  · trivial
  · apply seq (allow _)
    intro _
    apply seq (claim _ _ _)
    intro _
    apply seq issue
    intro name
    have hcopy : Puts P (copyObject row.objectKey (.object volume name)) := perform (by trivial) _
    apply seq
    · apply Process.Only.catching
      · apply seq (verifiedObject _ _ _)
        intro verified
        apply seq (idle (Idle.failFast _ _ _ _ _))
        intro _
        exact seq hcopy fun _ => trivial
      · exact fun problem => seq (giveUp _ _ _) fun _ => trivial
    · intro verified
      apply seq
      · apply Process.Only.catching (commitUpload _ hpath _ _ _ _ _ _)
        intro problem
        apply seq (suppress (deleteObjects _ _))
        intro _
        exact seq (giveUp _ _ _) fun _ => trivial
      · intro _
        apply seq (move _ _ _)
        intro _
        exact seq (suppress (deleteObjects _ _)) fun _ => trivial

theorem uploadBytes (volume : String) {path : Path} (hpath : P path) (data : List UInt8)
    (sha256 contentType : String) : Puts P (uploadBytes volume path data sha256 contentType) := by
  apply seq issue
  intro name
  have hput : Puts P (putBytes (.object volume name) ⟨data, some sha256⟩) := perform (by trivial) _
  apply seq hput
  intro _
  apply seq issue
  intro id
  apply seq clock
  intro now
  apply seq
  · apply Process.Only.catching
    · apply transact
      exact hpath
    · exact fun problem => seq (deleteObjects _ _) fun _ => trivial
  · exact fun _ => trivial

theorem sweepUpload (entry : String × UploadRow) : Puts P (sweepUpload entry) := by
  have hforget : Puts P (Files.transact (.forgetUpload entry.1) (forgetUpload entry.1)) :=
    transact (by trivial) _
  unfold Files.sweepUpload
  dsimp only
  split
  · exact seq (deleteObjects _ _) fun _ => hforget
  · exact hforget

theorem sweepVolume (volume : String) : Puts P (sweepVolume volume) := by
  apply seq
  · exact perform (by trivial) _
  · exact fun _ => transact (by trivial) _

theorem sweep (settings : Settings)
    (order : List ((String × Nat) × VersionRow) → List ((String × Nat) × VersionRow)) :
    Puts P (sweep settings order) := by
  apply seq
  · apply seq clock
    intro now
    apply seq (look _)
    intro expired
    exact Process.Only.each fun entry => sweepUpload entry
  · intro _
    apply seq
    · unfold sweepVersions deleteGarbage
      split
      · trivial
      · apply seq clock
        intro now
        apply seq
        · apply transact
          trivial
        · intro garbage
          split
          · trivial
          · exact deleteObjects _ _
    · intro _
      apply seq (look _)
      intro volumes
      exact Process.Only.each fun volume => sweepVolume volume

theorem forgetUploads : ∀ chosen : List (UploadRow → Bool), Puts P (forgetUploads chosen)
  | [] => trivial
  | chosen :: rest => by
      apply seq
      · apply transact
        trivial
      · exact fun _ => seq (forgetUploads rest) fun _ => trivial

theorem eraseFiles (volume : String) (start : Path) (chosen : List (UploadRow → Bool)) :
    Puts P (eraseFiles volume start chosen) := by
  apply seq
  · apply transact
    trivial
  · intro erased
    apply seq
    · unfold deleteGarbage
      split
      · trivial
      · exact deleteObjects _ _
    · intro _
      apply seq (forgetUploads chosen)
      intro pending
      exact Process.Only.each fun entry => deleteObjects _ _

end Puts

end

section

variable {site : Site}

def Site.Normal (site : Site) (path : Path) : Prop := normalizePath site.nfc path = .ok path

theorem puts_signItem (hnfc : Composes site.nfc) (volume : String) (caller : Principal)
    (item : SignItem) : Puts site.Normal (site.signItem volume caller item) := by
  apply Process.Only.catching
  · apply Puts.accepted
    intro path hpath
    cases item.action with
    | read =>
      apply Puts.seq (Puts.allow _)
      intro _
      apply Puts.seq (Puts.look _)
      intro found
      split <;> trivial
    | write =>
      apply Puts.seq (Puts.allow _)
      intro _
      cases item.size.filter fun size => size ≤ singlePutMax with
      | none => trivial
      | some size =>
        exact (Puts.initiateUpload _ _ _ _ _ _ _ _ (normalizePath_idem hnfc hpath)).discard
  · exact fun _ => trivial

theorem puts_sign (hnfc : Composes site.nfc) (volume : String) (caller : Principal)
    (items : List SignItem) : Puts site.Normal (site.sign volume caller items) := by
  have hitems : Puts site.Normal (Process.each (site.signItem volume caller) items) :=
    Process.Only.each fun item => puts_signItem hnfc volume caller item
  have hroom : ∀ extra, Puts site.Normal (Site.pendingRoom caller extra) := by
    intro extra
    apply Puts.seq (Puts.look _)
    intro count
    split <;> trivial
  unfold Site.sign
  dsimp only
  split
  · exact Puts.seq (hroom _) fun _ => hitems
  · exact Puts.seq trivial fun _ => hitems

theorem puts_copyFolder (volume : String) (caller : Principal) (source destination : Path)
    (overwrite : Bool) {order : List (Path × FileRow) → List (Path × FileRow)}
    (horder : ∀ rows, (order rows).Perm rows) (newId : Path → String) (stamp : Nat) :
    Puts site.Normal
      (site.copyFolder volume caller source destination overwrite order newId stamp) := by
  apply Puts.accepted
  intro source _
  apply Puts.accepted
  intro destination _
  split
  · trivial
  · split
    · trivial
    · apply Puts.seq (Puts.allow _)
      intro _
      apply Puts.seq (Puts.allow _)
      intro _
      apply Puts.discard
      apply Puts.transact
      exact horder

theorem puts_process (hnfc : Composes site.nfc) (route : Route) :
    Puts site.Normal (site.process route) := by
  cases route with
  | initiate volume caller path size contentType sha256 ifMatch ifNoneMatch =>
    apply Puts.accepted
    intro path hpath
    apply Puts.seq (Puts.allow _)
    intro _
    exact (Puts.initiateUpload _ _ _ _ _ _ _ _ (normalizePath_idem hnfc hpath)).discard
  | complete volume caller id parts ifMatch ifNoneMatch =>
    exact (Puts.completeUpload _ _ _ _ _ _ _).discard
  | sign volume caller items => exact puts_sign hnfc volume caller items
  | createSession caller size contentType sha256 =>
    exact (Puts.createSession _ _ _ _ _).discard
  | send key =>
    have hput : (Deed.put key).InPlace site.Normal := trivial
    exact Puts.perform hput fun _ _ => .ok ()
  | promote volume caller id path parts ifMatch ifNoneMatch =>
    apply Puts.accepted
    intro path hpath
    exact (Puts.promote _ _ _ _ (normalizePath_idem hnfc hpath) _ _ _).discard
  | deleteFile volume caller path ifMatch stamp =>
    apply Puts.accepted
    intro path _
    apply Puts.seq (Puts.allow _)
    intro _
    apply Puts.seq
    · apply Puts.transact
      trivial
    · intro removed
      split <;> trivial
  | deletePrefix volume caller start stamp =>
    apply Puts.accepted
    intro start _
    split
    · trivial
    · apply Puts.seq (Puts.allow _)
      intro _
      exact (Puts.transact (by trivial) _).discard
  | copyPrefix volume caller source destination overwrite order horder newId stamp =>
    exact puts_copyFolder volume caller source destination overwrite horder newId stamp
  | restoreFile volume caller path version ifMatch id stamp =>
    apply Puts.accepted
    intro path _
    apply Puts.seq (Puts.allow _)
    intro _
    exact (Puts.transact (by trivial) _).discard
  | bundleUpload volume path data sha256 contentType =>
    apply Puts.accepted
    intro path hpath
    exact Puts.uploadBytes _ (normalizePath_idem hnfc hpath) _ _ _
  | bundleDelete volume path stamp =>
    apply Puts.accepted
    intro path _
    exact (Puts.transact (by trivial) _).discard
  | bundleDeletePrefix volume start stamp =>
    apply Puts.accepted
    intro start _
    exact (Puts.transact (by trivial) _).discard
  | bundleCopy volume source destination order horder newId stamp =>
    apply Puts.accepted
    intro source _
    apply Puts.accepted
    intro destination _
    apply Puts.discard
    apply Puts.transact
    exact horder
  | sweep order => exact Puts.sweep site.settings order
  | erase volume start chosen => exact Puts.eraseFiles volume start chosen
  | unregister volume =>
    have hgone : (Deed.unregister volume).InPlace site.Normal := trivial
    exact Puts.perform hgone fun _ _ => .ok ()

def counter (ι : Type) : Stage ι Chance Store Store Deed Route where
  real := id
  apply _ _ deed c s := deed.apply c s
  leave _ s := s

def Site.order (site : Site) (ι : Type) (met : Tables → Deed → Prop) :
    Discipline ι Chance Store Deed Route where
  inv s := Placed site.Normal s.tables
  rely _ _ _ := True
  allowed _ _ deed _ s := met s.tables deed
  inOrder _ _ deed _ _ := deed.InPlace site.Normal

def Site.Reaches {ι : Type} [DecidableEq ι] (site : Site) (met : Tables → Deed → Prop)
    (assets : List String) : World ι Chance Store Store Deed Problem Unit Route → Prop :=
  Steps (counter ι).step (Stage.CanStep (site.order ι met) site.process)
    ⟨Store.fresh assets, fun _ => none⟩

/-- The files that a copy makes are at paths in normal form. -/
def Site.Joins (site : Site) (t : Tables) (deed : Deed) : Prop := deed.Lands site.Normal t

theorem placed_fresh {P : Path → Prop} (assets : List String) :
    Placed P (Store.fresh assets).tables :=
  ⟨nofun, nofun⟩

end

/-- If all copies join paths to paths in normal form, every file is at its normal form, by
which it can be read, replaced and deleted. -/
theorem paths_normal {ι : Type} [DecidableEq ι] {site : Site} (hnfc : Composes site.nfc)
    {assets : List String} {w : World ι Chance Store Store Deed Problem Unit Route}
    (h : site.Reaches site.Joins assets w) :
    ∀ volume path row, w.state.tables.files.get? (volume, path) = some row →
      row.live = true → normalizePath site.nfc path = .ok path := by
  have hkeeps : (counter ι).Keeps (site.order ι site.Joins) := by
    constructor
    · exact fun _ _ => trivial
    · exact fun _ _ _ _ _ _ => trivial
    · intro i what deed c s hinv hallowed horder
      exact ⟨hinv.deed c horder hallowed, fun _ _ => trivial⟩
    · exact fun _ _ hinv => ⟨hinv, fun _ _ => trivial⟩
  have hfine : (counter ι).Fine (site.order ι site.Joins) w := by
    apply Stage.fine_run hkeeps _ _ h
    · intro i what s _
      exact Stage.Sound.of_only (fun _ hs => hs) (fun _ _ _ hdeed => hdeed)
        (puts_process hnfc what) s
    · exact ⟨placed_fresh assets, nofun⟩
  intro volume path row hget _
  exact hfine.1.files volume path row hget

namespace Rehearsal

def open_ : Site where
  nfc := id
  settings := ⟨100, 10, 0, 10, 10⟩
  authorize _ _ _ := .ok ()
  authorizePrefix _ _ _ := .ok ()

/-- The copies of the deed are at paths in normal form. -/
def joins (site : Site) (t : Tables) : Deed → Bool
  | .call (.copyPrefix volume source destination _ _ _ _ _) =>
    (t.liveUnder volume source).all fun entry =>
      match normalizePath site.nfc (copyTarget source destination entry.1) with
      | .ok path => path = copyTarget source destination entry.1
      | .error _ => false
  | _ => true

def luck (tag : Char) (deeds : Nat) : List Chance :=
  (List.range deeds).map fun i =>
    ⟨false, false, ⟨[1], none⟩, String.ofList (List.replicate (i + 1) tag), 10⟩

def joined (path source destination : Path) : List (Route × List Chance) :=
  [(.bundleUpload "v" path [1] "" "", luck 'a' 5),
    (.copyPrefix "v" ⟨"ann", "ann", none, false, []⟩ source destination true id
      (fun rows => .refl rows) (fun _ => "copy") 20, luck 'b' 1)]

end Rehearsal

theorem joins_of {site : Site} {t : Tables} {deed : Deed}
    (h : Rehearsal.joins site t deed = true) : site.Joins t deed := by
  cases deed with
  | call call =>
    cases call with
    | copyPrefix volume source destination by_ overwrite order newId stamp =>
      intro entry hentry
      have hpath := List.all_eq_true.mp h entry hentry
      split at hpath
      · next path hnormal =>
          left
          rw [of_decide_eq_true hpath] at hnormal
          exact hnormal
      · cases hpath
    | _ => trivial
  | _ => trivial

/-- A copy from one folder to another. -/
theorem paths_normal_folder : ∃ w : World Unit Chance Store Store Deed Problem Unit Route,
      Rehearsal.open_.Reaches Rehearsal.open_.Joins ["v"] w ∧
        ∃ row, w.state.tables.files.get? ("v", ['a', '/', 'x']) = some row ∧
          normalizePath id ['a', '/', 'x'] = .ok ['a', '/', 'x'] := by
  have hplay : ∃ s row, (counter Unit).script
        (fun _ deed _ s => Rehearsal.joins Rehearsal.open_ s.tables deed)
          Rehearsal.open_.process (Rehearsal.joined ['c', '/', 'x'] ['c', '/'] ['a', '/'])
            (Store.fresh ["v"]) = some s ∧
      s.tables.files.get? ("v", ['a', '/', 'x']) = some row ∧ row.live = true :=
    ⟨_, _, rfl, rfl, rfl⟩
  obtain ⟨s, row, hplay, hget, hlive⟩ := hplay
  have hreaches : Rehearsal.open_.Reaches Rehearsal.open_.Joins ["v"]
      (⟨s, fun _ => none⟩ : World Unit Chance Store Store Deed Problem Unit Route) :=
    Stage.steps_script (fun _ _ _ _ hjoins => joins_of hjoins) hplay
  exact ⟨_, hreaches, row, hget, paths_normal composes_id hreaches "v" _ row hget hlive⟩

/-- A copy of the file `c` from the prefix `c` to the folder `a/` is the file `a/`, which no
route takes for a path. -/
theorem folder_for_file : ∃ w : World Unit Chance Store Store Deed Problem Unit Route,
      Rehearsal.open_.Reaches (fun _ _ => True) ["v"] w ∧
        ∃ row, w.state.tables.files.get? ("v", ['a', '/']) = some row ∧ row.live = true ∧
          normalizePath id ['a', '/'] =
            .error (invalidPath "A file path must not end with a slash") := by
  have hplay : ∃ s row, (counter Unit).script (fun _ _ _ _ => true)
        Rehearsal.open_.process (Rehearsal.joined ['c'] ['c'] ['a', '/'])
          (Store.fresh ["v"]) = some s ∧
      s.tables.files.get? ("v", ['a', '/']) = some row ∧ row.live = true :=
    ⟨_, _, rfl, rfl, rfl⟩
  obtain ⟨s, row, hplay, hget, hlive⟩ := hplay
  have hreaches : Rehearsal.open_.Reaches (fun _ _ => True) ["v"]
      (⟨s, fun _ => none⟩ : World Unit Chance Store Store Deed Problem Unit Route) :=
    Stage.steps_script (fun _ _ _ _ _ => trivial) hplay
  exact ⟨_, hreaches, row, hget, hlive, rfl⟩

end Substrate.Files
