import Substrate.Lib.PosixPath

/-!
Where the versions of a workspace file are (`file_versioning.py`, `workspace/layout.py`):
one directory for each file, with a numbered snapshot for each version and the manifest.
-/

namespace Substrate.Versions

open Lib

abbrev Path := List Char

def backslash : Char := Char.ofNat 0x5C

/-- `_id`. -/
def checkId (value : Path) (name : String) : Except String Path :=
  if value = [] ∨ '/' ∈ value ∨ backslash ∈ value ∨ value = ['.'] ∨ value = ['.', '.'] then
    .error s!"invalid {name}"
  else .ok value

local instance lawfulText : LawfulBEq (List Char) := inferInstance

def safeRelativePath (path : Path) : Except String Path :=
  let value := path.dropWhile fun c => c = '/'
  if value = [] ∨ ['.', '.'] ∈ (PurePosixPath.of value).parts then .error "invalid relative path"
  else .ok value

def tenantPrefix (tenantId : Path) : Except String Path := do
  let tenant ← checkId tenantId "tenant id"
  return "tenants/".toList ++ tenant

def userPrefix (tenantId userId : Path) : Except String Path := do
  let base ← tenantPrefix tenantId
  let user ← checkId userId "user id"
  return base ++ "/users/".toList ++ user

def conversationPrefix (tenantId userId conversationId : Path) : Except String Path := do
  let base ← userPrefix tenantId userId
  let conversation ← checkId conversationId "conversation id"
  return base ++ "/conversations/".toList ++ conversation

def conversationWorkspacePrefix (tenantId userId conversationId branchId : Path) :
    Except String Path := do
  let base ← conversationPrefix tenantId userId conversationId
  let branch ← checkId branchId "branch id"
  return base ++ "/branches/".toList ++ branch ++ "/workspace".toList

def conversationVersionKey (tenantId userId conversationId path branchId : Path) :
    Except String Path := do
  let base ← conversationWorkspacePrefix tenantId userId conversationId branchId
  let rel ← safeRelativePath path
  return base ++ "/versions/".toList ++ rel

def versionsDir : Path := "versions".toList

/-- `index.json`. -/
def manifest : Path := ['i', 'n', 'd', 'e', 'x', '.', 'j', 's', 'o', 'n']

def besideDir (objectKey : Path) : Path :=
  let p := PurePosixPath.of objectKey
  ((p.parent.join versionsDir).join p.name).text

def versionDir (objectKey : Path) : Except String Path :=
  match (PurePosixPath.of objectKey).parts with
  | tenants :: tenantId :: users :: userId :: conversations :: conversationId :: branches ::
      branchId :: workspace :: shared :: first :: rest =>
      if tenants = "tenants".toList ∧ users = "users".toList ∧
          conversations = "conversations".toList ∧ branches = "branches".toList ∧
            workspace = "workspace".toList ∧ shared = "shared".toList then
        conversationVersionKey tenantId userId conversationId
          (PurePosixPath.of (List.intercalate ['/'] (first :: rest))).text branchId
      else .ok (besideDir objectKey)
  | _ => .ok (besideDir objectKey)

def snapshotIn (dir objectKey : Path) (seq : Nat) : Path :=
  dir ++ '/' :: (Nat.toDigits 10 seq ++ (PurePosixPath.of objectKey).suffix)

def manifestIn (dir : Path) : Path := dir ++ '/' :: manifest

def versionKey (objectKey : Path) (seq : Nat) : Except String Path :=
  (versionDir objectKey).map fun dir => snapshotIn dir objectKey seq

def manifestKey (objectKey : Path) : Except String Path := (versionDir objectKey).map manifestIn

theorem slash_not_mem_digits (seq : Nat) : '/' ∉ Nat.toDigits 10 seq := by
  intro hmem
  have hdigit := Nat.isDigit_of_mem_toDigits (by decide) (by decide) hmem
  exact absurd hdigit (by decide)

variable {seq seq' : Nat} {dir dir' objectKey : Path}

theorem toDigits_inj (h : Nat.toDigits 10 seq = Nat.toDigits 10 seq') : seq = seq' := by
  rw [← Nat.ofDigitChars_ten_toDigits (n := seq), h, Nat.ofDigitChars_ten_toDigits]

theorem slash_not_mem_file (objectKey : Path) (seq : Nat) :
    '/' ∉ Nat.toDigits 10 seq ++ (PurePosixPath.of objectKey).suffix := by
  intro hmem
  rcases List.mem_append.mp hmem with hdigits | hsuffix
  · exact slash_not_mem_digits seq hdigits
  · exact PurePosixPath.slash_not_mem_suffix objectKey hsuffix

theorem slash_not_mem_manifest : '/' ∉ manifest := by
  simp [manifest]

theorem snapshotIn_ne_manifestIn (dir dir' objectKey : Path) (seq : Nat) :
    snapshotIn dir objectKey seq ≠ manifestIn dir' := by
  intro heq
  obtain ⟨_, hfile⟩ := PurePosixPath.append_slash_inj (slash_not_mem_file objectKey seq)
    slash_not_mem_manifest heq
  have hsome : Nat.toDigits 10 seq ≠ [] := Nat.toDigits_ne_nil
  obtain ⟨c, digits, hdigits⟩ := List.exists_cons_of_ne_nil hsome
  have hdigit : c.isDigit := by
    apply Nat.isDigit_of_mem_toDigits (n := seq) (b := 10) (by decide) (by decide)
    rw [hdigits]
    exact List.mem_cons_self
  rw [hdigits] at hfile
  have hfirst : c = 'i' := by
    have hhead := congrArg List.head? hfile
    simpa [manifest] using hhead
  rw [hfirst] at hdigit
  exact absurd hdigit (by decide)

theorem manifestIn_inj (h : manifestIn dir = manifestIn dir') : dir = dir' :=
  (PurePosixPath.append_slash_inj slash_not_mem_manifest slash_not_mem_manifest h).1

theorem snapshotIn_dir {objectKey' : Path}
    (h : snapshotIn dir objectKey seq = snapshotIn dir' objectKey' seq') : dir = dir' :=
  (PurePosixPath.append_slash_inj (slash_not_mem_file _ _) (slash_not_mem_file _ _) h).1

theorem snapshotIn_seq (h : snapshotIn dir objectKey seq = snapshotIn dir' objectKey seq') :
    seq = seq' := by
  have hfile := (PurePosixPath.append_slash_inj (slash_not_mem_file _ _)
    (slash_not_mem_file _ _) h).2
  exact toDigits_inj (List.append_cancel_right hfile)

end Substrate.Versions
