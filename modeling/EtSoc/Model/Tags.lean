import EtSoc.Model.State

/-! # Tags and responses

Pushing a command under a reserved tag, and collecting the response that bears it. -/

namespace EtSoc

open Program

/-- The first tag from `candidate` on that is not outstanding, coming round to `start` at
the latest. -/
def freeTag (outstanding : Finset Tag) (start : Tag) : ℕ → Tag → Option Tag
  | 0, _ => none
  | n + 1, candidate =>
    if candidate ∉ outstanding then
      some candidate
    else if candidate + 1 = start then
      none
    else
      freeTag outstanding start n (candidate + 1)

/-- Reserve a command tag not currently outstanding. -/
def nextTag : M Tag := do
  let dev ← getDev
  match freeTag dev.outstanding dev.tag 65536 dev.tag with
  | some candidate =>
    modifyDev fun d =>
      { d with outstanding := insert candidate d.outstanding, tag := candidate + 1 }
    pure candidate
  | none =>
    Prog.throw (.limit "all 65536 command tags are outstanding; collect pending launches")

def release (tag : Tag) : M Unit :=
  modifyDev fun d => { d with outstanding := d.outstanding.erase tag }

/-! ## Submission -/

/-- The rounds of a polling loop. Each consumes a choice of the script, so a loop given
one round more than there are choices never uses them up. -/
def rounds : M ℕ := Prog.read fun s => s.script.length + 1

def pushLoop (sqIndex : UInt16) (cmd : Command) (descFlags : UInt8) (limit : Duration) :
    ℕ → M Unit
  | 0 => Prog.block
  | n + 1 => do
    if ← pushSq sqIndex cmd descFlags then
      pure ()
    else if ← expired then
      Prog.throw (.timeout "submission-queue space" limit)
    else do
      let _ ← waitReady
      pushLoop sqIndex cmd descFlags limit n

def pushCmdInner (sqIndex : UInt16) (cmd : Command) (descFlags : UInt8) : M Unit := do
  let dev ← getDev
  let n ← rounds
  pushLoop sqIndex cmd descFlags dev.defaultTimeout n

/-- Push a command bearing the reserved `tag`; on failure the tag is released. -/
def pushCmd (sqIndex : UInt16) (cmd : Command) (descFlags : UInt8) (tag : Tag) : M Unit := do
  let pushed ← (pushCmdInner sqIndex cmd descFlags).attempt
  match pushed with
  | .ok () => pure ()
  | .error e => do
    release tag
    Prog.throw e

/-! ## Collection -/

/-- Dispose of a response for `tag` popped whilst awaiting another tag. -/
def park (tag : Tag) (rsp : PoppedResponse) : M Unit := do
  let dev ← getDev
  if tag ∈ dev.abandoned then
    modifyDev fun d =>
      { d with abandoned := d.abandoned.erase tag, outstanding := d.outstanding.erase tag }
  else if tag ∈ dev.outstanding then
    modifyDev fun d => { d with stash := Function.update d.stash tag (some rsp) }
  else
    pure ()

def collectLoop (expectedTag : Tag) (timeout : Option Duration) (operation : String) :
    ℕ → M PoppedResponse
  | 0 => Prog.block
  | n + 1 => do
    match ← popCq with
    | some rsp =>
      match ResponseHeader.parse rsp.bytes with
      | some hdr =>
        if hdr.tagId = expectedTag then
          pure rsp
        else do
          park hdr.tagId rsp
          collectLoop expectedTag timeout operation n
      | none =>
        Prog.throw (.protocol ("malformed completion (" ++ toString rsp.bytes.length
          ++ " bytes) while awaiting " ++ operation))
    | none =>
      match timeout with
      | some limit =>
        if ← expired then
          Prog.throw (.timeout operation limit)
        else do
          let _ ← waitReady
          collectLoop expectedTag timeout operation n
      | none => do
        let _ ← waitReady
        collectLoop expectedTag timeout operation n

def unstash (tag : Tag) : M Unit :=
  modifyDev fun d => { d with stash := Function.update d.stash tag none }

def collectResponseInner (expectedTag : Tag) (timeout : Option Duration) (operation : String) :
    M PoppedResponse := do
  let dev ← getDev
  match dev.stash expectedTag with
  | some rsp => do
    unstash expectedTag
    pure rsp
  | none => do
    let n ← rounds
    collectLoop expectedTag timeout operation n

/-- Block until the response bearing `expectedTag` arrives. On success the tag is
released, on an error it is abandoned. -/
def collectResponse (expectedTag : Tag) (timeout : Option Duration) (operation : String) :
    M PoppedResponse := do
  record (.collecting expectedTag)
  let collected ← (collectResponseInner expectedTag timeout operation).attempt
  match collected with
  | .ok rsp => do
    release expectedTag
    record (.collected expectedTag rsp)
    pure rsp
  | .error e => do
    modifyDev fun d => { d with abandoned := insert expectedTag d.abandoned }
    record (.gaveUp expectedTag)
    Prog.throw e

/-- Give up on the outstanding command `tag` without awaiting it. -/
def abandon (tag : Tag) : M Unit := do
  let dev ← getDev
  match dev.stash tag with
  | some _ => do
    unstash tag
    release tag
    record (.gaveUp tag)
  | none => do
    modifyDev fun d => { d with abandoned := insert tag d.abandoned }
    record (.gaveUp tag)

/-- Abandon every tag of `pending`, leaving it empty. -/
def abandonEach : List Tag → M Unit
  | [] => pure ()
  | tag :: tags => do
    abandon tag
    abandonEach tags

def abandonAll : M Unit := do
  let tags ← getPending
  setPending []
  abandonEach tags

/-- Push a command and block for its response. -/
def submit (sqIndex : UInt16) (cmd : Command) (descFlags : UInt8) (expectedTag : Tag)
    (timeout : Option Duration) : M PoppedResponse := do
  pushCmd sqIndex cmd descFlags expectedTag
  collectResponse expectedTag timeout "DMA completion"

end EtSoc
