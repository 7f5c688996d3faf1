import Mathlib.Logic.Function.Basic
import Mathlib.Algebra.Order.Group.Int
import Dcpp.Library.Tally
import Dcpp.QueueItem

-- What the finished transfers add up to, by file and by user.
namespace Dcpp.FinishedManager

open Tally

variable {U : Type} [DecidableEq U]

structure FinishedItemBase where
  transferred : Int
  milliSeconds : Int
  time : Int
deriving DecidableEq

def FinishedItemBase.update (i : FinishedItemBase) (transferred_ milliSeconds_ time_ : Int) : FinishedItemBase :=
  ⟨i.transferred + transferred_, i.milliSeconds + milliSeconds_, time_⟩

structure FinishedFileItem (U : Type) extends FinishedItemBase where
  fileSize : Int
  actual : Int
  crc32Checked : Bool
  users : List (HintedUser U)
deriving DecidableEq

/-- The hint of a user that is there might have changed. -/
def addUser (users : List (HintedUser U)) (user : HintedUser U) : List (HintedUser U) :=
  if users.any fun i => i.user = user.user then users.map fun i => if i.user = user.user then user else i
  else users ++ [user]

def FinishedFileItem.update (i : FinishedFileItem U) (transferred_ milliSeconds_ time_ actual_ : Int)
    (crc32Checked_ : Bool) (user : HintedUser U) : FinishedFileItem U :=
  { i with
    toFinishedItemBase := i.toFinishedItemBase.update transferred_ milliSeconds_ time_
    actual := i.actual + actual_
    crc32Checked := if crc32Checked_ then true else i.crc32Checked
    users := addUser i.users user }

structure FinishedUserItem extends FinishedItemBase where
  files : List Bytes
deriving DecidableEq

def FinishedUserItem.update (i : FinishedUserItem) (transferred_ milliSeconds_ time_ : Int) (file : Bytes) :
    FinishedUserItem :=
  { toFinishedItemBase := i.toFinishedItemBase.update transferred_ milliSeconds_ time_
    files := if file ∈ i.files then i.files else i.files ++ [file] }

/-- The members of a `Transfer` that are read here; `size` is that of its segment. -/
structure Transfer (U : Type) where
  type : TransferType
  path : Bytes
  user : HintedUser U
  size : Int
  pos : Nat
  actual : Nat
  start : Nat

/-- What is read when a transfer ends: the setting, the clocks, the queue, which has the size -1 for a file that it does
not hold, and the disk, which has it for a file that is not there. -/
structure Moment where
  LOG_FILELIST_TRANSFERS : Bool
  tick : Nat
  time : Int
  sizeInfo : Bytes → Int × Int
  fileSize : Bytes → Int

/-- A transfer and the moment in which it is reported, which is not before its start. -/
structure Report (U : Type) where
  t : Transfer U
  moment : Moment
  started : t.start ≤ moment.tick

namespace Report

def milliSeconds (r : Report U) : Nat := r.moment.tick - r.t.start

/-- The transfers that are kept in the lists. -/
def listed (r : Report U) : Bool :=
  r.t.type = .TYPE_FILE || (r.t.type = .TYPE_FULL_LIST && r.moment.LOG_FILELIST_TRANSFERS)

/-- The name of the entry; a list that was downloaded has its extension. -/
def file (r : Report U) (upload : Bool) : Bytes :=
  if upload ∨ r.t.type ≠ .TYPE_FULL_LIST then r.t.path
  else if r.moment.fileSize (r.t.path ++ str ".xml") = -1 then r.t.path ++ str ".xml" ++ str ".bz2"
  else r.t.path ++ str ".xml"

/-- The size of the file and what is known of it; nothing for a list that is not there and for a file that is not in the
queue any more. -/
def sizePos (r : Report U) (upload : Bool) : Option (Int × Int) :=
  if upload then some (0, 0)
  else if r.t.type = .TYPE_FULL_LIST then
    if r.moment.fileSize (r.file false) = -1 then none else some (r.t.size, 0)
  else if (r.moment.sizeInfo (r.file false)).1 = -1 then none
  else some (r.moment.sizeInfo (r.file false))

end Report

structure State (U : Type) where
  DLByFile : Bytes → Option (FinishedFileItem U)
  ULByFile : Bytes → Option (FinishedFileItem U)
  DLByUser : U → Option FinishedUserItem
  ULByUser : U → Option FinishedUserItem

def start : State U := ⟨fun _ => none, fun _ => none, fun _ => none, fun _ => none⟩

namespace State

def getMapByFile (s : State U) (upload : Bool) : Bytes → Option (FinishedFileItem U) :=
  if upload then s.ULByFile else s.DLByFile

/-- The hint of a user is not compared. -/
def getMapByUser (s : State U) (upload : Bool) : U → Option FinishedUserItem :=
  if upload then s.ULByUser else s.DLByUser

def setFile (s : State U) (upload : Bool) (file : Bytes) (i : FinishedFileItem U) : State U :=
  if upload then { s with ULByFile := Function.update s.ULByFile file (some i) }
  else { s with DLByFile := Function.update s.DLByFile file (some i) }

def setUser (s : State U) (upload : Bool) (user : U) (i : FinishedUserItem) : State U :=
  if upload then { s with ULByUser := Function.update s.ULByUser user (some i) }
  else { s with DLByUser := Function.update s.DLByUser user (some i) }

omit [DecidableEq U] in
@[simp] theorem getMapByFile_setFile (s : State U) (upload upload' : Bool) (file : Bytes) (i : FinishedFileItem U) :
    (s.setFile upload file i).getMapByFile upload' =
      if upload' = upload then Function.update (s.getMapByFile upload') file (some i)
      else s.getMapByFile upload' := by
  cases upload <;> cases upload' <;> rfl

omit [DecidableEq U] in
@[simp] theorem getMapByUser_setFile (s : State U) (upload upload' : Bool) (file : Bytes) (i : FinishedFileItem U) :
    (s.setFile upload file i).getMapByUser upload' = s.getMapByUser upload' := by
  cases upload <;> cases upload' <;> rfl

@[simp] theorem getMapByUser_setUser (s : State U) (upload upload' : Bool) (user : U) (i : FinishedUserItem) :
    (s.setUser upload user i).getMapByUser upload' =
      if upload' = upload then Function.update (s.getMapByUser upload') user (some i)
      else s.getMapByUser upload' := by
  cases upload <;> cases upload' <;> rfl

@[simp] theorem getMapByFile_setUser (s : State U) (upload upload' : Bool) (user : U) (i : FinishedUserItem) :
    (s.setUser upload user i).getMapByFile upload' = s.getMapByFile upload' := by
  cases upload <;> cases upload' <;> rfl

end State

/-- The entry of the file after a transfer; `pos` is what the queue had of a new file. -/
def fileItem (r : Report U) (upload crc32Checked : Bool) (size pos : Int) :
    Option (FinishedFileItem U) → FinishedFileItem U
  | none =>
    ⟨⟨pos + r.t.pos, r.milliSeconds, r.moment.time⟩, if upload then r.moment.fileSize (r.file upload) else size,
      r.t.actual, crc32Checked, [r.t.user]⟩
  -- in case of a successful crc check at the end we want to update the status only
  | some i =>
    i.update (if crc32Checked then 0 else r.t.pos) r.milliSeconds r.moment.time r.t.actual crc32Checked r.t.user

def userItem (r : Report U) (upload : Bool) : Option FinishedUserItem → FinishedUserItem
  | none => ⟨⟨r.t.pos, r.milliSeconds, r.moment.time⟩, [r.file upload]⟩
  | some i => i.update r.t.pos r.milliSeconds r.moment.time (r.file upload)

def onComplete (s : State U) (r : Report U) (upload crc32Checked : Bool) : State U :=
  if r.listed then
    match r.sizePos upload with
    | none => s
    | some (size, pos) =>
      let s := s.setFile upload (r.file upload)
        (fileItem r upload crc32Checked size pos (s.getMapByFile upload (r.file upload)))
      s.setUser upload r.t.user.user (userItem r upload (s.getMapByUser upload r.t.user.user))
  else s

/-- What the manager is told of. A check is that of a downloaded file which is in the queue, where `putDownload` has found
it; a transfer that fails counts when it has moved something. -/
inductive Event (U : Type) where
  | complete (upload : Bool) (r : Report U)
  | failed (upload : Bool) (r : Report U)
  | crcChecked (r : Report U) (isFile : r.t.type = .TYPE_FILE) (inQueue : (r.moment.sizeInfo r.t.path).1 ≠ -1)

def step (s : State U) : Event U → State U
  | .complete upload r => onComplete s r upload false
  | .failed upload r => if r.t.pos > 0 then onComplete s r upload false else s
  | .crcChecked r _ _ => onComplete s r false true

def run (es : List (Event U)) : State U := es.foldl step start

end Dcpp.FinishedManager
