import Dcpp.Bytes
import Dcpp.Library.Replace

-- Files that are written through a buffer and then put in the place of the old ones.
namespace Dcpp.SaveFile

open Disk

/-- The directory in which a name is looked up. -/
def parent (name : Bytes) : Bytes := (name.reverse.dropWhile (· ≠ byte '/')).reverse

def BUF_SIZE : Nat := 64 * 1024

/-- The loop of `copyFile`, which reads up to the end of the source. -/
def copyLoop (source target : Bytes) : Nat → Nat → FileM Bytes Unit
  | 0, _ => FileM.throw
  | fuel + 1, pos => do
    let buffer ← Disk.read source pos BUF_SIZE
    if buffer = [] then pure ()
    else do
      write target pos buffer
      copyLoop source target fuel (pos + buffer.length)

def copyFile (source target : Bytes) : FileM Bytes Unit := do
  openFile source
  createFile target
  let size ← getSize source
  copyLoop source target (size + 1) 0

/-- `device` holds the file system of each directory; `EXDEV` is for names on different ones. -/
def renameFile (device : Bytes → Nat) (source target : Bytes) : FileM Bytes Unit :=
  if device (parent source) = device (parent target) then rename source target
  else do
    copyFile source target
    deleteFile source

/-- A call of `File::write`, with what the buffer holds meanwhile. -/
structure Call where
  data : Bytes
  held : Bytes
deriving DecidableEq

/-- `BufferedOutputStream::write`: the calls that it makes, and the buffer after them. -/
def bufferedWrite (bufSize : Nat) (buf b : Bytes) : List Call × Bytes :=
  if b = [] then ([], buf)
  else if buf = [] ∧ bufSize ≤ b.length then ([⟨b, buf⟩], buf)
  else
    let n := min (bufSize - buf.length) b.length
    -- a full buffer has been written, so there is room
    if n = 0 then ([], buf)
    else if (buf ++ b.take n).length = bufSize then
      let r := bufferedWrite bufSize [] (b.drop n)
      (⟨buf ++ b.take n, buf ++ b.take n⟩ :: r.1, r.2)
    else bufferedWrite bufSize (buf ++ b.take n) (b.drop n)
termination_by b.length
decreasing_by
  all_goals
    rw [List.length_drop]
    omega

/-- The calls for the pieces and for the flush after them. -/
def bufferedCalls (bufSize : Nat) : Bytes → List Bytes → List Call
  | buf, [] => if buf = [] then [] else [⟨buf, buf⟩]
  | buf, b :: pieces =>
    let r := bufferedWrite bufSize buf b
    r.1 ++ bufferedCalls bufSize r.2 pieces

/-- `~BufferedOutputStream`, which flushes again. -/
def destroy (f : Bytes) (held : Bytes) : FileM Bytes Unit :=
  if held = [] then flush
  else do
    append f held
    flush

def writeCalls (f : Bytes) : List Call → FileM Bytes Unit
  | [] => pure ()
  | call :: calls => do
    (append f call.data).onThrow (destroy f call.held)
    writeCalls f calls

/-- What is written to the file `ff` through `f`, up to `f.flush()`. -/
def writeAll (ff : Bytes) (bufSize : Nat) (pieces : List Bytes) : FileM Bytes Unit := do
  writeCalls ff (bufferedCalls bufSize [] pieces)
  flush.onThrow (destroy ff [])

def tmpName (name : Bytes) : Bytes := name ++ str ".tmp"

/-- How the queue and the hash index are saved. -/
def saveFile (device : Bytes → Nat) (bufSize : Nat) (name : Bytes) (pieces : List Bytes) : FileM Bytes Unit := do
  createFile (tmpName name)
  writeAll (tmpName name) bufSize pieces
  deleteFile name
  renameFile device (tmpName name) name

/-- A buffer that is not empty has room. -/
def Fits (bufSize : Nat) (buf : Bytes) : Prop := buf ≠ [] → buf.length < bufSize

theorem fits_nil (bufSize : Nat) : Fits bufSize [] := fun h => absurd rfl h

theorem bufferedWrite_spec {bufSize : Nat} {buf : Bytes} (b : Bytes) (hfits : Fits bufSize buf) :
    Fits bufSize (bufferedWrite bufSize buf b).2 ∧
      (bufferedWrite bufSize buf b).1.flatMap Call.data ++ (bufferedWrite bufSize buf b).2 = buf ++ b := by
  induction buf, b using bufferedWrite.induct bufSize with
  | case1 buf =>
    rw [bufferedWrite, if_pos rfl]
    exact ⟨hfits, (List.append_nil buf).symm⟩
  | case2 buf b hb hdirect =>
    rw [bufferedWrite, if_neg hb, if_pos hdirect, hdirect.1]
    exact ⟨fits_nil bufSize, by simp⟩
  | case3 buf b hb hdirect n hn =>
    have hlen := List.length_pos_iff.mpr hb
    have hroom : bufSize ≤ buf.length := by omega
    by_cases hbuf : buf = []
    · subst hbuf
      exact absurd ⟨rfl, Nat.le_trans hroom (Nat.zero_le _)⟩ hdirect
    · exact absurd (hfits hbuf) (Nat.not_lt_of_le hroom)
  | case4 buf b hb hdirect n hn hfull ih =>
    rw [bufferedWrite, if_neg hb, if_neg hdirect]
    dsimp only
    rw [if_neg hn, if_pos hfull]
    obtain ⟨hfits', hflat⟩ := ih (fits_nil bufSize)
    refine ⟨hfits', ?_⟩
    rw [List.flatMap_cons, List.append_assoc, hflat, List.nil_append, List.append_assoc, List.take_append_drop]
  | case5 buf b hb hdirect n hn hfull ih =>
    rw [bufferedWrite, if_neg hb, if_neg hdirect]
    dsimp only
    rw [if_neg hn, if_neg hfull]
    obtain ⟨hfits', hflat⟩ := ih fun _ => by
      rw [List.length_append, List.length_take] at hfull ⊢
      omega
    refine ⟨hfits', ?_⟩
    rw [hflat, List.append_assoc, List.take_append_drop]

theorem bufferedCalls_flatMap {bufSize : Nat} (pieces : List Bytes) {buf : Bytes} (hfits : Fits bufSize buf) :
    (bufferedCalls bufSize buf pieces).flatMap Call.data = buf ++ pieces.flatten := by
  induction pieces generalizing buf with
  | nil =>
    rw [bufferedCalls, List.flatten_nil, List.append_nil]
    split
    next hbuf => exact hbuf.symm
    next => exact List.append_nil buf
  | cons b pieces ih =>
    obtain ⟨hfits', hflat⟩ := bufferedWrite_spec b hfits
    rw [bufferedCalls, List.flatMap_append, ih hfits', ← List.append_assoc, hflat, List.flatten_cons, List.append_assoc]

theorem keeps_destroy {f n : Bytes} (hn : n ≠ f) (held : Bytes) : Keeps n (destroy f held) := by
  rw [destroy]
  split
  next => exact keeps_flush n
  next => exact ((adds_append f held).keeps n hn).bind fun _ => keeps_flush n

theorem writeCalls_adds (f : Bytes) (calls : List Call) :
    Adds f calls.length (calls.flatMap Call.data) (writeCalls f calls) := by
  induction calls with
  | nil => exact Adds.nil f
  | cons call calls ih =>
    rw [List.length_cons, Nat.add_comm, List.flatMap_cons]
    exact ((adds_append f call.data).onThrow (fun _ hn => keeps_destroy hn call.held)).bind ih

/-- The operations that write the file. -/
def operations (bufSize : Nat) (pieces : List Bytes) : Nat := (bufferedCalls bufSize [] pieces).length + 1

theorem writeAll_adds (f : Bytes) (bufSize : Nat) (pieces : List Bytes) :
    Adds f (operations bufSize pieces) pieces.flatten (writeAll f bufSize pieces) := by
  have h := (writeCalls_adds f (bufferedCalls bufSize [] pieces)).bind
    ((adds_flush f).onThrow (fun _ hn => keeps_destroy hn []))
  rwa [bufferedCalls_flatMap pieces (fits_nil bufSize), List.append_nil, List.nil_append] at h

theorem parent_append (name suffix : Bytes) (h : byte '/' ∉ suffix) :
    parent (name ++ suffix) = parent name := by
  rw [parent, parent, List.reverse_append, List.dropWhile_append_of_pos]
  intro c hc
  exact decide_eq_true fun heq => h (heq ▸ List.mem_reverse.mp hc)

theorem tmpName_ne (name : Bytes) : tmpName name ≠ name := by
  intro h
  have hlen := congrArg List.length h
  rw [tmpName, List.length_append] at hlen
  have hext : (str ".tmp").length = 4 := rfl
  omega

theorem saveFile_eq (device : Bytes → Nat) (bufSize : Nat) (name : Bytes) (pieces : List Bytes) :
    saveFile device bufSize name pieces =
      writeNew (tmpName name) (writeAll (tmpName name) bufSize pieces) >>= fun _ => replaceBy (tmpName name) name := by
  have hparent : parent (tmpName name) = parent name := parent_append name (str ".tmp") (by decide)
  rw [saveFile, writeNew, bind_assoc, replaceBy, renameFile, hparent, if_pos rfl]

/-- What was saved last or what is to be saved now is there afterwards, unless it is lost between the
deletion and the renaming. -/
theorem saveFile_iff (device : Bytes → Nat) (bufSize : Nat) (name : Bytes) (pieces : List Bytes) (w : World Bytes) :
    let files := (saveFile device bufSize name pieces w).world.files
    (files name = w.files name ∨ files name = some pieces.flatten) ↔
      (w.files name).isSome → pieces.flatten.length ≤ maxOffset → Clean (1 + operations bufSize pieces) w.faults →
        Kept (w.faults.drop (1 + operations bufSize pieces)) := by
  rw [saveFile_eq]
  exact replace_iff (tmpName_ne name) (writeAll_adds (tmpName name) bufSize pieces) w

/-- Without faults the new file is in the place of the old one. -/
theorem saveFile_saved (device : Bytes → Nat) (bufSize : Nat) (name : Bytes) {pieces : List Bytes}
    (hle : pieces.flatten.length ≤ maxOffset) {w : World Bytes} (hw : w.faults = []) :
    ∃ files, saveFile device bufSize name pieces w = .returned () ⟨files, []⟩ ∧ files name = some pieces.flatten := by
  have hclean : Clean (1 + operations bufSize pieces) w.faults := by
    rw [hw, Clean, List.take_nil]
    exact fun _ h => absurd h List.not_mem_nil
  have hnew := (writeNew_returned_iff (writeAll_adds (tmpName name) bufSize pieces) w _).mpr ⟨hle, hclean, rfl⟩
  obtain ⟨files, hreplace, hfile⟩ := replaceBy_eq (tmpName_ne name)
    (w := ⟨Function.update w.files (tmpName name) (some pieces.flatten), w.faults.drop (1 + operations bufSize pieces)⟩)
    (by rw [hw, List.drop_nil]) (Function.update_self ..)
  rw [saveFile_eq, bind_returned hnew, hreplace]
  exact ⟨files, rfl, hfile⟩

theorem saveFile_returns (device : Bytes → Nat) (bufSize : Nat) (name : Bytes) {pieces : List Bytes}
    (hle : pieces.flatten.length ≤ maxOffset) {w : World Bytes} (hw : w.faults = []) :
    ∃ v, saveFile device bufSize name pieces w = .returned () v := by
  obtain ⟨files, h, -⟩ := saveFile_saved device bufSize name hle hw
  exact ⟨_, h⟩

/-- Only the file and the one beside it are written. -/
theorem keeps_saveFile {n name : Bytes} (ht : n ≠ tmpName name) (hn : n ≠ name) (device : Bytes → Nat) (bufSize : Nat)
    (pieces : List Bytes) : Keeps n (saveFile device bufSize name pieces) := by
  rw [saveFile_eq]
  exact (keeps_writeNew ht ((writeAll_adds (tmpName name) bufSize pieces).keeps n ht)).bind fun _ => keeps_replaceBy ht hn

end Dcpp.SaveFile
