import Dcpp.Library.ByteFile
import Mathlib.Logic.Function.Basic

-- Programs over the files of a disk, whose operations may fail and at which they may stop.
namespace Dcpp.Disk

open ByteFile

/-- What happens at an operation, which has done a part by then. -/
inductive Fault where
  | fail (part : Nat)
  | stop (part : Nat)
deriving DecidableEq

/-- The files by their names, and what happens at the next operations. -/
structure World (N : Type) where
  files : N → Option (List UInt8)
  faults : List (Option Fault)

/-- An exception comes from an operation or from the program itself. -/
inductive Exception where
  | file
  | program
deriving DecidableEq

inductive Result (N α : Type) where
  | returned (a : α) (w : World N)
  | threw (e : Exception) (w : World N)
  | stopped (w : World N)

def Result.world {N α : Type} : Result N α → World N
  | returned _ w => w
  | threw _ w => w
  | stopped w => w

def FileM (N α : Type) := World N → Result N α

namespace FileM

variable {N α β : Type}

def bind (x : FileM N α) (f : α → FileM N β) : FileM N β := fun w =>
  match x w with
  | .returned a w => f a w
  | .threw e w => .threw e w
  | .stopped w => .stopped w

instance : Monad (FileM N) where
  pure a := fun w => .returned a w
  bind := bind

def throw : FileM N α := fun w => .threw .program w

/-- What is caught leaves the disk as it is then. -/
def handle (x : FileM N α) (catches : Exception → Bool) (handler : FileM N α) : FileM N α := fun w =>
  match x w with
  | .returned a w => .returned a w
  | .threw e w => if catches e then handler w else .threw e w
  | .stopped w => .stopped w

/-- What is done before an exception goes on, whose own exceptions are lost. -/
def onThrow (x : FileM N α) (cleanup : FileM N Unit) : FileM N α := fun w =>
  match x w with
  | .returned a w => .returned a w
  | .threw e w =>
    match cleanup w with
    | .returned _ w => .threw e w
    | .threw _ w => .threw e w
    | .stopped w => .stopped w
  | .stopped w => .stopped w

/-- An exception that leaves the program is its end. -/
def noexcept (x : FileM N α) : FileM N α := fun w =>
  match x w with
  | .returned a w => .returned a w
  | .threw _ w => .stopped w
  | .stopped w => .stopped w

end FileM

abbrev Files (N : Type) := N → Option (List UInt8)

/-- An operation that changes the files, as a whole or, where there is a fault, in a part. -/
def operation {N : Type} (part : Fault → Files N → Files N) (whole : Files N → Files N) : FileM N Unit := fun w =>
  match w.faults with
  | [] => .returned () { w with files := whole w.files }
  | none :: faults => .returned () ⟨whole w.files, faults⟩
  | some (.fail n) :: faults => .threw .file ⟨part (.fail n) w.files, faults⟩
  | some (.stop n) :: faults => .stopped ⟨part (.stop n) w.files, faults⟩

/-- An operation that does nothing when it fails, and nothing or everything when the program stops. -/
def atomic {N : Type} (whole : Files N → Files N) : FileM N Unit :=
  operation
    (fun
      | .fail _ => id
      | .stop 0 => id
      | .stop (_ + 1) => whole)
    whole

section

variable {N : Type} [DecidableEq N]

def change (name : N) (f : List UInt8 → List UInt8) (files : Files N) : Files N :=
  Function.update files name ((files name).map f)

def contents (name : N) (w : World N) : List UInt8 := (w.files name).getD []

/-- A file that is not there cannot be opened. -/
def find (name : N) : FileM N Unit := fun w => if (w.files name).isSome then .returned () w else .threw .file w

def openFile (name : N) : FileM N Unit := do
  atomic id
  find name

def createFile (name : N) : FileM N Unit := atomic fun files => Function.update files name (some [])

def read (name : N) (pos n : Nat) : FileM N (List UInt8) := do
  atomic id
  fun w => .returned (readAt pos n (contents name w)) w

def getSize (name : N) : FileM N Nat := fun w => .returned (contents name w).length w

/-- The last position that a file can have. -/
def maxOffset : Nat := 2 ^ 63 - 1

/-- A write may do a part of its bytes. -/
def write (name : N) (pos : Nat) (data : List UInt8) : FileM N Unit := fun w =>
  if pos + data.length ≤ maxOffset then
    operation
      (fun
        | .fail n => change name (writeAt pos (data.take n))
        | .stop n => change name (writeAt pos (data.take n)))
      (change name (writeAt pos data)) w
  else .threw .file w

def setSize (name : N) (n : Nat) : FileM N Unit := fun w =>
  if n ≤ maxOffset then atomic (change name (resize n)) w else .threw .file w

def flush : FileM N Unit := atomic id

/-- A file that cannot be deleted stays, and nothing is said of it. -/
def deleteFile (name : N) : FileM N Unit :=
  (atomic fun files => Function.update files name none).handle (fun _ => true) (pure ())

/-- The target is replaced at once. -/
def rename (source target : N) : FileM N Unit := do
  find source
  atomic fun files => Function.update (Function.update files target (files source)) source none

end

theorem bind_eq {N α β : Type} (x : FileM N α) (f : α → FileM N β) (w : World N) :
    (x >>= f) w = match x w with
      | .returned a w => f a w
      | .threw e w => .threw e w
      | .stopped w => .stopped w := rfl

theorem bind_returned {N α β : Type} {x : FileM N α} {w v : World N} {a : α} (h : x w = .returned a v)
    (f : α → FileM N β) : (x >>= f) w = f a v := by
  rw [bind_eq, h]

theorem bind_assoc {N α β γ : Type} (x : FileM N α) (f : α → FileM N β) (g : β → FileM N γ) :
    (x >>= f >>= g) = x >>= fun a => f a >>= g := by
  funext w
  rw [bind_eq, bind_eq, bind_eq]
  cases x w <;> rfl

/-- What comes after a step that has returned. -/
theorem returned_of_bind {N α β : Type} {x : FileM N α} {f : α → FileM N β} {w v : World N} {b : β}
    (h : (x >>= f) w = .returned b v) : ∃ a u, x w = .returned a u ∧ f a u = .returned b v := by
  rw [bind_eq] at h
  cases hx : x w with
  | returned a u =>
    rw [hx] at h
    exact ⟨a, u, rfl, h⟩
  | threw e u =>
    rw [hx] at h
    cases h
  | stopped u =>
    rw [hx] at h
    cases h

-- What the operations do when nothing is to fail.
section

variable {N : Type} {w : World N}

theorem operation_eq (hw : w.faults = []) (part : Fault → Files N → Files N) (whole : Files N → Files N) :
    operation part whole w = .returned () { w with files := whole w.files } := by
  rw [operation, hw]

theorem atomic_eq (hw : w.faults = []) (whole : Files N → Files N) :
    atomic whole w = .returned () { w with files := whole w.files } := by
  rw [atomic, operation_eq hw]

theorem atomic_id_eq (hw : w.faults = []) : atomic id w = .returned () w := atomic_eq hw id

theorem read_eq (hw : w.faults = []) (name : N) (pos n : Nat) :
    read name pos n w = .returned (readAt pos n (contents name w)) w := bind_returned (atomic_id_eq hw) _

theorem openFile_eq (hw : w.faults = []) {name : N} (hname : (w.files name).isSome) :
    openFile name w = .returned () w := by
  rw [openFile, bind_returned (atomic_id_eq hw), find, if_pos hname]

theorem openFile_returned (hw : w.faults = []) {name : N} {v : World N} {u : Unit}
    (h : openFile name w = .returned u v) : v = w ∧ (w.files name).isSome := by
  rw [openFile, bind_returned (atomic_id_eq hw), find] at h
  split at h
  next hsome =>
    cases h
    exact ⟨rfl, hsome⟩
  next => cases h

variable [DecidableEq N]

theorem createFile_eq (hw : w.faults = []) (name : N) :
    createFile name w = .returned () { w with files := Function.update w.files name (some []) } := atomic_eq hw _

theorem write_eq (hw : w.faults = []) (name : N) {pos : Nat} {data : List UInt8}
    (hle : pos + data.length ≤ maxOffset) :
    write name pos data w = .returned () { w with files := change name (writeAt pos data) w.files } := by
  rw [write, if_pos hle, operation_eq hw]

theorem setSize_eq (hw : w.faults = []) (name : N) {n : Nat} (hle : n ≤ maxOffset) :
    setSize name n w = .returned () { w with files := change name (resize n) w.files } := by
  rw [setSize, if_pos hle, atomic_eq hw]

/-- A write that has returned was within the bounds of a file. -/
theorem write_returned (hw : w.faults = []) {name : N} {pos : Nat} {data : List UInt8} {v : World N} {u : Unit}
    (h : write name pos data w = .returned u v) :
    pos + data.length ≤ maxOffset ∧ v = { w with files := change name (writeAt pos data) w.files } := by
  by_cases hle : pos + data.length ≤ maxOffset
  · rw [write_eq hw name hle] at h
    cases h
    exact ⟨hle, rfl⟩
  · rw [write, if_neg hle] at h
    cases h

theorem setSize_returned (hw : w.faults = []) {name : N} {n : Nat} {v : World N} {u : Unit}
    (h : setSize name n w = .returned u v) :
    n ≤ maxOffset ∧ v = { w with files := change name (resize n) w.files } := by
  by_cases hle : n ≤ maxOffset
  · rw [setSize_eq hw name hle] at h
    cases h
    exact ⟨hle, rfl⟩
  · rw [setSize, if_neg hle] at h
    cases h

theorem change_of_some {name : N} {files : Files N} {f : List UInt8} (h : files name = some f)
    (g : List UInt8 → List UInt8) : change name g files = Function.update files name (some (g f)) := by
  rw [change, h, Option.map_some]

end

theorem contents_of_some {N : Type} {name : N} {w : World N} {f : List UInt8} (h : w.files name = some f) :
    contents name w = f := by
  rw [contents, h, Option.getD_some]

/-- The program leaves a file alone. -/
def Keeps {N α : Type} (n : N) (x : FileM N α) : Prop := ∀ w, (x w).world.files n = w.files n

section

variable {N α β : Type} {n : N} {x : FileM N α}

theorem keeps_pure (n : N) (a : α) : Keeps n (pure a : FileM N α) := fun _ => rfl

theorem Keeps.bind (hx : Keeps n x) {f : α → FileM N β} (hf : ∀ a, Keeps n (f a)) : Keeps n (x >>= f) := by
  intro w
  have hxw := hx w
  rw [bind_eq]
  generalize x w = r at hxw ⊢
  cases r with
  | returned a v => exact (hf a v).trans hxw
  | threw e v => exact hxw
  | stopped v => exact hxw

theorem Keeps.handle (hx : Keeps n x) (catches : Exception → Bool) {handler : FileM N α} (hh : Keeps n handler) :
    Keeps n (x.handle catches handler) := by
  intro w
  have hxw := hx w
  rw [FileM.handle]
  generalize x w = r at hxw ⊢
  cases r with
  | returned a v => exact hxw
  | stopped v => exact hxw
  | threw e v =>
    dsimp only
    split
    next => exact (hh v).trans hxw
    next => exact hxw

theorem Keeps.onThrow (hx : Keeps n x) {cleanup : FileM N Unit} (hc : Keeps n cleanup) :
    Keeps n (x.onThrow cleanup) := by
  intro w
  have hxw := hx w
  rw [FileM.onThrow]
  generalize x w = r at hxw ⊢
  cases r with
  | returned a v => exact hxw
  | stopped v => exact hxw
  | threw e v =>
    have hcv := (hc v).trans hxw
    dsimp only
    generalize cleanup v = c at hcv ⊢
    cases c with
    | returned _ u => exact hcv
    | threw _ u => exact hcv
    | stopped u => exact hcv

theorem keeps_operation {part : Fault → Files N → Files N} {whole : Files N → Files N}
    (hpart : ∀ fault files, part fault files n = files n) (hwhole : ∀ files, whole files n = files n) :
    Keeps n (operation part whole) := by
  intro w
  rw [operation]
  split
  next => exact hwhole _
  next => exact hwhole _
  next => exact hpart _ _
  next => exact hpart _ _

theorem keeps_atomic {whole : Files N → Files N} (hwhole : ∀ files, whole files n = files n) :
    Keeps n (atomic whole) := by
  refine keeps_operation (fun fault files => ?_) hwhole
  obtain _ | _ | _ := fault
  · rfl
  · rfl
  · exact hwhole files

theorem keeps_flush (n : N) : Keeps n flush := keeps_atomic fun _ => rfl

theorem keeps_find (n name : N) : Keeps n (find name) := by
  intro w
  rw [find]
  split <;> rfl

theorem keeps_openFile (n name : N) : Keeps n (openFile name) :=
  (keeps_atomic fun _ => rfl).bind fun _ => keeps_find n name

theorem keeps_read (n name : N) (pos k : Nat) : Keeps n (read name pos k) :=
  (keeps_atomic fun _ => rfl).bind fun _ => fun _ => rfl

variable [DecidableEq N] {name : N}

theorem keeps_createFile (hn : n ≠ name) : Keeps n (createFile name) :=
  keeps_atomic fun _ => Function.update_of_ne hn _ _

theorem change_of_ne (hn : n ≠ name) (f : List UInt8 → List UInt8) (files : Files N) :
    change name f files n = files n := Function.update_of_ne hn _ _

theorem keeps_write (hn : n ≠ name) (pos : Nat) (data : List UInt8) : Keeps n (write name pos data) := by
  intro w
  rw [write]
  split
  next =>
    refine keeps_operation (fun fault files => ?_) (fun files => change_of_ne hn _ files) w
    cases fault with
    | fail _ => exact change_of_ne hn _ files
    | stop _ => exact change_of_ne hn _ files
  next => rfl

theorem keeps_setSize (hn : n ≠ name) (k : Nat) : Keeps n (setSize name k) := by
  intro w
  rw [setSize]
  split
  next => exact keeps_atomic (fun files => change_of_ne hn _ files) w
  next => rfl

theorem keeps_deleteFile (hn : n ≠ name) : Keeps n (deleteFile name) :=
  (keeps_atomic fun _ => Function.update_of_ne hn _ _).handle _ (keeps_pure n ())

theorem keeps_rename {source target : N} (hs : n ≠ source) (ht : n ≠ target) : Keeps n (rename source target) :=
  (keeps_find n source).bind fun _ => keeps_atomic fun _ => by
    rw [Function.update_of_ne hs, Function.update_of_ne ht]

end

end Dcpp.Disk
