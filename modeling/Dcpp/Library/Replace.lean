import Dcpp.Library.Disk

-- A file that is replaced by one written beside it.
namespace Dcpp.Disk

open ByteFile

variable {N : Type}

/-- None of the next `n` operations fails. -/
def Clean (n : Nat) (faults : List (Option Fault)) : Prop := ∀ fault ∈ faults.take n, fault = none

theorem clean_zero (faults : List (Option Fault)) : Clean 0 faults := fun _ h => absurd h List.not_mem_nil

theorem clean_add (m n : Nat) (faults : List (Option Fault)) :
    Clean (m + n) faults ↔ Clean m faults ∧ Clean n (faults.drop m) := by
  rw [Clean, List.take_add]
  exact List.forall_mem_append

theorem operation_returned_iff {part : Fault → Files N → Files N} {whole : Files N → Files N} {w v : World N} :
    operation part whole w = .returned () v ↔ Clean 1 w.faults ∧ v = ⟨whole w.files, w.faults.drop 1⟩ := by
  obtain ⟨files, faults⟩ := w
  rw [operation]
  obtain _ | ⟨_ | _ | _, faults⟩ := faults
  · exact ⟨fun h => ⟨by rw [Clean]; exact fun _ h => absurd h List.not_mem_nil, by cases h; rfl⟩, fun h => h.2 ▸ rfl⟩
  · exact ⟨fun h => ⟨by rw [Clean]; exact fun _ h => List.mem_singleton.mp h, by cases h; rfl⟩, fun h => h.2 ▸ rfl⟩
  all_goals exact ⟨fun h => (by cases h), fun h => absurd (h.1 _ List.mem_cons_self) (Option.some_ne_none _)⟩

theorem atomic_returned_iff {whole : Files N → Files N} {w v : World N} :
    atomic whole w = .returned () v ↔ Clean 1 w.faults ∧ v = ⟨whole w.files, w.faults.drop 1⟩ :=
  operation_returned_iff

/-- What a change of the files comes to. -/
theorem atomic_cases (whole : Files N → Files N) (w : World N) :
    atomic whole w = match w.faults.headD none with
      | none => .returned () ⟨whole w.files, w.faults.tail⟩
      | some (.fail _) => .threw .file ⟨w.files, w.faults.tail⟩
      | some (.stop 0) => .stopped ⟨w.files, w.faults.tail⟩
      | some (.stop (_ + 1)) => .stopped ⟨whole w.files, w.faults.tail⟩ := by
  obtain ⟨files, faults⟩ := w
  obtain _ | ⟨_ | _ | _ | _, faults⟩ := faults <;> rfl

section

variable [DecidableEq N] {name : N}

/-- The program adds bytes to the end of a file in `n` operations, and returns if and only if none of them
fails. -/
structure Adds (name : N) (n : Nat) (data : List UInt8) (x : FileM N Unit) : Prop where
  keeps : ∀ n, n ≠ name → Keeps n x
  returned_iff : ∀ w file, w.files name = some file → file.length ≤ maxOffset → ∀ v,
    x w = .returned () v ↔ file.length + data.length ≤ maxOffset ∧ Clean n w.faults ∧
      v = ⟨Function.update w.files name (some (file ++ data)), w.faults.drop n⟩

theorem Adds.nil (name : N) : Adds name 0 [] (pure ()) where
  keeps := fun n _ => keeps_pure n ()
  returned_iff := by
    intro w file hfile hle v
    rw [List.append_nil, ← hfile, Function.update_eq_self, List.drop_zero]
    exact ⟨fun h => ⟨hle, clean_zero _, by cases h; rfl⟩, fun h => h.2.2 ▸ rfl⟩

theorem Adds.bind {m n : Nat} {data data' : List UInt8} {x y : FileM N Unit} (hx : Adds name m data x)
    (hy : Adds name n data' y) : Adds name (m + n) (data ++ data') (do x; y) where
  keeps := fun n hn => (hx.keeps n hn).bind fun _ => hy.keeps n hn
  returned_iff := by
    intro w file hfile hle v
    have hlen : (file ++ data).length + data'.length = file.length + (data ++ data').length := by
      simp only [List.length_append, Nat.add_assoc]
    have hstep (u : World N) (hu : u = ⟨Function.update w.files name (some (file ++ data)), w.faults.drop m⟩)
        (hle' : (file ++ data).length ≤ maxOffset) :=
      hy.returned_iff u (file ++ data) (hu ▸ Function.update_self ..) hle' v
    constructor
    · intro h
      obtain ⟨_, u, hxu, hyv⟩ := returned_of_bind h
      obtain ⟨hdata, hclean, hu⟩ := (hx.returned_iff w file hfile hle u).mp hxu
      obtain ⟨hdata', hclean', hv⟩ := (hstep u hu (by rwa [List.length_append])).mp hyv
      subst hu
      rw [Function.update_idem, List.append_assoc, List.drop_drop] at hv
      exact ⟨hlen ▸ hdata', (clean_add m n _).mpr ⟨hclean, hclean'⟩, hv⟩
    · rintro ⟨hdata, hclean, rfl⟩
      obtain ⟨hclean, hclean'⟩ := (clean_add m n _).mp hclean
      rw [← hlen] at hdata
      have hle' : (file ++ data).length ≤ maxOffset := Nat.le_of_add_right_le hdata
      rw [List.length_append] at hle'
      rw [bind_returned ((hx.returned_iff w file hfile hle _).mpr ⟨hle', hclean, rfl⟩)]
      refine (hstep _ rfl (by rwa [List.length_append])).mpr ⟨hdata, hclean', ?_⟩
      rw [Function.update_idem, List.append_assoc, List.drop_drop]

theorem Adds.onThrow {n : Nat} {data : List UInt8} {x cleanup : FileM N Unit} (hx : Adds name n data x)
    (hc : ∀ n, n ≠ name → Keeps n cleanup) : Adds name n data (x.onThrow cleanup) where
  keeps := fun n hn => (hx.keeps n hn).onThrow (hc n hn)
  returned_iff := by
    intro w file hfile hle v
    rw [← hx.returned_iff w file hfile hle v, FileM.onThrow]
    cases x w with
    | returned _ _ => rfl
    | stopped _ => exact iff_of_false (fun h => by cases h) (fun h => by cases h)
    | threw _ u =>
      refine iff_of_false (fun h => ?_) (fun h => by cases h)
      dsimp only at h
      cases hcu : cleanup u <;> rw [hcu] at h <;> cases h

theorem adds_flush (name : N) : Adds name 1 [] flush where
  keeps := fun n _ => keeps_flush n
  returned_iff := by
    intro w file hfile hle v
    rw [flush, atomic, operation_returned_iff, List.append_nil, ← hfile, Function.update_eq_self]
    exact ⟨fun h => ⟨hle, h⟩, fun h => h.2⟩

theorem writeAt_length_self (data f : List UInt8) : writeAt f.length data f = f ++ data := by
  rw [writeAt]
  split_ifs with h
  · rw [h, List.append_nil]
  · rw [List.take_length, Nat.sub_self, List.drop_of_length_le (Nat.le_add_right _ _), List.append_nil]
    exact congrArg (· ++ data) (List.append_nil f)

/-- A write at the end of the file. -/
def append (name : N) (data : List UInt8) : FileM N Unit := fun w => write name (contents name w).length data w

theorem adds_append (name : N) (data : List UInt8) : Adds name 1 data (append name data) where
  keeps := fun n hn w => keeps_write hn _ data w
  returned_iff := by
    intro w file hfile hle v
    rw [append, contents_of_some hfile, write]
    split
    next hlen =>
      rw [operation_returned_iff, change_of_some hfile, writeAt_length_self]
      exact ⟨fun h => ⟨hlen, h⟩, fun h => h.2⟩
    next hlen => exact ⟨fun h => (by cases h), fun h => absurd h.1 hlen⟩

/-- A file that is written anew under another name, which then takes the place of the old one. -/
def writeNew (tmp : N) (x : FileM N Unit) : FileM N Unit := do
  createFile tmp
  x

def replaceBy (tmp name : N) : FileM N Unit := do
  deleteFile name
  rename tmp name

/-- The deletion and the renaming leave a file in the place of the old one. -/
def Kept (faults : List (Option Fault)) : Prop :=
  match faults.headD none, faults.tail.headD none with
  | none, none => True
  | none, some (.stop (_ + 1)) => True
  | none, _ => False
  | some (.stop (_ + 1)), _ => False
  | some _, _ => True

theorem keeps_writeNew {n : N} (hn : n ≠ name) {x : FileM N Unit} (hx : Keeps n x) : Keeps n (writeNew name x) :=
  (keeps_createFile hn).bind fun _ => hx

theorem keeps_replaceBy {n tmp : N} (ht : n ≠ tmp) (hn : n ≠ name) : Keeps n (replaceBy tmp name) :=
  (keeps_deleteFile hn).bind fun _ => keeps_rename ht hn

theorem writeNew_returned_iff {n : Nat} {data : List UInt8} {x : FileM N Unit} (hx : Adds name n data x)
    (w v : World N) :
    writeNew name x w = .returned () v ↔ data.length ≤ maxOffset ∧ Clean (1 + n) w.faults ∧
      v = ⟨Function.update w.files name (some data), w.faults.drop (1 + n)⟩ := by
  have hstep (u : World N) (hu : u = ⟨Function.update w.files name (some []), w.faults.drop 1⟩) :
      x u = .returned () v ↔ data.length ≤ maxOffset ∧ Clean n (w.faults.drop 1) ∧
        v = ⟨Function.update w.files name (some data), w.faults.drop (1 + n)⟩ := by
    subst hu
    rw [hx.returned_iff _ [] (Function.update_self ..) (Nat.zero_le _), List.length_nil, Nat.zero_add,
      List.nil_append, Function.update_idem, List.drop_drop]
  have hcreate (u : World N) : createFile name w = .returned () u ↔
      Clean 1 w.faults ∧ u = ⟨Function.update w.files name (some []), w.faults.drop 1⟩ := atomic_returned_iff
  rw [clean_add]
  constructor
  · intro h
    obtain ⟨_, u, hwu, hxv⟩ := returned_of_bind h
    obtain ⟨hclean, hu⟩ := (hcreate u).mp hwu
    obtain ⟨hle, hclean', hv⟩ := (hstep u hu).mp hxv
    exact ⟨hle, ⟨hclean, hclean'⟩, hv⟩
  · rintro ⟨hle, ⟨hclean, hclean'⟩, hv⟩
    rw [writeNew, bind_returned ((hcreate _).mpr ⟨hclean, rfl⟩)]
    exact (hstep _ rfl).mpr ⟨hle, hclean', hv⟩

theorem deleteFile_cases (name : N) (w : World N) :
    deleteFile name w = match w.faults.headD none with
      | none => .returned () ⟨Function.update w.files name none, w.faults.tail⟩
      | some (.fail _) => .returned () ⟨w.files, w.faults.tail⟩
      | some (.stop 0) => .stopped ⟨w.files, w.faults.tail⟩
      | some (.stop (_ + 1)) => .stopped ⟨Function.update w.files name none, w.faults.tail⟩ := by
  rw [deleteFile, FileM.handle, atomic_cases]
  obtain _ | _ | _ | _ := w.faults.headD none <;> rfl

/-- Where the file is lost between the deletion and the renaming, nothing is in its place. -/
theorem replaceBy_files {tmp name : N} (hne : tmp ≠ name) {w : World N} {data : List UInt8}
    (htmp : w.files tmp = some data) :
    let files := (replaceBy tmp name w).world.files
    (Kept w.faults → files name = w.files name ∨ files name = some data) ∧ (¬Kept w.faults → files name = none) := by
  have hrename (v : World N) (hv : v.files tmp = some data) : rename tmp name v =
      atomic (fun files => Function.update (Function.update files name (files tmp)) tmp none) v := by
    rw [rename, bind_eq, find, if_pos (by rw [hv]; rfl)]
  have hrenamed (v : World N) (hv : v.files tmp = some data) :
      Function.update (Function.update v.files name (v.files tmp)) tmp none name = some data := by
    rw [Function.update_of_ne hne.symm, Function.update_self, hv]
  have hdeleted : Function.update w.files name none tmp = some data := by
    rw [Function.update_of_ne hne, htmp]
  have hgone : Function.update w.files name none name = none := Function.update_self ..
  rw [replaceBy, bind_eq, deleteFile_cases, Kept]
  cases hd : w.faults.headD none with
  | none =>
    dsimp only
    rw [hrename ⟨_, w.faults.tail⟩ hdeleted, atomic_cases]
    dsimp only
    obtain _ | _ | _ | _ := w.faults.tail.headD none
    · exact ⟨fun _ => Or.inr (hrenamed ⟨_, w.faults.tail⟩ hdeleted), fun h => absurd trivial h⟩
    · exact ⟨fun h => h.elim, fun _ => hgone⟩
    · exact ⟨fun h => h.elim, fun _ => hgone⟩
    · exact ⟨fun _ => Or.inr (hrenamed ⟨_, w.faults.tail⟩ hdeleted), fun h => absurd trivial h⟩
  | some d =>
    obtain _ | _ | _ := d
    · dsimp only
      refine ⟨fun _ => ?_, fun h => absurd trivial h⟩
      rw [hrename ⟨_, w.faults.tail⟩ htmp, atomic_cases]
      dsimp only
      obtain _ | _ | _ | _ := w.faults.tail.headD none
      · exact Or.inr (hrenamed ⟨_, w.faults.tail⟩ htmp)
      · exact Or.inl rfl
      · exact Or.inl rfl
      · exact Or.inr (hrenamed ⟨_, w.faults.tail⟩ htmp)
    · exact ⟨fun _ => Or.inl rfl, fun h => absurd trivial h⟩
    · exact ⟨fun h => h.elim, fun _ => hgone⟩

theorem rename_threw {source target : N} {w v : World N} {e : Exception} (h : rename source target w = .threw e v) :
    v.files = w.files := by
  rw [rename, bind_eq, find] at h
  by_cases hsource : (w.files source).isSome
  · rw [if_pos hsource] at h
    dsimp only at h
    rw [atomic_cases] at h
    generalize w.faults.headD none = d at h
    obtain _ | _ | _ | _ := d <;> cases h
    rfl
  · rw [if_neg hsource] at h
    cases h
    rfl

/-- Where the renaming fails, the old file is as it was, if it is there. -/
theorem replaceBy_threw {tmp name : N} {w v : World N} {e : Exception} (h : replaceBy tmp name w = .threw e v) :
    v.files name = none ∨ v.files name = w.files name := by
  rw [replaceBy, bind_eq, deleteFile_cases] at h
  generalize w.faults.headD none = d at h
  obtain _ | _ | _ | _ := d
  · rw [rename_threw h]
    exact Or.inl (Function.update_self ..)
  · rw [rename_threw h]
    exact Or.inr rfl
  · cases h
  · cases h

/-- The file is replaced when nothing fails. -/
theorem replaceBy_eq {tmp name : N} (hne : tmp ≠ name) {w : World N} (hw : w.faults = []) {data : List UInt8}
    (htmp : w.files tmp = some data) :
    ∃ files, replaceBy tmp name w = .returned () ⟨files, []⟩ ∧ files name = some data := by
  have hdelete : deleteFile name w = .returned () ⟨Function.update w.files name none, []⟩ := by
    rw [deleteFile_cases, hw]
    rfl
  have htmp' : Function.update w.files name none tmp = some data := by rw [Function.update_of_ne hne, htmp]
  rw [replaceBy, bind_returned hdelete, rename, bind_eq, find, if_pos (Option.isSome_iff_exists.mpr ⟨data, htmp'⟩)]
  refine ⟨_, rfl, ?_⟩
  dsimp only
  rw [Function.update_of_ne hne.symm, Function.update_self, htmp']

/-- The old file or the new one is there afterwards, unless it is lost between the deletion and the
renaming. -/
theorem replace_iff {tmp name : N} (hne : tmp ≠ name) {n : Nat} {data : List UInt8} {x : FileM N Unit}
    (hx : Adds tmp n data x) (w : World N) :
    let files := ((do writeNew tmp x; replaceBy tmp name) w).world.files
    (files name = w.files name ∨ files name = some data) ↔
      (w.files name).isSome → data.length ≤ maxOffset → Clean (1 + n) w.faults → Kept (w.faults.drop (1 + n)) := by
  have hkeeps := keeps_writeNew hne.symm (hx.keeps name hne.symm) w
  have hret := writeNew_returned_iff hx w
  dsimp only
  rw [bind_eq]
  generalize writeNew tmp x w = r at hkeeps hret ⊢
  cases r with
  | returned u v =>
    obtain ⟨hle, hclean, hv⟩ := (hret v).mp rfl
    subst hv
    have htmp : Function.update w.files tmp (some data) tmp = some data := Function.update_self ..
    obtain ⟨hkept, hlost⟩ := replaceBy_files hne
      (w := ⟨Function.update w.files tmp (some data), w.faults.drop (1 + n)⟩) htmp
    dsimp only at hkept hlost hkeeps
    rw [Function.update_of_ne hne.symm] at hkept
    constructor
    · intro h hold _ _
      by_contra hk
      rw [hlost hk] at h
      obtain h | h := h
      · rw [← h] at hold
        cases hold
      · cases h
    · intro h
      by_cases hk : Kept (w.faults.drop (1 + n))
      · exact hkept hk
      · cases hold : w.files name with
        | none => exact Or.inl (hlost hk)
        | some _ => exact absurd (h (by rw [hold]; rfl) hle hclean) hk
  | threw e v =>
    exact iff_of_true (Or.inl hkeeps) fun _ hle hclean => nomatch (hret _).mpr ⟨hle, hclean, rfl⟩
  | stopped v =>
    exact iff_of_true (Or.inl hkeeps) fun _ hle hclean => nomatch (hret _).mpr ⟨hle, hclean, rfl⟩

end

end Dcpp.Disk
