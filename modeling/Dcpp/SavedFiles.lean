import Dcpp.QueueFile

namespace Dcpp.SavedFiles

open Disk HashManager SaveFile

/-- What was there before, or what is saved now, is at the name that is loaded. -/
def Present (name : Bytes) (document : Bytes) (w v : World Bytes) : Prop :=
  v.files name = w.files name ∨ v.files name = some document

/-- Once there is a file and all of the new one has been written, the program neither stops nor fails between
the deletion of the old file and the end of the renaming. -/
def NotLost (bufSize : Nat) (name : Bytes) (pieces : List Bytes) (w : World Bytes) : Prop :=
  (w.files name).isSome → pieces.flatten.length ≤ maxOffset → Clean (1 + operations bufSize pieces) w.faults →
    Kept (w.faults.drop (1 + operations bufSize pieces))

theorem saveFile_present_iff (device : Bytes → Nat) (bufSize : Nat) (name : Bytes) (pieces : List Bytes)
    (w : World Bytes) :
    Present name pieces.flatten w (saveFile device bufSize name pieces w).world ↔ NotLost bufSize name pieces w :=
  saveFile_iff device bufSize name pieces w

/-- What is done after the saving, and where it has failed, does not change the disk. -/
theorem world_handle {α : Type} (x : FileM Bytes Unit) (a b : α) (w : World Bytes) :
    (FileM.handle (do x; return a) (fun e => e = .file) (pure b) w).world = (x w).world := by
  rw [FileM.handle, bind_eq]
  cases x w with
  | returned _ _ => rfl
  | stopped _ => rfl
  | threw e v =>
    dsimp only
    split <;> rfl

theorem save_present_iff (device : Bytes → Nat) (bufSize : Nat) (config : Bytes) (s : HashStore) (w : World Bytes) :
    Present (HashStore.getIndexFile config) s.indexPieces.flatten w (s.save device bufSize config w).world ↔
      (s.dirty = true → NotLost bufSize (HashStore.getIndexFile config) s.indexPieces w) := by
  rw [HashStore.save]
  by_cases hdirty : s.dirty = true
  · rw [if_pos hdirty, world_handle, saveFile_present_iff]
    exact ⟨fun h _ => h, fun h => h hdirty⟩
  · rw [if_neg hdirty]
    exact iff_of_true (Or.inl rfl) fun h => absurd h hdirty

theorem saveQueue_present_iff {U : Type} (device : Bytes → Nat) (bufSize : Nat) (config : Bytes)
    (cid : U → Encoder.HashValue) (queue : List (QueueItem U TTHValue)) (dirty force : Bool) (w : World Bytes) :
    Present (QueueManager.getQueueFile config) (QueueManager.queuePieces cid queue).flatten w
        (QueueManager.saveQueue device bufSize config cid queue dirty force w).world ↔
      (dirty = true ∨ force = true →
        NotLost bufSize (QueueManager.getQueueFile config) (QueueManager.queuePieces cid queue) w) := by
  rw [QueueManager.saveQueue]
  by_cases hsaves : dirty = true ∨ force = true
  · have hcond : ¬(!dirty && !force) = true := by
      rw [Bool.and_eq_true, Bool.not_eq_true', Bool.not_eq_true']
      rintro ⟨rfl, rfl⟩
      exact hsaves.elim Bool.false_ne_true Bool.false_ne_true
    rw [if_neg hcond, world_handle, saveFile_present_iff]
    exact ⟨fun h _ => h, fun h => h hsaves⟩
  · have hcond : (!dirty && !force) = true := by
      rw [not_or, Bool.not_eq_true, Bool.not_eq_true] at hsaves
      rw [hsaves.1, hsaves.2]
      rfl
    rw [if_pos hcond]
    exact iff_of_true (Or.inl rfl) fun h => absurd h hsaves

/-- Both files survive a save, whatever fails, unless they are lost between the deletion and the
renaming. -/
theorem saves_present_iff (device : Bytes → Nat) (bufSize : Nat) (config : Bytes) (w : World Bytes) :
    (∀ (U : Type) (cid : U → Encoder.HashValue) (queue : List (QueueItem U TTHValue)) (dirty force : Bool),
      Present (QueueManager.getQueueFile config) (QueueManager.queuePieces cid queue).flatten w
          (QueueManager.saveQueue device bufSize config cid queue dirty force w).world ↔
        (dirty = true ∨ force = true →
          NotLost bufSize (QueueManager.getQueueFile config) (QueueManager.queuePieces cid queue) w)) ∧
    ∀ s : HashStore,
      Present (HashStore.getIndexFile config) s.indexPieces.flatten w (s.save device bufSize config w).world ↔
        (s.dirty = true → NotLost bufSize (HashStore.getIndexFile config) s.indexPieces w) :=
  ⟨fun _ cid queue dirty force => saveQueue_present_iff device bufSize config cid queue dirty force w,
    fun s => save_present_iff device bufSize config s w⟩

/-- The renaming fails when the old file has been deleted. -/
def renameFails (name : Bytes) (n : Nat) : World Bytes :=
  ⟨Function.update (fun _ => none) name (some (str "old")), List.replicate n none ++ [none, some (.fail 0)]⟩

theorem not_notLost (bufSize : Nat) (name : Bytes) {pieces : List Bytes} (hle : pieces.flatten.length ≤ maxOffset) :
    ¬NotLost bufSize name pieces (renameFails name (1 + operations bufSize pieces)) := by
  intro h
  have hold : ((renameFails name (1 + operations bufSize pieces)).files name).isSome := by
    rw [renameFails]
    exact congrArg Option.isSome (Function.update_self name (some (str "old")) fun _ => none)
  have hclean : Clean (1 + operations bufSize pieces) (renameFails name (1 + operations bufSize pieces)).faults := by
    rw [renameFails, Clean, List.take_left' List.length_replicate]
    exact fun _ hfault => List.eq_of_mem_replicate hfault
  have hkept := h hold hle hclean
  rw [renameFails, List.drop_left' List.length_replicate] at hkept
  exact hkept

theorem not_saves_present :
    ¬∀ (device : Bytes → Nat) (bufSize : Nat) (config : Bytes) (w : World Bytes),
      (∀ (U : Type) (cid : U → Encoder.HashValue) (queue : List (QueueItem U TTHValue)) (dirty force : Bool),
        Present (QueueManager.getQueueFile config) (QueueManager.queuePieces cid queue).flatten w
          (QueueManager.saveQueue device bufSize config cid queue dirty force w).world) ∧
      ∀ s : HashStore,
        Present (HashStore.getIndexFile config) s.indexPieces.flatten w (s.save device bufSize config w).world := by
  intro h
  have hindex := (h (fun _ => 0) 65536 (str "/config/")
    (renameFails (HashStore.getIndexFile (str "/config/")) (1 + operations 65536 (HashStore.indexPieces ⟨[], [], true⟩)))).2
    ⟨[], [], true⟩
  rw [save_present_iff] at hindex
  exact not_notLost 65536 _ (by decide +kernel) (hindex rfl)

end Dcpp.SavedFiles
