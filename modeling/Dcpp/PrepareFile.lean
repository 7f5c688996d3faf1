import Dcpp.Encoder
import Dcpp.QueueItem
import Dcpp.WaitingList

-- The check of a request for a file, a list or a tree, and what is opened for it.
namespace Dcpp.UploadManager

/-- A string in memory. -/
abbrev Content := {b : Bytes // b.length < 2 ^ 63}

/-- What `File::getSize` gives: the length of a file, or -1. -/
abbrev FileSize := {n : Int64 // -1 ≤ n}

/-- What `prepareFile` asks of the rest of the client; an error is the text of the exception. `miniSlotSize` is
`SETTING(SET_MINISLOT_SIZE) * 1024`. -/
structure Client where
  toRealWithSize : Bytes → Except Bytes (Bytes × Int64)
  toVirtual : Encoder.HashValue → Except Bytes Bytes
  getTree : Bytes → Option Content
  generatePartialList : Bytes → Bool → Option Content
  openFile : Bytes → Except Bytes FileSize
  readFile : Bytes → Except Bytes Bytes
  decodeBZ2 : Bytes → Except Bytes Content
  formatBytes : Int64 → Bytes
  isFavorite : Bool
  autoSlot : Bool
  miniSlotSize : Int64

def USER_LIST_NAME : Bytes := str "files.xml"
def USER_LIST_NAME_BZ : Bytes := str "files.xml.bz2"
def FILE_NOT_AVAILABLE : Bytes := str "File Not Available"

/-- What is known of a request before a file is opened. -/
structure Preliminary where
  type : TransferType
  sourceFile : Bytes
  miniSlot : Bool

inductive Stream where
  | memory (content : Content)
  | file (length : Int64) (limited : Bool)

/-- The length of what is behind a stream. -/
def Stream.length : Stream → Int
  | .memory content => content.val.length
  | .file length _ => length.toInt

structure Upload where
  type : TransferType
  sourceFile : Bytes
  stream : Stream
  start : Int64
  size : Int64

inductive Reply where
  | fileNotAvail (msg : Bytes)
  | maxedOut (position : Nat)

inductive Outcome (U : Type) where
  | refused (reply : Reply) (s : State U)
  | accepted (u : Upload) (s : State U)
  | threw (aError : Bytes)

/-- The checks that need no file. -/
def preliminary (w : Client) (aType aFile : Bytes) : Except Bytes Preliminary :=
  if aType = str "file" then
    match w.toRealWithSize aFile with
    | .error e => .error e
    | .ok info =>
      let type := if aFile = USER_LIST_NAME_BZ ∨ aFile = USER_LIST_NAME then .TYPE_FULL_LIST else .TYPE_FILE
      .ok ⟨type, info.1, type = .TYPE_FULL_LIST ∨ info.2 ≤ w.miniSlotSize⟩
  else if aType = str "tthl" then
    match w.toRealWithSize aFile with
    | .error e => .error e
    | .ok info => .ok ⟨.TYPE_TREE, info.1, true⟩
  else if aType = str "list" then .ok ⟨.TYPE_PARTIAL_LIST, str "Partial file list", true⟩
  else .error (str "Unknown file type")

/-- What is in memory is sent as a whole. -/
def ofMemory (r : Preliminary) (content : Content) : Upload :=
  ⟨r.type, r.sourceFile, .memory content, 0, Int64.ofNat content.val.length⟩

/-- The part of a file on the disk. -/
def openDisk (w : Client) (r : Preliminary) (aStartPos aBytes : Int64) : Except Bytes Upload :=
  match w.openFile r.sourceFile with
  | .error _ => .error FILE_NOT_AVAILABLE
  | .ok sz =>
    let start := aStartPos
    let size := if aBytes = -1 then sz.val - start else aBytes
    if start + size > sz.val then .error FILE_NOT_AVAILABLE
    else .ok ⟨r.type, r.sourceFile, .file sz.val (start + size < sz.val), start, size⟩

/-- The stream of an upload, with its start and its size; an error is what the peer is told. -/
def openSource (w : Client) (r : Preliminary) (aFile : Bytes) (aStartPos aBytes : Int64) (listRecursive : Bool) :
    Except Bytes Upload :=
  match r.type with
  | .TYPE_FILE | .TYPE_FULL_LIST =>
    if aFile = USER_LIST_NAME then
      -- it is unpacked before it is sent
      match w.readFile r.sourceFile with
      | .error _ => .error FILE_NOT_AVAILABLE
      | .ok bz2 =>
        match w.decodeBZ2 bz2 with
        | .error _ => .error FILE_NOT_AVAILABLE
        | .ok xml => .ok (ofMemory r xml)
    else openDisk w r aStartPos aBytes
  | .TYPE_TREE => ((w.getTree aFile).map (ofMemory r)).elim (.error FILE_NOT_AVAILABLE) .ok
  | .TYPE_PARTIAL_LIST =>
    ((w.generatePartialList aFile listRecursive).map (ofMemory r)).elim (.error FILE_NOT_AVAILABLE) .ok

/-- The name under which a refused request waits. -/
def waitingName (w : Client) (aFile : Bytes) : Except Bytes Bytes :=
  if aFile.take 4 = str "TTH/" then w.toVirtual (Encoder.HashValue.ofBase32 (aFile.drop 4)) else .ok aFile

variable {U : Type} [DecidableEq U]

/-- Where the choice of a slot leads. -/
def slotFor (w : Client) (settings : Settings) (aSource : UserConnection U) (miniSlot : Bool) (s : State U) : Place :=
  if aSource.hasSlot then .prepare false false false
  else
    chooseSlot settings ⟨[], miniSlot⟩ (hasReservedSlot aSource.user s || w.isFavorite)
      (hasFreeSlot settings aSource.user s) w.autoSlot aSource s

def isInvalid (aFile : Bytes) (aStartPos aBytes : Int64) : Bool :=
  aFile = [] ∨ aStartPos < 0 ∨ aBytes < -1 ∨ aBytes = 0

def prepareFile (w : Client) (settings : Settings) (i : Nat) (aSource : UserConnection U) (aType aFile : Bytes)
    (aStartPos aBytes : Int64) (listRecursive : Bool) (s : State U) : Outcome U :=
  if isInvalid aFile aStartPos aBytes then .refused (.fileNotAvail (str "Invalid request")) s
  else
    match preliminary w aType aFile with
    | .error e => .refused (.fileNotAvail e) s
    | .ok r =>
      match slotFor w settings aSource r.miniSlot s with
      | .prepare extraSlot gotFullSlot free =>
        match openSource w r aFile aStartPos aBytes listRecursive with
        | .error e => .refused (.fileNotAvail e) s
        | .ok u => .accepted u (startUpload i aSource extraSlot gotFullSlot free s)
      | _ =>
        match waitingName w aFile with
        | .error e => .threw e
        | .ok tFile =>
          let filename := tFile ++ str " (" ++ w.formatBytes aStartPos ++ str " - " ++
            w.formatBytes (aStartPos + aBytes) ++ str ")"
          .refused (.maxedOut (failedUploadPosition aSource.user s)) (addFailedUpload aSource.user filename s)

/-- The slots, and who uses them, are the same. -/
structure SameSlots (s t : State U) : Prop where
  running : t.running = s.running
  extra : t.extra = s.extra
  connections : t.connections = s.connections
  uploads : t.uploads = s.uploads
  reservedSlots : t.reservedSlots = s.reservedSlots
  connectingUsers : t.connectingUsers = s.connectingUsers

/-- The upload is a part of what is behind its stream. -/
def Upload.InBounds (u : Upload) : Prop :=
  0 ≤ u.start.toInt ∧ 0 ≤ u.size.toInt ∧ u.start.toInt + u.size.toInt ≤ u.stream.length

/-- A request is refused and no slot changes, or what it asks for is there. -/
def Outcome.Checked (s : State U) : Outcome U → Prop
  | .refused _ t => SameSlots s t
  | .accepted u _ => u.InBounds
  | .threw _ => False

/-- A request for a part of a file on the disk does not start behind its end, when it asks for the rest, and does not
end behind 2^63. -/
def InRange (aStartPos aBytes sz : Int64) : Prop :=
  (aBytes = -1 → aStartPos ≤ sz) ∧ (aBytes ≠ -1 → aStartPos.toInt + aBytes.toInt < 2 ^ 63)

/-- The condition on a request, by where it leads: a part of a file on the disk has to be in the range, and the name of
a refused request has to be known. -/
def Answerable (w : Client) (settings : Settings) (aSource : UserConnection U) (aType aFile : Bytes)
    (aStartPos aBytes : Int64) (s : State U) : Prop :=
  ∀ r, isInvalid aFile aStartPos aBytes = false → preliminary w aType aFile = .ok r →
    match slotFor w settings aSource r.miniSlot s with
    | .prepare _ _ _ => r.type = .TYPE_FILE ∨ r.type = .TYPE_FULL_LIST → aFile ≠ USER_LIST_NAME →
        ∀ sz, w.openFile r.sourceFile = .ok sz → InRange aStartPos aBytes sz.val
    | _ => ∃ tFile, waitingName w aFile = .ok tFile

/-- The sum of two numbers that are not negative is right, or it is negative. -/
theorem toInt_add_cases {a b : Int64} (ha : 0 ≤ a.toInt) (hb : 0 ≤ b.toInt) :
    a.toInt + b.toInt < 2 ^ 63 ∧ (a + b).toInt = a.toInt + b.toInt ∨
      2 ^ 63 ≤ a.toInt + b.toInt ∧ (a + b).toInt < -1 := by
  have hlt := a.toInt_lt
  have hlt' := b.toInt_lt
  rw [Int64.toInt_add, Int.bmod_def]
  split <;> omega

theorem toInt_sub_of_nonneg {a b : Int64} (ha : -1 ≤ a.toInt) (hb : 0 ≤ b.toInt) :
    (a - b).toInt = a.toInt - b.toInt := by
  have hlt := a.toInt_lt
  have hlt' := b.toInt_lt
  rw [Int64.toInt_sub, Int.bmod_def]
  split <;> omega

theorem isInvalid_eq_false {aFile : Bytes} {aStartPos aBytes : Int64} (h : isInvalid aFile aStartPos aBytes = false) :
    0 ≤ aStartPos.toInt ∧ (aBytes = -1 ∨ 0 < aBytes.toInt) := by
  rw [isInvalid, decide_eq_false_iff_not, not_or, not_or, not_or] at h
  obtain ⟨_, hstart, hlt, hne⟩ := h
  rw [Int64.lt_iff_toInt_lt] at hstart hlt
  rw [← Int64.toInt_inj] at hne ⊢
  have h0 : (0 : Int64).toInt = 0 := rfl
  have h1 : (-1 : Int64).toInt = -1 := rfl
  omega

/-- The answer to a request for a part of a file is right exactly in the range. -/
theorem range_iff {aStartPos aBytes sz : Int64} (hstart : 0 ≤ aStartPos.toInt)
    (hbytes : aBytes = -1 ∨ 0 < aBytes.toInt) (hsz : -1 ≤ sz) :
    (aStartPos + (if aBytes = -1 then sz - aStartPos else aBytes) > sz ∨
        0 ≤ (if aBytes = -1 then sz - aStartPos else aBytes).toInt ∧
          aStartPos.toInt + (if aBytes = -1 then sz - aStartPos else aBytes).toInt ≤ sz.toInt) ↔
      InRange aStartPos aBytes sz := by
  have hneg : (-1 : Int64).toInt = -1 := rfl
  have hszlt := sz.toInt_lt
  rw [Int64.le_iff_toInt_le, hneg] at hsz
  rw [InRange, gt_iff_lt, Int64.lt_iff_toInt_lt, Int64.le_iff_toInt_le]
  by_cases hrest : aBytes = -1
  · have hsub := toInt_sub_of_nonneg hsz hstart
    have hsum : aStartPos + (sz - aStartPos) = sz := by
      rw [Int64.add_comm, Int64.sub_add_cancel]
    rw [if_pos hrest, hsum, hsub]
    constructor
    · intro h
      exact ⟨fun _ => by omega, fun hne => absurd hrest hne⟩
    · intro h
      have := h.1 hrest
      omega
  · have hpos := hbytes.resolve_left hrest
    rw [if_neg hrest]
    have hle : ∀ p : Prop, (aBytes = -1 → p) := fun p h => absurd h hrest
    obtain ⟨hlt, hsum⟩ | ⟨hge, hsum⟩ := toInt_add_cases hstart hpos.le
    · exact iff_of_true (by omega) ⟨hle _, fun _ => hlt⟩
    · refine iff_of_false (by omega) fun h => ?_
      have := h.2 hrest
      omega

theorem ofMemory_inBounds (r : Preliminary) (content : Content) : (ofMemory r content).InBounds := by
  have hzero : (ofMemory r content).start.toInt = 0 := rfl
  have hlen : (ofMemory r content).size.toInt = (ofMemory r content).stream.length :=
    Int64.toInt_ofNat_of_lt content.property
  have hnn : 0 ≤ (ofMemory r content).stream.length := Int.natCast_nonneg _
  rw [Upload.InBounds, hzero, hlen]
  omega

/-- What is opened on the disk is in the bounds, or nothing is opened, exactly in the range. -/
theorem openDisk_iff (w : Client) (r : Preliminary) {aStartPos aBytes : Int64} (hstart : 0 ≤ aStartPos.toInt)
    (hbytes : aBytes = -1 ∨ 0 < aBytes.toInt) :
    (∀ u, openDisk w r aStartPos aBytes = .ok u → u.InBounds) ↔
      ∀ sz, w.openFile r.sourceFile = .ok sz → InRange aStartPos aBytes sz.val := by
  rw [openDisk]
  cases hopen : w.openFile r.sourceFile with
  | error e => exact iff_of_true nofun nofun
  | ok sz =>
    have hrange := range_iff hstart hbytes sz.property
    dsimp only
    generalize (if aBytes = -1 then sz.val - aStartPos else aBytes) = size at hrange ⊢
    have hall : (∀ sz', Except.ok sz = @Except.ok Bytes _ sz' → InRange aStartPos aBytes sz'.val) ↔
        InRange aStartPos aBytes sz.val :=
      ⟨fun h => h sz rfl, fun h sz' heq => Except.ok.inj heq ▸ h⟩
    rw [hall, ← hrange]
    by_cases hgt : aStartPos + size > sz.val
    · rw [if_pos hgt]
      exact iff_of_true nofun (Or.inl hgt)
    · rw [if_neg hgt, or_iff_right hgt]
      constructor
      · intro h
        exact (h _ rfl).2
      · intro h u hu
        obtain rfl := Except.ok.inj hu
        exact ⟨hstart, h⟩

/-- What comes from memory is in the bounds. -/
theorem elim_map_inBounds {r : Preliminary} {content : Option Content} {u : Upload}
    (h : (content.map (ofMemory r)).elim (Except.error FILE_NOT_AVAILABLE) Except.ok = Except.ok u) : u.InBounds := by
  cases content with
  | none => cases h
  | some content =>
    obtain rfl := Except.ok.inj h
    exact ofMemory_inBounds r content

theorem openSource_iff (w : Client) (r : Preliminary) {aFile : Bytes} {aStartPos aBytes : Int64}
    (hstart : 0 ≤ aStartPos.toInt) (hbytes : aBytes = -1 ∨ 0 < aBytes.toInt) (listRecursive : Bool) :
    (∀ u, openSource w r aFile aStartPos aBytes listRecursive = .ok u → u.InBounds) ↔
      (r.type = .TYPE_FILE ∨ r.type = .TYPE_FULL_LIST → aFile ≠ USER_LIST_NAME →
        ∀ sz, w.openFile r.sourceFile = .ok sz → InRange aStartPos aBytes sz.val) := by
  have hfile : (∀ u, (if aFile = USER_LIST_NAME then
        match w.readFile r.sourceFile with
        | .error _ => .error FILE_NOT_AVAILABLE
        | .ok bz2 =>
          match w.decodeBZ2 bz2 with
          | .error _ => .error FILE_NOT_AVAILABLE
          | .ok xml => .ok (ofMemory r xml)
      else openDisk w r aStartPos aBytes) = .ok u → u.InBounds) ↔
      (aFile ≠ USER_LIST_NAME → ∀ sz, w.openFile r.sourceFile = .ok sz → InRange aStartPos aBytes sz.val) := by
    by_cases hname : aFile = USER_LIST_NAME
    · rw [if_pos hname]
      refine iff_of_true (fun u hu => ?_) fun hne => absurd hname hne
      split at hu
      next => cases hu
      next =>
        split at hu
        next => cases hu
        next xml _ =>
          obtain rfl := Except.ok.inj hu
          exact ofMemory_inBounds r xml
    · rw [if_neg hname, openDisk_iff w r hstart hbytes, forall_prop_of_true hname]
  rw [openSource]
  cases r.type with
  | TYPE_FILE => exact hfile.trans ⟨fun h _ => h, fun h => h (Or.inl rfl)⟩
  | TYPE_FULL_LIST => exact hfile.trans ⟨fun h _ => h, fun h => h (Or.inr rfl)⟩
  | TYPE_PARTIAL_LIST => exact iff_of_true (fun u hu => elim_map_inBounds hu) fun h => by cases h <;> contradiction
  | TYPE_TREE => exact iff_of_true (fun u hu => elim_map_inBounds hu) fun h => by cases h <;> contradiction

theorem sameSlots_addFailedUpload (user : U) (filename : Bytes) (s : State U) :
    SameSlots s (addFailedUpload user filename s) :=
  ⟨rfl, rfl, rfl, rfl, rfl, rfl⟩

omit [DecidableEq U] in
theorem SameSlots.refl (s : State U) : SameSlots s s := ⟨rfl, rfl, rfl, rfl, rfl, rfl⟩

/-- A request is refused with the slots as they are, or accepted within the bounds, exactly if it is answerable. -/
theorem prepareFile_checked_iff (w : Client) (settings : Settings) (i : Nat) (aSource : UserConnection U)
    (aType aFile : Bytes) (aStartPos aBytes : Int64) (listRecursive : Bool) (s : State U) :
    (prepareFile w settings i aSource aType aFile aStartPos aBytes listRecursive s).Checked s ↔
      Answerable w settings aSource aType aFile aStartPos aBytes s := by
  rw [prepareFile, Answerable]
  cases hvalid : isInvalid aFile aStartPos aBytes with
  | true => exact iff_of_true (SameSlots.refl s) nofun
  | false =>
    obtain ⟨hstart, hbytes⟩ := isInvalid_eq_false hvalid
    rw [if_neg Bool.false_ne_true]
    cases hr : preliminary w aType aFile with
    | error e => exact iff_of_true (SameSlots.refl s) nofun
    | ok r =>
      have hall : ∀ p : Preliminary → Prop,
          (∀ r', false = false → Except.ok r = @Except.ok Bytes _ r' → p r') ↔ p r :=
        fun p => ⟨fun h => h r rfl rfl, fun h r' _ heq => Except.ok.inj heq ▸ h⟩
      rw [hall]
      dsimp only
      split
      next =>
        rw [← openSource_iff w r hstart hbytes listRecursive]
        cases openSource w r aFile aStartPos aBytes listRecursive with
        | error e => exact iff_of_true (SameSlots.refl s) nofun
        | ok u => exact ⟨fun h u' heq => Except.ok.inj heq ▸ h, fun h => h u rfl⟩
      next =>
        cases waitingName w aFile with
        | error e => exact iff_of_false id (by rintro ⟨tFile, heq⟩; cases heq)
        | ok tFile => exact iff_of_true (sameSlots_addFailedUpload _ _ s) ⟨tFile, rfl⟩

/-- Every file has a hundred bytes. -/
def hundredBytes : Client where
  toRealWithSize := fun aFile => .ok (aFile, 100)
  toVirtual := fun _ => .error FILE_NOT_AVAILABLE
  getTree := fun _ => none
  generatePartialList := fun _ _ => none
  openFile := fun _ => .ok ⟨100, by decide⟩
  readFile := fun _ => .ok []
  decodeBZ2 := fun _ => .ok ⟨[], by decide⟩
  formatBytes := fun _ => []
  isFavorite := false
  autoSlot := false
  miniSlotSize := 65536

/-- A connection with a slot. -/
def withSlot : UserConnection Nat := ⟨0, false, false, true, false, true, .idle⟩

/-- The rest of a file from behind its end is a part of minus a hundred bytes. -/
theorem not_prepareFile_checked :
    ¬ (prepareFile hundredBytes ⟨1, 0⟩ 0 withSlot (str "file") (str "a.txt") 200 (-1) false
      ⟨[withSlot], [], 1, 0, [], [], [], []⟩).Checked ⟨[withSlot], [], 1, 0, [], [], [], []⟩ := by
  intro h
  have hsize : 0 ≤ (-100 : Int64).toInt := h.2.1
  exact absurd hsize (by decide)

end Dcpp.UploadManager
