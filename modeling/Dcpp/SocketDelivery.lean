import Dcpp.SocketSending
import Mathlib.Data.List.GetD

-- What is handed over to a socket goes out, in whatever order its thread and the others take their steps.
namespace Dcpp.SocketSending

section Pieces

def dataOf (l : List Piece) : Bytes := l.flatMap fun p => match p with
  | .data d => d
  | .file _ => []

def filesOf (l : List Piece) : List Bytes := l.filterMap fun p => match p with
  | .data _ => none
  | .file d => some d

/-- The data before file `k`. -/
def before : Nat → List Piece → Bytes
  | _, [] => []
  | k, .data d :: l => d ++ before k l
  | 0, .file _ :: _ => []
  | k + 1, .file _ :: l => before k l

theorem dataOf_append (l m : List Piece) : dataOf (l ++ m) = dataOf l ++ dataOf m := List.flatMap_append

theorem filesOf_append (l m : List Piece) : filesOf (l ++ m) = filesOf l ++ filesOf m := List.filterMap_append

theorem before_of_le {k : Nat} {l : List Piece} (h : (filesOf l).length ≤ k) : before k l = dataOf l := by
  induction l generalizing k with
  | nil => cases k <;> rfl
  | cons p l ih =>
    cases p with
    | data d =>
      rw [before, ih h]
      rfl
    | file d =>
      cases k with
      | zero => exact absurd h (Nat.not_succ_le_zero _)
      | succ k => exact ih (Nat.le_of_succ_le_succ h)

theorem before_append_left {k : Nat} {l : List Piece} (h : k < (filesOf l).length) (m : List Piece) :
    before k (l ++ m) = before k l := by
  induction l generalizing k with
  | nil => exact absurd h (Nat.not_lt_zero k)
  | cons p l ih =>
    cases p with
    | data d => rw [List.cons_append, before, before, ih h]
    | file d =>
      cases k with
      | zero => rfl
      | succ k => exact ih (Nat.lt_of_succ_lt_succ h)

theorem before_mono (k : Nat) (l m : List Piece) : before k l <+: before k (l ++ m) := by
  induction l generalizing k with
  | nil => cases k <;> exact List.nil_prefix
  | cons p l ih =>
    cases p with
    | data d => exact (List.prefix_append_right_inj d).mpr (ih k)
    | file d =>
      cases k with
      | zero => exact List.prefix_rfl
      | succ k => exact ih k

theorem before_dataOf (k : Nat) (l : List Piece) : before k l <+: dataOf l := by
  induction l generalizing k with
  | nil => cases k <;> exact List.nil_prefix
  | cons p l ih =>
    cases p with
    | data d => exact (List.prefix_append_right_inj d).mpr (ih k)
    | file d =>
      cases k with
      | zero => exact List.nil_prefix
      | succ k => exact ih k

/-- Files that go out one after the other, the last of which is perhaps under way. -/
structure Partly (sent files : List Bytes) : Prop where
  le : sent.length ≤ files.length
  begun : ∀ k, sent.getD k [] <+: files.getD k []
  whole : ∀ k, k + 1 < sent.length → sent.getD k [] = files.getD k []

theorem Partly.append {sent files : List Bytes} (h : Partly sent files) (more : List Bytes) : Partly sent (files ++ more) := by
  have hget : ∀ k, k < sent.length → (files ++ more).getD k [] = files.getD k [] := by
    intro k hk
    rw [List.getD_eq_getElem?_getD, List.getD_eq_getElem?_getD, List.getElem?_append_left (Nat.lt_of_lt_of_le hk h.le)]
  refine ⟨?_, ?_, ?_⟩
  · rw [List.length_append]
    exact Nat.le_trans h.le (Nat.le_add_right _ _)
  · intro k
    obtain hk | hk := Nat.lt_or_ge k sent.length
    · rw [hget k hk]
      exact h.begun k
    · rw [List.getD_eq_default _ _ hk]
      exact List.nil_prefix
  · intro k hk
    rw [hget k (Nat.lt_of_succ_lt hk)]
    exact h.whole k hk

theorem partly_self (files more : List Bytes) : Partly files (files ++ more) := by
  have hself : Partly files files := ⟨Nat.le_refl _, fun k => List.prefix_rfl, fun _ _ => rfl⟩
  exact hself.append more

theorem partly_last {files : List Bytes} {d e : Bytes} (h : d <+: e) (more : List Bytes) :
    Partly (files ++ [d]) (files ++ [e] ++ more) := by
  have hlast : Partly (files ++ [d]) (files ++ [e]) := by
    refine ⟨?_, ?_, ?_⟩
    · rw [List.length_append, List.length_append]
      exact Nat.le_refl _
    · intro k
      obtain hk | rfl | hk := Nat.lt_trichotomy k files.length
      · have hsame : (files ++ [d]).getD k [] = (files ++ [e]).getD k [] := by
          rw [List.getD_append _ _ _ _ hk, List.getD_append _ _ _ _ hk]
        exact hsame ▸ List.prefix_rfl
      · rw [List.getD_append_right _ _ _ _ (Nat.le_refl _), List.getD_append_right _ _ _ _ (Nat.le_refl _), Nat.sub_self]
        exact h
      · rw [List.getD_eq_default _ _ (by rw [List.length_append]; exact hk)]
        exact List.nil_prefix
    · intro k hk
      rw [List.length_append] at hk
      have hlt : k < files.length := Nat.lt_of_succ_lt_succ hk
      rw [List.getD_append _ _ _ _ hlt, List.getD_append _ _ _ _ hlt]
  exact hlast.append more

end Pieces

section Files

variable {bufSize sockSize : Nat} {f : SendFile} {o : Outcome}

/-- Nothing is left in a buffer where the loops do not look for it. -/
structure SendFile.Ok (f : SendFile) : Prop where
  filling : f.place = .fill → f.writeBuf = []
  readDone : f.readDone = true → f.rest = []

theorem SendFile.begin_ok (stream : Bytes) : (begin stream).Ok := ⟨fun _ => rfl, fun h => nomatch h⟩

theorem SendFile.sent_stream (f : SendFile) : f.sent <+: f.stream := by
  rw [stream, List.append_assoc, List.append_assoc]
  exact List.prefix_append _ _

theorem SendFile.read_sent {room n : Nat} {g : SendFile} (h : f.read room n = some g) : g.sent = f.sent := by
  rw [read] at h
  split at h
  next => exact Option.some.inj h ▸ rfl
  next => cases h

/-- A read moves a part of what the stream has. -/
theorem SendFile.read_spec {room n : Nat} {g : SendFile} (hf : f.Ok) (h : f.read room n = some g) :
    g.writeBuf = f.writeBuf ∧ g.stream = f.stream ∧ g.Ok := by
  rw [read] at h
  split at h
  next hn =>
    obtain rfl := Option.some.inj h
    refine ⟨rfl, ?_, hf.filling, ?_⟩
    · rw [stream, stream, List.append_assoc, List.append_assoc _ _ f.rest, List.append_assoc f.readBuf,
        List.take_append_drop]
    · intro hdone
      have hzero : n = 0 := of_decide_eq_true hdone
      change f.rest.drop n = []
      rw [hn.2 hzero]
      exact List.drop_nil
  next => cases h

/-- What may come of a step: the file goes on, or all of it has gone out. -/
def SendFile.Leads (f : SendFile) : Option SendFile → Prop
  | some g => g.Ok ∧ g.stream = f.stream
  | none => f.sent = f.stream

theorem SendFile.swap_spec {g : SendFile} (hg : g.Ok) (hwrite : g.writeBuf = []) : g.Leads g.swap := by
  rw [swap]
  split
  next hend =>
    rw [Leads, stream, hwrite, hend.2, hg.readDone hend.1, List.append_nil, List.append_nil, List.append_nil]
  next =>
    refine ⟨⟨fun h => (nomatch h), hg.readDone⟩, ?_⟩
    rw [stream, stream, hwrite, List.append_nil, List.append_nil]

/-- A step keeps what the stream had; the last one is taken when all of it has gone out. -/
theorem SendFile.step_spec (hf : f.Ok) {r : Option SendFile} (h : f.step bufSize sockSize o = some r) : f.Leads r := by
  unfold step at h
  split at h
  next n hplace =>
    split at h
    next =>
      obtain ⟨g, hg, rfl⟩ := Option.map_eq_some_iff.mp h
      obtain ⟨hwrite, hstream, hok⟩ := read_spec hf hg
      have hleads := swap_spec hok (hwrite.trans (hf.filling hplace))
      cases hswap : g.swap with
      | some g' =>
        rw [hswap] at hleads
        exact ⟨hleads.1, hleads.2.trans hstream⟩
      | none =>
        rw [hswap] at hleads
        exact (read_sent hg).symm.trans (Eq.trans hleads hstream)
    next => cases h
  next hplace =>
    split at h
    next => cases h
    next =>
      obtain rfl := Option.some.inj h
      exact swap_spec hf (hf.filling hplace)
  next =>
    split at h
    next hnil =>
      obtain rfl := Option.some.inj h
      exact ⟨⟨fun _ => hnil, hf.readDone⟩, rfl⟩
    next => cases h
  next writeSize n hplace =>
    split at h
    next =>
      obtain rfl := Option.some.inj h
      refine ⟨⟨fun h => ?_, hf.readDone⟩, ?_⟩
      · change f.place = .fill at h
        rw [hplace] at h
        cases h
      · rw [stream, stream, List.append_assoc f.sent, List.take_append_drop]
    next => cases h
  next =>
    split at h
    next =>
      obtain rfl := Option.some.inj h
      exact ⟨⟨fun h => (nomatch h), hf.readDone⟩, rfl⟩
    next => cases h
  next =>
    split at h
    next =>
      obtain ⟨g, hg, rfl⟩ := Option.map_eq_some_iff.mp h
      obtain ⟨-, hstream, hok⟩ := read_spec hf hg
      exact ⟨⟨fun h => (nomatch h), hok.readDone⟩, hstream⟩
    next => cases h
  next =>
    split at h
    next => cases h
    next =>
      obtain rfl := Option.some.inj h
      exact ⟨⟨fun h => (nomatch h), hf.readDone⟩, rfl⟩
  next => cases h

/-- Reading ahead sends nothing. -/
theorem SendFile.step_ahead (hplace : f.place = .ahead) {r : Option SendFile}
    (h : f.step bufSize sockSize o = some r) : ∃ g, r = some g ∧ g.sent = f.sent := by
  unfold step at h
  rw [hplace] at h
  split at h
  all_goals try contradiction
  next =>
    split at h
    next =>
      obtain ⟨g, hg, rfl⟩ := Option.map_eq_some_iff.mp h
      exact ⟨_, rfl, (read_sent hg :)⟩
    next => cases h
  next =>
    split at h
    next => cases h
    next =>
      obtain rfl := Option.some.inj h
      exact ⟨_, rfl, rfl⟩

end Files

section Tasks

/-- The files that are to be sent. -/
def queued (tasks : List Tasks) : List Bytes := tasks.filterMap fun t => match t with
  | .SEND_FILE d => some d
  | _ => none

/-- What was handed over before a file has gone out when the file is begun, `out` and what waits in `writeBuf` included. -/
def Ahead (given : List Piece) (out : Bytes) : Nat → List Tasks → Prop
  | _, [] => True
  | k, t :: tasks => match t with
    | .SEND_DATA => True
    | .SEND_FILE _ => before k given <+: out ∧ Ahead given out (k + 1) tasks
    | _ => Ahead given out k tasks

/-- Nothing is to be sent by a task before the one that connects. -/
def Waits (sock : Bool) : List Tasks → Prop
  | [] => sock = false
  | t :: tasks => match t with
    | .CONNECT => sock = true
    | .ACCEPTED => sock = true
    | .SEND_DATA => False
    | .SEND_FILE _ => False
    | _ => Waits sock tasks

variable {given : List Piece} {out : Bytes} {k : Nat} {tasks : List Tasks} {t : Tasks}

theorem queued_append (tasks : List Tasks) (t : Tasks) : queued (tasks ++ [t]) = queued tasks ++ queued [t] :=
  List.filterMap_append

theorem Ahead.add (h : Ahead given out k tasks)
    (ht : ∀ d, t = .SEND_FILE d → .SEND_DATA ∉ tasks → before (k + (queued tasks).length) given <+: out) :
    Ahead given out k (tasks ++ [t]) := by
  induction tasks generalizing k with
  | nil =>
    cases t with
    | SEND_FILE d => exact ⟨ht d rfl List.not_mem_nil, trivial⟩
    | _ => trivial
  | cons u tasks ih =>
    cases u with
    | SEND_DATA => trivial
    | SEND_FILE e =>
      refine ⟨h.1, ih h.2 fun d hd hnot => ?_⟩
      have hk := ht d hd fun hmem => hnot ((List.mem_cons.mp hmem).resolve_left fun h => nomatch h)
      change before (k + ((queued tasks).length + 1)) given <+: out at hk
      rwa [Nat.add_right_comm]
    | _ => exact ih h fun d hd hnot => ht d hd fun hmem => hnot ((List.mem_cons.mp hmem).resolve_left fun h => nomatch h)

theorem Ahead.more (h : Ahead given out k tasks) (hk : k + (queued tasks).length ≤ (filesOf given).length)
    (m : List Piece) : Ahead (given ++ m) out k tasks := by
  induction tasks generalizing k with
  | nil => trivial
  | cons u tasks ih =>
    cases u with
    | SEND_DATA => trivial
    | SEND_FILE e =>
      change k + ((queued tasks).length + 1) ≤ _ at hk
      refine ⟨?_, ih h.2 (by omega)⟩
      rw [before_append_left (by omega)]
      exact h.1
    | _ => exact ih h hk

theorem ahead_all (h : ∀ k, before k given <+: out) : Ahead given out k tasks := by
  induction tasks generalizing k with
  | nil => trivial
  | cons u tasks ih =>
    cases u with
    | SEND_DATA => trivial
    | SEND_FILE e => exact ⟨h k, ih⟩
    | _ => exact ih

theorem Waits.add (h : Waits true tasks) : Waits true (tasks ++ [t]) := by
  induction tasks with
  | nil => cases h
  | cons u tasks ih =>
    cases u with
    | CONNECT => rfl
    | ACCEPTED => rfl
    | SEND_DATA => exact h
    | SEND_FILE d => exact h
    | _ => exact ih h

theorem Waits.add_of_not {sock : Bool} (h : Waits false tasks) (ht : Waits sock [t]) : Waits sock (tasks ++ [t]) := by
  induction tasks with
  | nil => exact ht
  | cons u tasks ih =>
    cases u with
    | CONNECT => cases h
    | ACCEPTED => cases h
    | SEND_DATA => exact h
    | SEND_FILE d => exact h
    | _ => exact ih h

end Tasks

section Delivery

variable {bufSize sockSize : Nat} {given : List Piece} {s t : Sender} {e : Event}

/-- All that has gone out. -/
def out (s : Sender) : List Piece := s.wire ++ going s

/-- The files that have been begun. -/
def begun (s : Sender) : List Bytes := filesOf s.wire ++ match s.worker with
  | .file f => [f.stream]
  | _ => []

/-- What goes out is what was handed over: the data in order, the files in order, and a file behind the data before it. -/
structure Sound (given out : List Piece) : Prop where
  data : dataOf out <+: dataOf given
  files : Partly (filesOf out) (filesOf given)
  order : ∀ k < (filesOf out).length, before k given <+: before k out

/-- The thread may be at its end, or there is no sending any more. -/
def Over (s : Sender) : Prop := s.disconnecting = true ∨ (s.state = .FAILED ∧ s.worker = .idle) ∨ s.worker = .ended

/-- What is in `sendBuf` while the thread is at something. -/
def Busy (sendBuf : Bytes) : Worker → Prop
  | .idle => sendBuf = []
  | .data done => done ≤ sendBuf.length
  | .file f => f.Ok ∧ sendBuf = []
  | .ended => False

/-- Nothing that was handed over is lost, and nothing is out of order. -/
structure Live (given : List Piece) (s : Sender) : Prop where
  able : s.state ≠ .FAILED
  staying : s.disconnecting = false
  busy : Busy s.sendBuf s.worker
  data : dataOf s.wire ++ s.sendBuf ++ s.writeBuf = dataOf given
  pending : s.writeBuf ≠ [] → .SEND_DATA ∈ s.tasks
  files : begun s ++ queued s.tasks = filesOf given
  order : ∀ k < (begun s).length, before k given <+: before k s.wire
  ahead : Ahead given (dataOf s.wire ++ s.sendBuf) (begun s).length s.tasks
  starting : s.state = .STARTING → s.worker = .idle ∧ Waits s.sock s.tasks
  connected : s.state = .RUNNING → s.sock = true

theorem Sound.more (h : Sound given (out s)) (m : List Piece) : Sound (given ++ m) (out s) := by
  refine ⟨?_, ?_, fun k hk => ?_⟩
  · rw [dataOf_append]
    exact h.data.trans (List.prefix_append _ _)
  · rw [filesOf_append]
    exact h.files.append _
  · rw [before_append_left (Nat.lt_of_lt_of_le hk h.files.le)]
    exact h.order k hk

theorem Sound.append_nil {l : List Piece} (h : Sound given l) : Sound given (l ++ [.data []]) := by
  have hdata : dataOf (l ++ [.data []]) = dataOf l := by
    rw [dataOf_append]
    exact List.append_nil _
  have hfiles : filesOf (l ++ [.data []]) = filesOf l := by
    rw [filesOf_append]
    exact List.append_nil _
  refine ⟨hdata ▸ h.data, hfiles ▸ h.files, fun k hk => ?_⟩
  rw [hfiles] at hk
  exact (h.order k hk).trans (before_mono _ _ _)

theorem Live.sound (h : Live given s) : Sound given (out s) := by
  have hpart : dataOf s.wire ++ s.sendBuf <+: dataOf given := ⟨s.writeBuf, h.data⟩
  obtain ⟨-, -, hbusy, -, -, hfiles, horder, -, -, -⟩ := h
  rw [begun] at hfiles horder
  cases hw : s.worker with
  | idle =>
    rw [hw, List.append_nil] at hfiles horder
    have hout : out s = s.wire := by rw [out, going, hw, List.append_nil]
    rw [hout]
    exact ⟨(List.prefix_append _ _).trans hpart, hfiles ▸ partly_self _ _, horder⟩
  | data done =>
    rw [hw, List.append_nil] at hfiles horder
    have hout : out s = s.wire ++ [.data (s.sendBuf.take done)] := by rw [out, going, hw]
    have hdata : dataOf (out s) = dataOf s.wire ++ s.sendBuf.take done := by
      rw [hout, dataOf_append]
      exact congrArg (dataOf s.wire ++ ·) (List.append_nil _)
    have hfilesOf : filesOf (out s) = filesOf s.wire := by
      rw [hout, filesOf_append]
      exact List.append_nil _
    refine ⟨?_, ?_, fun k hk => ?_⟩
    · rw [hdata]
      exact ((List.prefix_append_right_inj _).mpr (List.take_prefix _ _)).trans hpart
    · rw [hfilesOf, ← hfiles]
      exact partly_self _ _
    · rw [hfilesOf] at hk
      exact (horder k hk).trans (before_mono _ _ _)
  | file f =>
    rw [hw] at hfiles horder
    have hout : out s = s.wire ++ [.file f.sent] := by rw [out, going, hw]
    have hdata : dataOf (out s) = dataOf s.wire := by
      rw [hout, dataOf_append]
      exact List.append_nil _
    have hfilesOf : filesOf (out s) = filesOf s.wire ++ [f.sent] := by
      rw [hout, filesOf_append]
      rfl
    refine ⟨?_, ?_, fun k hk => ?_⟩
    · rw [hdata]
      exact (List.prefix_append _ _).trans hpart
    · rw [hfilesOf, ← hfiles]
      exact partly_last f.sent_stream _
    · rw [hfilesOf, List.length_append] at hk
      exact (horder k (by rwa [List.length_append])).trans (before_mono _ _ _)
  | ended =>
    rw [hw] at hbusy
    exact hbusy.elim

theorem out_leave (s : Sender) : out (leave s) = out s := List.append_nil _

theorem out_fail (s : Sender) : out (fail s) = out s := List.append_nil _

theorem over_fail (s : Sender) : Over (fail s) := Or.inr (Or.inl ⟨rfl, rfl⟩)

/-- A socket that is over stays so, and nothing goes out of it. -/
theorem over_checkEvents (hover : Over s) (hidle : s.worker = .idle) (connects : Bool) (t : Tasks) :
    Over (checkEvents s connects t) ∧
      (out (checkEvents s connects t) = out s ∨ out (checkEvents s connects t) = out s ++ [.data []]) := by
  have hgoing : going s = [] := by rw [going, hidle]
  have hon {state : State} (hstate : s.state = state) (hne : state ≠ .FAILED) : s.disconnecting = true := by
    obtain h | h | h := hover
    · exact h
    · exact absurd (hstate.symm.trans h.1) hne
    · rw [hidle] at h
      cases h
  unfold checkEvents
  split
  next =>
    refine ⟨Or.inr (Or.inr rfl), Or.inl ?_⟩
    rw [out, out, hgoing]
    rfl
  next => exact ⟨hover, Or.inl rfl⟩
  next =>
    split
    next =>
      split
      · exact ⟨Or.inl (hon ‹s.state = .STARTING› (fun h => nomatch h)), Or.inl rfl⟩
      · exact ⟨over_fail s, Or.inl (out_fail s)⟩
    next =>
      split
      · exact ⟨Or.inl (hon ‹s.state = .STARTING› (fun h => nomatch h)), Or.inl rfl⟩
      · exact ⟨over_fail s, Or.inl (out_fail s)⟩
    next =>
      rw [threadSendData]
      split
      · exact ⟨hover, Or.inl rfl⟩
      · refine ⟨Or.inl (hon ‹s.state = .RUNNING› (fun h => nomatch h)), Or.inr ?_⟩
        rw [out, out, hgoing, List.append_nil]
        rfl
    next =>
      rw [threadSendFile, if_pos (hon ‹s.state = .RUNNING› (fun h => nomatch h))]
      exact ⟨hover, Or.inl rfl⟩
    next => exact ⟨over_fail s, Or.inl (out_fail s)⟩
    next => exact ⟨hover, Or.inl rfl⟩

/-- Whatever happens then, at most an empty piece is added to what has gone out. -/
theorem over_step (hover : Over s) (h : step bufSize sockSize s e = some t) :
    Over t ∧ (out t = out s ∨ out t = out s ++ [.data []]) := by
  cases e with
  | connect =>
    rw [step] at h
    split at h
    next => cases h
    next => exact Option.some.inj h ▸ ⟨hover, Or.inl rfl⟩
  | accept =>
    rw [step] at h
    split at h
    next => cases h
    next => exact Option.some.inj h ▸ ⟨hover, Or.inl rfl⟩
  | write d =>
    obtain rfl := Option.some.inj h
    rw [write]
    split
    next => split <;> exact ⟨hover, Or.inl rfl⟩
    next => exact ⟨hover, Or.inl rfl⟩
  | transmitFile d =>
    rw [step] at h
    split at h
    next => exact Option.some.inj h ▸ ⟨hover, Or.inl rfl⟩
    next => cases h
  | disconnect graceless =>
    obtain rfl := Option.some.inj h
    refine ⟨?_, Or.inl rfl⟩
    obtain hdisconnecting | hover := hover
    · refine Or.inl ?_
      change (s.disconnecting || graceless) = true
      rw [hdisconnecting, Bool.true_or]
    · exact Or.inr hover
  | shutdown => exact Option.some.inj h ▸ ⟨Or.inl rfl, Or.inl rfl⟩
  | callAsync =>
    rw [step] at h
    split at h
    next => exact Option.some.inj h ▸ ⟨hover, Or.inl rfl⟩
    next => cases h
  | task connects =>
    rw [step] at h
    split at h
    next u tasks hidle _ =>
      obtain rfl := Option.some.inj h
      exact @over_checkEvents { s with tasks } hover hidle connects u
    next => cases h
  | sent n =>
    rw [step] at h
    split at h
    next done hdata =>
      have hdisconnecting : s.disconnecting = true := by
        refine hover.resolve_right fun h => ?_
        rw [hdata] at h
        exact h.elim (fun h => nomatch h.2) fun h => nomatch h
      rw [sendData, if_pos hdisconnecting] at h
      obtain rfl := Option.some.inj h
      exact ⟨Or.inl hdisconnecting, Or.inl (out_leave s)⟩
    next => cases h
  | file o =>
    rw [step] at h
    split at h
    next f hfile =>
      have hdisconnecting : s.disconnecting = true := by
        refine hover.resolve_right fun h => ?_
        rw [hfile] at h
        exact h.elim (fun h => nomatch h.2) fun h => nomatch h
      rw [sendFile] at h
      split at h
      next =>
        obtain rfl := Option.some.inj h
        exact ⟨Or.inl hdisconnecting, Or.inl (out_leave s)⟩
      next hahead =>
        have hplace : f.place = .ahead := by
          by_contra hne
          exact hahead ⟨hdisconnecting, fun h => hne h.1⟩
        obtain ⟨r, hr, rfl⟩ := Option.map_eq_some_iff.mp h
        obtain ⟨g, rfl, hsent⟩ := SendFile.step_ahead hplace hr
        refine ⟨Or.inl hdisconnecting, Or.inl ?_⟩
        rw [out, out, going, going, hfile]
        change s.wire ++ [.file g.sent] = s.wire ++ [.file f.sent]
        rw [hsent]
    next => cases h
  | fails =>
    rw [step] at h
    split at h
    next =>
      obtain rfl := Option.some.inj h
      exact ⟨over_fail s, Or.inl (out_fail s)⟩
    next => cases h

theorem Live.add (h : Live given s) {u : Tasks} {sock : Bool} (hfile : ∀ d, u ≠ .SEND_FILE d)
    (hwaits : s.state = .STARTING → Waits sock (s.tasks ++ [u])) (hsock : s.sock = true → sock = true) :
    Live given (addTask { s with sock } u) := by
  have hqueued : queued (s.tasks ++ [u]) = queued s.tasks := by
    rw [queued_append]
    cases u with
    | SEND_FILE d => exact absurd rfl (hfile d)
    | _ => exact List.append_nil _
  refine ⟨h.able, h.staying, h.busy, h.data, fun hne => List.mem_append_left _ (h.pending hne), ?_, h.order, ?_, ?_, ?_⟩
  · change begun s ++ queued (s.tasks ++ [u]) = _
    rw [hqueued]
    exact h.files
  · exact h.ahead.add fun d hd => absurd hd (hfile d)
  · exact fun hstate => ⟨(h.starting hstate).1, hwaits hstate⟩
  · exact fun hstate => hsock (h.connected hstate)

/-- A task that sends nothing. -/
theorem Live.addTask (h : Live given s) {u : Tasks} (hfile : ∀ d, u ≠ .SEND_FILE d) (hwaits : Waits false [u]) :
    Live given (addTask s u) := by
  refine h.add hfile (fun hstate => ?_) id
  have hold := (h.starting hstate).2
  cases hsock : s.sock with
  | false =>
    rw [hsock] at hold
    exact hold.add_of_not hwaits
  | true =>
    rw [hsock] at hold
    exact hold.add

/-- A task that connects. -/
theorem Live.connect (h : Live given s) {u : Tasks} (hsock : s.sock = false) (hfile : ∀ d, u ≠ .SEND_FILE d)
    (hwaits : Waits true [u]) : Live given (SocketSending.addTask { s with sock := true } u) := by
  refine h.add hfile (fun hstate => ?_) fun _ => rfl
  have hold := (h.starting hstate).2
  rw [hsock] at hold
  exact hold.add_of_not hwaits

theorem Live.begun_le (h : Live given s) : (begun s).length + (queued s.tasks).length ≤ (filesOf given).length := by
  have hlength := congrArg List.length h.files
  rw [List.length_append] at hlength
  exact Nat.le_of_eq hlength

theorem Live.write (h : Live given s) (hsock : s.sock = true) (d : Bytes) : Live (given ++ [.data d]) (write s d) := by
  have hfill {r : Sender} (h : Live given r) (hmem : .SEND_DATA ∈ r.tasks) :
      Live (given ++ [.data d]) { r with writeBuf := r.writeBuf ++ d } := by
    refine ⟨h.able, h.staying, h.busy, ?_, fun _ => hmem, ?_, fun k hk => ?_, h.ahead.more h.begun_le _, h.starting,
      h.connected⟩
    · change dataOf r.wire ++ r.sendBuf ++ (r.writeBuf ++ d) = _
      rw [← List.append_assoc, h.data, dataOf_append]
      exact congrArg (dataOf given ++ ·) (List.append_nil d).symm
    · rw [filesOf_append]
      exact h.files.trans (List.append_nil _).symm
    · rw [before_append_left (Nat.lt_of_lt_of_le hk (Nat.le_trans (Nat.le_add_right _ _) h.begun_le))]
      exact h.order k hk
  rw [SocketSending.write, if_pos hsock]
  dsimp only
  split
  next =>
    have hadd := @Live.add given s h .SEND_DATA s.sock (fun d h => nomatch h) (fun hstate => ?_) id
    · exact hfill hadd (List.mem_append_right _ (List.mem_singleton_self _))
    · have hold := (h.starting hstate).2
      rw [hsock] at hold ⊢
      exact hold.add
  next hne => exact hfill h (h.pending hne)

theorem Live.transmitFile (h : Live given s) (hsock : s.sock = true) (d : Bytes) :
    Live (given ++ [.file d]) (SocketSending.addTask s (.SEND_FILE d)) := by
  have hdata : dataOf (given ++ [.file d]) = dataOf given := by
    rw [dataOf_append]
    exact List.append_nil _
  refine ⟨h.able, h.staying, h.busy, h.data.trans hdata.symm, fun hne => List.mem_append_left _ (h.pending hne), ?_,
    fun k hk => ?_, ?_, fun hstate => ?_, h.connected⟩
  · change begun s ++ queued (s.tasks ++ [.SEND_FILE d]) = _
    rw [queued_append, ← List.append_assoc, h.files, filesOf_append]
    rfl
  · rw [before_append_left (Nat.lt_of_lt_of_le hk (Nat.le_trans (Nat.le_add_right _ _) h.begun_le))]
    exact h.order k hk
  · refine (h.ahead.more h.begun_le _).add fun e _ hnot => ?_
    -- no data waits for a task, so that all of it has gone out before the file is begun
    have hnil : s.writeBuf = [] := by
      by_contra hne
      exact hnot (h.pending hne)
    have hall := h.data
    rw [hnil, List.append_nil] at hall
    change before _ (given ++ [.file d]) <+: dataOf s.wire ++ s.sendBuf
    rw [hall, ← hdata]
    exact before_dataOf _ _
  · refine ⟨(h.starting hstate).1, ?_⟩
    have hold := (h.starting hstate).2
    change Waits s.sock (s.tasks ++ [.SEND_FILE d])
    rw [hsock] at hold ⊢
    exact hold.add

/-- A task that does nothing is taken. -/
theorem Live.pop (h : Live given s) {u : Tasks} {tasks : List Tasks} (htasks : s.tasks = u :: tasks)
    (hdata : u ≠ .SEND_DATA) (hfile : ∀ d, u ≠ .SEND_FILE d) (hwaits : s.state = .STARTING → Waits s.sock tasks) :
    Live given { s with tasks } := by
  have hqueued : queued s.tasks = queued tasks := by
    rw [htasks]
    cases u with
    | SEND_FILE d => exact absurd rfl (hfile d)
    | _ => rfl
  refine ⟨h.able, h.staying, h.busy, h.data, fun hne => ?_, ?_, h.order, ?_, ?_, h.connected⟩
  · have hmem := h.pending hne
    rw [htasks] at hmem
    exact (List.mem_cons.mp hmem).resolve_left (Ne.symm hdata)
  · exact (congrArg (begun s ++ ·) hqueued).symm.trans h.files
  · have hahead := h.ahead
    rw [htasks] at hahead
    cases u with
    | SEND_DATA => exact absurd rfl hdata
    | SEND_FILE d => exact absurd rfl (hfile d)
    | _ => exact hahead
  · exact fun hstate => ⟨(h.starting hstate).1, hwaits hstate⟩

/-- The task that connects is taken. -/
theorem Live.connects (h : Live given s) {u : Tasks} {tasks : List Tasks} (htasks : s.tasks = u :: tasks)
    (hdata : u ≠ .SEND_DATA) (hfile : ∀ d, u ≠ .SEND_FILE d) (hsock : s.sock = true) :
    Live given { s with tasks, state := .RUNNING } := by
  have hrunning : Live given { s with state := .RUNNING } :=
    ⟨fun h => (nomatch h), h.staying, h.busy, h.data, h.pending, h.files, h.order, h.ahead, fun h => (nomatch h),
      fun _ => hsock⟩
  exact hrunning.pop htasks hdata hfile fun h => nomatch h

theorem Live.threadSendData (h : Live given s) (hstate : s.state = .RUNNING) (hidle : s.worker = .idle)
    {tasks : List Tasks} (htasks : s.tasks = .SEND_DATA :: tasks) :
    Live given (SocketSending.threadSendData { s with tasks }) := by
  have hbusy := h.busy
  rw [hidle] at hbusy
  have hsend : s.sendBuf = [] := hbusy
  have hdata := h.data
  have hfiles := h.files
  rw [htasks] at hfiles
  rw [SocketSending.threadSendData]
  split
  next hnil =>
    have hnil : s.writeBuf = [] := hnil
    rw [hnil, List.append_nil] at hdata
    refine ⟨h.able, h.staying, h.busy, h.data, fun hne => absurd hnil hne, hfiles, h.order, ahead_all fun k => ?_,
      fun h => ?_, h.connected⟩
    · change before k given <+: dataOf s.wire ++ s.sendBuf
      rw [hdata]
      exact before_dataOf k given
    · change s.state = .STARTING at h
      rw [hstate] at h
      cases h
  next =>
    have hbegun : begun s = filesOf s.wire := by rw [begun, hidle, List.append_nil]
    rw [hbegun] at hfiles
    have horder := h.order
    rw [hbegun] at horder
    rw [hsend, List.append_nil] at hdata
    refine ⟨h.able, h.staying, Nat.zero_le _, ?_, fun hne => absurd hsend hne, ?_, fun k hk => horder k ?_,
      ahead_all fun k => ?_, fun h => ?_, h.connected⟩
    · change dataOf s.wire ++ s.writeBuf ++ s.sendBuf = _
      rw [hsend, List.append_nil, hdata]
    · exact (congrArg (· ++ queued tasks) (List.append_nil (filesOf s.wire))).trans hfiles
    · change k < (filesOf s.wire ++ []).length at hk
      rwa [List.append_nil] at hk
    · change before k given <+: dataOf s.wire ++ s.writeBuf
      rw [hdata]
      exact before_dataOf k given
    · change s.state = .STARTING at h
      rw [hstate] at h
      cases h

theorem Live.threadSendFile (h : Live given s) (hstate : s.state = .RUNNING) (hidle : s.worker = .idle)
    {tasks : List Tasks} {d : Bytes} (htasks : s.tasks = .SEND_FILE d :: tasks) :
    Live given (SocketSending.threadSendFile { s with tasks } d) := by
  have hbusy := h.busy
  rw [hidle] at hbusy
  have hsend : s.sendBuf = [] := hbusy
  have hbegun : begun s = filesOf s.wire := by rw [begun, hidle, List.append_nil]
  have hstream : (SendFile.begin d).stream = d := rfl
  have hfiles := h.files
  have horder := h.order
  have hahead := h.ahead
  rw [htasks, hbegun] at hfiles hahead
  rw [hbegun] at horder
  rw [SocketSending.threadSendFile, if_neg (by rw [h.staying]; exact Bool.false_ne_true)]
  refine ⟨h.able, h.staying, ⟨SendFile.begin_ok d, hsend⟩, h.data, fun hne => ?_, ?_, fun k hk => ?_, ?_, fun h => ?_,
    h.connected⟩
  · have hmem := h.pending hne
    rw [htasks] at hmem
    exact (List.mem_cons.mp hmem).resolve_left fun h => nomatch h
  · change filesOf s.wire ++ [(SendFile.begin d).stream] ++ queued tasks = _
    rw [hstream, List.append_assoc]
    exact hfiles
  · change k < (filesOf s.wire ++ [(SendFile.begin d).stream]).length at hk
    rw [List.length_append] at hk
    obtain hlt | rfl := Nat.lt_succ_iff_lt_or_eq.mp hk
    · exact horder k hlt
    · have hfirst := hahead.1
      rw [hsend, List.append_nil] at hfirst
      change before _ given <+: before _ s.wire
      rwa [before_of_le (Nat.le_refl _)]
  · change Ahead given (dataOf s.wire ++ s.sendBuf) (filesOf s.wire ++ [(SendFile.begin d).stream]).length tasks
    rw [List.length_append]
    exact hahead.2
  · change s.state = .STARTING at h
    rw [hstate] at h
    cases h

/-- What is left behind when the thread takes a step: it goes on as before, or sends no more. -/
def Kept (given : List Piece) (t : Sender) : Prop := Live given t ∨ (Over t ∧ Sound given (out t))

theorem Live.kept_fail (h : Live given s) (tasks : List Tasks) : Kept given (fail { s with tasks }) := by
  refine Or.inr ⟨over_fail _, ?_⟩
  rw [out_fail]
  exact h.sound

theorem checkEvents_connects (s : Sender) (connects : Bool) {u : Tasks} (hu : u = .CONNECT ∨ u = .ACCEPTED) :
    checkEvents s connects u =
      if s.state = .STARTING then (if connects then { s with state := .RUNNING } else fail s) else s := by
  obtain rfl | rfl := hu
  · cases hstate : s.state <;> simp only [checkEvents, hstate, if_true, if_false, reduceCtorEq]
  · cases hstate : s.state <;> simp only [checkEvents, hstate, if_true, if_false, reduceCtorEq]

theorem Live.checkEvents_connects (h : Live given s) {u : Tasks} (hu : u = .CONNECT ∨ u = .ACCEPTED)
    {tasks : List Tasks} (htasks : s.tasks = u :: tasks) (connects : Bool) :
    Kept given (checkEvents { s with tasks } connects u) := by
  have hdata : u ≠ .SEND_DATA := by
    obtain rfl | rfl := hu <;> exact fun h => nomatch h
  have hfile (d : Bytes) : u ≠ .SEND_FILE d := by
    obtain rfl | rfl := hu <;> exact fun h => nomatch h
  rw [SocketSending.checkEvents_connects _ _ hu]
  split
  next hstate =>
    split
    next =>
      refine Or.inl (h.connects htasks hdata hfile ?_)
      have hwaits := (h.starting hstate).2
      rw [htasks] at hwaits
      obtain rfl | rfl := hu <;> exact hwaits
    next => exact h.kept_fail tasks
  next hstate => exact Or.inl (h.pop htasks hdata hfile fun h => absurd h hstate)

theorem Live.checkEvents (h : Live given s) (hidle : s.worker = .idle) {u : Tasks} {tasks : List Tasks}
    (htasks : s.tasks = u :: tasks) (connects : Bool) :
    Kept given (SocketSending.checkEvents { s with tasks } connects u) := by
  have hwaits (hstate : s.state = .STARTING) : Waits s.sock (u :: tasks) := htasks ▸ (h.starting hstate).2
  cases u with
  | CONNECT => exact h.checkEvents_connects (Or.inl rfl) htasks connects
  | ACCEPTED => exact h.checkEvents_connects (Or.inr rfl) htasks connects
  | SHUTDOWN =>
    refine Or.inr ⟨Or.inr (Or.inr rfl), ?_⟩
    have hsound := h.sound
    rw [out, going, hidle] at hsound
    exact hsound
  | ASYNC_CALL => exact Or.inl (h.pop htasks (fun h => nomatch h) (fun _ h => nomatch h) hwaits)
  | DISCONNECT =>
    have hpop : Kept given { s with tasks } :=
      Or.inl (h.pop htasks (fun h => nomatch h) (fun _ h => nomatch h) hwaits)
    have hfail := h.kept_fail tasks
    cases hstate : s.state with
    | STARTING =>
      rw [hstate] at hpop
      simpa only [SocketSending.checkEvents] using hpop
    | RUNNING =>
      rw [hstate] at hfail
      simpa only [SocketSending.checkEvents] using hfail
    | FAILED => exact absurd hstate h.able
  | SEND_DATA =>
    cases hstate : s.state with
    | STARTING => exact (hwaits hstate).elim
    | RUNNING =>
      have hsend : Kept given (SocketSending.threadSendData { s with tasks }) :=
        Or.inl (h.threadSendData hstate hidle htasks)
      rw [hstate] at hsend
      simpa only [SocketSending.checkEvents] using hsend
    | FAILED => exact absurd hstate h.able
  | SEND_FILE d =>
    cases hstate : s.state with
    | STARTING => exact (hwaits hstate).elim
    | RUNNING =>
      have hsend : Kept given (SocketSending.threadSendFile { s with tasks } d) :=
        Or.inl (h.threadSendFile hstate hidle htasks)
      rw [hstate] at hsend
      simpa only [SocketSending.checkEvents] using hsend
    | FAILED => exact absurd hstate h.able

/-- A piece of data is sent. -/
theorem Live.sendData (h : Live given s) {done n : Nat} (hworker : s.worker = .data done)
    (ht : sendData s done n = some t) : Live given t := by
  have hbegun : begun s = filesOf s.wire := by rw [begun, hworker, List.append_nil]
  have hfiles := h.files
  have horder := h.order
  have hahead := h.ahead
  rw [hbegun] at hfiles horder hahead
  have hstarting (hstate : s.state = .STARTING) : False := by
    have hidle := (h.starting hstate).1
    rw [hworker] at hidle
    cases hidle
  rw [SocketSending.sendData, if_neg (by rw [h.staying]; exact Bool.false_ne_true)] at ht
  split at ht
  next hle =>
    split at ht
    next =>
      obtain rfl := Option.some.inj ht
      have hdata : dataOf (s.wire ++ [.data s.sendBuf]) = dataOf s.wire ++ s.sendBuf := by
        rw [dataOf_append]
        exact congrArg (dataOf s.wire ++ ·) (List.append_nil _)
      have hfilesOf : filesOf (s.wire ++ [.data s.sendBuf]) = filesOf s.wire := by
        rw [filesOf_append]
        exact List.append_nil _
      refine ⟨h.able, h.staying, rfl, ?_, h.pending, ?_, fun k hk => ?_, ?_, fun h => (hstarting h).elim, h.connected⟩
      · change dataOf (s.wire ++ [.data s.sendBuf]) ++ [] ++ s.writeBuf = _
        rw [List.append_nil, hdata]
        exact h.data
      · change filesOf (s.wire ++ [.data s.sendBuf]) ++ [] ++ queued s.tasks = _
        rw [List.append_nil, hfilesOf]
        exact hfiles
      · change k < (filesOf (s.wire ++ [Piece.data s.sendBuf]) ++ []).length at hk
        rw [List.append_nil, hfilesOf] at hk
        exact (horder k hk).trans (before_mono _ _ _)
      · change Ahead given (dataOf (s.wire ++ [.data s.sendBuf]) ++ [])
          (filesOf (s.wire ++ [Piece.data s.sendBuf]) ++ []).length s.tasks
        rw [List.append_nil, List.append_nil, hdata, hfilesOf]
        exact hahead
    next =>
      obtain rfl := Option.some.inj ht
      have hbegun : begun { s with worker := .data (done + n) } = filesOf s.wire := List.append_nil _
      refine ⟨h.able, h.staying, hle, h.data, h.pending, ?_, ?_, ?_, fun h => (hstarting h).elim, h.connected⟩
      · rw [hbegun]
        exact hfiles
      · rw [hbegun]
        exact horder
      · rw [hbegun]
        exact hahead
  next => cases ht

/-- A step of the loops that send a file. -/
theorem Live.sendFile (h : Live given s) {f : SendFile} {o : Outcome} (hworker : s.worker = .file f)
    (ht : sendFile bufSize sockSize s f o = some t) : Live given t := by
  have hbegun : begun s = filesOf s.wire ++ [f.stream] := by rw [begun, hworker]
  have hfiles := h.files
  have horder := h.order
  have hahead := h.ahead
  have hbusy := h.busy
  rw [hbegun] at hfiles horder hahead
  rw [hworker] at hbusy
  have hstarting (hstate : s.state = .STARTING) : False := by
    have hidle := (h.starting hstate).1
    rw [hworker] at hidle
    cases hidle
  rw [SocketSending.sendFile, if_neg fun hend => by rw [h.staying] at hend; exact Bool.false_ne_true hend.1] at ht
  obtain ⟨r, hr, rfl⟩ := Option.map_eq_some_iff.mp ht
  have hleads := SendFile.step_spec hbusy.1 hr
  cases r with
  | some g =>
    have hbegun : begun { s with worker := .file g } = filesOf s.wire ++ [f.stream] := by rw [begun, ← hleads.2]
    refine ⟨h.able, h.staying, ⟨hleads.1, hbusy.2⟩, h.data, h.pending, ?_, ?_, ?_, fun h => (hstarting h).elim, h.connected⟩
    · rw [hbegun]
      exact hfiles
    · rw [hbegun]
      exact horder
    · rw [hbegun]
      exact hahead
  | none =>
    have hsent : f.sent = f.stream := hleads
    have hwire : (leave s).wire = s.wire ++ [.file f.stream] := by rw [leave, going, hworker, ← hsent]
    have hdata : dataOf (leave s).wire = dataOf s.wire := by
      rw [hwire, dataOf_append]
      exact List.append_nil _
    have hbegun : begun (leave s) = filesOf s.wire ++ [f.stream] := by
      rw [begun, hwire, filesOf_append]
      exact List.append_nil _
    refine ⟨h.able, h.staying, hbusy.2, ?_, h.pending, ?_, fun k hk => ?_, ?_, fun h => (hstarting h).elim, h.connected⟩
    · rw [hdata]
      exact h.data
    · rw [hbegun]
      exact hfiles
    · rw [hbegun] at hk
      rw [hwire]
      exact (horder k hk).trans (before_mono _ _ _)
    · rw [hdata, hbegun]
      exact hahead

theorem Kept.sound (h : Kept given s) : Sound given (out s) := h.elim Live.sound And.right

/-- What is handed over by an event; without a socket, what is written is lost. -/
def hand (r : Bool × List Piece) : Event → Bool × List Piece
  | .connect => (true, r.2)
  | .accept => (true, r.2)
  | .write d => if r.1 then (r.1, r.2 ++ [.data d]) else r
  | .transmitFile d => (r.1, r.2 ++ [.file d])
  | _ => r

theorem checkEvents_sock (s : Sender) (connects : Bool) (u : Tasks) : (checkEvents s connects u).sock = s.sock := by
  unfold checkEvents
  split
  next => rfl
  next => rfl
  next =>
    split
    next => split <;> rfl
    next => split <;> rfl
    next =>
      rw [threadSendData]
      split <;> rfl
    next =>
      rw [threadSendFile]
      split <;> rfl
    next => rfl
    next => rfl

theorem step_sock (h : step bufSize sockSize s e = some t) : t.sock = (hand (s.sock, given) e).1 := by
  cases e with
  | connect =>
    rw [step] at h
    split at h
    next => cases h
    next => exact Option.some.inj h ▸ rfl
  | accept =>
    rw [step] at h
    split at h
    next => cases h
    next => exact Option.some.inj h ▸ rfl
  | write d =>
    obtain rfl := Option.some.inj h
    rw [hand, write]
    dsimp only
    split
    next => split <;> rfl
    next => rfl
  | transmitFile d =>
    rw [step] at h
    split at h
    next => exact Option.some.inj h ▸ rfl
    next => cases h
  | disconnect graceless => exact Option.some.inj h ▸ rfl
  | shutdown => exact Option.some.inj h ▸ rfl
  | callAsync =>
    rw [step] at h
    split at h
    next => exact Option.some.inj h ▸ rfl
    next => cases h
  | task connects =>
    rw [step] at h
    split at h
    next => exact Option.some.inj h ▸ checkEvents_sock _ _ _
    next => cases h
  | sent n =>
    rw [step] at h
    split at h
    next =>
      rw [sendData] at h
      split at h
      next => exact Option.some.inj h ▸ rfl
      next =>
        split at h
        next => split at h <;> exact Option.some.inj h ▸ rfl
        next => cases h
    next => cases h
  | file o =>
    rw [step] at h
    split at h
    next =>
      rw [sendFile] at h
      split at h
      next => exact Option.some.inj h ▸ rfl
      next =>
        obtain ⟨r, -, rfl⟩ := Option.map_eq_some_iff.mp h
        cases r <;> rfl
    next => cases h
  | fails =>
    rw [step] at h
    split at h
    next => exact Option.some.inj h ▸ rfl
    next => cases h

theorem live_step (hlive : Live given s) (h : step bufSize sockSize s e = some t) :
    Kept (hand (s.sock, given) e).2 t := by
  cases e with
  | connect =>
    rw [step] at h
    split at h
    next => cases h
    next hsock =>
      obtain rfl := Option.some.inj h
      exact Or.inl (hlive.connect (Bool.eq_false_iff.mpr hsock) (fun _ h => nomatch h) rfl)
  | accept =>
    rw [step] at h
    split at h
    next => cases h
    next hsock =>
      obtain rfl := Option.some.inj h
      exact Or.inl (hlive.connect (Bool.eq_false_iff.mpr hsock) (fun _ h => nomatch h) rfl)
  | write d =>
    obtain rfl := Option.some.inj h
    rw [hand]
    dsimp only
    split
    next hsock => exact Or.inl (hlive.write hsock d)
    next hsock =>
      rw [write, if_neg hsock]
      exact Or.inl hlive
  | transmitFile d =>
    rw [step] at h
    split at h
    next hsock =>
      obtain rfl := Option.some.inj h
      exact Or.inl (hlive.transmitFile hsock d)
    next => cases h
  | disconnect graceless =>
    obtain rfl := Option.some.inj h
    cases graceless with
    | true => exact Or.inr ⟨Or.inl (Bool.or_true _), hlive.sound⟩
    | false =>
      rw [Bool.or_false]
      exact Or.inl (hlive.addTask (fun _ h => nomatch h) rfl)
  | shutdown =>
    obtain rfl := Option.some.inj h
    exact Or.inr ⟨Or.inl rfl, hlive.sound⟩
  | callAsync =>
    rw [step] at h
    split at h
    next =>
      obtain rfl := Option.some.inj h
      exact Or.inl (hlive.addTask (fun _ h => nomatch h) rfl)
    next => cases h
  | task connects =>
    rw [step] at h
    split at h
    next hidle htasks =>
      obtain rfl := Option.some.inj h
      exact hlive.checkEvents hidle htasks connects
    next => cases h
  | sent n =>
    rw [step] at h
    split at h
    next hworker => exact Or.inl (hlive.sendData hworker h)
    next => cases h
  | file o =>
    rw [step] at h
    split at h
    next hworker => exact Or.inl (hlive.sendFile hworker h)
    next => cases h
  | fails =>
    rw [step] at h
    split at h
    next =>
      obtain rfl := Option.some.inj h
      exact hlive.kept_fail s.tasks
    next => cases h

/-- Nothing that is handed over changes what has been. -/
theorem hand_append (r : Bool × List Piece) (e : Event) : ∃ m, (hand r e).2 = r.2 ++ m := by
  cases e with
  | write d =>
    rw [hand]
    split
    · exact ⟨_, rfl⟩
    · exact ⟨[], (List.append_nil _).symm⟩
  | transmitFile d => exact ⟨_, rfl⟩
  | _ => exact ⟨[], (List.append_nil _).symm⟩

theorem kept_step (hkept : Kept given s) (h : step bufSize sockSize s e = some t) :
    Kept (hand (s.sock, given) e).2 t := by
  obtain hlive | ⟨hover, hsound⟩ := hkept
  · exact live_step hlive h
  · obtain ⟨hover, hout⟩ := over_step hover h
    obtain ⟨m, hm⟩ := hand_append (s.sock, given) e
    have hmore := hsound.more m
    rw [hm]
    refine Or.inr ⟨hover, ?_⟩
    obtain hout | hout := hout
    · rwa [hout]
    · rw [hout]
      exact hmore.append_nil

/-- What is handed over in a run. -/
def handed (events : List Event) : Bool × List Piece := events.foldl hand (false, [])

theorem live_start : Live [] start :=
  ⟨fun h => (nomatch h), rfl, rfl, rfl, fun h => absurd rfl h, rfl, fun _ h => absurd h (Nat.not_lt_zero _), trivial,
    fun _ => ⟨rfl, rfl⟩, fun h => nomatch h⟩

theorem run_kept {events : List Event} (h : Runs.run (step bufSize sockSize) start events = some s) :
    (handed events).1 = s.sock ∧ Kept (handed events).2 s := by
  induction events using List.reverseRecOn generalizing s with
  | nil =>
    obtain rfl := Option.some.inj h
    exact ⟨rfl, Or.inl live_start⟩
  | append_singleton events e ih =>
    rw [Runs.run_append, Option.bind_eq_some_iff] at h
    obtain ⟨r, hr, ht⟩ := h
    rw [Runs.run_singleton] at ht
    obtain ⟨hsock, hkept⟩ := ih hr
    have hhanded : handed (events ++ [e]) = hand (r.sock, (handed events).2) e := by
      rw [handed, List.foldl_append, ← hsock]
      rfl
    rw [hhanded]
    exact ⟨(step_sock ht).symm, kept_step hkept ht⟩

/-- Whatever the order of the steps, what has gone out is what was handed over as far as it goes, and it is all of it when
a socket that still sends has nothing to do. -/
theorem run_delivers {events : List Event} (h : Runs.run (step bufSize sockSize) start events = some s) :
    Sound (handed events).2 (out s) ∧
      (s.state = .RUNNING → s.disconnecting = false → s.worker = .idle → s.tasks = [] →
        dataOf (out s) = dataOf (handed events).2 ∧ filesOf (out s) = filesOf (handed events).2) := by
  have hkept := (run_kept h).2
  refine ⟨hkept.sound, fun hstate hstaying hidle htasks => ?_⟩
  obtain hlive | ⟨hover, -⟩ := hkept
  · have hout : out s = s.wire := by rw [out, going, hidle, List.append_nil]
    have hbusy := hlive.busy
    rw [hidle] at hbusy
    have hsend : s.sendBuf = [] := hbusy
    have hwrite : s.writeBuf = [] := by
      by_contra hne
      have hmem := hlive.pending hne
      rw [htasks] at hmem
      exact List.not_mem_nil hmem
    have hdata := hlive.data
    have hfiles := hlive.files
    rw [hsend, hwrite, List.append_nil, List.append_nil] at hdata
    rw [begun, hidle, htasks, List.append_nil] at hfiles
    rw [hout]
    exact ⟨hdata, (List.append_nil _).symm.trans hfiles⟩
  · obtain hdisconnecting | hfailed | hended := hover
    · rw [hstaying] at hdisconnecting
      cases hdisconnecting
    · rw [hstate] at hfailed
      cases hfailed.1
    · rw [hidle] at hended
      cases hended

/-- Data that is written behind a file goes out before it, when other data still waits; a write of the file would block. -/
def overtaking : List Event :=
  [.connect, .task true, .write [1, 2], .transmitFile [3, 4, 5, 6, 7], .write [8], .task true, .sent 1, .sent 2,
    .task true, .file (.read 4), .file (.wouldBlock 2), .file (.read 1), .file (.wrote 2 2), .file (.wrote 2 1),
    .file (.wrote 1 1), .file .go, .file (.read 0), .file (.wrote 1 1), .file .go, .file .go]

def overtaken : Sender := ⟨true, .RUNNING, false, [], [], [], .idle, [.data [1, 2, 8], .file [3, 4, 5, 6, 7]]⟩

theorem run_delivers_overtaking : Sound (handed overtaking).2 (out overtaken) ∧
    (overtaken.state = .RUNNING → overtaken.disconnecting = false → overtaken.worker = .idle → overtaken.tasks = [] →
      dataOf (out overtaken) = dataOf (handed overtaking).2 ∧ filesOf (out overtaken) = filesOf (handed overtaking).2) :=
  run_delivers (show Runs.run (step 4 4) start overtaking = some overtaken by decide)

end Delivery

end Dcpp.SocketSending
