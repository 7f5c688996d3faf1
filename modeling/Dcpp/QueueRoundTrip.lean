import Dcpp.HashBloom
import Dcpp.HashIndexRoundTrip
import Dcpp.QueueInvariant
import Dcpp.QueueLoader

-- The queue that is loaded from a file that was saved.
namespace Dcpp.QueueManager

open Encoder HashManager QueueItem QueueState SimpleXML SimpleXMLReader Segment SegmentSet DoneSet
open QueueConsistent QueueInvariant QueueSteps ItemProgress

variable {U : Type}

/-- The items that are saved. -/
def saved (queue : List (QueueItem U TTHValue)) : List (QueueItem U TTHValue) :=
  queue.filter fun q => !q.isSet FLAG_USER_LIST

def segmentAttribs (j : Segment) : StringPairList := [(str "Start", Util.toString j.start), (str "Size", Util.toString j.size)]

def sourceAttribs (cid : U → Encoder.HashValue) (j : Source U) : StringPairList :=
  (str "CID", (cid j.user.user).toBase32) :: if j.user.hint = [] then [] else [(str "Hub", j.user.hint)]

def downloadAttribs (q : QueueItem U TTHValue) : StringPairList :=
  [(str "Target", q.target), (str "Size", Util.toString q.size), (str "Priority", Util.toString q.priority.toInt),
    (str "Added", Util.toString q.added), (str "TTH", TTHValue.toBase32 q.tthRoot)] ++
  if q.done = [] then [] else [(str "TempTarget", q.tempTarget)]

def downloadMarkup (cid : U → Encoder.HashValue) (q : QueueItem U TTHValue) (rest : Markup) : Markup :=
  .element (crlf ++ str "\t") (str "Download") (downloadAttribs q)
    (.leaves (crlf ++ str "\t\t") (str "Segment") segmentAttribs q.done
      (.leaves (crlf ++ str "\t\t") (str "Source") (sourceAttribs cid) q.sources .nil))
    (crlf ++ str "\t") rest

/-- The tags of the queue. -/
def queueMarkup (cid : U → Encoder.HashValue) (queue : List (QueueItem U TTHValue)) : Markup :=
  .element crlf (str "Downloads") [(str "Version", str "0.8813")] ((saved queue).foldr (downloadMarkup cid) .nil) crlf .nil

section Text

theorem flatten_segmentPieces (j : Segment) : (segmentPieces j).flatten =
    str "\t\t" ++ (tagText (str "Segment") (texts (segmentAttribs j)) ++ str "/>") ++ crlf := by
  rw [segmentPieces, segmentAttribs]
  simp only [texts, List.map_cons, List.map_nil, (plain_toString _).escape_eq]
  simp [tagText, attrText, str, crlf]

theorem flatten_sourcePieces (cid : U → Encoder.HashValue) {j : Source U} (h : escape j.user.hint true = j.user.hint) :
    (sourcePieces cid j).flatten =
      str "\t\t" ++ (tagText (str "Source") (texts (sourceAttribs cid j)) ++ str "/>") ++ crlf := by
  have hcid : escape (cid j.user.user).toBase32 true = (cid j.user.user).toBase32 := (plain_toBase32 _).escape_eq
  rw [sourcePieces, sourceAttribs]
  split
  next =>
    simp only [texts, List.map_cons, List.map_nil, hcid]
    simp [tagText, attrText, str, crlf]
  next =>
    simp only [texts, List.map_cons, List.map_nil, hcid, h]
    simp [tagText, attrText, str, crlf]

theorem flatten_downloadPieces (cid : U → Encoder.HashValue) {q : QueueItem U TTHValue} (hsaved : q.isSet FLAG_USER_LIST = false)
    (h : ∀ j ∈ q.sources, escape j.user.hint true = j.user.hint) :
    (downloadPieces cid q).flatten = str "\t" ++ (tagText (str "Download") (texts (downloadAttribs q)) ++ [byte '>']) ++ crlf ++
      ((q.done.flatMap fun j => str "\t\t" ++ (tagText (str "Segment") (texts (segmentAttribs j)) ++ str "/>") ++ crlf) ++
        ((q.sources.flatMap fun j =>
          str "\t\t" ++ (tagText (str "Source") (texts (sourceAttribs cid j)) ++ str "/>") ++ crlf) ++
          str "\t</Download>\r\n")) := by
  have hdone : (q.done.flatMap segmentPieces).flatten =
      q.done.flatMap fun j => str "\t\t" ++ (tagText (str "Segment") (texts (segmentAttribs j)) ++ str "/>") ++ crlf := by
    rw [flatten_flatMap]
    exact List.flatMap_congr fun j _ => flatten_segmentPieces j
  have hsources : (q.sources.flatMap (sourcePieces cid)).flatten =
      q.sources.flatMap fun j => str "\t\t" ++ (tagText (str "Source") (texts (sourceAttribs cid j)) ++ str "/>") ++ crlf := by
    rw [flatten_flatMap]
    exact List.flatMap_congr fun j hj => flatten_sourcePieces cid (h j hj)
  have hroot : escape (TTHValue.toBase32 q.tthRoot) true = TTHValue.toBase32 q.tthRoot := (plain_toBase32 _).escape_eq
  have hopen : ([str "\t<Download Target=\"", SimpleXML.escape q.target true, str "\" Size=\"", Util.toString q.size,
      str "\" Priority=\"", Util.toString q.priority.toInt, str "\" Added=\"", Util.toString q.added, str "\" TTH=\"",
      TTHValue.toBase32 q.tthRoot] ++ (if q.done = [] then [] else [str "\" TempTarget=\"", SimpleXML.escape q.tempTarget true]) ++
      [str "\">\r\n"]).flatten =
        str "\t" ++ (tagText (str "Download") (texts (downloadAttribs q)) ++ [byte '>']) ++ crlf := by
    rw [downloadAttribs]
    split
    next =>
      simp only [texts, List.map_cons, List.map_nil, List.append_nil, (plain_toString _).escape_eq, hroot]
      simp [tagText, attrText, str, crlf]
    next =>
      simp only [texts, List.map_cons, List.map_nil, List.cons_append, List.nil_append, (plain_toString _).escape_eq, hroot]
      simp [tagText, attrText, str, crlf]
  rw [downloadPieces, if_neg (by rw [hsaved]; exact Bool.false_ne_true), List.flatten_append, List.flatten_append,
    List.flatten_append, hdone, hsources, hopen]
  simp only [List.append_assoc, List.flatten_singleton]

theorem text_downloadMarkup (cid : U → Encoder.HashValue) {q : QueueItem U TTHValue} (hsaved : q.isSet FLAG_USER_LIST = false)
    (h : ∀ j ∈ q.sources, escape j.user.hint true = j.user.hint) {rest : Markup} {t tail : Bytes}
    (hrest : rest.text ++ t = crlf ++ tail) :
    (downloadMarkup cid q rest).text ++ t = crlf ++ ((downloadPieces cid q).flatten ++ tail) := by
  have hclose : Markup.nil.text ++ (crlf ++ str "\t" ++ (str "</" ++ str "Download" ++ [byte '>']) ++ (rest.text ++ t)) =
      crlf ++ (str "\t</Download>\r\n" ++ tail) := by
    rw [hrest]
    simp [Markup.text, str, crlf]
  have hsources := text_leaves_lines (str "\t\t") (str "Source") (sourceAttribs cid) q.sources hclose
  have hdone := text_leaves_lines (str "\t\t") (str "Segment") segmentAttribs q.done hsources
  rw [downloadMarkup, Markup.text, flatten_downloadPieces cid hsaved h]
  simp only [List.append_assoc] at hdone ⊢
  rw [hdone]

theorem mem_saved {queue : List (QueueItem U TTHValue)} {q : QueueItem U TTHValue} :
    q ∈ saved queue ↔ q ∈ queue ∧ q.isSet FLAG_USER_LIST = false := by
  rw [saved, List.mem_filter, Bool.not_eq_true']

theorem flatMap_saved (cid : U → Encoder.HashValue) (queue : List (QueueItem U TTHValue)) :
    queue.flatMap (downloadPieces cid) = (saved queue).flatMap (downloadPieces cid) := by
  induction queue with
  | nil => rfl
  | cons q queue ih =>
    rw [saved] at ih ⊢
    rw [List.flatMap_cons, List.filter_cons, ih]
    by_cases hlist : q.isSet FLAG_USER_LIST = true
    · rw [if_neg (by rw [hlist]; exact Bool.false_ne_true), downloadPieces, if_pos hlist, List.nil_append]
    · have hfalse := Bool.eq_false_of_not_eq_true hlist
      rw [if_pos (by rw [hfalse]; rfl), List.flatMap_cons]

theorem text_items (cid : U → Encoder.HashValue) {items : List (QueueItem U TTHValue)}
    (h : ∀ q ∈ items, q.isSet FLAG_USER_LIST = false ∧ ∀ j ∈ q.sources, escape j.user.hint true = j.user.hint) (tail : Bytes) :
    (items.foldr (downloadMarkup cid) .nil).text ++ (crlf ++ tail) =
      crlf ++ ((items.flatMap (downloadPieces cid)).flatten ++ tail) := by
  induction items with
  | nil => rfl
  | cons q items ih =>
    obtain ⟨hq, hitems⟩ := List.forall_mem_cons.mp h
    rw [List.foldr_cons, text_downloadMarkup cid hq.1 hq.2 (ih hitems), List.flatMap_cons, List.flatten_append,
      List.append_assoc]

theorem flatten_queuePieces (cid : U → Encoder.HashValue) {queue : List (QueueItem U TTHValue)}
    (h : ∀ q ∈ saved queue, ∀ j ∈ q.sources, escape j.user.hint true = j.user.hint) :
    (queuePieces cid queue).flatten = xmlDeclaration ++ (queueMarkup cid queue).text ++ crlf := by
  have hitems := text_items cid (fun q hq => ⟨(mem_saved.mp hq).2, h q hq⟩) (str "</" ++ str "Downloads" ++ [byte '>'] ++ crlf)
  have hopen : [SimpleXML.utf8Header, str "<Downloads Version=\"0.8813\">\r\n"].flatten =
      xmlDeclaration ++ (crlf ++ (tagText (str "Downloads") (texts [(str "Version", str "0.8813")]) ++ [byte '>']) ++ crlf) := by
    decide
  have hclose : [str "</Downloads>\r\n"].flatten = str "</" ++ str "Downloads" ++ [byte '>'] ++ crlf := by decide
  rw [queuePieces, flatMap_saved, List.flatten_append, List.flatten_append, hopen, hclose, queueMarkup, Markup.text, Markup.text]
  simp only [List.append_assoc, List.append_nil] at hitems ⊢
  rw [hitems]

end Text

section Loading

variable [DecidableEq U]

/-- An item that is loaded as it was saved. -/
structure Savable (c : LoadSettings U) (wcharBits : Nat) (q : QueueItem U TTHValue) : Prop where
  target : checkTarget c.windows q.target = some (some q.target)
  utf8 : Text.validateUtf8 wcharBits q.target = true
  size_pos : 0 < q.size
  size_le : q.size ≤ Util.INT64_MAX
  added_ne : q.added ≠ 0
  added_ge : -2 ^ 31 ≤ q.added
  added_lt : q.added < 2 ^ 31
  tempUtf8 : Text.validateUtf8 wcharBits q.tempTarget = true
  tempLimit : q.tempTarget.length < MAX_VALUE_SIZE
  tidy : Tidy q.done
  covered : ∀ x ∈ SegmentSet.covered q.done, x < q.size
  active : ∀ j ∈ q.sources, c.passive j.user.user = false
  hint : ∀ j ∈ q.sources, escape j.user.hint true = j.user.hint
  hintUtf8 : ∀ j ∈ q.sources, Text.validateUtf8 wcharBits j.user.hint = true
  hintLimit : ∀ j ∈ q.sources, j.user.hint.length < MAX_VALUE_SIZE

/-- The item as it is loaded. -/
def restored (q : QueueItem U TTHValue) : QueueItem U TTHValue where
  flags := 0
  target := q.target
  size := q.size
  priority := q.priority
  added := q.added
  tthRoot := q.tthRoot
  tempTarget := if q.done = [] then [] else q.tempTarget
  sources := q.sources.map fun j => ⟨j.user, 0⟩
  badSources := []
  done := q.reload.done
  downloads := []

namespace QueueLoader

variable {c : LoadSettings U}

theorem calls_append (l : QueueLoader U) (cs ds : List CallBack) :
    l.calls c (cs ++ ds) = (l.calls c cs).bind fun l => l.calls c ds := List.foldlM_append

theorem calls_textCalls (l : QueueLoader U) (w : Bytes) : l.calls c (textCalls w) = some l := by
  rw [textCalls]
  split <;> rfl

theorem calls_startTag (l : QueueLoader U) (name : Bytes) (attribs : StringPairList) (simple : Bool) :
    l.calls c [.startTag name attribs simple] = l.startTag c name attribs simple := Option.bind_fun_some _

/-- Tags without content are taken one after the other. -/
theorem calls_leaves {α : Type} {P : List α → QueueLoader U → Prop} (lead name : Bytes) (attribs : α → StringPairList)
    (rest : Markup) {xs : List α} (h : ∀ x ys l, x :: ys <:+ xs → P (x :: ys) l →
      ∃ l', l.startTag c name (attribs x) true = some l' ∧ P ys l') {l : QueueLoader U} (hl : P xs l) :
    ∃ l', P [] l' ∧ l.calls c (Markup.leaves lead name attribs xs rest).calls = l'.calls c rest.calls := by
  rw [Markup.calls_leaves]
  induction xs generalizing l with
  | nil => exact ⟨l, hl, rfl⟩
  | cons x xs ih =>
    obtain ⟨l₁, hstart, hl₁⟩ := h x xs l (List.suffix_refl _) hl
    obtain ⟨l', hl', hcalls⟩ := ih (fun y ys l hsuffix hP => h y ys l (hsuffix.trans (List.suffix_cons x xs)) hP) hl₁
    refine ⟨l', hl', ?_⟩
    rw [List.flatMap_cons, List.append_assoc, calls_append, calls_append, calls_textCalls, Option.bind_some, calls_startTag,
      hstart, Option.bind_some]
    exact hcalls

/-- The loader is in the element of the item at `a`, which is `q`; the others are as in `s`. -/
structure On (c : LoadSettings U) (s : QueueState U TTHValue) (a : Nat) (q : QueueItem U TTHValue) (l : QueueLoader U) :
    Prop where
  inDownloads : l.inDownloads = true
  cur : l.cur = some a
  consistent : Consistent c.settings l.queue
  nextId : l.queue.nextId = s.nextId
  item : l.queue.item = Function.update s.item a (some q)

omit [DecidableEq U] in
theorem On.self {s : QueueState U TTHValue} {a : Nat} {q : QueueItem U TTHValue} {l : QueueLoader U} (h : On c s a q l) :
    l.queue.item a = some q := by rw [h.item, Function.update_self]

section Stages

variable {s : QueueState U TTHValue} {a : Nat} {q : QueueItem U TTHValue} {l : QueueLoader U}

/-- A segment within the numbers that there are. -/
structure Ranged (j : Segment) : Prop where
  start : 0 ≤ j.start
  size : 0 ≤ j.size
  last : j.start + j.size ≤ Util.INT64_MAX

theorem startTag_segment (h : On c s a q l) (hq : q.users = []) {j : Segment} (hj : Ranged j) :
    ∃ l', l.startTag c (str "Segment") (segmentAttribs j) true = some l' ∧ On c s a (q.loadSegment j) l' := by
  obtain ⟨hstart, hsize, hlast⟩ := hj
  have hrstart : Util.toInt64 (getAttrib (segmentAttribs j) (str "Start") 0) = j.start :=
    Util.toInt64_toString (by rw [Util.INT64_MIN]; omega) (by omega)
  have hrsize : Util.toInt64 (getAttrib (segmentAttribs j) (str "Size") 1) = j.size :=
    Util.toInt64_toString (by rw [Util.INT64_MIN]; omega) (by omega)
  have hname : ¬((!l.inDownloads) = true ∧ str "Segment" = str "Downloads") := by
    rw [h.inDownloads]
    simp
  rw [startTag, if_neg hname, if_pos h.inDownloads, h.cur]
  dsimp only
  rw [if_pos rfl, startSegment, hrstart, hrsize, h.self]
  dsimp only
  by_cases hpos : j.size > 0
  · rw [if_pos ⟨hpos, hstart⟩, if_neg (by omega)]
    refine ⟨_, rfl, h.inDownloads, h.cur, ?_, h.nextId, ?_⟩
    · have hload : ∃ done, q.loadSegment j = { q with done := done } := by
        rw [loadSegment]
        split
        next => exact ⟨_, rfl⟩
        next => exact ⟨q.done, rfl⟩
      obtain ⟨done, hload⟩ := hload
      dsimp only
      rw [hload]
      exact h.consistent.modify h.self (Or.inr hq) rfl rfl rfl rfl
    · have hset : (l.queue.setItem a (q.loadSegment j)).item = Function.update l.queue.item a (some (q.loadSegment j)) := rfl
      dsimp only
      rw [hset, h.item, Function.update_idem]
  · rw [if_neg fun h => hpos h.1]
    refine ⟨l, rfl, ?_⟩
    have hsame : q.loadSegment j = q := if_neg fun h => hpos h.1
    rwa [hsame]

omit [DecidableEq U] in
theorem getAttrib_sourceAttribs (cid : U → Encoder.HashValue) (j : Source U) :
    getAttrib (sourceAttribs cid j) (str "CID") 0 = (cid j.user.user).toBase32 ∧
      getAttrib (sourceAttribs cid j) (str "Hub") 1 = j.user.hint := by
  rw [sourceAttribs]
  by_cases hhint : j.user.hint = []
  · rw [if_pos hhint, hhint]
    exact ⟨rfl, rfl⟩
  · rw [if_neg hhint]
    exact ⟨rfl, rfl⟩

/-- A user who is not a source of the item yet becomes one. -/
theorem addSource_new (hc : Consistent c.settings l.queue) (hq : l.queue.item a = some q) (hbad : q.badSources = [])
    {u : HintedUser U} (hnew : u.user ∉ q.users) :
    ∃ r, addSource l.queue a u 0 false = some r ∧ Consistent c.settings r.1 ∧ r.1.nextId = l.queue.nextId ∧
      r.1.item = Function.update l.queue.item a (some { q with sources := q.sources ++ [⟨u, 0⟩] }) := by
  obtain ⟨r, hr, hconsistent, -, hnext⟩ := addSource_consistent hc hq u 0 false
  refine ⟨r, hr, hconsistent, hnext, ?_⟩
  have hsource : ¬q.isSource u.user = true := fun h => hnew (isSource_iff.mp h)
  have hgood : ¬q.isBadSourceExcept u.user 0 = true := by
    rw [isBadSourceExcept, getBadSource, hbad]
    exact Bool.false_ne_true
  have hadd : q.addSource u = { q with sources := q.sources ++ [⟨u, 0⟩] } := by
    rw [QueueItem.addSource, getBadSource, hbad]
    rfl
  rw [addSource, hq] at hr
  dsimp only at hr
  rw [if_neg hsource, if_neg hgood, if_neg Bool.false_ne_true, hadd] at hr
  split at hr
  next =>
    obtain rfl := Option.some.inj hr
    rfl
  next =>
    obtain ⟨s', hs', rfl⟩ := Option.map_eq_some_iff.mp hr
    have hself : (l.queue.setItem a { q with sources := q.sources ++ [⟨u, 0⟩] }).item a =
        some { q with sources := q.sources ++ [⟨u, 0⟩] } := setItem_item_self ..
    rw [UserQueue.add, hself] at hs'
    dsimp only at hs'
    split at hs'
    next =>
      obtain rfl := Option.some.inj hs'
      rfl
    next => cases hs'

theorem startTag_source {cid : U → Encoder.HashValue} (h : On c s a q l) (hbad : q.badSources = []) {j : Source U}
    (hactive : c.passive j.user.user = false) (hcid : c.getUser (cid j.user.user) = j.user.user) (hnew : j.user.user ∉ q.users) :
    ∃ l', l.startTag c (str "Source") (sourceAttribs cid j) true = some l' ∧
      On c s a { q with sources := q.sources ++ [⟨j.user, 0⟩] } l' := by
  obtain ⟨hattrib, hhub⟩ := getAttrib_sourceAttribs cid j
  have hname : ¬((!l.inDownloads) = true ∧ str "Source" = str "Downloads") := by
    rw [h.inDownloads]
    simp
  have hsegment : str "Source" ≠ str "Segment" := by decide
  have hlen : ¬(cid j.user.user).toBase32.length ≠ 39 := by
    rw [HashValue.toBase32, length_toBase32, (cid j.user.user).size]
    decide
  obtain ⟨r, hr, hconsistent, hnext, hitem⟩ := addSource_new h.consistent h.self hbad hnew
  rw [startTag, if_neg hname, if_pos h.inDownloads, h.cur]
  dsimp only
  rw [if_neg hsegment, if_pos rfl, startSource, hattrib, hhub]
  dsimp only
  rw [if_neg hlen, Encoder.ofBase32_toBase32, hcid, hactive, hr]
  refine ⟨_, rfl, h.inDownloads, h.cur, hconsistent, hnext.trans h.nextId, ?_⟩
  dsimp only
  rw [hitem, h.item, Function.update_idem]

/-- The attributes that the loader looks for. -/
structure Reads (q : QueueItem U TTHValue) (attribs : StringPairList) : Prop where
  target : getAttrib attribs (str "Target") 0 = q.target
  size : getAttrib attribs (str "Size") 1 = Util.toString q.size
  priority : getAttrib attribs (str "Priority") 3 = Util.toString q.priority.toInt
  added : getAttrib attribs (str "Added") 4 = Util.toString q.added
  root : getAttrib attribs (str "TTH") 5 = TTHValue.toBase32 q.tthRoot
  tempTarget : getAttrib attribs (str "TempTarget") 5 = if q.done = [] then [] else q.tempTarget
  downloaded : getAttrib attribs (str "Downloaded") 5 = []

omit [DecidableEq U] in
theorem reads_downloadAttribs (q : QueueItem U TTHValue) : Reads q (downloadAttribs q) := by
  rw [downloadAttribs]
  by_cases hdone : q.done = []
  · rw [if_pos hdone]
    exact ⟨rfl, rfl, rfl, rfl, rfl, by rw [if_pos hdone]; rfl, rfl⟩
  · rw [if_neg hdone]
    exact ⟨rfl, rfl, rfl, rfl, rfl, by rw [if_neg hdone]; rfl, rfl⟩

/-- The item before its segments and sources are loaded. -/
def created (c : LoadSettings U) (q : QueueItem U TTHValue) : QueueItem U TTHValue :=
  newItem c.settings q.target q.size q.priority (if q.done = [] then [] else q.tempTarget) q.added q.tthRoot

/-- The loader between two items, with those of `items` in the queue. -/
structure Holds (c : LoadSettings U) (items : List (QueueItem U TTHValue)) (l : QueueLoader U) : Prop where
  inDownloads : l.inDownloads = true
  cur : l.cur = none
  consistent : Consistent c.settings l.queue
  nextId : l.queue.nextId = items.length
  item : ∀ a, l.queue.item a = items[a]?

variable {wcharBits : Nat} {items : List (QueueItem U TTHValue)}

omit [DecidableEq U] in
theorem target_ne_nil (h : Savable c wcharBits q) : q.target ≠ [] := by
  intro hnil
  have htarget := h.target
  rw [hnil] at htarget
  have hempty : ∀ windows, checkTarget windows [] ≠ some (some []) := by decide
  exact hempty _ htarget

omit [DecidableEq U] in
theorem priorityOf_toInt (p : Priority) : priorityOf p.toInt = some p := by cases p <;> rfl

/-- The item is put at the next place, unless its file is in the share. -/
theorem startTag_download (h : Holds c items l) (hq : Savable c wcharBits q) (hprio : q.priority.isIndex = true)
    (hkey : ∀ r ∈ items, c.settings.key r.target ≠ c.settings.key q.target) :
    if c.alreadyShared q.tthRoot then l.startTag c (str "Download") (downloadAttribs q) false = some l
    else ∃ l', l.startTag c (str "Download") (downloadAttribs q) false = some l' ∧
      On c { l.queue with nextId := items.length + 1 } items.length (created c q) l' := by
  obtain ⟨htarget, hsize, hpriority, hadded, hroot, htemp, hdownloaded⟩ := reads_downloadAttribs q
  have hrsize : Util.toInt64 (Util.toString q.size) = q.size :=
    Util.toInt64_toString (by have := hq.size_pos; rw [Util.INT64_MIN]; omega) hq.size_le
  have hname : ¬((!l.inDownloads) = true ∧ str "Download" = str "Downloads") := by
    rw [h.inDownloads]
    simp
  have hstart : l.startTag c (str "Download") (downloadAttribs q) false =
      if c.alreadyShared q.tthRoot then some l
      else (l.addDownload c (downloadAttribs q) q.target q.size q.tthRoot).map fun r =>
        { l with queue := r.1, cur := some r.2 } := by
    rw [startTag, if_neg hname, if_pos h.inDownloads, h.cur]
    dsimp only
    rw [if_pos rfl, startDownload, hsize, hroot, htarget, hrsize, hq.target, HashManager.ofBase32_toBase32]
    dsimp only
    rw [if_neg hq.size_pos.ne']
    by_cases hshared : c.alreadyShared q.tthRoot = true
    · rw [if_pos (Or.inr (Or.inr hshared)), if_pos hshared]
    · have hno : ¬(q.target = [] ∨ TTHValue.toBase32 q.tthRoot = [] ∨ c.alreadyShared q.tthRoot = true) := by
        rintro (hnil | hnil | hyes)
        · exact target_ne_nil hq hnil
        · exact HashStore.toBase32_ne_nil _ hnil
        · exact hshared hyes
      rw [if_neg hno, if_neg hshared]
      rfl
  rw [hstart]
  split
  next => rfl
  next =>
    have hnone : l.queue.find c.settings q.target = none := by
      cases hfind : l.queue.find c.settings q.target with
      | none => rfl
      | some a =>
        obtain ⟨r, hr, hsame⟩ := find_some hfind
        rw [h.item] at hr
        exact absurd hsame (hkey r (List.mem_of_getElem? hr))
    have hrpriority : priorityOf (Util.toInt (Util.toString q.priority.toInt)) = some q.priority := by
      have hbound : ∀ p : Priority, -2 ^ 31 ≤ p.toInt ∧ p.toInt < 2 ^ 31 := by
        intro p
        cases p <;> decide
      rw [Util.toInt_toString (hbound _).1 (hbound _).2, priorityOf_toInt]
    have hcreated : readItem c (downloadAttribs q) q.target q.size q.priority q.tthRoot = created c q := by
      have hradded : Util.toInt (Util.toString q.added) = q.added := Util.toInt_toString hq.added_ge hq.added_lt
      have hzero : ¬(0 < Util.toInt64 [] ∧ Util.toInt64 [] ≤ q.size) := fun h => absurd h.1 (by decide)
      rw [readItem, hadded, hradded, htemp, hdownloaded, if_neg hq.added_ne, if_neg hzero, created]
    rw [addDownload, hnone]
    dsimp only
    rw [hpriority, hrpriority, Option.map_some, hcreated]
    have hpindex : (created c q).priority.isIndex = true := by
      rw [created, newItem]
      dsimp only
      split
      next => exact defaultPriority_isIndex _ _ _
      next => exact hprio
    have hother : ∀ b r, l.queue.item b = some r → c.settings.key r.target ≠ c.settings.key (created c q).target := by
      intro b r hr
      rw [h.item] at hr
      exact hkey r (List.mem_of_getElem? hr)
    have hnew := new_consistent h.consistent hpindex rfl hother
    refine ⟨_, rfl, h.inDownloads, by rw [← h.nextId], hnew, by rw [← h.nextId], ?_⟩
    rw [← h.nextId]
    rfl

omit [DecidableEq U] in
theorem foldl_loadSegment_eq (js : List Segment) {q q' : QueueItem U TTHValue} (hsize : q.size = q'.size)
    (hdone : q.done = q'.done) :
    js.foldl loadSegment q = { q with done := (js.foldl loadSegment q').done } := by
  induction js generalizing q q' with
  | nil =>
    rw [List.foldl_nil, List.foldl_nil, ← hdone]
  | cons j js ih =>
    rw [List.foldl_cons, List.foldl_cons, loadSegment, loadSegment, ← hsize]
    split
    next =>
      have hsame : (q.addSegment j).done = (q'.addSegment j).done := congrArg (SegmentSet.addSegment · j) hdone
      rw [@ih (q.addSegment j) (q'.addSegment j) hsize hsame]
      rfl
    next => exact ih hsize hdone

omit [DecidableEq U] in
/-- The segments of a saved item are in range. -/
theorem ranged (h : Savable c wcharBits q) : ∀ j ∈ q.done, Ranged j := by
  have hnormal {r : List Segment} (hr : Normal r) : ∀ j ∈ r, 0 ≤ j.size := by
    intro j hj
    have hlt : j.start < j.start + j.size := hr.nonempty j hj
    omega
  have hnonneg : ∀ j ∈ q.done, 0 ≤ j.size := by
    have htidy := h.tidy
    generalize q.done = done at htidy ⊢
    cases htidy with
    | normal hr _ => exact hnormal hr
    | zero hr _ => exact List.forall_mem_cons.mpr ⟨Int.le_refl 0, hnormal hr⟩
  intro j hj
  obtain ⟨hstart, hend⟩ := within_of_tidy h.tidy h.size_pos.le h.covered j hj
  exact ⟨hstart, hnonneg j hj, Int.le_trans hend h.size_le⟩

theorem calls_element {rest : Markup} {lead name last : Bytes} {attribs : StringPairList} {inside : Markup}
    {l₁ l₂ : QueueLoader U} (hstart : l.startTag c name attribs false = some l₁) (hinside : l₁.calls c inside.calls = some l₂) :
    l.calls c (Markup.element lead name attribs inside last rest).calls = (l₂.endTag name).calls c rest.calls := by
  rw [Markup.calls]
  simp only [calls_append, calls_textCalls, Option.bind_some, calls_startTag, hstart, hinside]
  rfl

/-- Nothing is taken of an item whose file is in the share. -/
theorem calls_inside_shared {cid : U → Encoder.HashValue} (h : Holds c items l) (done : List Segment)
    (sources : List (Source U)) :
    l.calls c (Markup.leaves (crlf ++ str "\t\t") (str "Segment") segmentAttribs done
      (.leaves (crlf ++ str "\t\t") (str "Source") (sourceAttribs cid) sources .nil)).calls = some l := by
  have hpass (name : Bytes) (hdownloads : name ≠ str "Downloads") (hdownload : name ≠ str "Download")
      (attribs : StringPairList) : l.startTag c name attribs true = some l := by
    rw [startTag, if_neg fun h => hdownloads h.2, if_pos h.inDownloads, h.cur]
    exact if_neg hdownload
  obtain ⟨l₁, rfl, hcalls⟩ := @calls_leaves U _ c Segment (fun _ l' => l' = l) (crlf ++ str "\t\t") (str "Segment")
    segmentAttribs (.leaves (crlf ++ str "\t\t") (str "Source") (sourceAttribs cid) sources .nil) done
    (fun j _ l' _ hl => ⟨l', by rw [hl]; exact hpass _ (by decide) (by decide) _, hl⟩) l rfl
  obtain ⟨l₂, rfl, hcalls'⟩ := @calls_leaves U _ c (Source U) (fun _ l' => l' = l₁) (crlf ++ str "\t\t") (str "Source")
    (sourceAttribs cid) .nil sources
    (fun j _ l' _ hl => ⟨l', by rw [hl]; exact hpass _ (by decide) (by decide) _, hl⟩) l₁ rfl
  exact hcalls.trans hcalls'

/-- The segments and the sources of an item are loaded. -/
theorem calls_inside {cid : U → Encoder.HashValue} (hcid : ∀ u, c.getUser (cid u) = u) (hq : Savable c wcharBits q)
    (husers : q.users.Nodup) (h : On c s a (created c q) l) :
    ∃ l', l.calls c (Markup.leaves (crlf ++ str "\t\t") (str "Segment") segmentAttribs q.done
        (.leaves (crlf ++ str "\t\t") (str "Source") (sourceAttribs cid) q.sources .nil)).calls = some l' ∧
      On c s a { created c q with done := q.reload.done, sources := q.sources.map fun j => ⟨j.user, 0⟩ } l' := by
  have hload (done : List Segment) (j : Segment) : ∃ done', QueueItem.loadSegment { created c q with done := done } j =
      { created c q with done := done' } := by
    rw [loadSegment]
    split
    next => exact ⟨_, rfl⟩
    next => exact ⟨done, rfl⟩
  obtain ⟨l₁, ⟨done, hl₁, hfold⟩, hcalls⟩ := @calls_leaves U _ c Segment (fun js l => ∃ done,
      On c s a { created c q with done := done } l ∧
        js.foldl loadSegment { created c q with done := done } = q.done.foldl loadSegment (created c q))
    (crlf ++ str "\t\t") (str "Segment") segmentAttribs
    (.leaves (crlf ++ str "\t\t") (str "Source") (sourceAttribs cid) q.sources .nil) q.done
    (fun j js l hsuffix hloaded => by
      obtain ⟨done, hl, hfold⟩ := hloaded
      obtain ⟨l', hl', hon⟩ := startTag_segment hl rfl (ranged hq j (hsuffix.subset List.mem_cons_self))
      obtain ⟨done', hdone'⟩ := hload done j
      rw [List.foldl_cons, hdone'] at hfold
      rw [hdone'] at hon
      exact ⟨l', hl', done', hon, hfold⟩) l ⟨[], h, rfl⟩
  have hdone : done = q.reload.done := by
    have heq := (congrArg QueueItem.done hfold).trans (congrArg QueueItem.done
      (@foldl_loadSegment_eq U q.done (created c q) q.resetDownloaded rfl rfl))
    exact heq
  subst hdone
  obtain ⟨l₂, ⟨js, hjs, hl₂⟩, hcalls'⟩ := @calls_leaves U _ c (Source U) (fun js l => ∃ before, q.sources = before ++ js ∧
      On c s a { created c q with done := q.reload.done, sources := before.map fun j => ⟨j.user, 0⟩ } l)
    (crlf ++ str "\t\t") (str "Source") (sourceAttribs cid) .nil q.sources
    (fun j js l hsuffix hloaded => by
      obtain ⟨before, hbefore, hl⟩ := hloaded
      have hmem : j ∈ q.sources := hsuffix.subset List.mem_cons_self
      have hnew : j.user.user ∉ (before.map fun j => (⟨j.user, 0⟩ : Source U)).map fun i => i.user.user := by
        rw [users, hbefore, List.map_append, List.map_cons] at husers
        rw [List.map_map]
        exact fun hin => (List.nodup_append.mp husers).2.2 _ hin _ List.mem_cons_self rfl
      obtain ⟨l', hl', hon⟩ := startTag_source hl rfl (hq.active j hmem) (hcid j.user.user) hnew
      refine ⟨l', hl', before ++ [j], by rw [hbefore, List.append_assoc]; rfl, ?_⟩
      rw [List.map_append]
      exact hon) l₁ ⟨[], rfl, hl₁⟩
  rw [List.append_nil] at hjs
  subst hjs
  exact ⟨l₂, hcalls.trans hcalls', hl₂⟩

/-- The element of an item is loaded, or passed by when its file is in the share. -/
theorem calls_downloadMarkup {cid : U → Encoder.HashValue} (hcid : ∀ u, c.getUser (cid u) = u) (h : Holds c items l)
    (hq : Savable c wcharBits q) (hprio : q.priority.isIndex = true) (husers : q.users.Nodup)
    (hkey : ∀ r ∈ items, c.settings.key r.target ≠ c.settings.key q.target) (rest : Markup) :
    ∃ l', Holds c (items ++ if c.alreadyShared q.tthRoot then [] else [restored q]) l' ∧
      l.calls c (downloadMarkup cid q rest).calls = l'.calls c rest.calls := by
  have hstart := startTag_download h hq hprio hkey
  split at hstart
  next hshared =>
    have hend : l.endTag (str "Download") = l := by
      obtain ⟨queue, cur, inDownloads⟩ := l
      obtain rfl : cur = none := h.cur
      obtain rfl : inDownloads = true := h.inDownloads
      rfl
    refine ⟨l, by rwa [if_pos hshared, List.append_nil], ?_⟩
    rw [downloadMarkup, calls_element hstart (calls_inside_shared h q.done q.sources), hend]
  next hnew =>
    obtain ⟨l₁, hl₁, hon⟩ := hstart
    obtain ⟨l₂, hl₂, hon₂⟩ := calls_inside hcid hq husers hon
    have hrestored : { created c q with done := q.reload.done, sources := q.sources.map fun j => ⟨j.user, 0⟩ } = restored q := by
      have hdefault : q.priority ≠ .DEFAULT := fun heq => by
        rw [heq] at hprio
        cases hprio
      rw [created, newItem, restored, if_neg hdefault]
    rw [hrestored] at hon₂
    rw [if_neg hnew]
    refine ⟨l₂.endTag (str "Download"), ?_, by rw [downloadMarkup, calls_element hl₁ hl₂]⟩
    have hend : l₂.endTag (str "Download") = { l₂ with cur := none } := by
      rw [endTag, if_pos hon₂.inDownloads, if_pos rfl]
    rw [hend]
    refine ⟨hon₂.inDownloads, rfl, hon₂.consistent, ?_, fun b => ?_⟩
    · rw [List.length_append]
      exact hon₂.nextId
    · have hitem : l₂.queue.item = Function.update l.queue.item items.length (some (restored q)) := hon₂.item
      dsimp only
      rw [hitem]
      by_cases hb : b = items.length
      · rw [hb, Function.update_self, List.getElem?_concat_length]
      · rw [Function.update_of_ne hb, h.item]
        by_cases hlt : b < items.length
        · rw [List.getElem?_append_left hlt]
        · rw [List.getElem?_eq_none (Nat.le_of_not_lt hlt), List.getElem?_eq_none]
          rw [List.length_append, List.length_singleton]
          omega

theorem calls_items {cid : U → Encoder.HashValue} (hcid : ∀ u, c.getUser (cid u) = u) (h : Holds c items l)
    {queue : List (QueueItem U TTHValue)}
    (hqueue : ∀ q ∈ queue, Savable c wcharBits q ∧ q.priority.isIndex = true ∧ q.users.Nodup)
    (hkeys : queue.Pairwise fun q r => c.settings.key q.target ≠ c.settings.key r.target)
    (hkey : ∀ r ∈ items, ∀ q ∈ queue, c.settings.key r.target ≠ c.settings.key q.target) :
    ∃ l', Holds c (items ++ (queue.filter fun q => !c.alreadyShared q.tthRoot).map restored) l' ∧
      l.calls c (queue.foldr (downloadMarkup cid) .nil).calls = some l' := by
  induction queue generalizing items l with
  | nil =>
    refine ⟨l, ?_, rfl⟩
    rw [List.filter_nil, List.map_nil, List.append_nil]
    exact h
  | cons q queue ih =>
    obtain ⟨⟨hq, hprio, husers⟩, hqueue⟩ := List.forall_mem_cons.mp hqueue
    obtain ⟨hfirst, hkeys⟩ := List.pairwise_cons.mp hkeys
    obtain ⟨l₁, hl₁, hcalls⟩ := calls_downloadMarkup hcid h hq hprio husers
      (fun r hr => hkey r hr q List.mem_cons_self) (queue.foldr (downloadMarkup cid) .nil)
    have hkey' : ∀ r ∈ items ++ (if c.alreadyShared q.tthRoot then [] else [restored q]), ∀ q' ∈ queue,
        c.settings.key r.target ≠ c.settings.key q'.target := by
      intro r hr q' hq'
      obtain hr | hr := List.mem_append.mp hr
      · exact hkey r hr q' (List.mem_cons_of_mem _ hq')
      · split at hr
        next => exact absurd hr List.not_mem_nil
        next =>
          obtain rfl := List.mem_singleton.mp hr
          exact hfirst q' hq'
    obtain ⟨l', hl', hrest⟩ := ih hl₁ hqueue hkeys hkey'
    refine ⟨l', ?_, hcalls.trans hrest⟩
    rw [List.append_assoc] at hl'
    rw [List.filter_cons]
    cases hshared : c.alreadyShared q.tthRoot with
    | true =>
      rw [hshared] at hl'
      exact hl'
    | false =>
      rw [hshared] at hl'
      exact hl'

end Stages

end QueueLoader

section Reading

variable {c : LoadSettings U} {wcharBits : Nat} {q : QueueItem U TTHValue}

omit [DecidableEq U]

theorem length_target (h : Savable c wcharBits q) : q.target.length < MAX_VALUE_SIZE := by
  have hshort : ¬q.target.length > PATH_MAX c.windows := by
    intro hlong
    have htarget := h.target
    rw [checkTarget, if_pos hlong] at htarget
    cases htarget
  have hmax : PATH_MAX c.windows ≤ 4096 := by
    rw [PATH_MAX]
    split <;> omega
  rw [MAX_VALUE_SIZE]
  omega

theorem takes_downloadAttribs (h : Savable c wcharBits q) : ∀ a ∈ downloadAttribs q, Takes wcharBits a := by
  have hmax := h.size_le
  have hpos := h.size_pos
  have hge := h.added_ge
  have hlt := h.added_lt
  rw [Util.INT64_MAX] at hmax
  have hpriority : ∀ p : Priority, p.toInt.natAbs < 2 ^ 64 := by
    intro p
    cases p <;> decide
  have hname : IsName (str "Target") ∧ IsName (str "TempTarget") := by decide
  have htarget : Takes wcharBits (str "Target", q.target) := ⟨hname.1, h.utf8, length_target h⟩
  have hsize : Takes wcharBits (str "Size", Util.toString q.size) := takes_toString _ (by decide) (by omega)
  have hprio : Takes wcharBits (str "Priority", Util.toString q.priority.toInt) :=
    takes_toString _ (by decide) (hpriority _)
  have hadded : Takes wcharBits (str "Added", Util.toString q.added) := takes_toString _ (by decide) (by omega)
  have hroot : Takes wcharBits (str "TTH", TTHValue.toBase32 q.tthRoot) := HashStore.takes_root _ (by decide) _
  have htemp : ∀ a ∈ (if q.done = [] then [] else [(str "TempTarget", q.tempTarget)]), Takes wcharBits a := by
    split
    next => exact fun _ h => absurd h List.not_mem_nil
    next => exact List.forall_mem_singleton.mpr ⟨hname.2, h.tempUtf8, h.tempLimit⟩
  rw [downloadAttribs]
  refine List.forall_mem_append.mpr ⟨?_, htemp⟩
  simp only [List.forall_mem_cons]
  exact ⟨htarget, hsize, hprio, hadded, hroot, fun _ h => absurd h List.not_mem_nil⟩

theorem takes_segmentAttribs {j : Segment} (h : QueueLoader.Ranged j) : ∀ a ∈ segmentAttribs j, Takes wcharBits a := by
  obtain ⟨hstart, hsize, hlast⟩ := h
  rw [Util.INT64_MAX] at hlast
  have hs : Takes wcharBits (str "Start", Util.toString j.start) := takes_toString _ (by decide) (by omega)
  have hz : Takes wcharBits (str "Size", Util.toString j.size) := takes_toString _ (by decide) (by omega)
  rw [segmentAttribs]
  simp only [List.forall_mem_cons]
  exact ⟨hs, hz, fun _ h => absurd h List.not_mem_nil⟩

theorem takes_sourceAttribs (cid : U → Encoder.HashValue) (h : Savable c wcharBits q) {j : Source U} (hj : j ∈ q.sources) :
    ∀ a ∈ sourceAttribs cid j, Takes wcharBits a := by
  have hname : IsName (str "Hub") := by decide
  have hcid : Takes wcharBits (str "CID", (cid j.user.user).toBase32) :=
    takes_toBase32 wcharBits (by decide) (cid j.user.user).size.le
  have hhub : ∀ a ∈ (if j.user.hint = [] then [] else [(str "Hub", j.user.hint)]), Takes wcharBits a := by
    split
    next => exact fun _ h => absurd h List.not_mem_nil
    next => exact List.forall_mem_singleton.mpr ⟨hname, h.hintUtf8 j hj, h.hintLimit j hj⟩
  rw [sourceAttribs]
  exact List.forall_mem_cons.mpr ⟨hcid, hhub⟩

theorem readable_queueMarkup (cid : U → Encoder.HashValue) {queue : List (QueueItem U TTHValue)}
    (h : ∀ q ∈ saved queue, Savable c wcharBits q) : Readable wcharBits (queueMarkup cid queue) := by
  have hspace (w : Bytes) (hw : w ∈ [crlf, crlf ++ str "\t", crlf ++ str "\t\t"]) : Space w := by
    have hall : ∀ w ∈ [crlf, crlf ++ str "\t", crlf ++ str "\t\t"], w.all isSpace = true ∧ w.length < MAX_VALUE_SIZE := by
      decide
    exact ⟨List.all_eq_true.mp (hall w hw).1, (hall w hw).2⟩
  have hitems : ∀ items : List (QueueItem U TTHValue), (∀ q ∈ items, Savable c wcharBits q) →
      Readable wcharBits (items.foldr (downloadMarkup cid) .nil) := by
    intro items hitems
    induction items with
    | nil => exact .nil
    | cons q items ih =>
      obtain ⟨hq, hitems⟩ := List.forall_mem_cons.mp hitems
      have hsources : Readable wcharBits (.leaves (crlf ++ str "\t\t") (str "Source") (sourceAttribs cid) q.sources .nil) :=
        readable_leaves (hspace _ (by decide)) (by decide) (fun _ hj => takes_sourceAttribs cid hq hj) .nil
      have hdone := readable_leaves (hspace (crlf ++ str "\t\t") (by decide)) (show IsName (str "Segment") by decide)
        (fun j hj => takes_segmentAttribs (QueueLoader.ranged hq j hj)) hsources
      exact .element (hspace _ (by decide)) (by decide) (takes_downloadAttribs hq) hdone (hspace _ (by decide)) (ih hitems)
  have hversion : ∀ a ∈ [(str "Version", str "0.8813")], Takes wcharBits a :=
    List.forall_mem_singleton.mpr ⟨by decide, validateUtf8_of_all _ (by decide), by decide⟩
  exact .element (hspace _ (by decide)) (by decide) hversion (hitems _ h) (hspace _ (by decide)) .nil

theorem nesting_queueMarkup (cid : U → Encoder.HashValue) (queue : List (QueueItem U TTHValue)) :
    (queueMarkup cid queue).nesting ≤ MAX_NESTING := by
  have hitems : ∀ items : List (QueueItem U TTHValue), (items.foldr (downloadMarkup cid) .nil).nesting ≤ 2 := by
    intro items
    induction items with
    | nil => exact Nat.zero_le 2
    | cons q items ih =>
      have hsources := Markup.nesting_leaves (crlf ++ str "\t\t") (str "Source") (sourceAttribs cid) q.sources .nil
      have hdone := Markup.nesting_leaves (crlf ++ str "\t\t") (str "Segment") segmentAttribs q.done
        (.leaves (crlf ++ str "\t\t") (str "Source") (sourceAttribs cid) q.sources .nil)
      rw [Markup.nesting] at hsources
      rw [List.foldr_cons, downloadMarkup, Markup.nesting]
      omega
  have h := hitems (saved queue)
  rw [queueMarkup, Markup.nesting, Markup.nesting, MAX_NESTING]
  omega

end Reading

/-- The items of the queue. -/
def items (s : QueueState U TTHValue) : List (QueueItem U TTHValue) := (List.range s.nextId).filterMap s.item

variable {c : LoadSettings U} {s : QueueState U TTHValue}

omit [DecidableEq U] in
theorem filterMap_range (xs : List (QueueItem U TTHValue)) : (List.range xs.length).filterMap (fun a => xs[a]?) = xs := by
  have hmap : (List.range xs.length).map (fun a => xs[a]?) = xs.map some := by
    apply List.ext_getElem
    · rw [List.length_map, List.length_map, List.length_range]
    · intro a ha ha'
      rw [List.length_map] at ha'
      rw [List.getElem_map, List.getElem_map, List.getElem_range, List.getElem?_eq_getElem ha']
  have hid := congrArg (List.filterMap id) hmap
  rw [List.filterMap_map, List.filterMap_map] at hid
  exact hid.trans (List.filterMap_some)

omit [DecidableEq U] in
theorem pairwise_items (h : Consistent c.settings s) {queue : List (QueueItem U TTHValue)} (hqueue : queue.Perm (items s)) :
    (saved queue).Pairwise fun q r => c.settings.key q.target ≠ c.settings.key r.target := by
  have hrange : (items s).Pairwise fun q r => c.settings.key q.target ≠ c.settings.key r.target := by
    refine List.Pairwise.filterMap s.item (fun a b hab q hq r hr hkey => hab ?_) List.nodup_range
    exact h.targets a b q r hq hr hkey
  exact (hqueue.symm.pairwise hrange fun hne => hne.symm).filter _

def plainLoad : LoadSettings Unit where
  settings := RemoveSource.plainSettings
  windows := false
  getUser := fun _ => ()
  passive := fun _ => false
  alreadyShared := fun _ => false
  time := 1

def plainFile : QueueManager.NewFile Unit TTHValue where
  target := str "/a"
  tempTarget := []
  size := 2048
  root := Vector.replicate _ (byte 'a')
  user := ⟨(), str "adc://hub:411"⟩
  flags := 0
  addBad := true
  added := 1

/-- The queue with one file. -/
def plainQueue : QueueState Unit TTHValue :=
  (QueueManager.run RemoveSource.plainSettings (fun _ => false) empty [.add plainFile]).getD empty

theorem items_plainQueue : items plainQueue = [{
    flags := 0
    target := str "/a"
    size := 2048
    priority := .HIGHEST
    added := 1
    tthRoot := Vector.replicate _ (byte 'a')
    tempTarget := []
    sources := [⟨⟨(), str "adc://hub:411"⟩, 0⟩]
    badSources := []
    done := []
    downloads := [] }] := rfl

end Loading

end Dcpp.QueueManager
