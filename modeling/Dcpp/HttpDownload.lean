import Dcpp.HttpConnection
import Dcpp.SocketFraming

-- A download over HTTP, from the reads of the socket to what its listeners are told.
namespace Dcpp.HttpConnection

open Util BufferedSocket SocketFraming

/-- A connection with its socket, as long as it listens to it, and what its listeners have been told: the data of the
body, and the rest. -/
structure Transfer where
  connection : HttpConnection
  done : Int
  body : Bytes
  fired : List Event
  listening : Bool
deriving DecidableEq

variable (env : Environment)

/-- `on(Data)`, without the speed. The room that is left is an unsigned number of 64 bits. -/
def onData (t : Transfer) (aBuf : Bytes) : Transfer :=
  if t.connection.size ≠ -1 ∧ (t.connection.size - t.done) % 2 ^ 64 < aBuf.length then
    { t with
      connection := { t.connection with connected := false, connState := .failed }
      fired := t.fired ++ [.failed (failure (str "Too much data in response body") t.connection.url)]
      listening := false }
  else { t with done := t.done + aBuf.length, body := t.body ++ aBuf }

def onModeChange (t : Transfer) : Transfer :=
  if t.connection.connState ≠ .chunked then
    { t with
      connection := { t.connection with connected := false }
      fired := t.fired ++ [.complete]
      listening := false }
  else t

def Event.isDataMode : Event → Bool
  | .dataMode _ => true
  | _ => false

def Event.isRedirected : Event → Bool
  | .redirected _ => true
  | _ => false

/-- What is left of the transfer when a line was handled; a redirected one goes on with another socket. -/
def Transfer.after (t : Transfer) (c : HttpConnection) (events : List Event) : Transfer :=
  { t with
    connection := c
    done := if events.any Event.isRedirected then 0 else t.done
    fired := t.fired ++ events.filter fun e => !e.isDataMode
    listening := c.connected && !events.any Event.isRedirected }

/-- A call of the socket. There is no result where the handling of a line throws. -/
def handle (t : Transfer) (e : BufferedSocket.Event) : Option Transfer :=
  if t.listening then
    match e with
    | .line l => (onLine env t.connection l).map fun r => t.after r.1 r.2
    | .data d => some (onData t d)
    | .modeChange => some (onModeChange t)
  else some t

/-- The transfer of a connection that has made its request. -/
def begin (c : HttpConnection) : Transfer := ⟨c, 0, [], [], true⟩

def transfer (c : HttpConnection) (log : List BufferedSocket.Event) : Option Transfer := log.foldlM (handle env) (begin c)

/-- The mode that a line calls for. -/
def choice (events : List Event) : Choice :=
  match events.find? Event.isDataMode with
  | some (.dataMode n) => if n = -1 then .all else .bytes n.toNat
  | _ => .stay

/-- What the connection does with the socket when it gets a line. -/
def listener (c : HttpConnection) : Listener := fun log =>
  match log.getLast?, transfer env c log.dropLast with
  | some (.line l), some t =>
    if t.listening then
      match onLine env t.connection l with
      | some r => choice r.2
      | none => .stay
    else .stay
  | _, _ => .stay

/-- A line as the socket hands it on, and as it is sent. -/
def received (l : Bytes) : Bytes := l ++ [byte '\r']
def text (l : Bytes) : Bytes := received l ++ [byte '\n']

/-- A part of the header that leaves the size as it is. -/
structure Kept (l : Bytes) : Prop where
  head : (received l).headD 0 ≠ 0x0d
  noLength : names env (received l) "Content-Length" = false
  encoding : names env (received l) "Content-Encoding" = true → 18 ≤ (received l).length
  type : names env (received l) "Content-Type" = true → 14 ≤ (received l).length

/-- A line that the socket takes. -/
def Fits (maxLength : Nat) (l : Bytes) : Prop := byte '\n' ∉ l ∧ (received l).length ≤ maxLength

def IsStatus (l : Bytes) : Prop := (Edit.find (str "200") (received l) 0).isSome = true

def lengthLine (n : Nat) : Bytes := str "Content-Length: " ++ Util.toString n

/-- A part of the body, behind a line with its size. -/
structure Chunk where
  line : Bytes
  data : Bytes

/-- The size in the line of a chunk; what is behind a semicolon is left out. -/
def chunkSize (aLine : Bytes) : Nat := strtoul16 (aLine.take ((Edit.find (str ";") aLine 0).getD (aLine.length - 1)))

def Chunk.text (c : Chunk) : Bytes := HttpConnection.text c.line ++ (c.data ++ HttpConnection.text [])

structure Chunk.Valid (maxLength : Nat) (c : Chunk) : Prop where
  line : c.line ≠ []
  fits : Fits maxLength c.line
  data : c.data ≠ []
  size : chunkSize (received c.line) = c.data.length
  small : c.data.length < 2 ^ 63

/-- The responses that have a body, with the body. -/
inductive Response (maxLength : Nat) : (stream body : Bytes) → Prop
  | sized {status : Bytes} {before after : List Bytes} {body : Bytes} (hstatus : IsStatus status ∧ Fits maxLength status)
      (hbefore : ∀ l ∈ before, Kept env l ∧ Fits maxLength l) (hafter : ∀ l ∈ after, Kept env l ∧ Fits maxLength l)
      (hlength : Fits maxLength (lengthLine body.length)) (hne : body ≠ []) (hsize : body.length < 2 ^ 31) :
      Response maxLength (text status ++ (before.flatMap text ++ (text (lengthLine body.length) ++ (after.flatMap text ++
        (text [] ++ body))))) body
  | chunked {status last : Bytes} {headers : List Bytes} {chunks : List Chunk}
      (hstatus : IsStatus status ∧ Fits maxLength status) (hheaders : ∀ l ∈ headers, Kept env l ∧ Fits maxLength l)
      (hchunks : ∀ c ∈ chunks, c.Valid maxLength)
      (hlast : last ≠ [] ∧ Fits maxLength last ∧ chunkSize (received last) = 0) :
      Response maxLength (text status ++ (headers.flatMap text ++ (text [] ++ (chunks.flatMap Chunk.text ++
        (text last ++ text []))))) (chunks.flatMap Chunk.data)

section Calls

variable {env} {c : HttpConnection} {t t' : Transfer} {log log' : List BufferedSocket.Event}

/-- The data does not go over the size. -/
def Room (t : Transfer) (d : Bytes) : Prop :=
  t.connection.size = -1 ∨ (d.length : Int) ≤ (t.connection.size - t.done) % 2 ^ 64

theorem onData_of_room {d : Bytes} (h : Room t d) :
    onData t d = { t with done := t.done + d.length, body := t.body ++ d } := by
  apply if_neg
  rintro ⟨hsize, hlt⟩
  obtain h | h := h
  · exact hsize h
  · exact absurd hlt (Int.not_lt.mpr h)

theorem Room.append {a b : Bytes} (h : Room t (a ++ b)) : Room t a ∧ Room (onData t a) b := by
  have hleft : Room t a := by
    apply h.imp_right
    intro hle
    rw [List.length_append] at hle
    omega
  refine ⟨hleft, ?_⟩
  rw [onData_of_room hleft]
  apply h.imp_right
  intro hle
  rw [List.length_append] at hle
  dsimp only
  omega

theorem onData_append {a b : Bytes} (h : Room t (a ++ b)) : onData (onData t a) b = onData t (a ++ b) := by
  obtain ⟨hleft, hright⟩ := h.append
  rw [onData_of_room hright, onData_of_room hleft, onData_of_room h, List.append_assoc, List.length_append]
  dsimp only
  rw [Int.natCast_add, Int.add_assoc]

variable (env c)

/-- The transfer behind some calls, none of which has brought too much data. -/
inductive Follows : List BufferedSocket.Event → Transfer → Prop
  | begin : Follows [] (begin c)
  | step {log : List BufferedSocket.Event} {t t' : Transfer} {e : BufferedSocket.Event} (h : Follows log t)
      (he : handle env t e = some t') (hroom : ∀ d, e = .data d → t.listening = true → Room t d) : Follows (log ++ [e]) t'

variable {env c}

theorem Follows.transfer (h : Follows env c log t) : transfer env c log = some t := by
  induction h with
  | begin => rfl
  | step h he hroom ih =>
    rw [HttpConnection.transfer] at ih ⊢
    rw [List.foldlM_append, ih]
    simp [he]

theorem Follows.last {e : BufferedSocket.Event} (h : Follows env c (log ++ [e]) t) :
    ∃ s, Follows env c log s ∧ handle env s e = some t ∧ ∀ d, e = .data d → s.listening = true → Room s d := by
  generalize hl : log ++ [e] = l at h
  cases h with
  | begin => exact absurd hl (by simp)
  | step h he hroom =>
    obtain ⟨rfl, hlast⟩ := List.append_inj' hl rfl
    obtain rfl := List.singleton_inj.mp hlast
    exact ⟨_, h, he, hroom⟩

/-- The calls for data may come in smaller pieces. -/
theorem follows_of_joined {fired : List BufferedSocket.Event} (h : Follows env c (joined fired) t) : Follows env c fired t := by
  induction fired using List.reverseRecOn generalizing t with
  | nil => exact h
  | append_singleton fired e ih =>
    cases e with
    | line l =>
      rw [joined_line] at h
      obtain ⟨s, hs, he, hroom⟩ := h.last
      exact (ih hs).step he hroom
    | modeChange =>
      rw [joined_modeChange] at h
      obtain ⟨s, hs, he, hroom⟩ := h.last
      exact (ih hs).step he hroom
    | data d =>
      rw [joined_data] at h
      rw [addData] at h
      split at h
      next hnil =>
        refine (ih h).step ?_ ?_
        · rw [hnil, handle]
          split
          · have hroom : Room t [] := Or.inr (Int.emod_nonneg _ (by decide))
            rw [onData_of_room hroom, List.append_nil, List.length_nil, Int.natCast_zero, Int.add_zero]
          · rfl
        · rintro _ h _
          obtain rfl := BufferedSocket.Event.data.inj h
          rw [hnil]
          exact Or.inr (Int.emod_nonneg _ (by decide))
      next =>
        split at h
        next d' hlast =>
          obtain ⟨s, hs, he, hroom⟩ := h.last
          have hjoined : joined fired = (joined fired).dropLast ++ [.data d'] := by
            exact (List.dropLast_append_getLast? _ hlast).symm
          rw [handle] at he
          split at he
          next hlistening =>
            have hr := hroom _ rfl hlistening
            have hbefore : Follows env c (joined fired) (onData s d') := by
              rw [hjoined]
              refine hs.step ?_ ?_
              · rw [handle, if_pos hlistening]
              · rintro _ h _
                obtain rfl := BufferedSocket.Event.data.inj h
                exact hr.append.1
            refine (ih hbefore).step ?_ ?_
            · have hon : (onData s d').listening = true := by
                rw [onData_of_room hr.append.1]
                exact hlistening
              rw [handle, if_pos hon, ← he]
              exact congrArg some (onData_append hr)
            · rintro _ h _
              obtain rfl := BufferedSocket.Event.data.inj h
              exact hr.append.2
          next hno =>
            have hbefore : Follows env c (joined fired) t := by
              rw [hjoined]
              refine hs.step ?_ fun _ _ hyes => absurd hyes hno
              rw [handle, if_neg hno]
              exact he
            obtain rfl := Option.some.inj he
            exact (ih hbefore).step (by rw [handle, if_neg hno]) fun _ _ hyes => absurd hyes hno
        next =>
          obtain ⟨s, hs, he, hroom⟩ := h.last
          exact (ih hs).step he hroom

/-- A line that is handled. -/
theorem Follows.line {l : Bytes} {d : HttpConnection} {events : List Event} (h : Follows env c log t)
    (hl : t.listening = true) (hon : onLine env t.connection l = some (d, events)) :
    Follows env c (log ++ [.line l]) (t.after d events) ∧ listener env c (log ++ [.line l]) = choice events := by
  constructor
  · refine h.step ?_ fun _ h => nomatch h
    rw [handle, if_pos hl, hon]
    rfl
  · rw [listener, List.getLast?_concat, List.dropLast_concat, h.transfer]
    dsimp only
    rw [if_pos hl, hon]

end Calls

section Stages

variable {env} {c : HttpConnection} {maxLength : Nat} {log log' : List BufferedSocket.Event} {t t' : Transfer}

/-- The transfer waits for more on its socket. -/
structure On (t : Transfer) (state : ConnState) (n : Int) (data : Bytes) : Prop where
  connState : t.connection.connState = state
  size : t.connection.size = n
  connected : t.connection.connected = true
  listening : t.listening = true
  body : t.body = data
  done : t.done = data.length
  fired : t.fired = []

variable (env c maxLength)

/-- Some bytes, behind which the transfer is another one, and the socket waits for a line again. -/
structure Leads (log : List BufferedSocket.Event) (stream : Bytes) (log' : List BufferedSocket.Event) (t' : Transfer) : Prop where
  follows : Follows env c log' t'
  split : ∀ rest all, Split (listener env c) (byte '\n') maxLength .line log' rest all →
    Split (listener env c) (byte '\n') maxLength .line log (stream ++ rest) all

variable {env c maxLength}

theorem Leads.nil (h : Follows env c log t) : Leads env c maxLength log [] log t := ⟨h, fun _ _ hs => hs⟩

theorem Leads.trans {a b : Bytes} {log'' : List BufferedSocket.Event} {t'' : Transfer} (h : Leads env c maxLength log a log' t')
    (h' : Leads env c maxLength log' b log'' t'') : Leads env c maxLength log (a ++ b) log'' t'' := by
  refine ⟨h'.follows, fun rest all hs => ?_⟩
  rw [List.append_assoc]
  exact h.split _ _ (h'.split _ _ hs)

/-- The socket splits off a line. -/
theorem split_text {l rest : Bytes} {all : List BufferedSocket.Event} (hfits : Fits maxLength l)
    (h : Split (listener env c) (byte '\n') maxLength (afterChoice (listener env c (log ++ [.line (received l)])))
      (log ++ [.line (received l)]) rest all) :
    Split (listener env c) (byte '\n') maxLength .line log (text l ++ rest) all := by
  have hne : received l ≠ [] := List.append_ne_nil_of_right_ne_nil l (List.cons_ne_nil _ _)
  have hline : byte '\n' ∉ received l := by
    intro hin
    obtain hin | hin := List.mem_append.mp hin
    · exact hfits.1 hin
    · exact absurd hin (by decide)
  rw [text, List.append_assoc]
  exact .line hne hline hfits.2 h

/-- A line that asks for no data. -/
theorem Leads.line {l : Bytes} {d : HttpConnection} {events : List Event} (h : Follows env c log t) (hl : t.listening = true)
    (hfits : Fits maxLength l) (hon : onLine env t.connection (received l) = some (d, events)) (hchoice : choice events = .stay) :
    Leads env c maxLength log (text l) (log ++ [.line (received l)]) (t.after d events) := by
  obtain ⟨hfollows, hlistener⟩ := h.line hl hon
  refine ⟨hfollows, fun rest all hs => split_text hfits ?_⟩
  rw [hlistener, hchoice]
  exact hs

theorem On.after {state : ConnState} {size : Int} {body : Bytes} {d : HttpConnection} (h : On t state size body)
    {state' : ConnState} {size' : Int} (hstate : d.connState = state') (hsize : d.size = size') (hc : d.connected = true) :
    On (t.after d []) state' size' body :=
  ⟨hstate, hsize, hc, by rw [Transfer.after, hc]; rfl, h.body, h.done, by rw [Transfer.after, h.fired]; rfl⟩

/-- A line behind the status line, which is no line of a chunk. -/
theorem behind_status {d : HttpConnection} {aLine : Bytes} {p : Prop}
    (h : d.connState = .ok ∨ d.connState = .chunked ∧ aLine.length ≤ 1) :
    ¬(d.connState = .chunked ∧ 1 < aLine.length) ∧ ¬d.connState = .unknown ∧ ¬(d.connState = .moved ∧ p) := by
  obtain h | ⟨h, hlen⟩ := h
  · rw [h]
    exact ⟨fun h => absurd h.1 (by decide), by decide, fun h => absurd h.1 (by decide)⟩
  · rw [h]
    exact ⟨fun h => absurd h.2 (Nat.not_lt.mpr hlen), by decide, fun h => absurd h.1 (by decide)⟩

/-- A line of the header is passed by. -/
theorem onLine_kept {d : HttpConnection} {l : Bytes} (hstate : d.connState = .ok) (hk : Kept env l) :
    ∃ mime, onLine env d (received l) = some ({ d with mimeType := mime }, []) := by
  obtain ⟨hnochunk, hnounknown, hnomoved⟩ := @behind_status d (received l) (names env (received l) "Location" = true)
    (Or.inl hstate)
  rw [onLine, if_neg hnochunk, if_neg hnounknown, if_neg hnomoved, if_neg hk.head, hk.noLength, if_neg (by decide)]
  split
  · split
    next hencoding =>
      rw [Edit.substr_of_le (hk.encoding hencoding)]
      simp only [Option.bind_eq_bind, Option.bind_some]
      split
      · exact ⟨_, rfl⟩
      · exact ⟨d.mimeType, rfl⟩
    next =>
      split
      next htype =>
        rw [Edit.substr_of_le (hk.type htype)]
        exact ⟨_, rfl⟩
      next => exact ⟨d.mimeType, rfl⟩
  · exact ⟨d.mimeType, rfl⟩

/-- The lines of the header are passed by. -/
theorem leads_kept {size : Int} {body : Bytes} {ls : List Bytes} (hls : ∀ l ∈ ls, Kept env l ∧ Fits maxLength l)
    (h : Follows env c log t) (ht : On t .ok size body) :
    ∃ log' t', Leads env c maxLength log (ls.flatMap text) log' t' ∧ On t' .ok size body := by
  induction ls generalizing log t with
  | nil => exact ⟨log, t, .nil h, ht⟩
  | cons l ls ih =>
    obtain ⟨hk, hfits⟩ := hls l List.mem_cons_self
    obtain ⟨mime, hon⟩ := onLine_kept ht.connState hk
    have hleads := Leads.line h ht.listening hfits hon rfl
    have hkept : On (t.after { t.connection with mimeType := mime } []) .ok size body :=
      ht.after ht.connState ht.size ht.connected
    obtain ⟨log', t', hrest, ht'⟩ := ih (fun m hm => hls m (List.mem_cons_of_mem l hm)) hleads.follows hkept
    exact ⟨log', t', hleads.trans hrest, ht'⟩

/-- The status line of a response that has what was asked for. -/
theorem leads_status {status : Bytes} (hs : IsStatus status ∧ Fits maxLength status) (h : Follows env c log t)
    {n : Int} {data : Bytes} (ht : On t .unknown n data) :
    ∃ log' t', Leads env c maxLength log (text status) log' t' ∧ On t' .ok n data := by
  have hon : onLine env t.connection (received status) =
      some ({ t.connection with statusLine := trim isSpace (received status), connState := .ok }, []) := by
    have hnochunk : ¬(t.connection.connState = .chunked ∧ 1 < (received status).length) := by
      rw [ht.connState]
      exact fun h => absurd h.1 (by decide)
    have hfound : (Edit.find (str "200") (received status) 0).isSome = true := hs.1
    rw [onLine, if_neg hnochunk, if_pos ht.connState, onStatus]
    dsimp only
    rw [if_pos hfound]
  exact ⟨_, _, .line h ht.listening hs.2 hon rfl, ht.after rfl ht.size ht.connected⟩

/-- A name in ASCII is found at the front of a line. -/
theorem names_front {header : String} {rest : Bytes} (hne : str header ≠ [])
    (hall : (str header).all (fun c => decide (c < 0x80)) = true) (hnul : 0 ∉ str header) :
    names env (str header ++ rest) header = true := by
  have hascii : ∀ c ∈ str header, c < 0x80 := fun c hc => of_decide_eq_true (List.all_eq_true.mp hall c hc)
  rw [names, Option.isSome_iff_ne_none]
  intro hnone
  have hfalse := findSubString_none env.locale hnone (q := 0) (by rw [List.length_append]; omega) ⟨le_rfl, Or.inl rfl⟩
  rw [matchesAt_eq env.locale hne hnul, List.drop_zero, matchRest_of_lower env.locale hascii hnul rfl] at hfalse
  cases hfalse

/-- The line with the size. -/
theorem leads_length {n : Nat} (hn : n < 2 ^ 31) (hfits : Fits maxLength (lengthLine n)) (h : Follows env c log t)
    {m : Int} {data : Bytes} (ht : On t .ok m data) :
    ∃ log' t', Leads env c maxLength log (text (lengthLine n)) log' t' ∧ On t' .ok n data := by
  have hline : received (lengthLine n) = str "Content-Length" ++ (str ": " ++ Util.toString n ++ [byte '\r']) := by
    rw [received, lengthLine]
    simp [str]
  have hvalue : Edit.substr (received (lengthLine n)) 16 (distance 17 (received (lengthLine n)).length) =
      some (Util.toString n) := by
    have hlen : (received (lengthLine n)).length = 17 + (Util.toString n).length := by
      rw [hline]
      simp only [str, List.length_append, List.length_map, String.length_toList, List.length_singleton]
      have : "Content-Length".length = 14 := rfl
      have : ": ".length = 2 := rfl
      omega
    have hcount : distance 17 (received (lengthLine n)).length = (Util.toString n).length := by
      rw [distance, if_pos (by omega), hlen, Nat.add_sub_cancel_left]
    have hcut := Edit.substr_append (str "Content-Length: ") (Util.toString n) [byte '\r']
    rw [hcount, received, lengthLine, List.append_assoc]
    exact hcut
  have hon : onLine env t.connection (received (lengthLine n)) = some ({ t.connection with size := n }, []) := by
    obtain ⟨hnochunk, hnounknown, hnomoved⟩ := @behind_status t.connection (received (lengthLine n))
      (names env (received (lengthLine n)) "Location" = true) (Or.inl ht.connState)
    have hhead : (received (lengthLine n)).headD 0 ≠ 0x0d := by
      have hC : (received (lengthLine n)).headD 0 = byte 'C' := by
        rw [hline]
        rfl
      rw [hC]
      decide
    have hnames : names env (received (lengthLine n)) "Content-Length" = true := by
      rw [hline]
      exact names_front (by decide) (by decide) (by decide)
    rw [onLine, if_neg hnochunk, if_neg hnounknown, if_neg hnomoved, if_neg hhead, if_pos hnames, hvalue]
    have hsize : Util.toInt (Util.toString n) = n := Util.toInt_toString (by omega) (by omega)
    rw [Option.bind_eq_bind, Option.bind_some, hsize]
    rfl
  exact ⟨_, _, .line h ht.listening hfits hon rfl, ht.after ht.connState rfl ht.connected⟩

/-- The blank line, when no size was given. -/
theorem leads_blank (hmax : 0 < maxLength) (h : Follows env c log t) {data : Bytes} {state : ConnState}
    (hstate : state = .ok ∨ state = .chunked) (ht : On t state (-1) data) :
    ∃ log' t', Leads env c maxLength log (text []) log' t' ∧ On t' .chunked (-1) data := by
  have hon : onLine env t.connection (received []) = some ({ t.connection with connState := .chunked }, []) := by
    obtain ⟨hnochunk, hnounknown, hnomoved⟩ := @behind_status t.connection (received [])
      (names env (received []) "Location" = true) (hstate.imp ht.connState.trans fun h => ⟨ht.connState.trans h, le_rfl⟩)
    rw [onLine, if_neg hnochunk, if_neg hnounknown, if_neg hnomoved, if_pos (by rfl), if_neg (not_not_intro ht.size)]
  exact ⟨_, _, .line h ht.listening ⟨List.not_mem_nil, hmax⟩ hon rfl, ht.after rfl ht.size ht.connected⟩

/-- The data that a line has called for, and the change back to lines. -/
theorem split_data {events : List Event} {l d rest : Bytes} {k : HttpConnection} {all : List BufferedSocket.Event}
    (h : Follows env c log t) (hl : t.listening = true) (hfits : Fits maxLength l)
    (hon : onLine env t.connection (received l) = some (k, events)) (hchoice : choice events = .bytes d.length) (hd : d ≠ [])
    (hs : Split (listener env c) (byte '\n') maxLength .line (log ++ [.line (received l), .data d, .modeChange]) rest all) :
    Split (listener env c) (byte '\n') maxLength .line log (text l ++ (d ++ rest)) all := by
  apply split_text hfits
  rw [(h.line hl hon).2, hchoice]
  apply Split.block rfl (List.append_ne_nil_of_left_ne_nil hd rest)
  have hadd : addData (log ++ [.line (received l)]) d = log ++ [.line (received l)] ++ [.data d] := by
    rw [addData, if_neg hd, List.getLast?_concat]
  rw [hadd, List.append_assoc, List.append_assoc]
  exact hs

/-- The transfer behind the data, while it does not go over the size. -/
theorem Follows.data {d : Bytes} (h : Follows env c log t) (hl : t.listening = true) (hroom : Room t d) :
    Follows env c (log ++ [.data d]) { t with done := t.done + d.length, body := t.body ++ d } := by
  refine h.step ?_ ?_
  · rw [handle, if_pos hl]
    exact congrArg some (onData_of_room hroom)
  · rintro _ h _
    obtain rfl := BufferedSocket.Event.data.inj h
    exact hroom

theorem onModeChange_of_ok (h : t.connection.connState = .ok) :
    onModeChange t = { t with
      connection := { t.connection with connected := false }
      fired := t.fired ++ [.complete]
      listening := false } := by
  apply if_pos
  rw [h]
  decide

theorem Follows.modeChange (h : Follows env c log t) (hl : t.listening = true) :
    Follows env c (log ++ [.modeChange]) (onModeChange t) :=
  h.step (by rw [handle, if_pos hl]) fun _ h => nomatch h

/-- What the line of a chunk calls for. -/
theorem onLine_chunk {d : HttpConnection} {l : Bytes} {n : Nat} (hstate : d.connState = .chunked) (hl : l ≠ [])
    (hsize : chunkSize (received l) = n) (hn : n ≠ 0) (hsmall : n < 2 ^ 63) :
    onLine env d (received l) = some (d, [.dataMode n]) := by
  have hlong : 1 < (received l).length := by
    rw [received, List.length_append]
    exact Nat.lt_add_of_pos_left (List.length_pos_iff.mpr hl)
  have hmax : n ≠ ULONG_MAX := by
    rw [ULONG_MAX]
    omega
  have hbmod : (n : Int).bmod (2 ^ 64) = n := by
    rw [Int.bmod_eq_of_le] <;> omega
  rw [chunkSize] at hsize
  rw [onLine, if_pos ⟨hstate, hlong⟩, onChunk, Edit.substr_of_le (Nat.zero_le _)]
  simp only [Option.bind_eq_bind, Option.bind_some, List.drop_zero, hsize]
  rw [if_neg hn, if_neg hmax, hbmod]
  rfl

/-- A chunk of the body. -/
theorem leads_chunk {k : Chunk} (hk : k.Valid maxLength) (hmax : 0 < maxLength) (h : Follows env c log t) {data : Bytes}
    (ht : On t .chunked (-1) data) :
    ∃ log' t', Leads env c maxLength log k.text log' t' ∧ On t' .chunked (-1) (data ++ k.data) := by
  have hon := @onLine_chunk env t.connection k.line k.data.length ht.connState hk.line hk.size
    (fun hzero => hk.data (List.length_eq_zero_iff.mp hzero)) hk.small
  have hline := (h.line ht.listening hon).1
  have hl : (t.after t.connection [.dataMode k.data.length]).listening = true := by
    rw [Transfer.after, ht.connected]
    rfl
  have hmode := (@Follows.data env c _ _ k.data hline hl (Or.inl ht.size)).modeChange hl
  rw [List.append_assoc, List.append_assoc] at hmode
  have hsame : onModeChange { t.after t.connection [.dataMode k.data.length] with
      done := t.done + k.data.length, body := t.body ++ k.data } =
      { t.after t.connection [.dataMode k.data.length] with done := t.done + k.data.length, body := t.body ++ k.data } :=
    if_neg (not_not_intro ht.connState)
  have hwaits : On { t.after t.connection [.dataMode k.data.length] with
      done := t.done + k.data.length, body := t.body ++ k.data } .chunked (-1) (data ++ k.data) := by
    refine ⟨ht.connState, ht.size, ht.connected, hl, by rw [ht.body], ?_, by rw [Transfer.after, ht.fired]; rfl⟩
    rw [ht.done, List.length_append, Int.natCast_add]
  obtain ⟨log', t', hblank, ht'⟩ := leads_blank hmax (hsame ▸ hmode) (Or.inr rfl) hwaits
  refine ⟨log', t', ⟨hblank.follows, fun rest all hs => ?_⟩, ht'⟩
  rw [Chunk.text, List.append_assoc, List.append_assoc]
  refine split_data h ht.listening hk.fits hon ?_ hk.data (hblank.split _ _ hs)
  rw [choice]
  exact if_neg (by omega)

theorem leads_chunks {chunks : List Chunk} (hchunks : ∀ k ∈ chunks, k.Valid maxLength) (hmax : 0 < maxLength)
    (h : Follows env c log t) {data : Bytes} (ht : On t .chunked (-1) data) :
    ∃ log' t', Leads env c maxLength log (chunks.flatMap Chunk.text) log' t' ∧
      On t' .chunked (-1) (data ++ chunks.flatMap Chunk.data) := by
  induction chunks generalizing log t data with
  | nil => exact ⟨log, t, .nil h, by rw [List.flatMap_nil, List.append_nil]; exact ht⟩
  | cons k chunks ih =>
    obtain ⟨log₁, t₁, hk, ht₁⟩ := leads_chunk (hchunks k List.mem_cons_self) hmax h ht
    obtain ⟨log₂, t₂, hrest, ht₂⟩ := ih (fun m hm => hchunks m (List.mem_cons_of_mem k hm)) hk.follows ht₁
    rw [List.append_assoc] at ht₂
    exact ⟨log₂, t₂, hk.trans hrest, ht₂⟩

/-- Behind the end of the transfer the lines are passed by. -/
theorem Leads.ignored {l : Bytes} (h : Follows env c log t) (hl : t.listening = false) (hfits : Fits maxLength l) :
    Leads env c maxLength log (text l) (log ++ [.line (received l)]) t := by
  have hno : ¬t.listening = true := Bool.eq_false_iff.mp hl
  refine ⟨h.step (by rw [handle, if_neg hno]) (fun _ h => nomatch h), fun rest all hs => split_text hfits ?_⟩
  rw [listener, List.getLast?_concat, List.dropLast_concat, h.transfer]
  dsimp only
  rw [if_neg hno]
  exact hs

/-- The transfer has come to its end, with a body. -/
structure Ended (t : Transfer) (data : Bytes) : Prop where
  body : t.body = data
  fired : t.fired = [.complete]
  listening : t.listening = false
  connState : t.connection.connState = .ok

/-- The calls that a response leads to. -/
theorem response_split {stream data : Bytes} (hr : Response env maxLength stream data) (hunknown : c.connState = .unknown)
    (hsize : c.size = -1) (hconnected : c.connected = true) : ∃ all t,
      Split (listener env c) (byte '\n') maxLength .line [] stream all ∧ Follows env c all t ∧ Ended t data := by
  have ht : On (begin c) .unknown (-1) [] := ⟨hunknown, hsize, hconnected, rfl, rfl, rfl, rfl⟩
  cases hr with
  | @sized status before after body hstatus hbefore hafter hlength hne hsmall =>
    have hmax : 0 < maxLength := Nat.lt_of_lt_of_le (Nat.succ_pos _) (List.length_append ▸ hstatus.2.2)
    obtain ⟨log₁, t₁, h₁, ht₁⟩ := leads_status hstatus .begin ht
    obtain ⟨log₂, t₂, h₂, ht₂⟩ := leads_kept hbefore h₁.follows ht₁
    obtain ⟨log₃, t₃, h₃, ht₃⟩ := leads_length hsmall hlength h₂.follows ht₂
    obtain ⟨log₄, t₄, h₄, ht₄⟩ := leads_kept hafter h₃.follows ht₃
    have hon : onLine env t₄.connection (received []) = some (t₄.connection, [.dataMode data.length]) := by
      obtain ⟨hnochunk, hnounknown, hnomoved⟩ := @behind_status t₄.connection (received [])
        (names env (received []) "Location" = true) (Or.inl ht₄.connState)
      rw [onLine, if_neg hnochunk, if_neg hnounknown, if_neg hnomoved, if_pos (by rfl), ht₄.size, if_pos (by omega)]
    have hline := (h₄.follows.line ht₄.listening hon).1
    have hl : (t₄.after t₄.connection [.dataMode data.length]).listening = true := by
      rw [Transfer.after, ht₄.connected]
      rfl
    have hroom : Room (t₄.after t₄.connection [.dataMode data.length]) data := by
      right
      have hdone : (t₄.after t₄.connection [.dataMode data.length]).done = 0 := ht₄.done
      have hsize : (t₄.after t₄.connection [.dataMode data.length]).connection.size = data.length := ht₄.size
      rw [hdone, hsize]
      omega
    have hmode := (hline.data hl hroom).modeChange hl
    rw [List.append_assoc, List.append_assoc] at hmode
    refine ⟨_, _, ?_, hmode, ?_⟩
    · refine h₁.split _ _ (h₂.split _ _ (h₃.split _ _ (h₄.split _ _ ?_)))
      have hend := @split_data env c maxLength log₄ t₄ _ [] data [] t₄.connection _ h₄.follows ht₄.listening
        ⟨List.not_mem_nil, hmax⟩ hon (by rw [choice]; exact if_neg (by omega)) hne
        (.unfinished List.not_mem_nil (Nat.zero_le _))
      rw [List.append_nil] at hend
      exact hend
    · rw [onModeChange_of_ok (by exact ht₄.connState)]
      refine ⟨?_, ?_, rfl, ht₄.connState⟩
      · change t₄.body ++ data = data
        rw [ht₄.body, List.nil_append]
      · change t₄.fired ++ [] ++ [.complete] = [.complete]
        rw [ht₄.fired]
        rfl
  | @chunked status last headers chunks hstatus hheaders hchunks hlast =>
    have hmax : 0 < maxLength := Nat.lt_of_lt_of_le (Nat.succ_pos _) (List.length_append ▸ hstatus.2.2)
    obtain ⟨hne, hfits, hzero⟩ := hlast
    obtain ⟨log₁, t₁, h₁, ht₁⟩ := leads_status hstatus .begin ht
    obtain ⟨log₂, t₂, h₂, ht₂⟩ := leads_kept hheaders h₁.follows ht₁
    obtain ⟨log₃, t₃, h₃, ht₃⟩ := leads_blank hmax h₂.follows (Or.inl rfl) ht₂
    obtain ⟨log₄, t₄, h₄, ht₄⟩ := leads_chunks hchunks hmax h₃.follows ht₃
    have hon : onLine env t₄.connection (received last) =
        some ({ t₄.connection with connected := false, connState := .ok }, [.complete]) := by
      have hlong : 1 < (received last).length := by
        rw [received, List.length_append]
        exact Nat.lt_add_of_pos_left (List.length_pos_iff.mpr hne)
      rw [chunkSize] at hzero
      rw [onLine, if_pos ⟨ht₄.connState, hlong⟩, onChunk, Edit.substr_of_le (Nat.zero_le _)]
      simp only [Option.bind_eq_bind, Option.bind_some, List.drop_zero, hzero]
      rfl
    have h₅ := Leads.line h₄.follows ht₄.listening hfits hon rfl
    have h₆ := @Leads.ignored env c maxLength _ _ [] h₅.follows rfl ⟨List.not_mem_nil, hmax⟩
    refine ⟨_, _, ?_, h₆.follows, ?_⟩
    · have hend := h₆.split [] _ (.unfinished List.not_mem_nil (Nat.zero_le _))
      rw [List.append_nil] at hend
      exact h₁.split _ _ (h₂.split _ _ (h₃.split _ _ (h₄.split _ _ (h₅.split _ _ hend))))
    · refine ⟨?_, ?_, rfl, rfl⟩
      · change t₄.body = chunks.flatMap Chunk.data
        rw [ht₄.body, List.nil_append]
      · change t₄.fired ++ [.complete] = [.complete]
        rw [ht₄.fired]
        rfl

end Stages

def asking : HttpConnection := { redirecting with statusLine := [], connState := .unknown }

end Dcpp.HttpConnection
