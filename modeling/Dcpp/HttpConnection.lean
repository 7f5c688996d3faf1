import Mathlib.Data.List.DropRight
import Dcpp.DecodeUrl
import Dcpp.EncodeURI
import Dcpp.FindSubString

-- The lines that a web server sends.
namespace Dcpp

namespace Util

open Edit

def trim (p : UInt8 → Bool) (s : Bytes) : Bytes := (s.dropWhile p).rdropWhile p

def sanitizeUrl (url : Bytes) : Bytes := trim (fun c => isSpace c || c ∈ str "<>\"") url

def ULONG_MAX : Nat := 2 ^ 64 - 1

/-- `strtoul` in base 16. -/
def strtoul16 (s : Bytes) : Nat :=
  let s := (s.takeWhile (· ≠ 0)).dropWhile isSpace
  let signed := s.head? = some (byte '-') ∨ s.head? = some (byte '+')
  let digits := if signed then s.tail else s
  let digits :=
    match digits with
    | z :: x :: d :: rest =>
      if z = byte '0' ∧ (x = byte 'x' ∨ x = byte 'X') ∧ isxdigit d then d :: rest else digits
    | _ => digits
  let n := (digits.takeWhile isxdigit).foldl (fun n c => 16 * n + ((xdigit? c).getD 0).toNat) 0
  if ULONG_MAX < n then ULONG_MAX
  else if s.head? = some (byte '-') then (2 ^ 64 - n) % 2 ^ 64
  else n

end Util

namespace HttpConnection

open Edit Util

inductive ConnState where
  | unknown | ok | failed | moved | chunked
deriving DecidableEq

/-- What the connection fires, and the data mode that it sets on its socket. -/
inductive Event where
  | complete
  | failed (aLine : Bytes)
  | redirected (aUrl : Bytes)
  | dataMode (aBytes : Int)
deriving DecidableEq

/-- The settings and the rest of the program: `connect` gives the text of its exception. -/
structure Environment where
  locale : Util.Locale
  httpProxy : Bytes
  connect : (server port : Bytes) → (secure : Bool) → Option Bytes

end HttpConnection

open HttpConnection in
/-- A connection; `connected` while it listens to a socket. -/
structure HttpConnection where
  url : Bytes
  server : Bytes
  port : Bytes
  file : Bytes
  mimeType : Bytes
  statusLine : Bytes
  size : Int
  connState : ConnState
  connected : Bool
deriving DecidableEq

namespace HttpConnection

open Edit Util

variable (env : Environment)

/-- The text of a failure. -/
def failure (what url : Bytes) : Bytes := what ++ str " (" ++ url ++ str ")"

/-- `prepareRequest` of a GET. There is no result where an index is out of range, which throws. -/
def prepareRequest (c : HttpConnection) : Option (HttpConnection × List Event) := do
  let url := sanitizeUrl c.url
  let ext ← substr url (distance 4 url.length) url.length
  let mimeType := if noCaseStringEq env.locale ext (str ".bz2") then str "application/x-bzip2" else []
  let u ← decodeUrl (if env.httpProxy = [] then url else env.httpProxy) ⟨[], c.server, c.port, c.file, [], []⟩
  let file := if env.httpProxy = [] then if u.path = [] then str "/" else u.path else url
  let file := if u.query ≠ [] then file ++ byte '?' :: u.query else file
  let port := if u.port = [] then str "80" else u.port
  let c := { c with url, server := u.host, port, file, mimeType, size := -1, connState := .unknown, connected := true }
  match env.connect c.server c.port (u.protocol = str "https") with
  | none => return (c, [])
  | some error => return ({ c with connState := .failed }, [.failed (failure error url)])

def download (c : HttpConnection) : Option (HttpConnection × List Event) := prepareRequest env c

/-- The URL of a redirect, also of one with a relative path. -/
def resolve (c : HttpConnection) (location : Bytes) : Option (HttpConnection × Bytes) :=
  if find (str "://") location 0 = none then
    if location.headD 0 = byte '/' then do
      let u ← decodeUrl c.url ⟨[], c.server, c.port, c.file, [], []⟩
      let tmp := u.protocol ++ str "://" ++ u.host
      -- every port is other than 80 or other than 443
      let tmp := if u.port ≠ str "80" ∨ u.port ≠ str "443" then tmp ++ byte ':' :: u.port else tmp
      return ({ c with server := u.host, port := u.port, file := u.path }, tmp ++ location)
    else do
      let i := (rfind (byte '/') c.url c.url.length).elim 0 (· + 1)
      return (c, (← substr c.url 0 i) ++ location)
  else some (c, location)

def onLocation (c : HttpConnection) (aLine : Bytes) : Option (HttpConnection × List Event) := do
  let c := { c with connected := false }
  let location ← substr aLine 10 (distance 10 aLine.length)
  let (c, location) ← resolve c (sanitizeUrl location)
  if location = c.url then
    return ({ c with connState := .failed }, [.failed (str "Endless redirection loop (" ++ c.url ++ str ")")])
  else
    let (d, events) ← download env { c with url := location }
    return (d, .redirected location :: events)

def onChunk (c : HttpConnection) (aLine : Bytes) : Option (HttpConnection × List Event) := do
  let chunkSizeStr ← substr aLine 0 ((find (str ";") aLine 0).getD (aLine.length - 1))
  let chunkSize := strtoul16 chunkSizeStr
  if chunkSize = 0 then return ({ c with connected := false, connState := .ok }, [.complete])
  else if chunkSize = ULONG_MAX then
    return ({ c with connected := false, connState := .failed },
      [.failed (str "Transfer-encoding error (" ++ c.url ++ str ")")])
  else return (c, [.dataMode ((chunkSize : Int).bmod (2 ^ 64))])

def onStatus (c : HttpConnection) (aLine : Bytes) : HttpConnection × List Event :=
  let statusLine := trim isSpace aLine
  if (find (str "200") aLine 0).isSome then ({ c with statusLine, connState := .ok }, [])
  else if (find (str "301") aLine 0).isSome ∨ (find (str "302") aLine 0).isSome then
    ({ c with statusLine, connState := .moved }, [])
  else ({ c with statusLine, connState := .failed, connected := false }, [.failed (failure statusLine c.url)])

/-- Whether a line has the name of a header somewhere. -/
def names (aLine : Bytes) (header : String) : Bool := (findSubString env.locale aLine (str header) 0).isSome

/-- `on(Line)`. There is no result where it throws. -/
def onLine (c : HttpConnection) (aLine : Bytes) : Option (HttpConnection × List Event) :=
  if c.connState = .chunked ∧ 1 < aLine.length then onChunk c aLine
  else if c.connState = .unknown then some (onStatus c aLine)
  else if c.connState = .moved ∧ names env aLine "Location" then onLocation env c aLine
  else if aLine.headD 0 = 0x0d then
    if c.size ≠ -1 then some (c, [.dataMode c.size]) else some ({ c with connState := .chunked }, [])
  else if names env aLine "Content-Length" then do
    return ({ c with size := toInt (← substr aLine 16 (distance 17 aLine.length)) }, [])
  else if c.mimeType = [] then
    if names env aLine "Content-Encoding" then do
      if (← substr aLine 18 (distance 19 aLine.length)) = str "x-bzip2" then
        return ({ c with mimeType := str "application/x-bzip2" }, [])
      else return (c, [])
    else if names env aLine "Content-Type" then do
      return ({ c with mimeType := ← substr aLine 14 (distance 15 aLine.length) }, [])
    else some (c, [])
  else some (c, [])

/-- How a line may end: it waits for more, or the data has come to its end, or the download has failed, or it goes on at
another place, where the connection may fail at once, or data follows. -/
inductive Ends : HttpConnection → List Event → Prop
  | waits (c) : Ends c []
  | complete (c) : c.connState = .ok → c.connected = false → Ends c [.complete]
  | failed (c aLine) : c.connState = .failed → c.connected = false → Ends c [.failed aLine]
  | redirected (c aUrl) : c.connState = .unknown → c.connected = true → Ends c [.redirected aUrl]
  | unreachable (c aUrl aLine) : c.connState = .failed → Ends c [.redirected aUrl, .failed aLine]
  | dataMode (c aBytes) : Ends c [.dataMode aBytes]

/-- A redirect leads back to the same URL, or to one of four characters or more. -/
def Followable (c : HttpConnection) (location : Bytes) : Prop :=
  if find (str "://") location 0 ≠ none then location = c.url ∨ 4 ≤ (sanitizeUrl location).length
  else
    let there := c.url.take ((rfind (byte '/') c.url c.url.length).elim 0 (· + 1)) ++ location
    location.headD 0 = byte '/' ∨ there = c.url ∨ 4 ≤ (sanitizeUrl there).length

/-- A line with the name of a header that is looked at is long enough for its value. -/
def Handled (c : HttpConnection) (aLine : Bytes) : Prop :=
  ¬(c.connState = .chunked ∧ 1 < aLine.length) → c.connState ≠ .unknown →
    if c.connState = .moved ∧ names env aLine "Location" then
      10 ≤ aLine.length ∧ Followable c (sanitizeUrl (aLine.drop 10))
    else aLine.headD 0 ≠ 0x0d →
      if names env aLine "Content-Length" then 16 ≤ aLine.length
      else c.mimeType = [] →
        if names env aLine "Content-Encoding" then 18 ≤ aLine.length
        else names env aLine "Content-Type" → 14 ≤ aLine.length

theorem distance_le {a len : Nat} (h : a < 2 ^ 64) : distance a len ≤ len ↔ a ≤ len := by
  rw [distance]
  split
  next hle => exact iff_of_true (Nat.sub_le _ _) hle
  next hle => exact iff_of_false (by omega) hle

/-- A request for a URL of four characters or more is made, or fails. -/
theorem prepareRequest_of_le {c : HttpConnection} (h : 4 ≤ (sanitizeUrl c.url).length) :
    ∃ d events, prepareRequest env c = some (d, events) ∧
      (events = [] ∧ d.connState = .unknown ∧ d.connected = true ∨ ∃ aLine, events = [.failed aLine] ∧ d.connState = .failed) := by
  have hext := substr_of_le ((distance_le (by decide)).mpr h) (sanitizeUrl c.url).length
  obtain ⟨u, hu⟩ := Option.isSome_iff_exists.mp (decodeUrl_isSome
    (if env.httpProxy = [] then sanitizeUrl c.url else env.httpProxy) ⟨[], c.server, c.port, c.file, [], []⟩)
  simp only [prepareRequest, hext, hu, Option.bind_eq_bind, Option.bind_some]
  split
  next => exact ⟨_, _, rfl, Or.inl ⟨rfl, rfl, rfl⟩⟩
  next => exact ⟨_, _, rfl, Or.inr ⟨_, rfl, rfl⟩⟩

/-- For a shorter URL the last four characters are asked for in vain. -/
theorem prepareRequest_of_lt {c : HttpConnection} (h : ¬4 ≤ (sanitizeUrl c.url).length) : prepareRequest env c = none := by
  have hext : substr (sanitizeUrl c.url) (distance 4 (sanitizeUrl c.url).length) (sanitizeUrl c.url).length = none := by
    rw [substr, if_neg fun hle => h ((distance_le (by decide)).mp hle)]
  simp only [prepareRequest, hext, Option.bind_eq_bind, Option.bind_none]

/-- What `trim` leaves has what stands between two characters that are kept. -/
theorem length_le_trim {p : UInt8 → Bool} {x y : UInt8} (hx : p x = false) (hy : p y = false) (u v : Bytes) :
    v.length + 2 ≤ (trim p (u ++ x :: v ++ [y])).length := by
  have hleft : ∃ w, (u ++ x :: v ++ [y]).dropWhile p = w ++ x :: v ++ [y] := by
    induction u with
    | nil => exact ⟨[], by simp [hx]⟩
    | cons a u ih =>
      by_cases ha : p a = true
      · obtain ⟨w, hw⟩ := ih
        exact ⟨w, by simpa [ha] using hw⟩
      · exact ⟨a :: u, by simp [ha]⟩
  obtain ⟨w, hw⟩ := hleft
  rw [trim, hw, List.rdropWhile_concat_neg _ _ _ (by simp [hy])]
  simp

/-- The characters that are trimmed from a URL. -/
abbrev trimmed (c : UInt8) : Bool := isSpace c || c ∈ str "<>\""

/-- A trimmed URL that is not empty has a last character, which is none of these. -/
theorem sanitizeUrl_concat {s : Bytes} (h : sanitizeUrl s ≠ []) : ∃ t y, sanitizeUrl s = t ++ [y] ∧ trimmed y = false := by
  refine ⟨(sanitizeUrl s).dropLast, (sanitizeUrl s).getLast h, (List.dropLast_append_getLast h).symm, ?_⟩
  exact Bool.eq_false_iff.mpr (List.rdropWhile_last_not trimmed _ h)

theorem resolve_spec (c : HttpConnection) (aLine : Bytes) : ∃ d location,
    resolve c (sanitizeUrl aLine) = some (d, location) ∧ d.url = c.url ∧ d.connected = c.connected ∧
      (Followable c (sanitizeUrl aLine) ↔ location = c.url ∨ 4 ≤ (sanitizeUrl location).length) := by
  rw [resolve, Followable]
  by_cases hscheme : find (str "://") (sanitizeUrl aLine) 0 = none
  · rw [if_pos hscheme, if_neg (not_not_intro hscheme)]
    by_cases hroot : (sanitizeUrl aLine).headD 0 = byte '/'
    · obtain ⟨u, hu⟩ := Option.isSome_iff_exists.mp (decodeUrl_isSome c.url ⟨[], c.server, c.port, c.file, [], []⟩)
      have hport : u.port ≠ str "80" ∨ u.port ≠ str "443" := by
        by_contra hno
        rw [not_or, not_not, not_not] at hno
        exact absurd (hno.1.symm.trans hno.2) (by decide)
      simp only [hroot, if_true, hu, Option.bind_eq_bind, Option.bind_some, if_pos hport]
      refine ⟨_, _, rfl, rfl, rfl, iff_of_true (Or.inl trivial) (Or.inr ?_)⟩
      obtain ⟨t, y, ht, hy⟩ := sanitizeUrl_concat (s := aLine) (fun hnil => absurd hroot (by rw [hnil]; decide))
      have hlen := length_le_trim (p := trimmed) (x := byte ':') (by decide) hy u.protocol
        (str "//" ++ u.host ++ byte ':' :: u.port ++ t)
      have heq : u.protocol ++ str "://" ++ u.host ++ byte ':' :: u.port ++ (t ++ [y]) =
          u.protocol ++ byte ':' :: (str "//" ++ u.host ++ byte ':' :: u.port ++ t) ++ [y] := by simp [str]
      rw [ht, heq]
      refine Nat.le_trans ?_ hlen
      simp [str]
    · simp only [hroot, if_false, substr_of_le (Nat.zero_le _), Option.bind_eq_bind, Option.bind_some, List.drop_zero]
      exact ⟨_, _, rfl, rfl, rfl, by simp⟩
  · rw [if_neg hscheme, if_pos hscheme]
    exact ⟨_, _, rfl, rfl, rfl, Iff.rfl⟩

theorem onLocation_iff (c : HttpConnection) (aLine : Bytes) :
    (∃ d events, onLocation env c aLine = some (d, events) ∧ Ends d events) ↔
      10 ≤ aLine.length ∧ Followable c (sanitizeUrl (aLine.drop 10)) := by
  by_cases hlen : 10 ≤ aLine.length
  · obtain ⟨d, location, hresolve, hurl, hopen, hiff⟩ := resolve_spec { c with connected := false } (aLine.drop 10)
    have htake : (aLine.drop 10).take (distance 10 aLine.length) = aLine.drop 10 := by
      rw [distance, if_pos hlen]
      exact List.take_of_length_le (by simp)
    simp only [onLocation, substr_of_le hlen, htake, Option.bind_eq_bind, Option.bind_some, hresolve]
    rw [and_iff_right hlen]
    refine Iff.trans ?_ hiff.symm
    by_cases hsame : location = d.url
    · rw [if_pos hsame]
      exact iff_of_true ⟨_, _, rfl, .failed { d with connState := .failed } _ rfl hopen⟩ (Or.inl (hsame.trans hurl))
    · have hother : location ≠ c.url := fun h => hsame (h.trans hurl.symm)
      rw [if_neg hsame, or_iff_right hother, download]
      by_cases hfour : 4 ≤ (sanitizeUrl location).length
      · obtain ⟨e, events, hrequest, ⟨rfl, hstate, hconnected⟩ | ⟨aLine, rfl, hstate⟩⟩ :=
          prepareRequest_of_le env (c := { d with url := location }) hfour
        · rw [hrequest]
          exact iff_of_true ⟨_, _, rfl, .redirected e location hstate hconnected⟩ hfour
        · rw [hrequest]
          exact iff_of_true ⟨_, _, rfl, .unreachable e location aLine hstate⟩ hfour
      · rw [prepareRequest_of_lt env (c := { d with url := location }) hfour]
        refine iff_of_false ?_ hfour
        rintro ⟨_, _, h, -⟩
        cases h
  · simp only [onLocation, substr, if_neg hlen, Option.bind_eq_bind, Option.bind_none]
    refine iff_of_false ?_ fun h => hlen h.1
    rintro ⟨_, _, h, -⟩
    cases h

theorem onChunk_ends (c : HttpConnection) (aLine : Bytes) :
    ∃ d events, onChunk c aLine = some (d, events) ∧ Ends d events := by
  simp only [onChunk, substr_of_le (Nat.zero_le _), Option.bind_eq_bind, Option.bind_some]
  split
  next => exact ⟨_, _, rfl, .complete { c with connected := false, connState := .ok } rfl rfl⟩
  next =>
    split
    next => exact ⟨_, _, rfl, .failed { c with connected := false, connState := .failed } _ rfl rfl⟩
    next => exact ⟨_, _, rfl, .dataMode c _⟩

theorem onStatus_ends (c : HttpConnection) (aLine : Bytes) : Ends (onStatus c aLine).1 (onStatus c aLine).2 := by
  simp only [onStatus]
  split
  next => exact .waits _
  next =>
    split
    next => exact .waits _
    next => exact .failed _ _ rfl rfl

/-- A header's value that is cut out of the line. -/
theorem substr_iff {aLine : Bytes} {pos n : Nat} {f : Bytes → Option (HttpConnection × List Event)}
    (hf : ∀ value, ∃ d, f value = some (d, [])) :
    (∃ d events, (substr aLine pos n).bind f = some (d, events) ∧ Ends d events) ↔ pos ≤ aLine.length := by
  rw [substr]
  split
  next h =>
    obtain ⟨d, hd⟩ := hf ((aLine.drop pos).take n)
    exact iff_of_true ⟨d, [], hd, .waits d⟩ h
  next h =>
    refine iff_of_false ?_ h
    rintro ⟨_, _, hnone, -⟩
    cases hnone

/-- A line is handled exactly when it is long enough for the header that it has. -/
theorem onLine_iff (c : HttpConnection) (aLine : Bytes) :
    (∃ d events, onLine env c aLine = some (d, events) ∧ Ends d events) ↔ Handled env c aLine := by
  rw [onLine, Handled]
  by_cases hchunk : c.connState = .chunked ∧ 1 < aLine.length
  · rw [if_pos hchunk]
    exact iff_of_true (onChunk_ends c aLine) fun h => absurd hchunk h
  rw [if_neg hchunk, forall_prop_of_true hchunk]
  by_cases hunknown : c.connState = .unknown
  · rw [if_pos hunknown]
    exact iff_of_true ⟨_, _, rfl, onStatus_ends c aLine⟩ fun h => absurd hunknown h
  rw [if_neg hunknown, forall_prop_of_true hunknown]
  by_cases hmoved : c.connState = .moved ∧ names env aLine "Location"
  · rw [if_pos hmoved, if_pos hmoved]
    exact onLocation_iff env c aLine
  rw [if_neg hmoved, if_neg hmoved]
  by_cases hblank : aLine.headD 0 = 0x0d
  · rw [if_pos hblank]
    refine iff_of_true ?_ fun h => absurd hblank h
    split
    next => exact ⟨_, _, rfl, .dataMode _ _⟩
    next => exact ⟨_, _, rfl, .waits _⟩
  rw [if_neg hblank, forall_prop_of_true hblank]
  by_cases hlength : names env aLine "Content-Length" = true
  · rw [if_pos hlength, if_pos hlength]
    exact substr_iff fun _ => ⟨_, rfl⟩
  rw [if_neg hlength, if_neg hlength]
  by_cases hmime : c.mimeType = []
  · rw [if_pos hmime, forall_prop_of_true hmime]
    by_cases hencoding : names env aLine "Content-Encoding" = true
    · rw [if_pos hencoding, if_pos hencoding]
      refine substr_iff fun value => ?_
      split
      · exact ⟨_, rfl⟩
      · exact ⟨_, rfl⟩
    · rw [if_neg hencoding, if_neg hencoding]
      by_cases htype : names env aLine "Content-Type" = true
      · rw [if_pos htype, forall_prop_of_true htype]
        exact substr_iff fun _ => ⟨_, rfl⟩
      · rw [if_neg htype]
        exact iff_of_true ⟨_, _, rfl, .waits c⟩ fun h => absurd h htype
  · rw [if_neg hmime]
    exact iff_of_true ⟨_, _, rfl, .waits c⟩ fun h => absurd h hmime

/-- What is asked of the lines of a server, as long as the connection listens. -/
def RunsWell : HttpConnection → List Bytes → Prop
  | _, [] => True
  | c, aLine :: lines => c.connected = true →
    ∃ d events, onLine env c aLine = some (d, events) ∧ Ends d events ∧ RunsWell d lines

def HandledRun : HttpConnection → List Bytes → Prop
  | _, [] => True
  | c, aLine :: lines => c.connected = true →
    Handled env c aLine ∧ ∀ d events, onLine env c aLine = some (d, events) → HandledRun d lines

theorem runsWell_iff_handledRun (c : HttpConnection) (lines : List Bytes) : RunsWell env c lines ↔ HandledRun env c lines := by
  induction lines generalizing c with
  | nil => exact Iff.rfl
  | cons aLine lines ih =>
    rw [RunsWell, HandledRun]
    refine imp_congr_right fun _ => ?_
    rw [← onLine_iff]
    constructor
    · rintro ⟨d, events, hd, hends, hrun⟩
      refine ⟨⟨d, events, hd, hends⟩, fun e events' he => ?_⟩
      obtain ⟨rfl, rfl⟩ := Prod.mk.inj (Option.some_inj.mp (hd.symm.trans he))
      exact (ih d).mp hrun
    · rintro ⟨⟨d, events, hd, hends⟩, hrun⟩
      exact ⟨d, events, hd, hends, (ih d).mpr (hrun d events hd)⟩

def plainEnvironment : Environment := ⟨ascii, [], fun _ _ _ => none⟩

/-- Behind the status line of a redirect. -/
def redirecting : HttpConnection :=
  { url := str "http://h/", server := str "h", port := str "80", file := str "/", mimeType := [],
    statusLine := str "HTTP/1.1 301", size := -1, connState := .moved, connected := true }

/-- A `Location` without a value. -/
theorem not_linesRunWell : ¬∀ env c lines, RunsWell env c lines := by
  intro h
  obtain ⟨d, events, hd, hends, -⟩ := h plainEnvironment redirecting [str "Location\r"] rfl
  have hline := (onLine_iff plainEnvironment redirecting (str "Location\r")).mp ⟨d, events, hd, hends⟩
  have hlong := hline (by decide) (by decide)
  rw [if_pos ⟨rfl, by decide +kernel⟩] at hlong
  exact absurd hlong.1 (by decide)

end HttpConnection

end Dcpp
