import Dcpp.Library.Edit
import Dcpp.Util

-- How a URL is taken apart.
namespace Dcpp.Util

open Edit

/-- What `decodeUrl` stores in the strings of its caller. -/
structure Url where
  protocol : Bytes
  host : Bytes
  port : Bytes
  path : Bytes
  query : Bytes
  fragment : Bytes
deriving DecidableEq

/-- `b - a` of two `size_t`. -/
def distance (a b : Nat) : Nat := if a ≤ b then b - a else 2 ^ 64 - (a - b)

/-- Where the file ends, and where the query and the fragment are. -/
structure Ends where
  fileEnd : Nat
  queryStart : Nat
  queryEnd : Nat
  fragmentStart : Nat

/-- The end of what stands in front of the last `c`, and the start of what stands behind it. -/
def lastDelimiter (c : UInt8) (url : Bytes) (stop : Nat) : Nat × Nat :=
  match rfind c url stop with
  | none => (stop, stop)
  | some start => (start, start + 1)

def ends (url : Bytes) : Ends :=
  let (queryEnd, fragmentStart) := lastDelimiter (byte '#') url url.length
  let (fileEnd, queryStart) := lastDelimiter (byte '?') url queryEnd
  { fileEnd, queryStart, queryEnd, fragmentStart }

def defaultPort (protocol : Bytes) : Option Bytes :=
  if protocol = str "http" then some (str "80")
  else if protocol = str "https" then some (str "443")
  else if protocol = str "dchub" ∨ protocol = str "nmdcs" ∨ protocol = [] then some (str "411")
  else none

/-- The port, which stays what it was for a protocol without a default. -/
def decodePort (url : Bytes) (portStart : Option Nat) (authorityEnd : Nat) (out : Url) : Option Url := do
  match portStart with
  | none => return { out with port := (defaultPort out.protocol).getD out.port }
  | some portStart => return { out with port := ← substr url portStart (distance portStart authorityEnd) }

/-- The host and the port; `some none` is the return at a bracket that is not closed. -/
def decodeAuthority (url : Bytes) (authorityStart authorityEnd : Nat) (out : Url) : Option (Option Url) := do
  if authorityEnd > authorityStart then
    if (← url[authorityStart]?) = byte '[' then
      match find [byte ']'] url 0 with
      | none => return none
      | some hostEnd =>
        let host ← substr url (authorityStart + 1) (distance (authorityStart + 1) hostEnd)
        let portStart := if url[hostEnd + 1]? = some (byte ':') then some (hostEnd + 2) else none
        (decodePort url portStart authorityEnd { out with host }).map some
    else
      let portStart := (find [byte ':'] url authorityStart).filter (· ≤ authorityEnd)
      let hostEnd := portStart.getD authorityEnd
      let host ← substr url authorityStart (distance authorityStart hostEnd)
      (decodePort url (portStart.map (· + 1)) authorityEnd { out with host }).map some
  else return some out

/-- What `out` holds is overwritten. There is no result where an index is out of range. -/
def decodeUrl (url : Bytes) (out : Url) : Option Url := do
  let e := ends url
  let protoEnd := find (str "://") url 0
  let authorityStart := (protoEnd.map (· + 3)).getD 0
  let authorityEnd := (findFirstOf (str "/#?") url authorityStart).getD e.fileEnd
  let fileStart := authorityEnd
  let protocol ← protoEnd.elim (some []) fun protoEnd => substr url 0 protoEnd
  match ← decodeAuthority url authorityStart authorityEnd { out with protocol } with
  | none => return { out with protocol }
  | some out =>
    let path ← substr url fileStart (distance fileStart e.fileEnd)
    let query ← substr url e.queryStart (distance e.queryStart e.queryEnd)
    let fragment ← substr url e.fragmentStart (distance e.fragmentStart url.length)
    return { out with path, query, fragment }

example : decodeUrl (str "adc://[::1]:5000/a/b?c=/:#d?") ⟨[], [], [], [], [], []⟩ =
    some ⟨str "adc", str "::1", str "5000", str "/a/b", str "c=/:", str "d?"⟩ := by decide +kernel

@[simp] theorem distance_add (a n : Nat) : distance a (a + n) = n := by
  simp [distance]

@[simp] theorem distance_self (a : Nat) : distance a a = 0 := distance_add a 0

/-- What stands between two places. -/
theorem substr_distance (u p v : Bytes) :
    substr (u ++ (p ++ v)) u.length (distance u.length (u ++ p).length) = some p := by
  rw [List.length_append, distance_add, substr_append]

/-- One field, up to the next `c`; what is left stands behind a longer beginning. -/
theorem cut_field {c : UInt8} {p u w v : Bytes} {i : Nat} (hp : p = u ++ (w ++ c :: v)) (hi : u.length = i)
    (hw : c ∉ w) : find [c] p i = some (i + w.length) ∧ substr p i (distance i (i + w.length)) = some w ∧
      p = (u ++ w ++ [c]) ++ v ∧ (u ++ w ++ [c]).length = i + w.length + 1 := by
  subst hp hi
  rw [find_char hw, distance_add, substr_append]
  exact ⟨rfl, rfl, by simp, by simp [Nat.add_assoc]⟩

theorem lastDelimiter_le (c : UInt8) {url : Bytes} {stop : Nat} (h : stop ≤ url.length) :
    (lastDelimiter c url stop).1 ≤ url.length ∧ (lastDelimiter c url stop).2 ≤ url.length := by
  rw [lastDelimiter]
  cases hi : rfind c url stop with
  | none => exact ⟨h, h⟩
  | some i => exact ⟨Nat.le_of_lt (le_of_rfind hi).2, (le_of_rfind hi).2⟩

theorem decodePort_isSome {url : Bytes} {portStart : Option Nat} (h : ∀ i ∈ portStart, i ≤ url.length)
    (authorityEnd : Nat) (out : Url) : (decodePort url portStart authorityEnd out).isSome := by
  cases portStart with
  | none => rfl
  | some i => simp [decodePort, substr_of_le (h i rfl)]

theorem decodeAuthority_isSome {url : Bytes} {authorityEnd : Nat} (h : authorityEnd ≤ url.length)
    (authorityStart : Nat) (out : Url) : (decodeAuthority url authorityStart authorityEnd out).isSome := by
  rw [decodeAuthority]
  split
  next hlt =>
    have hget := List.getElem?_eq_getElem (l := url) (i := authorityStart) (by omega)
    simp only [hget, Option.bind_eq_bind, Option.bind_some]
    split
    · cases hfind : find [byte ']'] url 0 with
      | none => rfl
      | some hostEnd =>
        have hport (i : Nat) (hi : i ∈ if url[hostEnd + 1]? = some (byte ':') then some (hostEnd + 2) else none) :
            i ≤ url.length := by
          split at hi
          next hcolon =>
            cases hi
            exact (List.getElem?_eq_some_iff.mp hcolon).1
          next => cases hi
        have hstart : authorityStart + 1 ≤ url.length := by omega
        simp [substr_of_le hstart, decodePort_isSome hport]
    · have hport (i : Nat)
          (hi : i ∈ ((find [byte ':'] url authorityStart).filter (· ≤ authorityEnd)).map (· + 1)) : i ≤ url.length := by
        obtain ⟨j, hj, rfl⟩ := Option.map_eq_some_iff.mp hi
        exact (find_bounds (Option.filter_eq_some_iff.mp hj).1).2
      have hstart : authorityStart ≤ url.length := by omega
      simp [substr_of_le hstart, decodePort_isSome hport]
  next => rfl

/-- Every index that `decodeUrl` uses is in range. -/
theorem decodeUrl_isSome (url : Bytes) (out : Url) : (decodeUrl url out).isSome := by
  have hf : (ends url).queryEnd ≤ url.length ∧ (ends url).fragmentStart ≤ url.length :=
    lastDelimiter_le (byte '#') le_rfl
  have hq : (ends url).fileEnd ≤ url.length ∧ (ends url).queryStart ≤ url.length :=
    lastDelimiter_le (byte '?') hf.1
  have hend : ∀ i, (findFirstOf (str "/#?") url i).getD (ends url).fileEnd ≤ url.length := by
    intro i
    cases hi : findFirstOf (str "/#?") url i with
    | none => exact hq.1
    | some j =>
      obtain ⟨-, ⟨c, -, hget⟩, -⟩ := findFirstOf_eq_some hi
      exact Nat.le_of_lt (List.getElem?_eq_some_iff.mp hget).1
  obtain ⟨protocol, hprotocol⟩ : ∃ protocol,
      ((find (str "://") url 0).elim (some []) fun protoEnd => substr url 0 protoEnd) = some protocol := by
    cases find (str "://") url 0 with
    | none => exact ⟨[], rfl⟩
    | some i => exact ⟨_, substr_of_le (Nat.zero_le _) i⟩
  obtain ⟨r, hr⟩ := Option.isSome_iff_exists.mp (decodeAuthority_isSome
    (hend (((find (str "://") url 0).map (· + 3)).getD 0)) (((find (str "://") url 0).map (· + 3)).getD 0)
    { out with protocol })
  simp only [decodeUrl, hprotocol, Option.bind_eq_bind, Option.bind_some, hr]
  cases r with
  | none => rfl
  | some r => simp [substr_of_le (hend _), substr_of_le hq.2, substr_of_le hf.2]

namespace Url

-- The characters of RFC 3986.

def isAlpha (c : UInt8) : Bool := (byte 'a' ≤ c && c ≤ byte 'z') || (byte 'A' ≤ c && c ≤ byte 'Z')

def isUnreserved (c : UInt8) : Bool := isAlpha c || isDigit c || c ∈ str "-._~"

def isSubDelim (c : UInt8) : Bool := c ∈ str "!$&'()*+,;="

def isScheme (c : UInt8) : Bool := isAlpha c || isDigit c || c ∈ str "+-."

def isRegName (c : UInt8) : Bool := isUnreserved c || isSubDelim c || c = byte '%'

def isLiteral (c : UInt8) : Bool := isUnreserved c || isSubDelim c || c = byte ':'

def isPath (c : UInt8) : Bool := isRegName c || c ∈ str ":@/"

/-- The characters of a query, which are also those of a fragment. -/
def isQuery (c : UInt8) : Bool := isPath c || c = byte '?'

/-- A registered name or an IPv4 address, or the address of a literal in brackets. -/
inductive Host
  | name (s : Bytes) (chars : ∀ c ∈ s, isRegName c = true)
  | literal (s : Bytes) (chars : ∀ c ∈ s, isLiteral c = true)

def Host.address : Host → Bytes
  | name s _ => s
  | literal s _ => s

def Host.text : Host → Bytes
  | name s _ => s
  | literal s _ => byte '[' :: (s ++ [byte ']'])

/-- The components of a URL. -/
structure Parts where
  scheme : Bytes
  host : Host
  port : Option Bytes
  path : Bytes
  query : Option Bytes
  fragment : Option Bytes
  scheme_chars : ∀ c ∈ scheme, isScheme c = true
  port_chars : ∀ s ∈ port, ∀ c ∈ s, isDigit c = true
  path_start : path = [] ∨ path.head? = some (byte '/')
  path_chars : ∀ c ∈ path, isPath c = true
  query_chars : ∀ s ∈ query, ∀ c ∈ s, isQuery c = true
  fragment_chars : ∀ s ∈ fragment, ∀ c ∈ s, isQuery c = true

/-- A component behind its delimiter. -/
def optional (delimiter : UInt8) (x : Option Bytes) : Bytes := x.elim [] (delimiter :: ·)

def authority (host : Host) (port : Option Bytes) : Bytes := host.text ++ optional (byte ':') port

namespace Parts

def assemble (p : Parts) : Bytes :=
  p.scheme ++ str "://" ++ authority p.host p.port ++ p.path ++ optional (byte '?') p.query ++
    optional (byte '#') p.fragment

def expected (p : Parts) : Url where
  protocol := p.scheme
  host := p.host.address
  port := p.port.getD ((defaultPort p.scheme).getD [])
  path := p.path
  query := p.query.getD []
  fragment := p.fragment.getD []

end Parts

theorem not_mem_of_chars {p : UInt8 → Bool} {d : UInt8} (hd : p d = false) {s : Bytes} (h : ∀ c ∈ s, p c = true) :
    d ∉ s := by
  intro hmem
  have hp := h d hmem
  rw [hd] at hp
  cases hp

/-- The component that stands at the end of what is searched, or nothing where it has no delimiter. -/
theorem lastDelimiter_optional {c : UInt8} {u : Bytes} {x : Option Bytes} {v : Bytes} (hx : ∀ y ∈ x, c ∉ y)
    (hu : x = none → c ∉ u) (hv : v.head? ≠ some c) {s : Bytes} (hs : s = u ++ optional c x) :
    (lastDelimiter c (s ++ v) s.length).1 = u.length ∧
      substr (s ++ v) (lastDelimiter c (s ++ v) s.length).2
        (distance (lastDelimiter c (s ++ v) s.length).2 s.length) = some (x.getD []) := by
  rw [lastDelimiter, rfind_head hv]
  cases x with
  | none =>
    obtain rfl : s = u := by simpa [optional] using hs
    rw [rfind_eq_none (hu rfl)]
    simp [substr]
  | some y =>
    obtain rfl : s = u ++ c :: y := hs
    rw [rfind_append (hx y rfl) u (by simp)]
    have hlen : (u ++ c :: y).length = u.length + 1 + y.length := by
      simp only [List.length_append, List.length_cons]
      omega
    refine ⟨rfl, ?_⟩
    dsimp only
    rw [hlen, distance_add]
    simpa using substr_append (u ++ [c]) y v

theorem decodePort_append (u y v : Bytes) (out : Url) :
    decodePort (u ++ (y ++ v)) (some u.length) (u.length + y.length) out = some { out with port := y } := by
  simp [decodePort, substr_append]

section Authority

variable {u rest : Bytes} {port : Option Bytes}

theorem head_ne_colon (hrest : ∀ c ∈ rest.head?, c ∈ str "/#?") : rest.head? ≠ some (byte ':') := by
  intro h
  exact absurd (hrest _ h) (by decide)

/-- The port behind the host, where `out` is as the host leaves it. -/
theorem decodePort_optional (u : Bytes) (port : Option Bytes) (v : Bytes) (out : Url) :
    decodePort (u ++ (optional (byte ':') port ++ v)) (port.map fun _ => u.length + 1)
      (u.length + (optional (byte ':') port).length) out =
        some { out with port := port.getD ((defaultPort out.protocol).getD out.port) } := by
  cases port with
  | none => rfl
  | some y =>
    have h := decodePort_append (u ++ [byte ':']) y v out
    simpa [optional, Nat.add_assoc, Nat.add_comm, Nat.add_left_comm] using h

theorem decodeAuthority_literal {a : Bytes} (hu : byte ']' ∉ u) (ha : byte ']' ∉ a)
    (hrest : ∀ c ∈ rest.head?, c ∈ str "/#?") (out : Url) {s : Bytes}
    (hs : s = byte '[' :: (a ++ [byte ']']) ++ optional (byte ':') port) :
    decodeAuthority (u ++ (s ++ rest)) u.length (u ++ s).length out =
      some (some { out with host := a, port := port.getD ((defaultPort out.protocol).getD out.port) }) := by
  generalize hw : u ++ byte '[' :: (a ++ [byte ']']) = w
  have hurl : u ++ (s ++ rest) = w ++ (optional (byte ':') port ++ rest) := by simp [hs, ← hw]
  have hbefore : w.length = u.length + 1 + a.length + 1 := by
    simp [← hw]
    omega
  have hafter : (u ++ s).length = w.length + (optional (byte ':') port).length := by
    simp [hs, ← hw]
    omega
  have hfind : find [byte ']'] (u ++ (s ++ rest)) 0 = some (u.length + 1 + a.length) := by
    have hbracket : byte ']' ≠ byte '[' := by decide
    have hno : byte ']' ∉ u ++ byte '[' :: a := by simp [hu, ha, hbracket]
    have h := find_append [byte ']'] [] ((u ++ byte '[' :: a) ++ ([byte ']'] ++ (optional (byte ':') port ++ rest)))
    rw [indexOf_append hno, indexOf_of_starts (List.prefix_append _ _)] at h
    simpa [hs, Nat.add_assoc, Nat.add_comm, Nat.add_left_comm] using h
  have hhost : substr (u ++ (s ++ rest)) (u.length + 1) a.length = some a := by
    have h := substr_append (u ++ [byte '[']) a ([byte ']'] ++ (optional (byte ':') port ++ rest))
    simpa [hs] using h
  have hportStart : (if (u ++ (s ++ rest))[u.length + 1 + a.length + 1]? = some (byte ':')
      then some (u.length + 1 + a.length + 2) else none) = port.map fun _ => w.length + 1 := by
    rw [hurl, ← hbefore, getElem?_length_append]
    cases port with
    | none => exact if_neg (by simpa [optional] using head_ne_colon hrest)
    | some y => simp [optional, hbefore]
  have hlt : (u ++ s).length > u.length := by simp [hs]
  have hget : (u ++ (s ++ rest))[u.length]? = some (byte '[') := by simp [hs]
  have hport := decodePort_optional w port rest { out with host := a }
  rw [← hurl, ← hafter] at hport
  simp only [decodeAuthority, if_pos hlt, hget, Option.bind_eq_bind, Option.bind_some, if_true, hfind, distance_add,
    hhost, hportStart, hport, Option.map_some]

theorem decodeAuthority_name {n : Bytes} (hn : ∀ c ∈ n, isRegName c = true)
    (hrest : ∀ c ∈ rest.head?, c ∈ str "/#?") (out : Url) {s : Bytes} (hs : s = n ++ optional (byte ':') port)
    (hne : s ≠ []) :
    decodeAuthority (u ++ (s ++ rest)) u.length (u ++ s).length out =
      some (some { out with host := n, port := port.getD ((defaultPort out.protocol).getD out.port) }) := by
  have hcolon : byte ':' ∉ n := not_mem_of_chars (by decide) hn
  have hurl : u ++ (s ++ rest) = (u ++ n) ++ (optional (byte ':') port ++ rest) := by simp [hs]
  have hafter : (u ++ s).length = (u ++ n).length + (optional (byte ':') port).length := by
    simp [hs]
    omega
  have hfind : (find [byte ':'] (u ++ (s ++ rest)) u.length).filter (· ≤ (u ++ s).length) =
      port.map fun _ => (u ++ n).length := by
    rw [find_append, hs, List.append_assoc, indexOf_append hcolon]
    cases port with
    | none =>
      have hpos (i : Nat) (hi : indexOf [byte ':'] rest = some i) : 0 < i := by
        obtain ⟨w, v, hwv, rfl, -⟩ := indexOf_eq_some hi
        apply List.length_pos_of_ne_nil
        rintro rfl
        exact head_ne_colon hrest (congrArg List.head? hwv)
      simpa [optional] using hpos
    | some y => simp [optional, indexOf_of_starts]
  have hlt : (u ++ s).length > u.length := by simpa using List.length_pos_of_ne_nil hne
  obtain ⟨c, hget, hc⟩ : ∃ c, (u ++ (s ++ rest))[u.length]? = some c ∧ c ≠ byte '[' := by
    obtain ⟨c, t, rfl⟩ := List.exists_cons_of_ne_nil hne
    refine ⟨c, by simp, fun hc => ?_⟩
    cases n with
    | nil =>
      cases port with
      | none => cases hs
      | some y => exact absurd (hc.symm.trans (List.cons_eq_cons.mp hs).1) (by decide)
    | cons d n =>
      have hd := hn d List.mem_cons_self
      rw [← (List.cons_eq_cons.mp hs).1, hc] at hd
      exact absurd hd (by decide)
  have hend : (port.map fun _ => (u ++ n).length).getD (u ++ s).length = (u ++ n).length := by
    cases port with
    | none => simp [hs, optional]
    | some y => rfl
  have hport := decodePort_optional (u ++ n) port rest { out with host := n }
  rw [← hurl, ← hafter] at hport
  have hhost : substr (u ++ (s ++ rest)) u.length (distance u.length (u ++ n).length) = some n := by
    have h := substr_distance u n (optional (byte ':') port ++ rest)
    rwa [← List.append_assoc n, ← hs] at h
  simp only [decodeAuthority, if_pos hlt, hget, Option.bind_eq_bind, Option.bind_some, if_neg hc, hfind, hend, hhost,
    Option.map_map, Function.comp_def, hport, Option.map_some]

/-- The authority as it stands between what is in front of it and the path, the query or the fragment. -/
theorem decodeAuthority_append (hu : byte ']' ∉ u) (hrest : ∀ c ∈ rest.head?, c ∈ str "/#?") (host : Host)
    (port : Option Bytes) (out : Url) :
    decodeAuthority (u ++ (authority host port ++ rest)) u.length (u ++ authority host port).length out =
      some (some (if authority host port = [] then out else
        { out with host := host.address, port := port.getD ((defaultPort out.protocol).getD out.port) })) := by
  by_cases hne : authority host port = []
  · simp [hne, decodeAuthority]
  · rw [if_neg hne]
    cases host with
    | name n hn => exact decodeAuthority_name hn hrest out rfl hne
    | literal a ha => exact decodeAuthority_literal hu (not_mem_of_chars (by decide) ha) hrest out rfl

end Authority

theorem not_mem_optional {c d : UInt8} {x : Option Bytes} (hd : c ≠ d) (hx : ∀ y ∈ x, c ∉ y) : c ∉ optional d x := by
  cases x with
  | none => exact List.not_mem_nil
  | some y => simpa [optional, hd] using hx y rfl

theorem not_mem_authority {c : UInt8} (hchars : isRegName c = false ∧ isLiteral c = false ∧ isDigit c = false)
    (hmarks : c ∉ str "[]:") (host : Host) {port : Option Bytes} (hport : ∀ s ∈ port, ∀ c ∈ s, isDigit c = true) :
    c ∉ authority host port := by
  have hc : c ≠ byte '[' ∧ c ≠ byte ']' ∧ c ≠ byte ':' := by simpa [str] using hmarks
  have hportc : c ∉ optional (byte ':') port :=
    not_mem_optional hc.2.2 fun y hy => not_mem_of_chars hchars.2.2 (hport y hy)
  cases host with
  | name s hs => simp [authority, Host.text, hportc, not_mem_of_chars hchars.1 hs]
  | literal s hs => simp [authority, Host.text, hportc, hc, not_mem_of_chars hchars.2.1 hs]

/-- None of the characters that end an authority is in one. -/
theorem not_mem_stops (host : Host) {port : Option Bytes} (hport : ∀ s ∈ port, ∀ c ∈ s, isDigit c = true) :
    ∀ c ∈ authority host port, c ∉ str "/#?" := by
  intro c hc hmem
  have hstop : ∀ d ∈ str "/#?", (isRegName d = false ∧ isLiteral d = false ∧ isDigit d = false) ∧
      d ∉ str "[]:" := by decide +kernel
  exact not_mem_authority (hstop c hmem).1 (hstop c hmem).2 host hport hc

/-- The first character behind the authority. -/
theorem head_rest {m : Bytes} (hm : ∀ c ∈ m.head?, c ∈ str "/?") (q f : Option Bytes) :
    ∀ c ∈ (m ++ (optional (byte '?') q ++ optional (byte '#') f)).head?, c ∈ str "/#?" := by
  intro c hc
  cases m with
  | cons d m =>
    have hsub : str "/?" ⊆ str "/#?" := by decide
    exact hsub (hm c hc)
  | nil =>
    cases q with
    | some y =>
      obtain rfl : byte '?' = c := by simpa [optional] using hc
      decide
    | none =>
      cases f with
      | some x =>
        obtain rfl : byte '#' = c := by simpa [optional] using hc
        decide
      | none => cases hc

theorem find_scheme {scheme : Bytes} (h : byte ':' ∉ scheme) (t : Bytes) :
    find (str "://") (scheme ++ (str "://" ++ t)) 0 = some scheme.length := by
  have hfind := find_append (str "://") [] (scheme ++ (str "://" ++ t))
  have hcolon : indexOf (byte ':' :: str "//") _ = _ := indexOf_append h (str "://" ++ t)
  have hslashes : str "://" = byte ':' :: str "//" := by decide
  rw [← hslashes, indexOf_of_starts (List.prefix_append _ _)] at hcolon
  rw [List.nil_append, hcolon] at hfind
  simpa using hfind

/-- The authority ends at the first character that is not its own, or at the end of the URL. -/
theorem authority_end {u a rest : Bytes} (hstops : ∀ c ∈ a, c ∉ str "/#?") (hhead : ∀ c ∈ rest.head?, c ∈ str "/#?")
    {fileEnd : Nat} (hend : rest = [] → fileEnd = (u ++ a).length) :
    (findFirstOf (str "/#?") (u ++ (a ++ rest)) u.length).getD fileEnd = (u ++ a).length := by
  rw [findFirstOf_append hstops]
  cases rest with
  | nil => simpa using hend rfl
  | cons c t =>
    have hc := hhead c rfl
    simp [List.findIdx?_cons, hc]

/-- The file, the query and the fragment, where `b` is what stands in front of the query. -/
theorem ends_optional {b : Bytes} {q f : Option Bytes} (hb : byte '#' ∉ b) (hbq : q = none → byte '?' ∉ b)
    (hq : ∀ y ∈ q, byte '?' ∉ y ∧ byte '#' ∉ y) (hf : ∀ x ∈ f, byte '#' ∉ x) {url : Bytes}
    (hurl : url = b ++ optional (byte '?') q ++ optional (byte '#') f) : (ends url).fileEnd = b.length ∧
      substr url (ends url).queryStart (distance (ends url).queryStart (ends url).queryEnd) = some (q.getD []) ∧
      substr url (ends url).fragmentStart (distance (ends url).fragmentStart url.length) = some (f.getD []) := by
  generalize hs : b ++ optional (byte '?') q = s at hurl
  have hs' : byte '#' ∉ s := by
    have hq' : byte '#' ∉ optional (byte '?') q := not_mem_optional (by decide) fun y hy => (hq y hy).2
    simp [← hs, hb, hq']
  have hhash : (optional (byte '#') f).head? ≠ some (byte '?') := by
    cases f with
    | none => simp [optional]
    | some x =>
      have hne : byte '#' ≠ byte '?' := by decide
      simpa [optional] using hne
  have hfragment := lastDelimiter_optional (v := []) hf (fun _ => hs') (by simp) hurl
  have hquery := lastDelimiter_optional (fun y hy => (hq y hy).1) hbq hhash hs.symm
  rw [List.append_nil] at hfragment
  rw [← hurl] at hquery
  have hqueryEnd : (ends url).queryEnd = s.length := hfragment.1
  have hfileEnd : (ends url).fileEnd = (lastDelimiter (byte '?') url s.length).1 := by rw [← hqueryEnd]; rfl
  have hqueryStart : (ends url).queryStart = (lastDelimiter (byte '?') url s.length).2 := by rw [← hqueryEnd]; rfl
  refine ⟨hfileEnd.trans hquery.1, ?_, hfragment.2⟩
  rw [hqueryEnd, hqueryStart]
  exact hquery.2

/-- How a URL is taken apart at the last `?`: `m` is what stands in front of it from the authority on. -/
theorem decodeUrl_append {scheme m : Bytes} {port q f : Option Bytes} (hscheme : ∀ c ∈ scheme, isScheme c = true)
    (hport : ∀ s ∈ port, ∀ c ∈ s, isDigit c = true) (hm : ∀ c ∈ m.head?, c ∈ str "/?") (hmf : byte '#' ∉ m)
    (hmq : q = none → byte '?' ∉ m) (hq : ∀ y ∈ q, byte '?' ∉ y ∧ byte '#' ∉ y) (hf : ∀ x ∈ f, byte '#' ∉ x)
    (host : Host) (out : Url) :
    decodeUrl (scheme ++ str "://" ++ authority host port ++ m ++ optional (byte '?') q ++ optional (byte '#') f) out =
      some {
        protocol := scheme
        host := if authority host port = [] then out.host else host.address
        port := if authority host port = [] then out.port else port.getD ((defaultPort scheme).getD out.port)
        path := m
        query := q.getD []
        fragment := f.getD [] } := by
  generalize hu : scheme ++ str "://" = u
  generalize hrest : m ++ (optional (byte '?') q ++ optional (byte '#') f) = rest
  generalize hurl : u ++ authority host port ++ m ++ optional (byte '?') q ++ optional (byte '#') f = url
  have hsplit : url = u ++ (authority host port ++ rest) := by simp [← hurl, ← hrest]
  have hhead : ∀ c ∈ rest.head?, c ∈ str "/#?" := hrest ▸ head_rest hm q f
  have hstops := not_mem_stops host hport
  have hno {c : UInt8} (hc : isScheme c = false) : c ∉ scheme := not_mem_of_chars hc hscheme
  have hbracket : byte ']' ∉ u := by
    have hmark : byte ']' ∉ str "://" := by decide
    simp [← hu, hno (c := byte ']') (by decide), hmark]
  have hfront {c : UInt8} (hc : isScheme c = false) (hstop : c ∈ str "/#?") (hmark : c ∉ str "://") (hcm : c ∉ m) :
      c ∉ u ++ authority host port ++ m := by
    have ha : c ∉ authority host port := fun hmem => hstops c hmem hstop
    simp [← hu, hno hc, hmark, ha, hcm]
  obtain ⟨hfileEnd, hquery, hfragment⟩ := ends_optional (hfront (by decide) (by decide) (by decide) hmf)
    (fun h => hfront (by decide) (by decide) (by decide) (hmq h)) hq hf hurl.symm
  have hfind : find (str "://") url 0 = some scheme.length := by
    have h := find_scheme (hno (by decide)) (authority host port ++ rest)
    rwa [← List.append_assoc scheme, hu, ← hsplit] at h
  have hstart : scheme.length + 3 = u.length := by simp [← hu, str]
  have hend : (findFirstOf (str "/#?") url u.length).getD (u ++ authority host port ++ m).length =
      (u ++ authority host port).length := by
    have hempty (h : rest = []) : (u ++ authority host port ++ m).length = (u ++ authority host port).length := by
      rw [← hrest, List.append_eq_nil_iff] at h
      rw [h.1, List.append_nil]
    rw [hsplit]
    exact authority_end hstops hhead hempty
  have hprotocol : substr url 0 scheme.length = some scheme := by
    have h := substr_append [] scheme (str "://" ++ (authority host port ++ rest))
    rwa [List.nil_append, ← List.append_assoc scheme, hu, ← hsplit] at h
  have hpath : substr url (u ++ authority host port).length
      (distance (u ++ authority host port).length (u ++ authority host port ++ m).length) = some m := by
    have h := substr_distance (u ++ authority host port) m (optional (byte '?') q ++ optional (byte '#') f)
    rwa [hrest, List.append_assoc u (authority host port) rest, ← hsplit] at h
  have hauthority := decodeAuthority_append hbracket hhead host port { out with protocol := scheme }
  rw [← hsplit] at hauthority
  simp only [decodeUrl, hfind, Option.map_some, Option.getD_some, hstart, hfileEnd, hend, Option.elim_some, hprotocol,
    Option.bind_eq_bind, Option.bind_some, hauthority, hpath, hquery, hfragment]
  split
  next => rfl
  next => rfl

/-- When the components are recovered: the query has no `?`, and the strings of the caller that are left as they are
hold what is expected. -/
structure Recoverable (p : Parts) (out : Url) : Prop where
  query : ∀ q ∈ p.query, byte '?' ∉ q
  host : authority p.host p.port = [] → out.host = []
  port : p.port = none → authority p.host p.port = [] ∨ defaultPort p.scheme = none →
    out.port = (defaultPort p.scheme).getD []

theorem authority_eq_nil {host : Host} {port : Option Bytes} (h : authority host port = []) :
    host.address = [] ∧ port = none := by
  obtain ⟨hhost, hport⟩ := List.append_eq_nil_iff.mp h
  constructor
  · cases host with
    | name s _ => exact hhost
    | literal s _ => cases hhost
  · cases port with
    | none => rfl
    | some y => cases hport

theorem path_head (p : Parts) : ∀ c ∈ p.path.head?, c ∈ str "/?" := by
  intro c hc
  obtain hnil | hslash := p.path_start
  · rw [hnil] at hc
    cases hc
  · rw [hslash] at hc
    cases hc
    decide

theorem hash_not_mem (p : Parts) : ∀ x ∈ p.fragment, byte '#' ∉ x :=
  fun x hx => not_mem_of_chars (by decide) (p.fragment_chars x hx)

/-- Without a `?` in the query, only what `out` held can be in the way. -/
theorem decodeUrl_of_query (p : Parts) (hquery : ∀ q ∈ p.query, byte '?' ∉ q) (out : Url) :
    decodeUrl p.assemble out = some { p.expected with
      host := if authority p.host p.port = [] then out.host else p.host.address
      port := if authority p.host p.port = [] then out.port
        else p.port.getD ((defaultPort p.scheme).getD out.port) } :=
  decodeUrl_append p.scheme_chars p.port_chars (path_head p) (not_mem_of_chars (by decide) p.path_chars)
    (fun _ => not_mem_of_chars (by decide) p.path_chars)
    (fun q hq => ⟨hquery q hq, not_mem_of_chars (by decide) (p.query_chars q hq)⟩) (hash_not_mem p) p.host out

/-- With one, the query is what stands behind the last. -/
theorem query_not_recovered (p : Parts) {q : Bytes} (hq : p.query = some q) (hmark : byte '?' ∈ q) (out : Url) :
    decodeUrl p.assemble out ≠ some p.expected := by
  obtain ⟨w, v, hrev, hw⟩ := List.eq_append_cons_of_mem (List.mem_reverse.mpr hmark)
  have hsplit : q = v.reverse ++ byte '?' :: w.reverse := by
    rw [← List.reverse_reverse q, hrev]
    simp
  have hno : byte '#' ∉ q := not_mem_of_chars (by decide) (p.query_chars q hq)
  have hpath : byte '#' ∉ p.path := not_mem_of_chars (by decide) p.path_chars
  rw [hsplit, List.mem_append, List.mem_cons, not_or, not_or] at hno
  have hurl : p.assemble = p.scheme ++ str "://" ++ authority p.host p.port ++ (p.path ++ byte '?' :: v.reverse) ++
      optional (byte '?') (some w.reverse) ++ optional (byte '#') p.fragment := by
    simp [Parts.assemble, optional, hq, hsplit]
  have hhead : ∀ c ∈ (p.path ++ byte '?' :: v.reverse).head?, c ∈ str "/?" := by
    intro c hc
    cases hp : p.path with
    | nil =>
      obtain rfl : byte '?' = c := by simpa [hp] using hc
      decide
    | cons d t =>
      apply path_head p
      simpa [hp] using hc
  have hm : byte '#' ∉ p.path ++ byte '?' :: v.reverse := by
    have hne : byte '#' ≠ byte '?' := by decide
    simp only [List.mem_append, List.mem_cons, not_or]
    exact ⟨hpath, hne, hno.1⟩
  rw [hurl, decodeUrl_append p.scheme_chars p.port_chars hhead hm (by simp)
    (by simpa using ⟨hw, by simpa using hno.2.2⟩) (hash_not_mem p) p.host out]
  intro h
  have hlen := congrArg List.length (Url.mk.inj (Option.some_inj.mp h)).2.2.2.2.1
  simp [hq, hsplit] at hlen
  omega

/-- Every index is in range, and the components are recovered exactly then. -/
theorem decodeUrl_iff (url : Bytes) (p : Parts) (out : Url) : (decodeUrl url out).isSome ∧
    (decodeUrl p.assemble out = some p.expected ↔ Recoverable p out) := by
  refine ⟨decodeUrl_isSome url out, fun h => ?_, fun h => ?_⟩
  · have hquery : ∀ q ∈ p.query, byte '?' ∉ q := fun q hq hmark => query_not_recovered p hq hmark out h
    rw [decodeUrl_of_query p hquery, Option.some_inj, Url.mk.injEq] at h
    obtain ⟨-, hhost, hport, -⟩ := h
    refine ⟨hquery, fun hnil => ?_, fun hnone hleft => ?_⟩
    · rw [if_pos hnil] at hhost
      exact hhost.trans (authority_eq_nil hnil).1
    · have hexpected : p.expected.port = (defaultPort p.scheme).getD [] := by simp [Parts.expected, hnone]
      rw [hexpected] at hport
      split at hport
      next => exact hport
      next hne =>
        have hdefault := hleft.resolve_left hne
        simpa [hnone, hdefault] using hport
  · rw [decodeUrl_of_query p h.query]
    have hhost : (if authority p.host p.port = [] then out.host else p.host.address) = p.host.address := by
      split
      next hnil => rw [h.host hnil, (authority_eq_nil hnil).1]
      next => rfl
    have hport : (if authority p.host p.port = [] then out.port
        else p.port.getD ((defaultPort p.scheme).getD out.port)) = p.port.getD ((defaultPort p.scheme).getD []) := by
      split
      next hnil =>
        have hnone := (authority_eq_nil hnil).2
        rw [h.port hnone (Or.inl hnil), hnone, Option.getD_none]
      next hne =>
        cases hp : p.port with
        | some y => rfl
        | none =>
          cases hd : defaultPort p.scheme with
          | some d => rfl
          | none => simpa [hd] using h.port hp (Or.inr hd)
    rw [hhost, hport]
    rfl

/-- `http://h/p?a?b`. -/
def queried : Parts where
  scheme := str "http"
  host := .name (str "h") (by decide +kernel)
  port := none
  path := str "/p"
  query := some (str "a?b")
  fragment := none
  scheme_chars := by decide +kernel
  port_chars := by simp
  path_start := by decide +kernel
  path_chars := by decide +kernel
  query_chars := by decide +kernel
  fragment_chars := by simp

/-- The query starts at the last `?`, and the path has what is in front of it. -/
theorem not_decodeUrl : ¬∀ (p : Parts) (out : Url), decodeUrl p.assemble out = some p.expected := by
  intro h
  have hlast : decodeUrl queried.assemble ⟨[], [], [], [], [], []⟩ =
      some ⟨str "http", str "h", str "80", str "/p?a", str "b", []⟩ := by decide +kernel
  have hpath := (Url.mk.inj (Option.some_inj.mp (hlast.symm.trans (h queried _)))).2.2.2.1
  exact absurd hpath (by decide)

end Url

end Dcpp.Util
