import Dcpp.Bdcpp
import Dcpp.Magnet
import Dcpp.Tagger

-- The links in a message.
namespace Dcpp.Bdcpp

def charsemaillocal : Bytes :=
  str "abcdefghijklmnopqrstuvwxzyABCDEFGHIJKLMNOPQRSTUVWXYZ0123456789-.!#$%&'*+/=?^_`\x7b|\x7d~"

def charsemaildomain : Bytes := str "abcdefghijklmnopqrstuvwxzyABCDEFGHIJKLMNOPQRSTUVWXYZ0123456789-."

def charslink : Bytes :=
  str "abcdefghijklmnopqrstuvwxzyABCDEFGHIJKLMNOPQRSTUVWXYZ0123456789-._~:/?#[]@!$&'()*+,;=%"

def lettersnumbers : Bytes := str "abcdefghijklmnopqrstuvwxzyABCDEFGHIJKLMNOPQRSTUVWXYZ0123456789"

inductive Protocol
  | MAGNET | LINK | MAILTO | EMAIL | WWW
  deriving DecidableEq, Repr

def Protocol.text : Protocol → Bytes
  | .MAGNET => str "magnet:?"
  | .LINK => str "://"
  | .MAILTO => str "mailto:"
  | .EMAIL => str "@"
  | .WWW => str "www."

def protocols : List Protocol := [.MAGNET, .LINK, .MAILTO, .EMAIL, .WWW]

theorem Protocol.text_pos (protid : Protocol) : 0 < protid.text.length := by cases protid <;> decide

theorem str_ne_nil {s : String} (h : s ≠ "") : str s ≠ [] := by
  intro hnil
  exact h (String.toList_eq_nil_iff.mp (List.map_eq_nil_iff.mp hnil))

theorem charsemaillocal_ne_nil : charsemaillocal ≠ [] := str_ne_nil (by decide)

theorem charsemaildomain_ne_nil : charsemaildomain ≠ [] := str_ne_nil (by decide)

theorem charslink_ne_nil : charslink ≠ [] := str_ne_nil (by decide)

theorem lettersnumbers_ne_nil : lettersnumbers ≠ [] := str_ne_nil (by decide)

end Dcpp.Bdcpp

namespace Dcpp.BDCText

open Bdcpp Util

/-- What the text of links depends on: the setting, the locale with `Text::toLower`, and `formatBytes`, which prints a
`double`. -/
structure Format where
  friendlylinks : Bool
  locale : Util.Locale
  toLower : Bytes → Bytes
  formatBytes : Int → Bytes

variable (fmt : Format)

/-- Where a link begins and the character in front of it, if the protocol at `i` is limited there. -/
def limit (protid : Protocol) (data : Bytes) (start i : Nat) : Option (Nat × UInt8) :=
  let chars := if protid = .EMAIL then charsemaillocal else lettersnumbers
  match fromPos strfndlstnof (data.take i) chars start with
  | some k => some (k + 1, data.getD k 0)
  | none =>
    if start = 0 then some (0, 0)
    else
      -- extra check for a limit before the starting position
      let c := data.getD (start - 1) 0
      if c ∈ chars then none else some (start, c)

/-- The first place from `i` on that the search finds, or the end. -/
def reach (search : Bytes → Bytes → Option Nat) (data chars : Bytes) (i : Nat) : Nat :=
  (fromPos search data chars i).getD data.length

/-- The end of the domain that begins at `i`, or the place to go on from where there is none. -/
def domainStop (data : Bytes) (i : Nat) : Except Nat Nat :=
  let k := reach strfndfstnof data charsemaildomain i
  if k = i then .error i
  else if (strfnd ((data.take k).drop i) (str ".")).isNone then .error i
  else .ok k

/-- The end of a link that begins at `j` and has its protocol at `i`, or the place to go on from. -/
def linkStop (protid : Protocol) (data : Bytes) (j i : Nat) : Except Nat Nat :=
  let next := i + protid.text.length
  match protid with
  | .MAGNET =>
    if i ≠ j then .error next
    else
      let k := reach strfndfstof data (str " \t\r\n<>\"") next
      if k = next then .error next else .ok k
  | .LINK =>
    if i = j then .error next
    else
      let k := reach strfndfstnof data charslink next
      if k = next then .error next else .ok k
  | .MAILTO =>
    if i ≠ j then .error next
    else
      match fromPos strfnd data (str "@") next with
      | none => .error next
      | some k => domainStop data (k + 1)
  | .EMAIL => if j = i then .error next else domainStop data next
  | .WWW =>
    if i ≠ j then .error next
    else
      let k := reach strfndfstnof data charslink next
      if k = next then .error next else .ok k

def ending (opening : UInt8) : Option UInt8 :=
  if opening = byte '(' then some (byte ')')
  else if opening = byte '[' then some (byte ']')
  else if opening = byte '\x7b' then some (byte '\x7d')
  else none

/-- If there was an opening bracket, the ending one is skipped as well. -/
def withoutEnding (data : Bytes) (opening : UInt8) (i : Nat) : Nat :=
  if (ending opening).isSome ∧ data[i - 1]? = ending opening then i - 1 else i

/-- The range of a text. -/
def range (data : Bytes) (j i : Nat) : Bytes := (data.take i).drop j

/-- A turn of the loop that has found the protocol at `i`: the range of the link, or the place to go on from. -/
def turn (protid : Protocol) (data : Bytes) (start i : Nat) : Except Nat (Nat × Nat) :=
  match limit protid data start i with
  | none => .error (i + protid.text.length)
  | some (j, opening) =>
    match linkStop protid data j i with
    | .error next => .error next
    | .ok k =>
      let i := withoutEnding data opening k
      if protid = .MAGNET ∧ (Magnet.parseUri fmt.locale fmt.toLower (range data j i)).isNone then
        .error (i + 1) -- skip the whole wannabe magnet
      else .ok (j, i)

/-- The name of a magnet with its size, if it has any. -/
def magnetName (link name : Bytes) : Bytes :=
  match strfnd link (str "&xl=") with
  | none => name ++ str " (magnet)"
  | some k =>
    let stop := (fromPos strfnd link (str "&") (k + 4)).getD link.length
    name ++ str " (" ++ fmt.formatBytes (toInt64 (range link (k + 4) stop)) ++ str ")"

/-- What is shown of a link: friendly links are shown as the name of the magnet and without `mailto:`. -/
def display (protid : Protocol) (link : Bytes) : Bytes :=
  if fmt.friendlylinks then
    match protid with
    | .MAGNET =>
      let name := ((Magnet.parseUri fmt.locale fmt.toLower link).map Magnet.name).getD []
      if name ≠ [] then magnetName fmt link name else link
    | .MAILTO => link.drop 7
    | _ => link
  else link

theorem le_reach (search : Bytes → Bytes → Option Nat) (data chars : Bytes) {i : Nat} (hi : i ≤ data.length) :
    i ≤ reach search data chars i := by
  rw [reach]
  cases h : fromPos search data chars i with
  | none => exact hi
  | some k => exact (fromPos_eq_some h).2.1

theorem reach_le (search : Bytes → Bytes → Option Nat) (hs : ∀ {p d : Bytes} {k : Nat}, search p d = some k → k < p.length)
    (data chars : Bytes) (i : Nat) : reach search data chars i ≤ data.length := by
  rw [reach]
  cases h : fromPos search data chars i with
  | none => exact Nat.le_refl _
  | some k =>
    obtain ⟨hle, hik, hk⟩ := fromPos_eq_some h
    have hlt := hs hk
    rw [List.length_drop] at hlt
    exact (by omega : k ≤ data.length)

theorem domainStop_ok {data : Bytes} {i k : Nat} (hi : i ≤ data.length) (h : domainStop data i = .ok k) :
    i < k ∧ k ≤ data.length := by
  have hle := le_reach strfndfstnof data charsemaildomain hi
  have hreach := reach_le strfndfstnof strfndfstnof_lt data charsemaildomain i
  simp only [domainStop] at h
  split_ifs at h with hempty hdot
  cases h
  exact ⟨by omega, hreach⟩

theorem domainStop_error {data : Bytes} {i next : Nat} (h : domainStop data i = .error next) : next = i := by
  simp only [domainStop] at h
  split_ifs at h <;> exact (Except.error.inj h).symm

theorem limit_bounds {protid : Protocol} {data : Bytes} {start i j : Nat} {opening : UInt8} (hi : start ≤ i)
    (h : limit protid data start i = some (j, opening)) : start ≤ j ∧ j ≤ i := by
  simp only [limit] at h
  generalize (if protid = .EMAIL then charsemaillocal else lettersnumbers) = chars at h
  split at h
  · rename_i k hk
    obtain ⟨-, hle, hk⟩ := fromPos_eq_some hk
    have hlt := strfndlstnof_lt hk
    rw [List.length_drop, List.length_take] at hlt
    cases h
    omega
  · split_ifs at h <;> cases h <;> omega

theorem linkStop_ok {protid : Protocol} {data : Bytes} {j i k : Nat} (hi : i + protid.text.length ≤ data.length)
    (h : linkStop protid data j i = .ok k) : i + protid.text.length < k ∧ k ≤ data.length := by
  have hlink := le_reach strfndfstnof data charslink hi
  have hlinkle := reach_le strfndfstnof strfndfstnof_lt data charslink (i + protid.text.length)
  cases protid with
  | MAGNET =>
    have hle := le_reach strfndfstof data (str " \t\r\n<>\"") hi
    have hreach := reach_le strfndfstof strfndfstof_lt data (str " \t\r\n<>\"") (i + Protocol.MAGNET.text.length)
    simp only [linkStop] at h
    split_ifs at h with hj hempty
    cases h
    exact ⟨by omega, hreach⟩
  | LINK | WWW =>
    simp only [linkStop] at h
    split_ifs at h with hj hempty
    cases h
    exact ⟨by omega, hlinkle⟩
  | MAILTO =>
    simp only [linkStop] at h
    split_ifs at h with hj
    split at h
    · cases h
    · rename_i m hm
      obtain ⟨hle, hnext, hm⟩ := fromPos_eq_some hm
      have hin := strfnd_le hm
      rw [List.length_drop] at hin
      have hstop := domainStop_ok (by simp [str] at hin; omega) h
      exact ⟨by omega, hstop.2⟩
  | EMAIL =>
    simp only [linkStop] at h
    split_ifs at h with hj
    exact domainStop_ok hi h

theorem linkStop_error {protid : Protocol} {data : Bytes} {j i next : Nat} (h : linkStop protid data j i = .error next) :
    i + protid.text.length ≤ next := by
  cases protid with
  | MAGNET | LINK | WWW =>
    simp only [linkStop] at h
    split_ifs at h <;> exact Nat.le_of_eq (Except.error.inj h)
  | MAILTO =>
    simp only [linkStop] at h
    split_ifs at h with hj
    · exact Nat.le_of_eq (Except.error.inj h)
    · split at h
      · exact Nat.le_of_eq (Except.error.inj h)
      · rename_i m hm
        have := (fromPos_eq_some hm).2.1
        have := domainStop_error h
        omega
  | EMAIL =>
    simp only [linkStop] at h
    split_ifs at h with hj
    · exact Nat.le_of_eq (Except.error.inj h)
    · exact Nat.le_of_eq (domainStop_error h).symm

theorem mailto_stop {data : Bytes} {j i k : Nat} (h : linkStop .MAILTO data j i = .ok k) : i + 8 < k := by
  simp only [linkStop] at h
  split_ifs at h with hj
  split at h
  · cases h
  · rename_i m hm
    obtain ⟨hle, hnext, hm⟩ := fromPos_eq_some hm
    have hin := strfnd_le hm
    rw [List.length_drop] at hin
    have hstop := domainStop_ok (by simp [str] at hin; omega) h
    have htext : Protocol.MAILTO.text.length = 7 := rfl
    omega

theorem withoutEnding_bounds (data : Bytes) (opening : UInt8) (i : Nat) :
    i - 1 ≤ withoutEnding data opening i ∧ withoutEnding data opening i ≤ i := by
  rw [withoutEnding]
  split_ifs <;> omega

/-- What a turn that finds a link has checked. -/
theorem turn_ok {protid : Protocol} {data : Bytes} {start i j k : Nat} (h : turn fmt protid data start i = .ok (j, k)) :
    ∃ opening stop, limit protid data start i = some (j, opening) ∧ linkStop protid data j i = .ok stop ∧
      withoutEnding data opening stop = k := by
  rw [turn] at h
  split at h
  · cases h
  · rename_i j' opening hlimit
    split at h
    · cases h
    · rename_i stop hstop
      dsimp only at h
      split_ifs at h
      cases h
      exact ⟨opening, stop, hlimit, hstop, rfl⟩

theorem turn_bounds {protid : Protocol} {data : Bytes} {start i j k : Nat} (hstart : start ≤ i)
    (hi : i + protid.text.length ≤ data.length) (h : turn fmt protid data start i = .ok (j, k)) :
    start ≤ j ∧ j < k ∧ k ≤ data.length ∧ (protid = .MAILTO → j + 7 < k) := by
  obtain ⟨opening, stop, hlimit, hstop, rfl⟩ := turn_ok fmt h
  obtain ⟨hj, hji⟩ := limit_bounds hstart hlimit
  obtain ⟨hlt, hle⟩ := linkStop_ok hi hstop
  have hending := withoutEnding_bounds data opening stop
  have htext := protid.text_pos
  refine ⟨hj, by omega, by omega, ?_⟩
  rintro rfl
  have := mailto_stop hstop
  omega

theorem turn_error {protid : Protocol} {data : Bytes} {start i next : Nat} (hi : i + protid.text.length ≤ data.length)
    (h : turn fmt protid data start i = .error next) : i < next := by
  have htext := protid.text_pos
  rw [turn] at h
  split at h
  · cases h
    omega
  · rename_i j opening hlimit
    split at h
    · rename_i n hstop
      cases h
      have := linkStop_error hstop
      omega
    · rename_i stop hstop
      have := (linkStop_ok hi hstop).1
      have := (withoutEnding_bounds data opening stop).1
      dsimp only at h
      split_ifs at h
      cases h
      omega

/-- The protocol's text is at `i`. -/
theorem protocol_bounds {protid : Protocol} {data : Bytes} {j i : Nat}
    (h : fromPos strfnd data protid.text j = some i) : j ≤ i ∧ i + protid.text.length ≤ data.length := by
  obtain ⟨hle, hji, hi⟩ := fromPos_eq_some h
  have := strfnd_le hi
  rw [List.length_drop] at this
  omega

/-- The first link of a protocol from `j` on, or the place from which nothing more is found. -/
def findLink (protid : Protocol) (data : Bytes) (j : Nat) : Except Nat (Nat × Nat) :=
  match _hfind : fromPos strfnd data protid.text j with
  | none => .error j
  | some i =>
    match _hturn : turn fmt protid data j i with
    | .error next => findLink protid data next
    | .ok found => .ok found
termination_by data.length - j
decreasing_by
  obtain ⟨hji, hi⟩ := protocol_bounds _hfind
  have htext := protid.text_pos
  have := turn_error fmt hi _hturn
  omega

/-- The link is that of a turn. -/
theorem findLink_ok {protid : Protocol} {data : Bytes} {start j i : Nat} (h : findLink fmt protid data start = .ok (j, i)) :
    ∃ from' k, start ≤ from' ∧ fromPos strfnd data protid.text from' = some k ∧
      turn fmt protid data from' k = .ok (j, i) := by
  fun_induction findLink fmt protid data start with
  | case1 => cases h
  | case2 start k hfind next hturn ih =>
    obtain ⟨hstart, hk⟩ := protocol_bounds hfind
    have hnext := turn_error fmt hk hturn
    obtain ⟨from', k', hle, hfind', hturn'⟩ := ih h
    exact ⟨from', k', by omega, hfind', hturn'⟩
  | case3 start k hfind found hturn =>
    cases h
    exact ⟨start, k, Nat.le_refl _, hfind, hturn⟩

theorem findLink_error {protid : Protocol} {data : Bytes} {start next : Nat}
    (h : findLink fmt protid data start = .error next) : start ≤ next := by
  fun_induction findLink fmt protid data start with
  | case1 =>
    cases h
    exact Nat.le_refl _
  | case2 start k hfind next' hturn ih =>
    obtain ⟨hstart, hk⟩ := protocol_bounds hfind
    have hnext := turn_error fmt hk hturn
    have := ih h
    omega
  | case3 => cases h

theorem findLink_bounds {protid : Protocol} {data : Bytes} {start j i : Nat}
    (h : findLink fmt protid data start = .ok (j, i)) :
    start ≤ j ∧ j < i ∧ i ≤ data.length ∧ (protid = .MAILTO → j + 7 < i) := by
  obtain ⟨from', k, hle, hfind, hturn⟩ := findLink_ok fmt h
  obtain ⟨hk, hlen⟩ := protocol_bounds hfind
  obtain ⟨hj, hbounds⟩ := turn_bounds fmt hk hlen hturn
  exact ⟨by omega, hbounds⟩

/-- A link that a tag is added for. -/
structure Link where
  start : Nat
  stop : Nat
  protid : Protocol
  link : Bytes
  deriving DecidableEq

def Link.id (l : Link) : Bytes :=
  match l.protid with
  | .MAGNET => str "magnet"
  | .LINK => str "link"
  | .MAILTO | .EMAIL => str "email"
  | .WWW => str "website"

def Link.href (l : Link) : Bytes :=
  match l.protid with
  | .EMAIL => str "mailto:" ++ l.link
  | .WWW => str "http://" ++ l.link
  | _ => l.link

/-- The arguments of the `Tagger::add`; `style` is the `cssStyle` of links. -/
def Link.added (style : Bytes) (l : Link) : Tagger.Added where
  start := l.start
  stop := l.stop
  id := str "a"
  attributes := str "href=\"" ++ SimpleXML.escape l.href true ++ str "\" style=\"" ++ SimpleXML.escape style true ++
    str "\" id=\"" ++ SimpleXML.escape l.id true ++ str "\""

/-- The text before a link, in which the links of the other protocols are searched for. -/
def front (checked : Bytes × List Link) (data : Bytes) (j : Nat) : Bytes :=
  if checked.1.length ≠ j then checked.1 else data.take j

/-- The text with what is shown of the link in the place of the link. -/
def edited (protid : Protocol) (checked : Bytes × List Link) (data : Bytes) (j i : Nat) : Bytes :=
  front checked data j ++ display fmt protid (range data j i) ++ data.drop i

/-- The link that the tag is added for. -/
def added (protid : Protocol) (checked : Bytes × List Link) (data : Bytes) (j i : Nat) : Link where
  start := (front checked data j).length
  stop := (front checked data j).length + (display fmt protid (range data j i)).length
  protid := protid
  link := range data j i

theorem length_edited (protid : Protocol) (checked : Bytes × List Link) (data : Bytes) (j i : Nat) :
    (edited fmt protid checked data j i).length = (added fmt protid checked data j i).stop + (data.length - i) := by
  simp only [edited, added, List.length_append, List.length_drop]

/-- The loop for a protocol: the text and the links that tags are added for. `check` looks for the other protocols in the
text before a link, `remainder` in the text from the place on from which nothing more is found. -/
def linksLoop (protid : Protocol) (check : Bytes → Bytes × List Link) (remainder : Bytes → Nat → Bytes × List Link)
    (data : Bytes) (start : Nat) : Bytes × List Link :=
  match _h : findLink fmt protid data start with
  | .error next => remainder data next
  | .ok (j, i) =>
    let checked := check (data.take j)
    let link := added fmt protid checked data j i
    let data' := edited fmt protid checked data j i
    if i = data.length then (data', checked.2 ++ [link])
    else
      let more := linksLoop protid check remainder data' (link.stop + 1)
      (more.1, checked.2 ++ link :: more.2)
termination_by data.length - start
decreasing_by
  have := findLink_bounds fmt _h
  rw [length_edited]
  omega

section Turn

variable {protid : Protocol} {check : Bytes → Bytes × List Link} {remainder : Bytes → Nat → Bytes × List Link}
  {data : Bytes} {start : Nat}

theorem linksLoop_of_error {next : Nat} (h : findLink fmt protid data start = .error next) :
    linksLoop fmt protid check remainder data start = remainder data next := by
  rw [linksLoop]
  split
  · rename_i next' h'
    rw [h] at h'
    cases h'
    rfl
  · simp_all

theorem linksLoop_of_ok {j i : Nat} (h : findLink fmt protid data start = .ok (j, i)) :
    linksLoop fmt protid check remainder data start =
      let checked := check (data.take j)
      let link := added fmt protid checked data j i
      let data' := edited fmt protid checked data j i
      if i = data.length then (data', checked.2 ++ [link])
      else
        let more := linksLoop fmt protid check remainder data' (link.stop + 1)
        (more.1, checked.2 ++ link :: more.2) := by
  rw [linksLoop]
  split
  · simp_all
  · rename_i j' i' h'
    rw [h] at h'
    cases h'
    rfl

end Turn

/-- The links of the protocols from `pos` on. -/
def links : List Protocol → Bytes → Nat → Bytes × List Link
  | [], data, _ => (data, [])
  | protid :: others, data, pos =>
    if pos ≥ data.length then (data, [])
    else linksLoop fmt protid (fun d => links others d pos) (fun d next => links others d next) data pos

end Dcpp.BDCText
