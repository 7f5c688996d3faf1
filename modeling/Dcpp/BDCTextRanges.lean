import Dcpp.BDCTextLinks
import Dcpp.TaggerNesting
import Dcpp.Library.Placement

-- The ranges of the links in a message: how they come to lie one behind the other.
namespace Dcpp.BDCText

open Bdcpp Util Placement

variable (fmt : Format)

/-- A limit that a search from a later place on finds is that of a search from an earlier one on. -/
theorem limit_of_later {protid : Protocol} {data : Bytes} {pos later i : Nat} {r : Nat × UInt8} (hpos : pos ≤ later)
    (hlater : later ≤ i) (hi : i ≤ data.length) (h : limit protid data later i = some r) :
    limit protid data pos i = some r := by
  simp only [limit] at h ⊢
  have hchars : (if protid = .EMAIL then charsemaillocal else lettersnumbers) ≠ [] := by
    split_ifs
    · exact charsemaillocal_ne_nil
    · exact lettersnumbers_ne_nil
  generalize (if protid = .EMAIL then charsemaillocal else lettersnumbers) = chars at h hchars ⊢
  cases hfind : fromPos strfndlstnof (data.take i) chars later with
  | some k =>
    rw [strfndlstnof_of_later hpos hfind]
    rwa [hfind] at h
  | none =>
    rw [hfind] at h
    dsimp only at h
    split_ifs at h with hzero hc
    · -- nothing is earlier
      obtain rfl : pos = later := by omega
      rw [hfind]
      dsimp only
      rwa [if_pos hzero]
    · rcases Nat.eq_or_lt_of_le hpos with rfl | hlt
      · rw [hfind]
        dsimp only
        rwa [if_neg hzero, if_neg hc]
      · have hget : (data.take i).getD (later - 1) 0 = data.getD (later - 1) 0 := by
          rw [List.getD_eq_getElem?_getD, List.getElem?_take, if_pos (by omega), ← List.getD_eq_getElem?_getD]
        rw [strfndlstnof_before hchars hlt (by rw [List.length_take]; omega) hfind (by rwa [hget])]
        dsimp only
        rwa [Nat.sub_add_cancel (by omega)]

/-- In a part from the beginning on the search gets as far as the part goes. -/
theorem reach_take {data chars : Bytes} (hchars : chars ≠ []) {n i : Nat} (hi : i ≤ n) (hn : n ≤ data.length) :
    reach strfndfstnof (data.take n) chars i = min n (reach strfndfstnof data chars i) := by
  have hle := le_reach strfndfstnof data chars (Nat.le_trans hi hn)
  rcases Nat.eq_or_lt_of_le hi with rfl | hlt
  · rw [Nat.min_eq_left hle, reach, fromPos, if_neg (by rw [List.length_take]; omega), strfndfstnof,
      if_pos (Or.inl (by rw [List.drop_take, Nat.sub_self, List.take_zero]))]
    simp only [Option.map_none, Option.getD_none, List.length_take, Nat.min_eq_left hn]
  · have hne : data.drop i ≠ [] := by
      rw [Ne, List.drop_eq_nil_iff]
      omega
    have hne' : (data.drop i).take (n - i) ≠ [] := by
      rw [Ne, List.take_eq_nil_iff, not_or]
      exact ⟨by omega, hne⟩
    simp only [reach, fromPos, strfndfstnof]
    have hin : ¬i > (data.take n).length := by
      rw [List.length_take]
      omega
    have hin' : ¬i > data.length := by omega
    rw [if_neg hin, if_neg hin', List.drop_take, if_neg (not_or.mpr ⟨hne', hchars⟩),
      if_neg (not_or.mpr ⟨hne, hchars⟩), List.findIdx?_take]
    cases hfind : (data.drop i).findIdx? fun c => decide (c ∉ chars) with
    | none =>
      simp only [Option.bind_none, Option.map_none, Option.getD_none, List.length_take]
    | some k =>
      simp only [Option.bind_some, Option.map_some, Option.getD_some, Option.guard, List.length_take]
      by_cases hk : k < n - i
      · rw [if_pos (by simpa using hk)]
        simp only [Option.map_some, Option.getD_some]
        omega
      · rw [if_neg (by simpa using hk)]
        simp only [Option.map_none, Option.getD_none]
        omega

theorem domainStop_take {data : Bytes} {n i k : Nat} (hi : i ≤ n) (hn : n ≤ data.length)
    (h : domainStop (data.take n) i = .ok k) : ∃ k', domainStop data i = .ok k' := by
  have hle := le_reach strfndfstnof data charsemaildomain (Nat.le_trans hi hn)
  simp only [domainStop] at h ⊢
  rw [reach_take charsemaildomain_ne_nil hi hn] at h
  generalize reach strfndfstnof data charsemaildomain i = stop at hle h ⊢
  split_ifs at h with hempty hdot
  -- the dot is in the longer domain, too
  have hpart : (((data.take n).take (min n stop)).drop i) = ((data.take stop).drop i).take (n - i) := by
    rw [List.take_take, ← List.drop_take, List.take_take]
    congr 2
    omega
  rw [hpart] at hdot
  have hdot' : ¬(strfnd ((data.take stop).drop i) (str ".")).isNone := by
    cases hfind : strfnd (((data.take stop).drop i).take (n - i)) (str ".") with
    | none => simp [hfind] at hdot
    | some m => simp [strfnd_take hfind]
  have hstop : stop ≠ i := by omega
  rw [if_neg hstop, if_neg hdot']
  exact ⟨stop, rfl⟩

/-- A link of a part from the beginning on is one in the whole, where it may go on. -/
theorem linkStop_take {protid : Protocol} (hprotid : protid ≠ .MAGNET) {data : Bytes} {n j i k : Nat}
    (hi : i + protid.text.length ≤ n) (hn : n ≤ data.length) (h : linkStop protid (data.take n) j i = .ok k) :
    ∃ k', linkStop protid data j i = .ok k' := by
  have hle := le_reach strfndfstnof data charslink (Nat.le_trans hi hn)
  cases protid with
  | MAGNET => exact absurd rfl hprotid
  | LINK | WWW =>
    simp only [linkStop] at h ⊢
    rw [reach_take charslink_ne_nil hi hn] at h
    split_ifs at h with hj hempty
    rw [if_neg hj, if_neg (by omega)]
    exact ⟨_, rfl⟩
  | MAILTO =>
    simp only [linkStop] at h ⊢
    split_ifs at h with hj
    rw [if_neg hj]
    split at h
    · cases h
    · rename_i m hm
      obtain ⟨hpos, hm', hfind⟩ := fromPos_eq_some hm
      have hin := strfnd_le hfind
      rw [List.length_drop, List.length_take] at hin
      rw [fromPos_strfnd_take hm]
      exact domainStop_take (by simp [str] at hin; omega) hn h
  | EMAIL =>
    simp only [linkStop] at h ⊢
    split_ifs at h with hj
    rw [if_neg hj]
    exact domainStop_take hi hn h

theorem limit_take {protid : Protocol} {data : Bytes} {n pos i : Nat} (hpos : pos ≤ i) (hi : i ≤ n) :
    limit protid (data.take n) pos i = limit protid data pos i := by
  have hget : ∀ k < i, (data.take n).getD k 0 = data.getD k 0 := by
    intro k hk
    rw [List.getD_eq_getElem?_getD, List.getElem?_take, if_pos (by omega), ← List.getD_eq_getElem?_getD]
  have hfound : ∀ chars k, fromPos strfndlstnof (data.take i) chars pos = some k → k < i := by
    intro chars k hk
    obtain ⟨-, hle, hk⟩ := fromPos_eq_some hk
    have hlt := strfndlstnof_lt hk
    rw [List.length_drop, List.length_take] at hlt
    omega
  simp only [limit, List.take_take, Nat.min_eq_left hi]
  generalize (if protid = .EMAIL then charsemaillocal else lettersnumbers) = chars
  cases hfind : fromPos strfndlstnof (data.take i) chars pos with
  | some k =>
    dsimp only
    rw [hget k (hfound chars k hfind)]
  | none =>
    dsimp only
    split_ifs with hzero
    · rfl
    all_goals have := hget (pos - 1) (by omega); simp_all

/-- A turn that finds a link does so, too, where the search has begun earlier and the text goes on. -/
theorem turn_take {protid : Protocol} (hprotid : protid ≠ .MAGNET) {data : Bytes} {n pos i j k : Nat} (hpos : pos ≤ i)
    (hi : i + protid.text.length ≤ n) (hn : n ≤ data.length) (h : turn fmt protid (data.take n) pos i = .ok (j, k)) :
    ∃ k', turn fmt protid data pos i = .ok (j, k') := by
  obtain ⟨opening, stop, hlimit, hstop, -⟩ := turn_ok fmt h
  obtain ⟨stop', hstop'⟩ := linkStop_take hprotid hi hn hstop
  rw [limit_take hpos (by omega)] at hlimit
  simp only [turn, hlimit, hstop', hprotid, false_and, if_false]
  exact ⟨_, rfl⟩

theorem turn_of_later {protid : Protocol} {data : Bytes} {pos later i : Nat} {r : Nat × Nat} (hpos : pos ≤ later)
    (hlater : later ≤ i) (hi : i ≤ data.length) (h : turn fmt protid data later i = .ok r) :
    turn fmt protid data pos i = .ok r := by
  obtain ⟨opening, stop, hlimit, hstop, -⟩ := turn_ok fmt h
  rw [turn, hlimit] at h
  rw [turn, limit_of_later hpos hlater hi hlimit]
  exact h

/-- No link of one of the protocols in the text from `pos` on begins in front of `e`. -/
def Past (ps : List Protocol) (data : Bytes) (pos e : Nat) : Prop :=
  ∀ protid ∈ ps, ∀ i < data.length, pos ≤ i → fromPos strfnd data protid.text i = some i →
    ∀ link ∈ (turn fmt protid data pos i).toOption, e ≤ link.1

instance (ps : List Protocol) (data : Bytes) (pos e : Nat) : Decidable (Past fmt ps data pos e) := by
  unfold Past
  infer_instance

/-- Wherever the loop finds a link, the text before it has no link of the other protocols that begins in front of `e`,
the end of the link found before. -/
def apartLoop (protid : Protocol) (others : List Protocol) (pos : Nat) (check : Bytes → Bool)
    (remainder : Bytes → Nat → Bool) (e : Nat) (data : Bytes) (start : Nat) : Bool :=
  match _h : findLink fmt protid data start with
  | .error next => remainder data next
  | .ok (j, i) =>
    let checked := links fmt others (data.take j) pos
    let link := added fmt protid checked data j i
    Past fmt others (data.take j) pos e && check (data.take j) &&
      (i = data.length || apartLoop protid others pos check remainder link.stop (edited fmt protid checked data j i)
        (link.stop + 1))
termination_by data.length - start
decreasing_by
  have := findLink_bounds fmt _h
  rw [length_edited]
  omega

section Turn

variable {fmt} {protid : Protocol} {others : List Protocol} {pos : Nat} {check : Bytes → Bool}
  {remainder : Bytes → Nat → Bool} {e : Nat} {data : Bytes} {start : Nat}
  (h : apartLoop fmt protid others pos check remainder e data start)

include h

theorem apartLoop_error {next : Nat} (hfind : findLink fmt protid data start = .error next) : remainder data next := by
  rw [apartLoop] at h
  split at h
  · rename_i next' hfind'
    rw [hfind] at hfind'
    cases hfind'
    exact h
  · simp_all

theorem apartLoop_ok {j i : Nat} (hfind : findLink fmt protid data start = .ok (j, i)) :
    let checked := links fmt others (data.take j) pos
    Past fmt others (data.take j) pos e ∧ check (data.take j) ∧
      (i ≠ data.length → apartLoop fmt protid others pos check remainder (added fmt protid checked data j i).stop
        (edited fmt protid checked data j i) ((added fmt protid checked data j i).stop + 1)) := by
  rw [apartLoop] at h
  split at h
  · simp_all
  · rename_i j' i' hfind'
    rw [hfind] at hfind'
    cases hfind'
    simp only [Bool.and_eq_true, Bool.or_eq_true, decide_eq_true_eq] at h
    obtain ⟨⟨hpast, hcheck⟩, hrest⟩ := h
    exact ⟨hpast, hcheck, fun hi => hrest.resolve_left hi⟩

end Turn

/-- In every call of `links`, what is searched again has no links of the other protocols. -/
def apart : List Protocol → Bytes → Nat → Bool
  | [], _, _ => true
  | protid :: others, data, pos =>
    pos ≥ data.length ||
      apartLoop fmt protid others pos (fun d => apart others d pos) (fun d next => apart others d next) pos data pos

/-- Every range is that of its link's display text, and no two of them meet. -/
def Right (r : Bytes × List Link) : Prop :=
  (∀ l ∈ r.2, l.start < l.stop ∧ l.stop ≤ r.1.length ∧ range r.1 l.start l.stop = display fmt l.protid l.link) ∧
    r.2.Pairwise fun l l' => l.stop ≤ l'.start ∨ l'.stop ≤ l.start

instance (r : Bytes × List Link) : Decidable (Right fmt r) := by
  unfold Right
  infer_instance

theorem Past.take {ps : List Protocol} (hps : .MAGNET ∉ ps) {data : Bytes} {pos e : Nat} (h : Past fmt ps data pos e)
    {n : Nat} (hn : n ≤ data.length) : Past fmt ps (data.take n) pos e := by
  intro protid hprotid i hi hpos hfind link hlink
  obtain ⟨j, k⟩ := link
  rw [List.length_take] at hi
  have hbounds := (protocol_bounds hfind).2
  rw [List.length_take] at hbounds
  have hturn : turn fmt protid (data.take n) pos i = .ok (j, k) := by
    cases hturn : turn fmt protid (data.take n) pos i with
    | error next => simp [hturn, Except.toOption] at hlink
    | ok found => simpa [hturn, Except.toOption] using hlink
  have hne : protid ≠ .MAGNET := by
    rintro rfl
    exact hps hprotid
  obtain ⟨k', hk'⟩ := turn_take fmt hne hpos (by omega) hn hturn
  refine h protid hprotid i (by omega) hpos (fromPos_strfnd_take hfind) (j, k') ?_
  rw [hk']
  rfl

/-- The link that the loop finds is none in front of `e`. -/
theorem Past.findLink {ps : List Protocol} {data : Bytes} {pos e : Nat} (h : Past fmt ps data pos e)
    {protid : Protocol} (hprotid : protid ∈ ps) {start j i : Nat} (hpos : pos ≤ start)
    (hfind : findLink fmt protid data start = .ok (j, i)) : e ≤ j := by
  obtain ⟨from', k, hstart, hk, hturn⟩ := findLink_ok fmt hfind
  obtain ⟨hle, hlen⟩ := protocol_bounds hk
  have htext := protid.text_pos
  refine h protid hprotid k (by omega) (by omega) (fromPos_strfnd_found hk) (j, i) ?_
  rw [turn_of_later fmt (by omega : pos ≤ from') hle (by omega) hturn]
  rfl

section Display

variable {fmt}

theorem length_range {data : Bytes} {j i : Nat} (hi : i ≤ data.length) : (range data j i).length = i - j := by
  rw [range, List.length_drop, List.length_take, Nat.min_eq_left hi]

theorem magnetName_ne_nil (link : Bytes) {name : Bytes} (hname : name ≠ []) : magnetName fmt link name ≠ [] := by
  rw [magnetName]
  split <;> simp [hname]

theorem display_ne_nil {protid : Protocol} {data : Bytes} {start j i : Nat}
    (h : BDCText.findLink fmt protid data start = .ok (j, i)) : display fmt protid (range data j i) ≠ [] := by
  obtain ⟨-, hlt, hle, hmailto⟩ := findLink_bounds fmt h
  have hlen := length_range (j := j) hle
  have hrange : range data j i ≠ [] := by
    apply List.ne_nil_of_length_pos
    omega
  cases protid with
  | MAGNET =>
    simp only [display]
    split_ifs with hfriendly hname
    · exact magnetName_ne_nil _ hname
    · exact hrange
    · exact hrange
  | MAILTO =>
    simp only [display]
    split_ifs with hfriendly
    · have := hmailto rfl
      apply List.ne_nil_of_length_pos
      rw [List.length_drop]
      omega
    · exact hrange
  | LINK | EMAIL | WWW => simpa only [display, ite_self] using hrange

variable (fmt) in
/-- Without magnets the text gets shorter where it changes. -/
theorem display_shorter {protid : Protocol} (hprotid : protid ≠ .MAGNET) (link : Bytes) :
    (display fmt protid link).length ≤ link.length ∧
      ((display fmt protid link).length = link.length → display fmt protid link = link) := by
  cases protid with
  | MAGNET => exact absurd rfl hprotid
  | MAILTO =>
    simp only [display]
    split_ifs with hfriendly
    · refine ⟨by rw [List.length_drop]; omega, ?_⟩
      intro hlen
      rw [List.length_drop] at hlen
      have hnil : link = [] := List.eq_nil_of_length_eq_zero (by omega)
      rw [hnil, List.drop_nil]
    · exact ⟨Nat.le_refl _, fun _ => rfl⟩
  | LINK | EMAIL | WWW =>
    simp only [display, ite_self]
    exact ⟨Nat.le_refl _, fun _ => trivial⟩

end Display

/-- What a call of `links` from `pos` on does with the text and where it puts the links. -/
structure Spec (ps : List Protocol) (data : Bytes) (pos : Nat) (r : Bytes × List Link) : Prop where
  placed : Placed Link.start Link.stop (fun l => display fmt l.protid l.link) r.1 pos r.2
  frame : ∀ e ≤ data.length, (∀ l ∈ r.2, e ≤ l.start) → r.1.take e = data.take e
  shorter : .MAGNET ∉ ps → r.1.length ≤ data.length ∧ (r.1.length = data.length → r.1 = data)
  late : ∀ b ≤ pos, ∀ e, Past fmt ps data b e → ∀ l ∈ r.2, e ≤ l.start

theorem spec_nothing (ps : List Protocol) (data : Bytes) (pos : Nat) : Spec fmt ps data pos (data, []) where
  placed := trivial
  frame _ _ _ := rfl
  shorter _ := ⟨Nat.le_refl _, fun _ => rfl⟩
  late _ _ _ _ _ hl := absurd hl List.not_mem_nil

theorem le_length_of_take_eq {u v : Bytes} {e : Nat} (h : u.take e = v.take e) (he : e ≤ v.length) : e ≤ u.length := by
  have hlen := congrArg List.length h
  rw [List.length_take, List.length_take] at hlen
  omega

theorem start_le_stop (protid : Protocol) (checked : Bytes × List Link) (data : Bytes) (j i : Nat) :
    (added fmt protid checked data j i).start ≤ (added fmt protid checked data j i).stop :=
  Nat.le_add_right _ _

section Step

variable {fmt} {protid : Protocol} {others : List Protocol} (hothers : .MAGNET ∉ others) {data : Bytes}
  {pos start j i : Nat} (hfind : BDCText.findLink fmt protid data start = .ok (j, i)) {checked : Bytes × List Link}
  (hchecked : Spec fmt others (data.take j) pos checked)

include hothers hfind hchecked

theorem front_eq : front checked data j = checked.1 := by
  obtain ⟨-, hlt, hle, -⟩ := findLink_bounds fmt hfind
  rw [front]
  split_ifs with hlen
  · rfl
  · refine ((hchecked.shorter hothers).2 ?_).symm
    rw [List.length_take]
    omega

theorem start_added : (added fmt protid checked data j i).start = checked.1.length := by
  rw [added, front_eq hothers hfind hchecked]

theorem start_added_le : (added fmt protid checked data j i).start ≤ j := by
  obtain ⟨-, hlt, hle, -⟩ := findLink_bounds fmt hfind
  have hshorter := (hchecked.shorter hothers).1
  rw [List.length_take] at hshorter
  rw [start_added hothers hfind hchecked]
  omega

/-- The text in front of all the links that a turn adds tags for stays as it is. -/
theorem take_edited {e : Nat} (hlinks : ∀ l ∈ checked.2, e ≤ l.start) (he : e ≤ j) :
    e ≤ (added fmt protid checked data j i).start ∧
      (edited fmt protid checked data j i).take e = data.take e := by
  obtain ⟨-, hlt, hle, -⟩ := findLink_bounds fmt hfind
  have hframe := hchecked.frame e (by rw [List.length_take]; omega) hlinks
  rw [List.take_take, Nat.min_eq_left he] at hframe
  have hlen : e ≤ checked.1.length := by
    refine le_length_of_take_eq (v := data.take j) ?_ (by rw [List.length_take]; omega)
    rw [hframe, List.take_take, Nat.min_eq_left he]
  refine ⟨by rwa [start_added hothers hfind hchecked], ?_⟩
  rw [edited, front_eq hothers hfind hchecked, List.append_assoc, List.take_append_of_le_length hlen, hframe]

/-- The links of a turn stand where they are recorded. -/
theorem placed_edited {e : Nat} (hlinks : ∀ l ∈ checked.2, e ≤ l.start) (he : e ≤ j) :
    Placed Link.start Link.stop (fun l => display fmt l.protid l.link) (edited fmt protid checked data j i) e
      (checked.2 ++ [added fmt protid checked data j i]) := by
  have hstart := (take_edited hothers hfind hchecked hlinks he).1
  have hfront := start_added hothers hfind hchecked
  have hstands : ∀ l ∈ checked.2, l.stop ≤ checked.1.length := fun l hl => (hchecked.placed.mem hl).2.2.1
  have hbefore : Placed Link.start Link.stop (fun l => display fmt l.protid l.link)
      (edited fmt protid checked data j i) e checked.2 := by
    refine (hchecked.placed.from hlinks).congr hstands ?_ ?_
    · have hstop := start_le_stop fmt protid checked data j i
      rw [length_edited]
      omega
    · rw [edited, front_eq hothers hfind hchecked, List.append_assoc, List.take_left, List.take_length]
  refine hbefore.append hstands (by omega) ?_
  rw [edited, front_eq hothers hfind hchecked]
  refine placed_behind hfront ?_ (display_ne_nil hfind) rfl
  rw [added, front_eq hothers hfind hchecked]

theorem stop_le_added : ∀ l ∈ checked.2 ++ [added fmt protid checked data j i],
    l.stop ≤ (added fmt protid checked data j i).stop := by
  intro l hl
  have hstop := start_le_stop fmt protid checked data j i
  rw [start_added hothers hfind hchecked] at hstop
  rcases List.mem_append.mp hl with hl | hl
  · exact Nat.le_trans (hchecked.placed.mem hl).2.2.1 hstop
  · rw [List.mem_singleton.mp hl]

theorem edited_shorter (hprotid : protid ≠ .MAGNET) :
    (edited fmt protid checked data j i).length ≤ data.length ∧
      ((edited fmt protid checked data j i).length = data.length → edited fmt protid checked data j i = data) := by
  obtain ⟨-, hlt, hle, -⟩ := findLink_bounds fmt hfind
  obtain ⟨hfront, hsame⟩ := hchecked.shorter hothers
  obtain ⟨hdisplay, hshown⟩ := display_shorter fmt hprotid (range data j i)
  rw [length_range hle] at hdisplay hshown
  rw [List.length_take] at hfront hsame
  rw [edited, front_eq hothers hfind hchecked, List.length_append, List.length_append, List.length_drop]
  refine ⟨by omega, ?_⟩
  intro hlen
  have hparts : data.take j ++ range data j i = data.take i := by
    calc data.take j ++ range data j i
        = (data.take i).take j ++ (data.take i).drop j := by rw [range, List.take_take, Nat.min_eq_left (by omega)]
      _ = data.take i := List.take_append_drop j (data.take i)
  rw [hsame (by omega), hshown (by omega), hparts, List.take_append_drop]

end Step

/-- The loop keeps the links behind the end `e` of the link found before, one behind the other. -/
theorem linksLoop_spec {protid : Protocol} {others : List Protocol} (hothers : .MAGNET ∉ others) {pos : Nat}
    (hlinks : ∀ data pos, apart fmt others data pos → Spec fmt others data pos (links fmt others data pos))
    {e : Nat} {data : Bytes} {start : Nat}
    (h : apartLoop fmt protid others pos (fun d => apart fmt others d pos) (fun d next => apart fmt others d next) e
      data start) (he : e ≤ start) {r : Bytes × List Link}
    (hr : linksLoop fmt protid (fun d => links fmt others d pos) (fun d next => links fmt others d next) data start =
      r) :
    Placed Link.start Link.stop (fun l => display fmt l.protid l.link) r.1 e r.2 ∧
      (∀ e' ≤ data.length, (∀ l ∈ r.2, e' ≤ l.start) → r.1.take e' = data.take e') ∧
      (protid ≠ .MAGNET → r.1.length ≤ data.length ∧ (r.1.length = data.length → r.1 = data)) := by
  induction hn : data.length - start using Nat.strong_induction_on generalizing e data start r with
  | _ n ih =>
    cases hfind : findLink fmt protid data start with
    | error next =>
      have hnext := findLink_error fmt hfind
      rw [linksLoop_of_error fmt hfind] at hr
      have hspec := hlinks data next (apartLoop_error h hfind)
      subst hr
      exact ⟨hspec.placed.mono (by omega), hspec.frame, fun _ => hspec.shorter hothers⟩
    | ok found =>
      obtain ⟨j, i⟩ := found
      obtain ⟨hj, hlt, hle, -⟩ := findLink_bounds fmt hfind
      obtain ⟨hpast, hcheck, hrest⟩ := apartLoop_ok h hfind
      rw [linksLoop_of_ok fmt hfind] at hr
      have hchecked := hlinks (data.take j) pos hcheck
      generalize links fmt others (data.take j) pos = checked at hr hchecked hrest
      have hbehind := hchecked.late pos (Nat.le_refl _) e hpast
      have hplaced := placed_edited hothers hfind hchecked hbehind (by omega)
      have hshorter := edited_shorter hothers hfind hchecked
      dsimp only at hr
      split_ifs at hr with hi
      · subst hr
        refine ⟨hplaced, ?_, hshorter⟩
        intro e' he' hlinks'
        have hlast := hlinks' (added fmt protid checked data j i) (by simp)
        have := start_added_le hothers hfind hchecked
        exact (take_edited hothers hfind hchecked (fun l hl => hlinks' l (List.mem_append_left _ hl)) (by omega)).2
      · have hlen := length_edited fmt protid checked data j i
        generalize hmore : linksLoop fmt protid _ _ (edited fmt protid checked data j i)
          ((added fmt protid checked data j i).stop + 1) = more at hr
        obtain ⟨hbehind', hframe, hmshorter⟩ := ih _ (by omega) (hrest hi) (Nat.le_succ _) hmore rfl
        subst hr
        dsimp only
        have hstartstop := start_le_stop fmt protid checked data j i
        refine ⟨?_, ?_, ?_⟩
        · have hsame := hframe _ (by omega) fun l hl => (hbehind'.mem hl).1
          have hstop := stop_le_added hothers hfind hchecked
          rw [List.append_cons]
          have hlonger := le_length_of_take_eq hsame (by omega)
          have he' := (take_edited hothers hfind hchecked hbehind (by omega)).1
          exact (hplaced.congr hstop hlonger hsame).append hstop (by omega) hbehind'
        · intro e' he' hlinks'
          have hlast := hlinks' (added fmt protid checked data j i) (by simp)
          have hlej := start_added_le hothers hfind hchecked
          have hedited :=
            take_edited hothers hfind hchecked (fun l hl => hlinks' l (List.mem_append_left _ hl)) (by omega)
          rw [hframe e' (by omega) fun l hl => hlinks' l (by simp [hl]), hedited.2]
        · intro hprotid
          obtain ⟨hle', hsame⟩ := hshorter hprotid
          obtain ⟨hmle, hmsame⟩ := hmshorter hprotid
          refine ⟨by omega, ?_⟩
          intro hall
          rw [hmsame (by omega), hsame (by omega)]

/-- The links that are recorded are some of those that the text has. -/
theorem linksLoop_late {protid : Protocol} {others : List Protocol} (hothers : .MAGNET ∉ others) {pos : Nat}
    (hlinks : ∀ data pos, apart fmt others data pos → Spec fmt others data pos (links fmt others data pos))
    {data : Bytes} (h : apartLoop fmt protid others pos (fun d => apart fmt others d pos)
      (fun d next => apart fmt others d next) pos data pos) {b e : Nat} (hb : b ≤ pos)
    (hpast : Past fmt (protid :: others) data b e) :
    ∀ l ∈ (linksLoop fmt protid (fun d => links fmt others d pos) (fun d next => links fmt others d next) data pos).2,
      e ≤ l.start := by
  have hpast' : Past fmt others data b e := fun q hq => hpast q (List.mem_cons_of_mem protid hq)
  cases hfind : findLink fmt protid data pos with
  | error next =>
    have hnext := findLink_error fmt hfind
    rw [linksLoop_of_error fmt hfind]
    exact (hlinks data next (apartLoop_error h hfind)).late b (by omega) e hpast'
  | ok found =>
    obtain ⟨j, i⟩ := found
    obtain ⟨hj, hlt, hle, -⟩ := findLink_bounds fmt hfind
    obtain ⟨-, hcheck, hrest⟩ := apartLoop_ok h hfind
    rw [linksLoop_of_ok fmt hfind]
    have hchecked := hlinks (data.take j) pos hcheck
    have hbefore := hchecked.late b hb e (hpast'.take fmt hothers (by omega))
    generalize links fmt others (data.take j) pos = checked at hchecked hrest hbefore
    have hlink := (take_edited hothers hfind hchecked hbefore (hpast.findLink fmt List.mem_cons_self hb hfind)).1
    have hstop := start_le_stop fmt protid checked data j i
    intro l hl
    dsimp only at hl
    split_ifs at hl with hi
    · rcases List.mem_append.mp hl with hl | hl
      · exact hbefore l hl
      · rwa [List.mem_singleton.mp hl]
    · obtain ⟨hbehind, -, -⟩ := linksLoop_spec fmt hothers hlinks (hrest hi) (Nat.le_succ _) rfl
      rcases List.mem_append.mp hl with hl | hl
      · exact hbefore l hl
      · rcases List.mem_cons.mp hl with rfl | hl
        · exact hlink
        · have := (hbehind.mem hl).1
          omega

/-- The calls of `links`, from the last protocol to the first. -/
theorem links_spec {ps : List Protocol} (hps : .MAGNET ∉ ps.tail) (data : Bytes) (pos : Nat)
    (h : apart fmt ps data pos) : Spec fmt ps data pos (links fmt ps data pos) := by
  induction ps generalizing data pos with
  | nil => exact spec_nothing fmt [] data pos
  | cons protid others ih =>
    have hothers : ∀ data pos, apart fmt others data pos → Spec fmt others data pos (links fmt others data pos) :=
      ih fun hmem => hps (List.mem_of_mem_tail hmem)
    rw [links]
    rw [apart, Bool.or_eq_true, decide_eq_true_eq] at h
    split_ifs with hpos
    · exact spec_nothing fmt (protid :: others) data pos
    · have h := h.resolve_left hpos
      obtain ⟨hplaced, hframe, hshorter⟩ := linksLoop_spec fmt hps hothers h (Nat.le_refl pos) rfl
      refine ⟨hplaced, hframe, fun hmagnet => hshorter ?_, ?_⟩
      · rintro rfl
        exact hmagnet List.mem_cons_self
      · intro b hb e hpast
        exact linksLoop_late fmt hps hothers h hb hpast

/-- Where nothing that is searched again has a link, the ranges of the links are right. -/
theorem links_right (data : Bytes) (h : apart fmt protocols data 0) : Right fmt (links fmt protocols data 0) := by
  have hspec := links_spec fmt (by decide) data 0 h
  constructor
  · intro l hl
    exact (hspec.placed.mem hl).2
  · exact hspec.placed.pairwise.imp fun hlt => Or.inl hlt

/-- ASCII letters have a lower case, and sizes are not shown. -/
def plain (friendlylinks : Bool) : Format := ⟨friendlylinks, ascii, fun s => s, fun _ => []⟩

/-- A message whose links stay apart, and one in which a link is found twice. -/
theorem plain_messages : apart (plain true) protocols (str "a://b c://d") 0 = true ∧
    ¬Right (plain true) (links (plain true) protocols (str "www.a b://c d://e") 0) := by
  decide +kernel

/-- Two links with `://` where the text has no other links before the second one. -/
theorem links_right_twoLinks : Right (plain true) (links (plain true) protocols (str "a://b c://d") 0) :=
  links_right (plain true) _ plain_messages.1

/-- Before the second link with `://` the link in front of the first one is found once more. -/
theorem not_links_right : ¬∀ (fmt : Format) (data : Bytes), Right fmt (links fmt protocols data 0) := fun h =>
  plain_messages.2 (h (plain true) (str "www.a b://c d://e"))

/-- Every tag is at an end of the range of a link. -/
theorem tag_links (style : Bytes) {ls : List Link} {t : Tagger.Tag}
    (ht : t ∈ Tagger.addAll (ls.map (Link.added style))) :
    ∃ l ∈ ls, if t.opening then t.pos = l.start ∧ t.otherPos = l.stop else t.pos = l.stop ∧ t.otherPos = l.start := by
  obtain ⟨a, ha, ht⟩ := (Tagger.table_addAll _).of t ht
  obtain ⟨l, hl, rfl⟩ := List.mem_map.mp (List.mem_of_getElem? ha)
  refine ⟨l, hl, ?_⟩
  rcases ht with ht | ht <;> rw [ht] <;> exact ⟨rfl, rfl⟩

end Dcpp.BDCText
