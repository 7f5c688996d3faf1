import Dcpp.NmdcLines

-- Which lines of an NMDC hub are cut in range.
namespace Dcpp

open Edit Util

theorem isSome_bind {α β : Type} {x : Option α} {f : α → Option β} (hx : x.isSome) (hf : ∀ a, (f a).isSome) :
    (x.bind f).isSome := by
  obtain ⟨a, rfl⟩ := Option.isSome_iff_exists.mp hx
  exact hf a

theorem isSome_ite {α : Type} {p : Prop} [Decidable p] {x y : Option α} (hx : p → x.isSome) (hy : ¬p → y.isSome) :
    (if p then x else y).isSome := by
  split
  next h => exact hx h
  next h => exact hy h

theorem isSome_foldlM {σ α : Type} {f : σ → α → Option σ} (hf : ∀ s a, (f s a).isSome) (l : List α) (s : σ) :
    (l.foldlM f s).isSome := by
  induction l generalizing s with
  | nil => rfl
  | cons a l ih =>
    rw [List.foldlM_cons]
    exact isSome_bind (hf s a) ih

theorem StringTokenizer.tokenLoop_isSome {aToken : Bytes} (h : aToken ≠ []) (aString : Bytes) (rounds : Nat) {j : Nat}
    (hj : j ≤ aString.length) (hrounds : aString.length - j < rounds) :
    (tokenLoop aToken aString rounds j).isSome := by
  induction rounds generalizing j with
  | zero => cases hrounds
  | succ rounds ih =>
    have hpos := List.length_pos_iff.mpr h
    rw [tokenLoop]
    split
    next i hi =>
      obtain ⟨hle, hlen⟩ := find_bounds hi
      exact isSome_substr_bind hj fun _ => isSome_bind (ih hlen (by omega)) fun _ => rfl
    next =>
      split
      next =>
        rw [substr_of_le hj]
        rfl
      next => rfl

theorem StringTokenizer.getTokens_isSome {aToken : Bytes} (h : aToken ≠ []) (aString : Bytes) :
    (getTokens aString aToken).isSome :=
  tokenLoop_isSome h aString _ (Nat.zero_le _) (Nat.lt_succ_self _)

theorem Util.replaceAll_isSome {search : Bytes} (h : search ≠ []) (replacement s : Bytes) :
    (replaceAll search replacement s).isSome := by
  obtain ⟨a, pat, rfl⟩ := List.exists_cons_of_ne_nil h
  have hloop : replaceLoop (a :: pat) (a :: pat).length replacement replacement.length s =
      some (substitute (a :: pat) (replacement ++ (a :: pat).drop (a :: pat).length) s) :=
    replaceLoop_eq le_rfl (by simp) (by simp) s
  rw [replaceAll, hloop]
  rfl

namespace NmdcHub

open StringTokenizer

theorem charAt_of_le {s : Bytes} {i : Nat} (h : i ≤ s.length) : charAt s i = some (s.getD i 0) := if_pos h

theorem isSome_charAt_bind {β : Type} {s : Bytes} {i : Nat} {f : UInt8 → Option β} (h : i ≤ s.length)
    (hf : ∀ c, (f c).isSome) : ((charAt s i).bind f).isSome := by
  rw [charAt_of_le h]
  exact hf _

theorem eraseFrom_isSome {s : Bytes} {pos : Nat} (h : pos ≤ s.length) : (eraseFrom s pos).isSome := by
  rw [eraseFrom, if_pos h]
  rfl

theorem eraseRange_isSome {s : Bytes} {i j : Nat} (hij : i ≤ j) (hj : j ≤ s.length) : (eraseRange s i j).isSome := by
  rw [eraseRange, if_pos ⟨hij, hj⟩]
  rfl

theorem unescape_isSome (s : Bytes) : (unescape s).isSome := by
  rw [unescape, validateMessage_true]
  rfl

variable {U : Type} [DecidableEq U] (env : Environment U)

theorem tagField_isSome (s : Identity U × (U → Bool)) (i : Bytes) : (tagField s i).isSome := by
  rw [tagField]
  refine isSome_ite (fun _ => rfl) fun hlen => ?_
  rw [Nat.not_lt] at hlen
  refine isSome_ite (fun _ => ?_) fun _ => isSome_ite (fun _ => isSome_substr_bind hlen fun _ => rfl) fun _ => ?_
  · refine isSome_substr_bind hlen fun _ => isSome_bind (getTokens_isSome (by decide) _) fun l => ?_
    split <;> rfl
  · split
    next j hj => exact isSome_bind (eraseRange_isSome (Nat.le_add_right j 2) (find_bounds hj).2) fun _ => rfl
    next =>
      exact isSome_ite (fun hm => isSome_charAt_bind (Nat.le_of_succ_le hm.2.ge) fun _ => rfl) fun _ => rfl

theorem updateFromTag_isSome (s : Identity U × (U → Bool)) (tag : Bytes) : (updateFromTag s tag).isSome :=
  isSome_bind (getTokens_isSome (by decide) tag) fun l => isSome_bind (isSome_foldlM tagField_isSome l s) fun _ => rfl

omit [DecidableEq U] in
theorem statusMessage_isSome (h : NmdcHub U) (line : Bytes) (spam : Bool) : (h.statusMessage line spam).isSome :=
  isSome_bind (unescape_isSome line) fun _ => rfl

theorem chatMessage_isSome (h : NmdcHub U) (nick message : Bytes) : (h.chatMessage env nick message).isSome := by
  rw [chatMessage]
  exact isSome_ite (fun _ => rfl) fun _ =>
    isSome_bind (unescape_isSome message) fun _ => isSome_ite (fun _ => rfl) fun _ => rfl

/-- Every line that is not a command is cut in range. -/
theorem onChat_isSome (h : NmdcHub U) (aLine : Bytes) : (h.onChat env aLine).isSome := by
  rw [onChat]
  refine isSome_charAt_bind (Nat.zero_le _) fun c => isSome_ite (fun _ => statusMessage_isSome _ _ _) fun _ => ?_
  split
  next => exact statusMessage_isSome _ _ _
  next i hi =>
    obtain ⟨hle, hlt⟩ := find_lt hi
    refine isSome_substr_bind (by omega) fun nick => isSome_ite (fun hlen => ?_) fun _ => statusMessage_isSome _ _ _
    rw [distance, if_pos (by omega)] at hlen
    exact isSome_substr_bind (by omega) fun message =>
      isSome_ite (fun _ => statusMessage_isSome _ _ _) fun _ => chatMessage_isSome env _ nick message

omit [DecidableEq U] in
theorem searchFlood_isSome (h : NmdcHub U) (seeker : Bytes) : (h.searchFlood env seeker).isSome := by
  rw [searchFlood]
  split
  next hpre => exact isSome_substr_bind hpre.length_le fun _ => rfl
  next => rfl

theorem markPassive_isSome (h : NmdcHub U) (seeker : Bytes) : (h.markPassive env seeker).isSome := by
  rw [markPassive]
  refine isSome_ite (fun hpassive => ?_) fun _ => rfl
  rw [isPassive, Bool.and_eq_true, decide_eq_true_eq] at hpassive
  refine isSome_substr_bind hpassive.1.le fun nick => ?_
  split
  next => rfl
  next => exact isSome_ite (fun _ => rfl) fun _ => rfl

/-- The second letter is read unless the first one is an `F`. -/
theorem sizeMode_isSome_iff {param : Bytes} {i : Nat} (hi : i ≤ param.length) :
    (sizeMode param i).isSome ↔ param.getD i 0 = byte 'F' ∨ i + 2 ≤ param.length := by
  rw [sizeMode, charAt_of_le hi]
  simp only [Option.bind_eq_bind, Option.bind_some]
  by_cases hF : param.getD i 0 = byte 'F'
  · rw [if_pos hF]
    exact iff_of_true rfl (Or.inl hF)
  · rw [if_neg hF]
    by_cases hlen : i + 2 ≤ param.length
    · exact iff_of_true (isSome_charAt_bind hlen fun _ => isSome_ite (fun _ => rfl) fun _ => rfl) (Or.inr hlen)
    · rw [charAt, if_neg hlen]
      exact iff_of_false Bool.false_ne_true fun h => h.elim hF hlen

/-- Behind the two letters everything is in range. -/
theorem searchTerms_isSome_iff (h : NmdcHub U) (seeker : Bytes) {param : Bytes} {i : Nat} :
    (h.searchTerms env seeker param i).isSome ↔ (sizeMode param i).isSome := by
  rw [searchTerms]
  cases sizeMode param i with
  | none => rfl
  | some a =>
    refine iff_of_true ?_ rfl
    simp only [Option.bind_eq_bind, Option.bind_some]
    split
    next => rfl
    next j hj =>
      obtain ⟨hij, hjlt⟩ := find_lt hj
      refine isSome_ite (fun _ => rfl) fun _ => isSome_substr_bind (hij.trans hjlt.le) fun size => ?_
      split
      next => rfl
      next k hk =>
        obtain ⟨hjk, hklt⟩ := find_lt hk
        refine isSome_ite (fun _ => rfl) fun _ => isSome_substr_bind hjlt fun type =>
          isSome_substr_bind hklt fun escaped => isSome_bind (unescape_isSome escaped) fun terms =>
            isSome_ite (fun _ => rfl) fun _ => isSome_bind (markPassive_isSome env h seeker) fun r => ?_
        cases r with
        | none => rfl
        | some h => rfl

/-- The options of a search are read: it is not an own one, and the seeker does not flood. -/
structure Reads (h : NmdcHub U) (seeker : Bytes) : Prop where
  normal : h.state = .NORMAL
  other : h.isOwn env seeker = false
  fresh : (h.addSeeker env seeker).isFlooder seeker = false
  few : (h.addSeeker env seeker).tooMany seeker = false

/-- A search whose options are read, and end within the two letters. -/
def CutSearch (h : NmdcHub U) (param : Bytes) : Prop :=
  ∃ seeker options, param = seeker ++ byte ' ' :: options ∧ seeker ≠ [] ∧ byte ' ' ∉ seeker ∧ h.Reads env seeker ∧
    options.headD 0 ≠ byte 'F' ∧ options.length < 2

theorem substr_seeker (seeker options : Bytes) :
    substr (seeker ++ options) 0 (distance 0 seeker.length) = some seeker :=
  substr_distance [] seeker options

theorem onSearch_eq (h : NmdcHub U) {seeker : Bytes} (options : Bytes) (hspace : byte ' ' ∉ seeker)
    (hne : seeker ≠ []) (hreads : h.Reads env seeker) :
    h.onSearch env (seeker ++ byte ' ' :: options) = (h.addSeeker env seeker).searchTerms env seeker
      (seeker ++ byte ' ' :: options) (seeker.length + 1) := by
  rw [onSearch, if_neg (not_not.mpr hreads.normal), find_first hspace]
  dsimp only
  rw [if_neg (mt List.length_eq_zero_iff.mp hne), substr_seeker, Option.bind_eq_bind, Option.bind_some,
    if_neg (by rw [hreads.other]; exact Bool.false_ne_true), if_neg (by rw [hreads.fresh]; exact Bool.false_ne_true),
    if_neg (by rw [hreads.few]; exact Bool.false_ne_true)]

omit [DecidableEq U] in
theorem cutSearch_iff (h : NmdcHub U) {seeker : Bytes} (options : Bytes) (hspace : byte ' ' ∉ seeker) :
    h.CutSearch env (seeker ++ byte ' ' :: options) ↔
      seeker ≠ [] ∧ h.Reads env seeker ∧ options.headD 0 ≠ byte 'F' ∧ options.length < 2 := by
  refine ⟨?_, fun hcut => ⟨seeker, options, rfl, hcut.1, hspace, hcut.2⟩⟩
  rintro ⟨seeker', options', heq, hne, hspace', hcut⟩
  obtain ⟨rfl, rfl⟩ := split_first hspace hspace' heq
  exact ⟨hne, hcut⟩

/-- A search that is not read on goes out before its options are cut. -/
theorem onSearch_isSome (h : NmdcHub U) {seeker : Bytes} (options : Bytes) (hspace : byte ' ' ∉ seeker)
    (hreads : ¬(seeker ≠ [] ∧ h.Reads env seeker)) :
    (h.onSearch env (seeker ++ byte ' ' :: options)).isSome := by
  rw [onSearch, find_first hspace]
  refine isSome_ite (fun _ => rfl) fun hstate => isSome_ite (fun _ => rfl) fun hlen => ?_
  rw [substr_seeker]
  refine isSome_ite (fun _ => rfl) fun hown => isSome_ite (fun _ => rfl) fun hfresh =>
    isSome_ite (fun _ => searchFlood_isSome env _ seeker) fun hfew => ?_
  exact absurd ⟨mt List.length_eq_zero_iff.mpr hlen, not_not.mp hstate, (Bool.not_eq_true _).mp hown,
    (Bool.not_eq_true _).mp hfresh, (Bool.not_eq_true _).mp hfew⟩ hreads

theorem onSearch_isSome_iff (h : NmdcHub U) (param : Bytes) :
    (h.onSearch env param).isSome ↔ ¬h.CutSearch env param := by
  by_cases hmem : byte ' ' ∈ param
  · obtain ⟨seeker, options, rfl, hspace⟩ := List.eq_append_cons_of_mem hmem
    rw [cutSearch_iff env h options hspace]
    by_cases hreads : seeker ≠ [] ∧ h.Reads env seeker
    · have hlen : seeker.length + 1 + 2 ≤ (seeker ++ byte ' ' :: options).length ↔ 2 ≤ options.length := by
        rw [List.length_append, List.length_cons]
        omega
      have hget : (seeker ++ byte ' ' :: options).getD (seeker.length + 1) 0 = options.headD 0 := by
        rw [List.getD_eq_getElem?_getD, List.getElem?_append_right (Nat.le_succ _), Nat.add_sub_cancel_left _ 1,
          List.getElem?_cons_succ, ← List.head?_eq_getElem?, List.headD_eq_head?_getD]
      rw [onSearch_eq env h options hspace hreads.1 hreads.2, searchTerms_isSome_iff, sizeMode_isSome_iff (by simp),
        hget, hlen, ← not_lt, ← not_ne_iff (a := options.headD 0)]
      tauto
    · exact iff_of_true (onSearch_isSome env h options hspace hreads) fun hcut => hreads ⟨hcut.1, hcut.2.1⟩
  · refine iff_of_true ?_ fun ⟨seeker, options, heq, _⟩ => hmem (by rw [heq]; simp)
    rw [onSearch, find_char_none hmem]
    exact isSome_ite (fun _ => rfl) fun _ => rfl

theorem cutTag_isSome (s : Identity U × (U → Bool)) (tmpDesc : Bytes) : (cutTag s tmpDesc).isSome := by
  rw [cutTag]
  refine isSome_ite (fun _ => rfl) fun _ => isSome_charAt_bind (Nat.sub_le _ _) fun _ =>
    isSome_ite (fun _ => rfl) fun _ => ?_
  split
  next => rfl
  next x hx =>
    have hlt := (le_of_rfind hx).2
    exact isSome_substr_bind hlt fun tag => isSome_bind (updateFromTag_isSome s tag) fun _ =>
      isSome_bind (eraseFrom_isSome hlt.le) fun _ => rfl

theorem myInfoEmail_isSome (h : NmdcHub U) (u : OnlineUser U) (param : Bytes) (i : Nat) :
    (h.myInfoEmail env u param i).isSome := by
  rw [myInfoEmail]
  split
  next => rfl
  next j hj =>
    obtain ⟨hij, hjlt⟩ := find_lt hj
    refine isSome_substr_bind (hij.trans hjlt.le) fun escaped => isSome_bind (unescape_isSome escaped) fun email => ?_
    split
    next => rfl
    next => exact isSome_substr_bind hjlt fun _ => rfl

theorem myInfoConnection_isSome (h : NmdcHub U) (u : OnlineUser U) (param : Bytes) (i : Nat) :
    (h.myInfoConnection env u param i).isSome := by
  rw [myInfoConnection]
  split
  next => rfl
  next j hj =>
    obtain ⟨hij, hjlt⟩ := find_lt hj
    have hstatus : j - 1 ≤ param.length := (Nat.sub_le j 1).trans hjlt.le
    split
    next => exact isSome_charAt_bind hstatus fun _ => myInfoEmail_isSome env _ _ _ _
    next =>
      exact isSome_substr_bind (hij.trans hjlt.le) fun _ =>
        isSome_charAt_bind hstatus fun _ => myInfoEmail_isSome env _ _ _ _

theorem myInfoDescription_isSome (h : NmdcHub U) (u : OnlineUser U) (param : Bytes) (i : Nat) :
    (h.myInfoDescription env u param i).isSome := by
  rw [myInfoDescription]
  split
  next => rfl
  next j hj =>
    obtain ⟨hij, hjlt⟩ := find_lt hj
    exact isSome_substr_bind (hij.trans hjlt.le) fun escaped => isSome_bind (unescape_isSome escaped) fun tmpDesc =>
      isSome_bind (cutTag_isSome _ tmpDesc) fun _ => myInfoConnection_isSome env _ _ _ _

theorem onMyInfo_isSome (h : NmdcHub U) (param : Bytes) : (h.onMyInfo env param).isSome := by
  rw [onMyInfo]
  split
  next => rfl
  next j hj =>
    obtain ⟨hij, hjlt⟩ := find_lt hj
    exact isSome_ite (fun _ => rfl) fun _ => isSome_substr_bind (hij.trans hjlt.le) fun nick =>
      isSome_ite (fun _ => rfl) fun _ => myInfoDescription_isSome env _ _ _ _

omit [DecidableEq U] in
theorem connectTo_isSome (h : NmdcHub U) (server port : Bytes) : (h.connectTo env server port).isSome := by
  rw [connectTo]
  exact isSome_ite (fun _ => rfl) fun _ => isSome_charAt_bind (Nat.sub_le _ _) fun _ =>
    isSome_ite (fun _ => isSome_ite (fun _ => isSome_bind (eraseFrom_isSome (Nat.sub_le _ _)) fun _ => rfl) fun _ => rfl)
      fun _ => rfl

omit [DecidableEq U] in
theorem onConnectToMe_isSome (h : NmdcHub U) (param : Bytes) : (h.onConnectToMe env param).isSome := by
  rw [onConnectToMe]
  refine isSome_ite (fun _ => rfl) fun _ => ?_
  split
  next => rfl
  next i hi =>
    refine isSome_ite (fun _ => rfl) fun _ => ?_
    split
    next => rfl
    next j hj =>
      obtain ⟨hij, hjlt⟩ := find_lt hj
      exact isSome_substr_bind (hij.trans hjlt.le) fun _ => isSome_ite (fun _ => rfl) fun _ =>
        isSome_ite (fun _ => rfl) fun _ => isSome_substr_bind hjlt fun _ => connectTo_isSome env _ _ _

theorem onRevConnectToMe_isSome (h : NmdcHub U) (param : Bytes) : (h.onRevConnectToMe env param).isSome := by
  rw [onRevConnectToMe]
  refine isSome_ite (fun _ => rfl) fun _ => ?_
  split
  next => rfl
  next j hj =>
    refine isSome_substr_bind (Nat.zero_le _) fun nick => ?_
    split
    next => rfl
    next => exact isSome_ite (fun _ => rfl) fun _ => isSome_ite (fun _ => rfl) fun _ => rfl

omit [DecidableEq U] in
theorem onResult_isSome (h : NmdcHub U) (aLine : Bytes) : (h.onResult env aLine).isSome := by
  rw [onResult]
  exact isSome_ite (fun _ => isSome_bind (SearchManager.onSR_isSome env.clients aLine []) fun _ => rfl) fun _ => rfl

omit [DecidableEq U] in
theorem onHubName_isSome (h : NmdcHub U) (param : Bytes) : (h.onHubName param).isSome := by
  rw [onHubName]
  cases hi : find (str " - ") param 0 with
  | some i =>
    exact isSome_substr_bind (Nat.zero_le _) fun name => isSome_bind (unescape_isSome name) fun _ =>
      isSome_substr_bind (find_bounds hi).2 fun description => isSome_bind (unescape_isSome description) fun _ => rfl
  | none =>
    cases hj : find [byte ' '] param 0 with
    | some j =>
      exact isSome_substr_bind (Nat.zero_le _) fun name => isSome_bind (unescape_isSome name) fun _ =>
        isSome_substr_bind (find_lt hj).2 fun description => isSome_bind (unescape_isSome description) fun _ => rfl
    | none => exact isSome_bind (unescape_isSome param) fun _ => rfl

omit [DecidableEq U] in
theorem onSupports_isSome (h : NmdcHub U) (param : Bytes) : (h.onSupports param).isSome :=
  isSome_bind (getTokens_isSome (by decide) param) fun _ => rfl

omit [DecidableEq U] in
theorem rawCommand_isSome (h : NmdcHub U) (type : Int) {param : Bytes} {i : Nat} (hi : i ≤ param.length) :
    (h.rawCommand type param i).isSome := by
  rw [rawCommand]
  split
  next => rfl
  next j hj =>
    refine isSome_substr_bind hi fun ctx => ?_
    split
    next => rfl
    next k hk =>
      exact isSome_substr_bind (find_lt hj).2 fun escaped => isSome_bind (unescape_isSome escaped) fun name =>
        isSome_bind (replaceAll_isSome (by decide) _ name) fun name =>
          isSome_bind (replaceAll_isSome (by decide) _ name) fun _ => isSome_substr_bind (find_lt hk).2 fun escaped =>
            isSome_bind (unescape_isSome escaped) fun _ => rfl

omit [DecidableEq U] in
theorem onUserCommand_isSome (h : NmdcHub U) (param : Bytes) : (h.onUserCommand param).isSome := by
  rw [onUserCommand]
  split
  next => rfl
  next j hj =>
    have hjlt := (find_lt hj).2
    exact isSome_substr_bind (Nat.zero_le _) fun _ => isSome_ite (fun _ => isSome_substr_bind hjlt fun _ => rfl)
      fun _ => isSome_ite (fun _ => rawCommand_isSome h _ hjlt) fun _ => rfl

theorem lockOf_isSome (param : Bytes) : (lockOf param).isSome := by
  rw [lockOf]
  split
  next j hj =>
    exact isSome_substr_bind (Nat.zero_le _) fun _ => isSome_substr_bind (find_bounds hj).2 fun _ => rfl
  next =>
    split
    next =>
      rw [substr_of_le (Nat.zero_le _)]
      rfl
    next => rfl

/-- The lock is cut out of the line without a look at its length. -/
theorem onLock_isSome_iff (h : NmdcHub U) (aLine : Bytes) :
    (h.onLock env aLine).isSome ↔ (h.state = .PROTOCOL → 6 ≤ aLine.length) := by
  rw [onLock]
  by_cases hstate : h.state = .PROTOCOL
  · rw [if_neg (not_not.mpr hstate)]
    by_cases hlen : 6 ≤ aLine.length
    · exact iff_of_true (isSome_substr_bind hlen fun _ => isSome_ite (fun _ => rfl) fun _ =>
        isSome_bind (lockOf_isSome _) fun _ => rfl) fun _ => hlen
    · rw [substr, if_neg hlen]
      exact iff_of_false Bool.false_ne_true fun h => hlen (h hstate)
  · rw [if_pos hstate]
    exact iff_of_true rfl fun h => absurd h hstate

theorem userIP_isSome (s : NmdcHub U × List Bytes) (it : Bytes) : (userIP env s it).isSome := by
  rw [userIP]
  split
  next => rfl
  next j hj =>
    refine isSome_ite (fun _ => rfl) fun _ => isSome_substr_bind (Nat.zero_le _) fun nick => ?_
    split
    next => rfl
    next => exact isSome_substr_bind (find_lt hj).2 fun _ => rfl

theorem onUserIP_isSome (h : NmdcHub U) (param : Bytes) : (h.onUserIP env param).isSome := by
  rw [onUserIP]
  exact isSome_ite (fun _ => rfl) fun _ => isSome_bind (getTokens_isSome (by decide) param) fun l =>
    isSome_bind (isSome_foldlM (userIP_isSome env) l _) fun _ => rfl

theorem onNickList_isSome (h : NmdcHub U) (param : Bytes) : (h.onNickList env param).isSome := by
  rw [onNickList]
  exact isSome_ite (fun _ => rfl) fun _ => isSome_bind (getTokens_isSome (by decide) param) fun _ => rfl

theorem onOpList_isSome (h : NmdcHub U) (param : Bytes) : (h.onOpList env param).isSome := by
  rw [onOpList]
  exact isSome_ite (fun _ => rfl) fun _ => isSome_bind (getTokens_isSome (by decide) param) fun _ => rfl

theorem onBotList_isSome (h : NmdcHub U) (param : Bytes) : (h.onBotList env param).isSome := by
  rw [onBotList]
  exact isSome_ite (fun _ => rfl) fun _ => isSome_bind (getTokens_isSome (by decide) param) fun _ => rfl

theorem privateChat_isSome (h : NmdcHub U) (rtNick fromNick message : Bytes) :
    (h.privateChat env rtNick fromNick message).isSome := by
  rw [privateChat]
  exact isSome_ite (fun _ => rfl) fun _ => isSome_bind (unescape_isSome message) fun _ =>
    isSome_ite (fun _ => rfl) fun _ => rfl

theorem onTo_isSome (h : NmdcHub U) (param : Bytes) : (h.onTo env param).isSome := by
  rw [onTo]
  split
  next => rfl
  next i hi =>
    split
    next => rfl
    next j hj =>
      obtain ⟨hij, hjlt⟩ := find_lt hj
      refine isSome_substr_bind (hij.trans hjlt.le) fun rtNick => isSome_ite (fun _ => rfl) fun _ =>
        isSome_ite (fun _ => rfl) fun hlen => isSome_charAt_bind hjlt fun _ => isSome_ite (fun _ => rfl) fun _ => ?_
      split
      next => rfl
      next k hk =>
        exact isSome_substr_bind (by omega) fun fromNick => isSome_ite (fun _ => rfl) fun _ =>
          isSome_ite (fun _ => rfl) fun hlen => isSome_substr_bind (Nat.not_lt.mp hlen) fun message =>
            privateChat_isSome env h rtNick fromNick message

/-- Every other command is in range. -/
theorem onCommand_isSome_iff (h : NmdcHub U) (aLine cmd param : Bytes) : (h.onCommand env aLine cmd param).isSome ↔
    (cmd = str "$Search" → (h.onSearch env param).isSome) ∧ (cmd = str "$Lock" → (h.onLock env aLine).isSome) := by
  constructor
  · intro hsome
    constructor
    · rintro rfl
      exact hsome
    · rintro rfl
      exact hsome
  · intro ⟨hsearch, hlock⟩
    rw [onCommand]
    refine isSome_ite hsearch fun _ => ?_
    refine isSome_ite (fun _ => onMyInfo_isSome env h param) fun _ => ?_
    refine isSome_ite (fun _ => rfl) fun _ => ?_
    refine isSome_ite (fun _ => onConnectToMe_isSome env h param) fun _ => ?_
    refine isSome_ite (fun _ => onRevConnectToMe_isSome env h param) fun _ => ?_
    refine isSome_ite (fun _ => onResult_isSome env h aLine) fun _ => ?_
    refine isSome_ite (fun _ => onHubName_isSome h param) fun _ => ?_
    refine isSome_ite (fun _ => onSupports_isSome h param) fun _ => ?_
    refine isSome_ite (fun _ => onUserCommand_isSome h param) fun _ => ?_
    refine isSome_ite hlock fun _ => ?_
    refine isSome_ite (fun _ => rfl) fun _ => ?_
    refine isSome_ite (fun _ => rfl) fun _ => ?_
    refine isSome_ite (fun _ => rfl) fun _ => ?_
    refine isSome_ite (fun _ => rfl) fun _ => ?_
    refine isSome_ite (fun _ => onUserIP_isSome env h param) fun _ => ?_
    refine isSome_ite (fun _ => onNickList_isSome env h param) fun _ => ?_
    refine isSome_ite (fun _ => onOpList_isSome env h param) fun _ => ?_
    refine isSome_ite (fun _ => onBotList_isSome env h param) fun _ => ?_
    refine isSome_ite (fun _ => onTo_isSome env h param) fun _ => ?_
    refine isSome_ite (fun _ => rfl) fun _ => ?_
    refine isSome_ite (fun _ => rfl) fun _ => ?_
    exact isSome_ite (fun _ => rfl) fun _ => rfl

/-- The command without anything behind it. -/
def CutLock (h : NmdcHub U) (aLine : Bytes) : Prop := h.state = .PROTOCOL ∧ aLine = str "$Lock"

omit [DecidableEq U] in
theorem splitLine_eq (cmd rest : Bytes) (hspace : byte ' ' ∉ cmd) :
    splitLine env (cmd ++ byte ' ' :: rest) = some (cmd, toUtf8 env rest) := by
  have hrest : substr (cmd ++ byte ' ' :: rest) (cmd.length + 1) (cmd ++ byte ' ' :: rest).length = some rest := by
    have h := substr_rest (cmd ++ [byte ' ']) rest
    rwa [List.append_assoc, List.length_append] at h
  rw [splitLine, find_first hspace]
  dsimp only
  rw [substr_of_le (Nat.zero_le _), hrest, List.drop_zero, List.take_left]
  rfl

omit [DecidableEq U] in
theorem not_cutSearch_nil (h : NmdcHub U) : ¬h.CutSearch env [] := by
  rintro ⟨seeker, options, hnil, -⟩
  exact List.append_ne_nil_of_right_ne_nil seeker (List.cons_ne_nil _ _) hnil.symm

/-- The lines that are cut in range: all but a lone `$Lock` where the protocol begins, and the searches whose options
end too early. -/
theorem onLine_isSome_iff (h : NmdcHub U) (aLine : Bytes) : (h.onLine env aLine).isSome ↔
    ¬h.CutLock aLine ∧ ∀ rest, aLine = str "$Search " ++ rest → ¬h.CutSearch env (toUtf8 env rest) := by
  have hsearch (rest : Bytes) : str "$Search " ++ rest = str "$Search" ++ byte ' ' :: rest := rfl
  have hlock : byte ' ' ∉ str "$Lock" ∧ byte ' ' ∉ str "$Search" := by decide
  rw [onLine]
  by_cases hcommand : aLine ≠ [] ∧ aLine.headD 0 = byte '$'
  · rw [if_neg hcommand.1, if_neg (not_not.mpr hcommand.2)]
    by_cases hmem : byte ' ' ∈ aLine
    · obtain ⟨cmd, rest, rfl, hspace⟩ := List.eq_append_cons_of_mem hmem
      rw [splitLine_eq env cmd rest hspace, Option.bind_eq_bind, Option.bind_some, onCommand_isSome_iff,
        onSearch_isSome_iff, onLock_isSome_iff]
      constructor
      · intro hsome
        refine ⟨fun hcut => hlock.1 (hcut.2 ▸ hmem), fun rest' heq => ?_⟩
        obtain ⟨hcmd, rfl⟩ := split_first hspace hlock.2 heq
        exact hsome.1 hcmd
      · intro hcut
        refine ⟨fun hcmd => hcut.2 rest (by rw [hcmd, hsearch]), fun hcmd _ => ?_⟩
        rw [hcmd, List.length_append, List.length_cons]
        exact Nat.add_le_add_left (Nat.succ_le_succ (Nat.zero_le _)) 5
    · rw [splitLine, find_char_none hmem]
      dsimp only
      rw [Option.bind_eq_bind, Option.bind_some, onCommand_isSome_iff, onSearch_isSome_iff, onLock_isSome_iff]
      constructor
      · intro hsome
        refine ⟨fun hcut => ?_, fun rest heq => absurd (by rw [heq, hsearch]; simp) hmem⟩
        have hlen := hsome.2 hcut.2 hcut.1
        rw [hcut.2] at hlen
        exact absurd hlen (by decide)
      · intro hcut
        exact ⟨fun _ => not_cutSearch_nil env h, fun hcmd hstate => absurd ⟨hstate, hcmd⟩ hcut.1⟩
  · refine iff_of_true ?_ ⟨?_, ?_⟩
    · exact isSome_ite (fun _ => rfl) fun hnil => isSome_ite (fun _ => onChat_isSome env h aLine) fun hchar =>
        absurd ⟨hnil, not_not.mp hchar⟩ hcommand
    · rintro ⟨-, rfl⟩
      exact hcommand (by decide)
    · rintro rest rfl
      exact absurd ⟨List.cons_ne_nil _ _, rfl⟩ hcommand

/-- A client that does not know the users of the hub yet, with the encodings left alone. -/
def plain : Environment Bytes where
  locale := ascii
  clients := ⟨fun _ => [], fun _ => none, fun _ => [], fun _ _ => none, fun _ => [], fun _ => none, fun s _ => s⟩
  fromUtf8 := fun s _ => s
  encoding := []
  getNick := str "me"
  getMe := str "me"
  getUser := id
  ignoresChat := fun _ => false
  isActive := true
  searchPort := str "412"
  port := str "412"
  securePort := []
  nmdcTls := false
  tlsOk := false
  resolve := id
  detectIp := fun _ => []
  tick := 0
  chatIn := fun _ => false
  chatPmIn := fun _ => false

/-- A hub in a state. -/
def inState (state : State) : NmdcHub Bytes where
  state := state
  users := []
  passive := fun _ => false
  tls := fun _ => false
  myIdentity := ⟨str "me", fun _ => none, false⟩
  hubNick := []
  hubDescription := []
  supportFlags := 0
  localIp := str "1.2.3.4"
  salt := []
  password := []
  autoReconnect := true
  seekers := []
  flooders := []
  protectedIPs := []
  fired := []

theorem not_onLine_isSome : ¬∀ (h : NmdcHub Bytes) (aLine : Bytes), (h.onLine plain aLine).isSome := by
  intro h
  have hnone : (inState .PROTOCOL).onLine plain (str "$Lock") = none := rfl
  have hsome := h (inState .PROTOCOL) (str "$Lock")
  rw [hnone] at hsome
  exact Bool.false_ne_true hsome

example : ((inState .NORMAL).onLine plain (str "$Search 1.2.3.5:412 T")).isNone = true := by decide +kernel

end NmdcHub

end Dcpp
