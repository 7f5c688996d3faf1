import Dcpp.BufferedSocket

namespace Dcpp.SocketFraming

open BufferedSocket

/-- What the next bytes are. -/
inductive Awaiting where
  | line
  | bytes (n : Nat)
  | all
deriving DecidableEq

def afterChoice : Choice → Awaiting
  | .stay => .line
  | .bytes n => .bytes n
  | .all => .all

/-- How a stream falls into lines and data, and what the listeners are told of it: the lines that are
not empty, and the data, where the calls that follow each other are joined. No line is longer
than `maxLength`. -/
inductive Split (listener : Listener) (separator : UInt8) (maxLength : Nat) :
    Awaiting → List Event → Bytes → List Event → Prop where
  | unfinished {log : List Event} {piece : Bytes} (h : separator ∉ piece)
      (hlen : piece.length ≤ maxLength) : Split listener separator maxLength .line log piece log
  | empty {log log' : List Event} {rest : Bytes}
      (hrest : Split listener separator maxLength .line log rest log') :
      Split listener separator maxLength .line log (separator :: rest) log'
  | line {log log' : List Event} {piece rest : Bytes} (hne : piece ≠ []) (h : separator ∉ piece)
      (hlen : piece.length ≤ maxLength)
      (hrest : Split listener separator maxLength (afterChoice (listener (log ++ [.line piece])))
        (log ++ [.line piece]) rest log') :
      Split listener separator maxLength .line log (piece ++ separator :: rest) log'
  | all {log : List Event} {d : Bytes} : Split listener separator maxLength .all log d (addData log d)
  | short {log : List Event} {n : Nat} {d : Bytes} (h : d = [] ∨ d.length < n) :
      Split listener separator maxLength (.bytes n) log d (addData log d)
  | block {log log' : List Event} {n : Nat} {d rest : Bytes} (hn : d.length = n) (hne : d ++ rest ≠ [])
      (hrest : Split listener separator maxLength .line (addData log d ++ [.modeChange]) rest log') :
      Split listener separator maxLength (.bytes n) log (d ++ rest) log'

section Log

@[simp] theorem addData_nil (log : List Event) : addData log [] = log := if_pos rfl

theorem addData_append (log : List Event) (a b : Bytes) :
    addData (addData log a) b = addData log (a ++ b) := by
  by_cases ha : a = []
  · rw [ha, addData_nil, List.nil_append]
  by_cases hb : b = []
  · rw [hb, addData_nil, List.append_nil]
  have hab : a ++ b ≠ [] := List.append_ne_nil_of_left_ne_nil ha b
  have hlast : ∀ l : List Event, ∀ d, addData (l ++ [.data d]) b = l ++ [.data (d ++ b)] := by
    intro l d
    rw [addData, if_neg hb, List.getLast?_concat]
    dsimp only
    rw [List.dropLast_concat]
  rw [addData.eq_def log a, addData.eq_def log (a ++ b), if_neg ha, if_neg hab]
  split
  · rw [hlast, List.append_assoc]
  · rw [hlast]

@[simp] theorem joined_nil : joined [] = [] := rfl

@[simp] theorem joined_line (fired : List Event) (l : Bytes) :
    joined (fired ++ [.line l]) = joined fired ++ [.line l] := by
  rw [joined, List.foldl_append]
  rfl

@[simp] theorem joined_data (fired : List Event) (d : Bytes) :
    joined (fired ++ [.data d]) = addData (joined fired) d := by
  rw [joined, List.foldl_append]
  rfl

@[simp] theorem joined_modeChange (fired : List Event) :
    joined (fired ++ [.modeChange]) = joined fired ++ [.modeChange] := by
  rw [joined, List.foldl_append]
  rfl

end Log

variable {listener : Listener} {separator : UInt8} {maxLength : Nat} {log log' : List Event}

theorem eq_of_separator {p p' rest rest' : Bytes} (h : p ++ separator :: rest = p' ++ separator :: rest')
    (hp : separator ∉ p) (hp' : separator ∉ p') : p = p' ∧ rest = rest' := by
  induction p generalizing p' with
  | nil =>
    cases p' with
    | nil => exact ⟨rfl, (List.cons.inj h).2⟩
    | cons b p' => exact absurd ((List.cons.inj h).1 ▸ List.mem_cons_self ..) hp'
  | cons b p ih =>
    cases p' with
    | nil => exact absurd ((List.cons.inj h).1 ▸ List.mem_cons_self ..) hp
    | cons b' p' =>
      obtain ⟨hb, h⟩ := List.cons.inj h
      obtain ⟨rfl, rfl⟩ := ih h (fun hm => hp (List.mem_cons_of_mem b hm))
        (fun hm => hp' (List.mem_cons_of_mem b' hm))
      exact ⟨by rw [hb], rfl⟩

/-- The first separator ends the first line. -/
theorem split_line {x piece rest : Bytes} (h : Split listener separator maxLength .line log x log')
    (hx : x = piece ++ separator :: rest) (hp : separator ∉ piece) :
    (piece = [] → Split listener separator maxLength .line log rest log') ∧
      (piece ≠ [] → Split listener separator maxLength
        (afterChoice (listener (log ++ [.line piece]))) (log ++ [.line piece]) rest log') := by
  cases h with
  | unfinished h hlen =>
    rw [hx] at h
    exact absurd (List.mem_append_right _ (List.mem_cons_self ..)) h
  | @empty log log' rest' hrest =>
    obtain ⟨rfl, rfl⟩ := eq_of_separator (p := []) hx List.not_mem_nil hp
    exact ⟨fun _ => hrest, fun hne => absurd rfl hne⟩
  | line hne h hlen hrest =>
    obtain ⟨rfl, rfl⟩ := eq_of_separator hx h hp
    exact ⟨fun hnil => absurd hnil hne, fun _ => hrest⟩

/-- Without a separator there is only the unfinished line. -/
theorem split_unfinished {x : Bytes} (h : Split listener separator maxLength .line log x log')
    (hx : separator ∉ x) : log' = log := by
  cases h with
  | unfinished => rfl
  | empty => exact absurd (List.mem_cons_self ..) hx
  | line => exact absurd (List.mem_append_right _ (List.mem_cons_self ..)) hx

theorem split_nil {w : Awaiting} {x : Bytes} (h : Split listener separator maxLength w log x log')
    (hx : x = []) : log' = log := by
  cases h with
  | unfinished => rfl
  | empty => cases hx
  | line => exact absurd hx (List.append_ne_nil_of_right_ne_nil _ (List.cons_ne_nil _ _))
  | all => rw [hx, addData_nil]
  | short => rw [hx, addData_nil]
  | block hn hne => exact absurd hx hne

/-- What has come of a line is not too long. -/
theorem split_length {p rest : Bytes} (h : Split listener separator maxLength .line log (p ++ rest) log')
    (hp : separator ∉ p) : p.length ≤ maxLength := by
  generalize hx : p ++ rest = x at h
  cases h with
  | unfinished h hlen =>
    rw [← hx, List.length_append] at hlen
    omega
  | empty =>
    cases p with
    | nil => exact Nat.zero_le _
    | cons b p =>
      rw [List.cons_append, List.cons.injEq] at hx
      exact absurd (hx.1 ▸ List.mem_cons_self ..) hp
  | @line _ _ piece rest' hne h hlen hrest =>
    obtain ⟨t, ht, -⟩ | ⟨t, ht, ht'⟩ := List.append_eq_append_iff.mp hx
    · rw [ht, List.length_append] at hlen
      omega
    · cases t with
      | nil =>
        rw [List.append_nil] at ht
        rw [ht]
        exact hlen
      | cons b t =>
        rw [List.cons_append, List.cons.injEq] at ht'
        rw [ht, ← ht'.1] at hp
        exact absurd (List.mem_append_right _ (List.mem_cons_self ..)) hp

theorem split_all {c rest : Bytes} (h : Split listener separator maxLength .all log (c ++ rest) log') :
    Split listener separator maxLength .all (addData log c) rest log' := by
  generalize hx : c ++ rest = x at h
  cases h with
  | all =>
    rw [← hx, ← addData_append]
    exact .all

/-- Fewer bytes than are awaited. -/
theorem split_short {n : Nat} {c rest : Bytes} (hc : c.length < n)
    (h : Split listener separator maxLength (.bytes n) log (c ++ rest) log') :
    Split listener separator maxLength (.bytes (n - c.length)) (addData log c) rest log' := by
  generalize hx : c ++ rest = x at h
  cases h with
  | short h =>
    rw [← hx, ← addData_append]
    refine .short ?_
    obtain hnil | hlt := h
    · rw [← hx] at hnil
      exact Or.inl (List.append_eq_nil_iff.mp hnil).2
    · rw [← hx, List.length_append] at hlt
      exact Or.inr (by omega)
  | @block _ _ _ d rest' hn hne hrest =>
    obtain ⟨t, rfl, rfl⟩ | ⟨t, rfl, rfl⟩ := List.append_eq_append_iff.mp hx
    · rw [List.length_append] at hn
      rw [← addData_append] at hrest
      refine .block (by omega) ?_ hrest
      rintro hnil
      rw [(List.append_eq_nil_iff.mp hnil).1, List.length_nil] at hn
      omega
    · rw [List.length_append] at hc
      omega

/-- The bytes that are awaited, and perhaps more. -/
theorem split_block {c rest : Bytes} (hne : c ++ rest ≠ [])
    (h : Split listener separator maxLength (.bytes c.length) log (c ++ rest) log') :
    Split listener separator maxLength .line (addData log c ++ [.modeChange]) rest log' := by
  generalize hx : c ++ rest = x at h
  generalize hn : c.length = n at h
  cases h with
  | short h =>
    obtain hnil | hlt := h
    · exact absurd (hx.trans hnil) hne
    · rw [← hx, List.length_append] at hlt
      omega
  | block hn' hne hrest =>
    obtain ⟨rfl, rfl⟩ := List.append_inj hx (hn.trans hn'.symm)
    exact hrest

/-- What a socket awaits. -/
def awaiting (s : State) : Awaiting :=
  match s.mode with
  | .MODE_LINE => .line
  | .MODE_DATA =>
    match s.dataBytes with
    | none => .all
    | some n => .bytes n

theorem awaiting_line {s : State} (h : s.mode = .MODE_LINE) : awaiting s = .line := by
  rw [awaiting, h]

/-- The bytes that follow are split as the socket goes on. -/
def Ahead (listener : Listener) (maxLength : Nat) (s : State) (rest : Bytes) (log : List Event) : Prop :=
  Split listener s.separator maxLength (awaiting s) (joined s.fired) rest log

/-- A line that was fired, and the choice of the listeners. -/
theorem fireLine_spec (listener : Listener) {s : State} (hm : s.mode = .MODE_LINE) (l : Bytes) :
    (fireLine listener s l).separator = s.separator ∧
      joined (fireLine listener s l).fired = joined s.fired ++ [.line l] ∧
      awaiting (fireLine listener s l) = afterChoice (listener (joined s.fired ++ [.line l])) := by
  have hj : joined (fire s (.line l)).fired = joined s.fired ++ [.line l] := joined_line s.fired l
  rw [fireLine, hj]
  cases listener (joined s.fired ++ [.line l]) with
  | stay => exact ⟨rfl, hj, awaiting_line hm⟩
  | bytes n => exact ⟨rfl, hj, rfl⟩
  | all => exact ⟨rfl, hj, rfl⟩

/-- The loop over the lines ends with an unfinished line, or with the rest of the bytes when
the listeners have changed the mode. -/
inductive Lines (listener : Listener) (maxLength total : Nat) (l : Bytes) (bufpos left : Nat) (rest : Bytes)
    (log : List Event) (separator : UInt8) (r : State × Nat × Nat) : Prop where
  | unfinished (hm : r.1.mode = .MODE_LINE) (hp : r.2 = (bufpos, 0)) (hs : r.1.separator = separator)
      (hl : separator ∉ r.1.line) (h : Ahead listener maxLength r.1 (r.1.line ++ rest) log)
  | changed (front back : Bytes) (hm : r.1.mode = .MODE_DATA) (hl : r.1.line = [])
      (hs : r.1.separator = separator) (hsplit : l = front ++ separator :: back)
      (hp : r.2 = (total - min back.length left, min back.length left))
      (h : Ahead listener maxLength r.1 (back ++ rest) log)

theorem lineLoop_spec (listener : Listener) (total bufpos left : Nat) (l rest : Bytes) {s : State}
    (hm : s.mode = .MODE_LINE) (h : Ahead listener maxLength s (l ++ rest) log) :
    Lines listener maxLength total l bufpos left rest log s.separator
      (lineLoop listener total l bufpos left s) := by
  induction hn : l.length using Nat.strongRecOn generalizing l left s with
  | _ n ih =>
    rw [lineLoop.eq_def]
    split
    · rename_i hnone
      refine .unfinished hm rfl rfl ?_ h
      intro hmem
      rw [List.findIdx?_eq_none_iff] at hnone
      simpa using hnone _ hmem
    · rename_i pos hpos
      obtain ⟨hlt, hget, hbefore⟩ := List.findIdx?_eq_some_iff_getElem.mp hpos
      have hsep : l[pos] = s.separator := beq_iff_eq.mp hget
      have hl : l = l.take pos ++ s.separator :: l.drop (pos + 1) := by
        rw [← hsep, List.getElem_cons_drop, List.take_append_drop]
      have hfree : s.separator ∉ l.take pos := by
        intro hmem
        obtain ⟨i, hi, hi'⟩ := List.mem_iff_getElem.mp hmem
        rw [List.length_take] at hi
        rw [List.getElem_take] at hi'
        exact hbefore i (by omega) (beq_iff_eq.mpr hi')
      have hx : l ++ rest = l.take pos ++ s.separator :: (l.drop (pos + 1) ++ rest) := by
        conv_lhs => rw [hl, List.append_assoc, List.cons_append]
      rw [Ahead, awaiting_line hm] at h
      obtain ⟨hempty, hline⟩ := split_line h hx hfree
      -- the state after the line was fired, if it is not empty
      obtain ⟨s₁, hs₁, hsep₁, hahead⟩ : ∃ s₁,
          (if 0 < pos then fireLine listener s (l.take pos) else s) = s₁ ∧
          s₁.separator = s.separator ∧
          Ahead listener maxLength s₁ (l.drop (pos + 1) ++ rest) log := by
        by_cases h0 : 0 < pos
        · obtain ⟨hsep', hj, hw⟩ := fireLine_spec listener hm (l.take pos)
          refine ⟨_, if_pos h0, hsep', ?_⟩
          rw [Ahead, hsep', hj, hw]
          refine hline fun hnil => ?_
          have hlen := congrArg List.length hnil
          rw [List.length_take, List.length_nil] at hlen
          omega
        · have hpos0 : pos = 0 := by omega
          refine ⟨s, if_neg h0, rfl, ?_⟩
          rw [Ahead, awaiting_line hm]
          refine hempty ?_
          rw [hpos0, List.take_zero]
      rw [hs₁]
      have hmin : (if (l.drop (pos + 1)).length < left then (l.drop (pos + 1)).length else left) =
          min (l.drop (pos + 1)).length left := by
        split <;> omega
      dsimp only
      rw [hmin]
      by_cases hmode : s₁.mode ≠ .MODE_LINE
      · rw [if_pos hmode]
        have hdata : s₁.mode = .MODE_DATA := by
          cases hc : s₁.mode with
          | MODE_LINE => exact absurd hc hmode
          | MODE_DATA => rfl
        exact .changed (l.take pos) (l.drop (pos + 1)) hdata rfl hsep₁ hl rfl hahead
      · rw [if_neg hmode]
        have hrec := ih (l.drop (pos + 1)).length (by rw [List.length_drop]; omega)
          (min (l.drop (pos + 1)).length left) (l.drop (pos + 1)) (not_not.mp hmode) hahead rfl
        rw [hsep₁] at hrec
        cases hrec with
        | unfinished hm hp hs hl h => exact .unfinished hm hp hs hl h
        | changed front back hm hl' hs hsplit hp h =>
          refine .changed (l.take pos ++ s.separator :: front) back hm hl' hs ?_ ?_ h
          · rw [List.append_assoc, List.cons_append, ← hsplit]
            exact hl
          · have hback : back.length ≤ (l.drop (pos + 1)).length := by
              rw [hsplit, List.length_append, List.length_cons]
              omega
            rw [hp, ← Nat.min_assoc, Nat.min_eq_left hback]

/-- The loop of the data mode ends in line mode, or with no bytes left. -/
theorem dataLoop_spec {bytes rest : Bytes} {s : State} (hne : bytes ≠ [])
    (hm : s.mode = .MODE_DATA) (h : Ahead listener maxLength s (bytes ++ rest) log) :
    ∃ back, back <:+ bytes ∧ (dataLoop bytes s).2 = back.length ∧
      (dataLoop bytes s).1.separator = s.separator ∧ (dataLoop bytes s).1.line = s.line ∧
      ((dataLoop bytes s).1.mode = .MODE_LINE ∨ back = []) ∧
      Ahead listener maxLength (dataLoop bytes s).1 (back ++ rest) log := by
  rw [dataLoop.eq_def, dif_neg hne]
  rw [Ahead, awaiting, hm] at h
  cases hd : s.dataBytes with
  | none =>
    rw [hd] at h
    refine ⟨[], List.nil_suffix, rfl, rfl, rfl, Or.inr rfl, ?_⟩
    have haw : awaiting (fire s (.data bytes)) = .all := by
      rw [awaiting, fire, hm]
      dsimp only
      rw [hd]
    dsimp only
    rw [Ahead, haw, fire]
    dsimp only
    rw [joined_data]
    exact split_all h
  | some n =>
    rw [hd] at h
    dsimp only at h ⊢
    by_cases hn : n - min n bytes.length = 0
    · -- the awaited bytes are all there
      rw [dif_pos hn]
      have hle : n ≤ bytes.length := by omega
      have hmin : min n bytes.length = n := Nat.min_eq_left hle
      rw [hmin]
      refine ⟨bytes.drop n, List.drop_suffix n bytes, rfl, rfl, rfl, Or.inl rfl, ?_⟩
      have hlen : (bytes.take n).length = n := by
        rw [List.length_take, hmin]
      have hx : bytes ++ rest = bytes.take n ++ (bytes.drop n ++ rest) := by
        rw [← List.append_assoc, List.take_append_drop]
      rw [hx] at h
      have hne' : bytes.take n ++ (bytes.drop n ++ rest) ≠ [] := by
        rw [← hx]
        exact List.append_ne_nil_of_left_ne_nil hne rest
      have hblock := split_block (c := bytes.take n) hne' (by rw [hlen]; exact h)
      rw [Ahead]
      simp only [fire, joined_modeChange, joined_data]
      exact hblock
    · rw [dif_neg hn]
      have hlt : bytes.length < n := by omega
      have hmin : min n bytes.length = bytes.length := Nat.min_eq_right (Nat.le_of_lt hlt)
      rw [hmin, List.drop_length, List.take_length, dataLoop.eq_def, dif_pos rfl]
      refine ⟨[], List.nil_suffix, rfl, rfl, rfl, Or.inr rfl, ?_⟩
      have haw : awaiting { fire s (.data bytes) with dataBytes := some (n - bytes.length) } =
          .bytes (n - bytes.length) := by
        rw [awaiting, fire]
        dsimp only
        rw [hm]
      dsimp only
      rw [Ahead, haw, fire]
      dsimp only
      rw [joined_data]
      exact split_short hlt h

/-- Between the iterations there is an unfinished line in line mode only. -/
structure Ready (separator : UInt8) (s : State) : Prop where
  known : s.separator = separator
  line : separator ∉ s.line
  data : s.mode = .MODE_DATA → s.line = []

theorem chooseSeparator_eq {s : State} (h : s.separator ≠ 0) (inbuf : Bytes) :
    chooseSeparator inbuf s = s := if_neg h

theorem suffix_eq_drop {inbuf back : Bytes} {bufpos left : Nat} (hpos : bufpos + left = inbuf.length)
    (h : back <:+ inbuf.drop bufpos) : inbuf.drop (inbuf.length - back.length) = back ∧
      back.length ≤ left := by
  have hlen := h.length_le
  rw [List.length_drop] at hlen
  exact ⟨(List.suffix_iff_eq_drop.mp (h.trans (List.drop_suffix _ _))).symm, by omega⟩

theorem readLoop_done (inbuf : Bytes) {fuel : Nat} (hfuel : 0 < fuel) (bufpos : Nat) (s : State) :
    readLoop listener inbuf fuel bufpos 0 s = some s := by
  cases fuel with
  | zero => exact absurd hfuel (Nat.lt_irrefl 0)
  | succ fuel => rw [readLoop, if_pos rfl]

/-- What is behind the first separator lies in the new bytes. -/
theorem behind_separator {line bytes front back : Bytes} (hline : separator ∉ line)
    (h : line ++ bytes = front ++ separator :: back) : ∃ front', bytes = front' ++ separator :: back := by
  obtain ⟨t, -, ht⟩ | ⟨t, ht, ht'⟩ := List.append_eq_append_iff.mp h
  · exact ⟨t, ht⟩
  · cases t with
    | nil => exact ⟨[], ht'.symm⟩
    | cons b t =>
      obtain ⟨rfl, -⟩ := List.cons.inj ht'
      rw [ht] at hline
      exact absurd (List.mem_append_right _ (List.mem_cons_self ..)) hline

theorem readLoop_spec {inbuf rest : Bytes} (h0 : separator ≠ 0) (fuel : Nat) {bufpos left : Nat}
    {s : State} (hfuel : 2 * left + (if s.mode = .MODE_DATA then 1 else 0) < fuel)
    (hpos : bufpos + left = inbuf.length) (hs : Ready separator s)
    (h : Ahead listener maxLength s (s.line ++ (inbuf.drop bufpos ++ rest)) log) :
    ∃ s', readLoop listener inbuf fuel bufpos left s = some s' ∧ Ready separator s' ∧
      Ahead listener maxLength s' (s'.line ++ rest) log := by
  induction fuel generalizing bufpos left s with
  | zero => exact absurd hfuel (Nat.not_lt_zero _)
  | succ fuel ih =>
    rw [readLoop]
    by_cases hleft : left = 0
    · rw [if_pos hleft]
      refine ⟨s, rfl, hs, ?_⟩
      have hend : inbuf.drop bufpos = [] := List.drop_eq_nil_of_le (by omega)
      rw [hend, List.nil_append] at h
      exact h
    rw [if_neg hleft]
    have hbytes : (inbuf.drop bufpos).take left = inbuf.drop bufpos := by
      apply List.take_of_length_le
      rw [List.length_drop]
      omega
    have hblen : (inbuf.drop bufpos).length = left := by
      rw [List.length_drop]
      omega
    dsimp only
    rw [hbytes]
    cases hm : s.mode with
    | MODE_LINE =>
      have hsep : s.separator ≠ 0 := by
        rw [hs.known]
        exact h0
      dsimp only
      rw [chooseSeparator_eq hsep]
      rw [← List.append_assoc] at h
      cases lineLoop_spec listener inbuf.length bufpos left _ _ hm h with
      | unfinished hm' hp hs' hl h' =>
        rw [hp]
        refine ⟨_, readLoop_done inbuf (by omega) bufpos _, ⟨hs'.trans hs.known, hs.known ▸ hl, ?_⟩, h'⟩
        intro hd
        rw [hm'] at hd
        cases hd
      | changed front back hm' hl hs' hsplit hp h' =>
        rw [hs.known] at hsplit
        obtain ⟨front', hfront⟩ := behind_separator hs.line hsplit
        have hsuffix : back <:+ inbuf.drop bufpos := by
          rw [hfront]
          exact ⟨front' ++ [separator], by rw [List.append_assoc]; rfl⟩
        obtain ⟨hback, hle⟩ := suffix_eq_drop hpos hsuffix
        have hlt : back.length < left := by
          rw [← hblen, hfront, List.length_append, List.length_cons]
          omega
        rw [hp, Nat.min_eq_left hle]
        refine ih ?_ (by omega) ⟨hs'.trans hs.known, ?_, fun _ => hl⟩ ?_
        · rw [hm', if_pos rfl]
          omega
        · rw [hl]
          exact List.not_mem_nil
        · rw [hl, List.nil_append, hback]
          exact h'
    | MODE_DATA =>
      have hne : inbuf.drop bufpos ≠ [] := by
        intro hnil
        rw [hnil] at hblen
        exact hleft hblen.symm
      have hline := hs.data hm
      rw [hline, List.nil_append] at h
      obtain ⟨back, hsuffix, hlen, hsep, hl, hmode, h'⟩ := dataLoop_spec hne hm h
      obtain ⟨hback, hle⟩ := suffix_eq_drop hpos hsuffix
      have hl' : (dataLoop (inbuf.drop bufpos) s).1.line = [] := hl.trans hline
      dsimp only
      rw [hlen]
      refine ih ?_ (by omega) ⟨hsep.trans hs.known, ?_, fun _ => hl'⟩ ?_
      · rw [if_pos hm] at hfuel
        obtain hline' | hnil := hmode
        · rw [hline', if_neg (by decide)]
          omega
        · rw [hnil, List.length_nil]
          split <;> omega
      · rw [hl']
        exact List.not_mem_nil
      · have hdrop : bufpos + (left - back.length) = inbuf.length - back.length := by omega
        rw [hl', List.nil_append, hdrop, hback]
        exact h'

/-- A read goes on with the split of the stream. -/
theorem threadRead_spec {inbuf rest : Bytes} (h0 : separator ≠ 0) {s : State} (hs : Ready separator s)
    (h : Ahead listener maxLength s (s.line ++ (inbuf ++ rest)) log) :
    ∃ s', threadRead listener maxLength s inbuf = .ok s' ∧ Ready separator s' ∧
      Ahead listener maxLength s' (s'.line ++ rest) log := by
  have hfuel : 2 * inbuf.length + (if s.mode = .MODE_DATA then 1 else 0) < 2 * inbuf.length + 2 := by
    split <;> omega
  obtain ⟨s', hs', hready, hahead⟩ := readLoop_spec h0 _ hfuel (Nat.zero_add _) hs h
  rw [threadRead, hs']
  refine ⟨s', if_neg ?_, hready, hahead⟩
  rintro ⟨hm, hlong⟩
  rw [Ahead, hready.known, awaiting_line hm] at hahead
  have hlen := split_length hahead hready.line
  omega

theorem run_spec (h0 : separator ≠ 0) (reads : List Bytes) {s : State} (hs : Ready separator s)
    (h : Ahead listener maxLength s (s.line ++ reads.flatten) log) :
    ∃ s', run listener maxLength s reads = .ok s' ∧ joined s'.fired = log := by
  induction reads generalizing s with
  | nil =>
    refine ⟨s, rfl, ?_⟩
    rw [List.flatten_nil, List.append_nil, Ahead] at h
    cases hm : s.mode with
    | MODE_LINE =>
      rw [awaiting_line hm, hs.known] at h
      exact (split_unfinished h hs.line).symm
    | MODE_DATA => exact (split_nil h (hs.data hm)).symm
  | cons inbuf reads ih =>
    rw [List.flatten_cons] at h
    obtain ⟨s₁, hs₁, hready, hahead⟩ := threadRead_spec h0 hs h
    obtain ⟨s', hs', hlog⟩ := ih hready hahead
    refine ⟨s', ?_, hlog⟩
    rw [run, List.foldlM_cons, hs₁]
    exact hs'

/-- The separator of a stream; when it is not given, the first byte decides. -/
def separatorOf (aSeparator : UInt8) (stream : Bytes) : UInt8 :=
  if aSeparator = 0 then if stream.head? = some (byte '$') then byte '|' else byte '\n'
  else aSeparator

theorem separatorOf_ne (aSeparator : UInt8) (stream : Bytes) : separatorOf aSeparator stream ≠ 0 := by
  rw [separatorOf]
  split
  · split <;> decide
  · assumption

/-- The first read settles the separator. -/
theorem threadRead_start (aSeparator : UInt8) {inbuf : Bytes} (hne : inbuf ≠ []) (rest : Bytes) :
    threadRead listener maxLength (start aSeparator) inbuf =
      threadRead listener maxLength (start (separatorOf aSeparator (inbuf ++ rest))) inbuf := by
  have hhead : (inbuf ++ rest).head? = inbuf.head? := List.head?_append_of_ne_nil inbuf hne
  have hchoose : chooseSeparator inbuf (start aSeparator) =
      start (separatorOf aSeparator (inbuf ++ rest)) := by
    rw [chooseSeparator, separatorOf, hhead, start]
    split <;> rfl
  have hleft : ¬inbuf.length = 0 := fun h => hne (List.length_eq_zero_iff.mp h)
  have hloop : ∀ s : State, s.mode = .MODE_LINE →
      readLoop listener inbuf (2 * inbuf.length + 2) 0 inbuf.length s =
        readLoop listener inbuf (2 * inbuf.length + 2) 0 inbuf.length (chooseSeparator inbuf s) := by
    intro s hm
    have hm' : (chooseSeparator inbuf s).mode = .MODE_LINE := by
      rw [chooseSeparator]
      split <;> exact hm
    have hidem : chooseSeparator inbuf (chooseSeparator inbuf s) = chooseSeparator inbuf s := by
      apply chooseSeparator_eq
      rw [chooseSeparator]
      split
      · dsimp only
        split <;> decide
      · assumption
    rw [readLoop, readLoop, if_neg hleft, if_neg hleft]
    dsimp only
    rw [hm, hm', hidem]
  rw [threadRead, threadRead, hloop _ rfl, hchoose]

/-- However the stream is cut into reads, the listeners are told what its split says, if no line is
longer than the maximum. -/
theorem run_split (listener : Listener) (aSeparator : UInt8) (maxLength : Nat) {stream : Bytes}
    {log : List Event}
    (h : Split listener (separatorOf aSeparator stream) maxLength .line [] stream log)
    {reads : List Bytes} (hreads : reads.flatten = stream) (hne : ∀ r ∈ reads, r ≠ []) :
    ∃ s, run listener maxLength (start aSeparator) reads = .ok s ∧ joined s.fired = log := by
  have h0 := separatorOf_ne aSeparator stream
  have hready : Ready (separatorOf aSeparator stream) (start (separatorOf aSeparator stream)) :=
    ⟨rfl, List.not_mem_nil, fun hd => by cases hd⟩
  cases reads with
  | nil => exact ⟨start aSeparator, rfl, (split_nil h hreads.symm).symm⟩
  | cons inbuf reads =>
    have hahead : Ahead listener maxLength (start (separatorOf aSeparator stream))
        (inbuf :: reads).flatten log := by
      rw [hreads]
      exact h
    obtain ⟨s, hs, hlog⟩ := run_spec h0 (inbuf :: reads) hready hahead
    refine ⟨s, ?_, hlog⟩
    rw [run, List.foldlM_cons] at hs ⊢
    rw [threadRead_start aSeparator (hne inbuf (List.mem_cons_self ..)) reads.flatten,
      ← List.flatten_cons, hreads]
    exact hs

/-- Every stream has a split, when lines may be as long as it is. -/
theorem exists_split (listener : Listener) (separator : UInt8) {maxLength : Nat} {stream : Bytes}
    (hlen : stream.length ≤ maxLength) (w : Awaiting) (log : List Event) :
    ∃ log', Split listener separator maxLength w log stream log' := by
  induction hn : 2 * stream.length + (if w = .line then 0 else 1) using Nat.strongRecOn
    generalizing stream w log with
  | _ n ih =>
    have hle : ∀ v : Awaiting, (if v = .line then 0 else 1) ≤ 1 := fun v => by split <;> decide
    cases w with
    | line =>
      by_cases hmem : separator ∈ stream
      · obtain ⟨piece, rest, rfl, hp⟩ := List.eq_append_cons_of_mem hmem
        rw [List.length_append, List.length_cons] at hn hlen
        rw [if_pos rfl] at hn
        by_cases hnil : piece = []
        · subst hnil
          rw [List.length_nil] at hn
          obtain ⟨log', h'⟩ := @ih _ (by rw [if_pos rfl]; omega) rest (by omega) .line log rfl
          exact ⟨log', .empty h'⟩
        · have hv := hle (afterChoice (listener (log ++ [.line piece])))
          obtain ⟨log', h'⟩ := @ih _ (by omega) rest (by omega)
            (afterChoice (listener (log ++ [.line piece]))) (log ++ [.line piece]) rfl
          exact ⟨log', .line hnil hp (by omega) h'⟩
      · exact ⟨log, .unfinished hmem hlen⟩
    | all => exact ⟨_, .all⟩
    | bytes k =>
      by_cases hshort : stream = [] ∨ stream.length < k
      · exact ⟨_, .short hshort⟩
      · obtain ⟨hne, hk⟩ := not_or.mp hshort
        have hlen' : (stream.drop k).length ≤ stream.length := by
          rw [List.length_drop]
          omega
        rw [if_neg (by simp)] at hn
        obtain ⟨log', h'⟩ := @ih (2 * (stream.drop k).length + 0) (by omega) (stream.drop k)
          (by omega) .line (addData log (stream.take k) ++ [.modeChange]) (by rw [if_pos rfl])
        refine ⟨log', ?_⟩
        conv in stream => rw [← List.take_append_drop k stream]
        refine .block ?_ ?_ h'
        · rw [List.length_take]
          omega
        · rw [List.take_append_drop]
          exact hne

/-- The listeners ask for two bytes of data after each line. -/
def twoBytes : Listener := fun log =>
  match log.getLast? with
  | some (.line _) => .bytes 2
  | _ => .stay

theorem run_split_twoBytes :
    ∃ s, run twoBytes 4 (start 0) [str "$ge", str "t||", str "a|x"] = .ok s ∧
      joined s.fired = [.line (str "$get"), .data (str "|a"), .modeChange] := by
  refine @run_split twoBytes 0 4 (str "$get||a|x") _ ?_ _ rfl (by decide)
  have hdata : addData [.line (str "$get")] (str "|a") = [.line (str "$get"), .data (str "|a")] := by
    decide
  have hblock : Split twoBytes (byte '|') 4 (.bytes 2) [.line (str "$get")] (str "|a" ++ str "|x")
      [.line (str "$get"), .data (str "|a"), .modeChange] := by
    refine .block rfl (by decide) ?_
    rw [hdata]
    exact .empty (.unfinished (by decide) (by decide))
  have hline : str "$get" ++ byte '|' :: (str "|a" ++ str "|x") = str "$get||a|x" := rfl
  rw [← hline]
  exact .line (by decide) (by decide) (by decide) hblock

/-- The loop over lines that the listeners leave in line mode. -/
theorem lineLoop_step {total bufpos left p : Nat} {l : Bytes} {s : State}
    (hp : l.findIdx? (· == s.separator) = some p) (hm : s.mode = .MODE_LINE) :
    lineLoop (fun _ => .stay) total l bufpos left s =
      lineLoop (fun _ => .stay) total (l.drop (p + 1)) bufpos
        (if (l.drop (p + 1)).length < left then (l.drop (p + 1)).length else left)
        (if 0 < p then fire s (.line (l.take p)) else s) := by
  have hm' : (if 0 < p then fire s (.line (l.take p)) else s).mode = .MODE_LINE := by
    split <;> exact hm
  rw [lineLoop.eq_def]
  split
  · rename_i hnone
    rw [hp] at hnone
    cases hnone
  · rename_i pos' hpos
    obtain rfl := Option.some.inj (hp.symm.trans hpos)
    exact if_neg (not_not.mpr hm')

theorem lineLoop_end {total bufpos left : Nat} {l : Bytes} {s : State}
    (hp : l.findIdx? (· == s.separator) = none) :
    lineLoop listener total l bufpos left s = ({ s with line := l }, bufpos, 0) := by
  rw [lineLoop.eq_def]
  split
  · rfl
  · rename_i pos hpos
    rw [hp] at hpos
    cases hpos

/-- A read of lines only. -/
theorem threadRead_lines {inbuf : Bytes} {s s' : State} {bufpos : Nat} (hm : s.mode = .MODE_LINE)
    (h0 : s.separator ≠ 0) (hne : inbuf.length ≠ 0)
    (h : lineLoop listener inbuf.length (s.line ++ inbuf) 0 inbuf.length s = (s', bufpos, 0)) :
    threadRead listener maxLength s inbuf =
      if s'.mode = .MODE_LINE ∧ maxLength < s'.line.length then .error .tooLong else .ok s' := by
  have hread : readLoop listener inbuf (2 * inbuf.length + 2) 0 inbuf.length s = some s' := by
    rw [readLoop, if_neg hne, List.drop_zero, List.take_length, hm]
    dsimp only
    rw [chooseSeparator_eq h0, h]
    exact readLoop_done inbuf (Nat.succ_pos _) _ _
  rw [threadRead, hread]

/-- A line of four characters, where at most three are allowed, is delivered when it comes in one
read, and else the socket fails. -/
theorem not_run_split :
    (∃ s, run (fun _ => .stay) 3 (start (byte '|')) [str "aaaa|"] = .ok s ∧
      joined s.fired = [.line (str "aaaa")]) ∧
    run (fun _ => .stay) 3 (start (byte '|')) [str "aaaa", str "|"] = .error .tooLong := by
  constructor
  · have hloop : lineLoop (fun _ => .stay) 5 (str "aaaa|") 0 5 (start (byte '|')) =
        (⟨byte '|', .MODE_LINE, some 0, [], [.line (str "aaaa")]⟩, 0, 0) := by
      rw [lineLoop_step (p := 4) (by decide) rfl]
      exact lineLoop_end (by decide)
    refine ⟨⟨byte '|', .MODE_LINE, some 0, [], [.line (str "aaaa")]⟩, ?_, rfl⟩
    rw [run, List.foldlM_cons, threadRead_lines rfl (by decide) (by decide) hloop]
    rfl
  · have hloop : lineLoop (fun _ => .stay) 4 (str "aaaa") 0 4 (start (byte '|')) =
        (⟨byte '|', .MODE_LINE, some 0, str "aaaa", []⟩, 0, 0) := lineLoop_end (by decide)
    rw [run, List.foldlM_cons, threadRead_lines rfl (by decide) (by decide) hloop]
    rfl

end Dcpp.SocketFraming
