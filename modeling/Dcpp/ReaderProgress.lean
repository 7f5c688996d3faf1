import Dcpp.Library.Incremental
import Dcpp.ReaderEffects

namespace Dcpp.SimpleXMLReader

open Incremental

def Round.step : Round → Step Reader UInt8 Round
  | .done true _ _ => .wait
  | .next r buf => .next r buf
  | x => .stop x

def Round.outcome : Round → Incremental.Outcome Reader UInt8 Round
  | .done true r buf => .waiting r buf
  | x => .stopped x

/-- The rounds of `process`, with as much fuel as they take. -/
def machine (cfg : Config) (r : Reader) (buf : Bytes) (y : Step Reader UInt8 Round) : Prop :=
  ∃ fuel x, round cfg fuel r buf = some x ∧ x.step = y

theorem declEncodingValue_mono (cfg : Config) {fuel : Nat} {r : Reader} {buf : Bytes} {x : Result}
    (h : declEncodingValue cfg fuel r buf = some x) : declEncodingValue cfg (fuel + 1) r buf = some x := by
  induction fuel generalizing r buf with
  | zero => cases h
  | succ fuel ih =>
    cases buf with
    | nil => exact h
    | cons c rest =>
      rw [declEncodingValue] at h ⊢
      split
      next hc => rwa [if_pos hc] at h
      next hc =>
        rw [if_neg hc] at h
        split
        next hamp =>
          rw [if_pos hamp] at h
          split
          next hent =>
            rw [hent] at h
            exact h
          next hent =>
            rw [hent] at h
            exact h
          next encoding buf' hent =>
            rw [hent] at h
            exact ih h
        next hamp =>
          rw [if_neg hamp] at h
          split
          next happ =>
            rw [happ] at h
            exact h
          next encoding happ =>
            rw [happ] at h
            exact ih h

theorem round_mono (cfg : Config) {fuel : Nat} {r : Reader} {buf : Bytes} {x : Round}
    (h : round cfg fuel r buf = some x) : round cfg (fuel + 1) r buf = some x := by
  rw [round] at h ⊢
  split
  next hend => rwa [if_pos hend] at h
  next hend =>
    rw [if_neg hend] at h
    obtain ⟨y, hy, rfl⟩ := Option.map_eq_some_iff.mp h
    rw [switch] at hy
    rw [switch]
    split
    next hstate =>
      rw [if_pos hstate] at hy
      obtain ⟨z, hz, rfl⟩ := Option.map_eq_some_iff.mp hy
      rw [declEncodingValue_mono cfg hz]
      rfl
    next hstate =>
      rw [if_neg hstate] at hy
      obtain rfl := Option.some.inj hy
      rfl

theorem round_mono_le (cfg : Config) {fuel fuel' : Nat} (hle : fuel ≤ fuel') {r : Reader} {buf : Bytes}
    {x : Round} (h : round cfg fuel r buf = some x) : round cfg fuel' r buf = some x := by
  induction hle with
  | refl => exact h
  | step _ ih => exact round_mono cfg ih

theorem machine_det (cfg : Config) (r : Reader) (buf : Bytes) (y y' : Step Reader UInt8 Round)
    (h : machine cfg r buf y) (h' : machine cfg r buf y') : y = y' := by
  obtain ⟨fuel, x, hx, rfl⟩ := h
  obtain ⟨fuel', x', hx', rfl⟩ := h'
  have heq := (round_mono_le cfg (Nat.le_max_left fuel fuel') hx).symm.trans
    (round_mono_le cfg (Nat.le_max_right fuel fuel') hx')
  rw [Option.some.inj heq]

theorem process_mono (cfg : Config) {fuel : Nat} {r : Reader} {buf : Bytes} {x : Round}
    (h : process cfg fuel r buf = some x) : process cfg (fuel + 1) r buf = some x := by
  induction fuel generalizing r buf with
  | zero => cases h
  | succ fuel ih =>
    rw [process] at h ⊢
    cases hround : round cfg fuel r buf with
    | none =>
      rw [hround] at h
      cases h
    | some y =>
      rw [hround] at h
      rw [round_mono cfg hround]
      cases y with
      | next r' buf' => exact ih h
      | done _ _ _ => exact h
      | error _ _ _ => exact h

theorem process_mono_le (cfg : Config) {fuel fuel' : Nat} (hle : fuel ≤ fuel') {r : Reader} {buf : Bytes}
    {x : Round} (h : process cfg fuel r buf = some x) : process cfg fuel' r buf = some x := by
  induction hle with
  | refl => exact h
  | step _ ih => exact process_mono cfg ih

/-- What `process` returns is the outcome of a run of the rounds. -/
theorem runs_of_process (cfg : Config) {fuel : Nat} {r : Reader} {buf : Bytes} {x : Round}
    (h : process cfg fuel r buf = some x) : Runs (machine cfg) r buf x.outcome := by
  induction fuel generalizing r buf with
  | zero => cases h
  | succ fuel ih =>
    rw [process] at h
    cases hround : round cfg fuel r buf with
    | none =>
      rw [hround] at h
      cases h
    | some y =>
      rw [hround] at h
      have hm : machine cfg r buf y.step := ⟨fuel, y, hround, rfl⟩
      cases y with
      | next r' buf' => exact Runs.next hm (ih h)
      | done more r' buf' =>
        obtain rfl := Option.some.inj h
        have hspec := round_spec cfg hround
        cases more with
        | true =>
          cases hspec
          exact Runs.wait hm
        | false => exact Runs.stop hm
      | error r' buf' message =>
        obtain rfl := Option.some.inj h
        exact Runs.stop hm

theorem process_of_runs (cfg : Config) {r : Reader} {buf : Bytes} {o : Incremental.Outcome Reader UInt8 Round}
    (h : Runs (machine cfg) r buf o) : ∃ fuel x, process cfg fuel r buf = some x ∧ x.outcome = o := by
  induction h with
  | @wait r buf hw =>
    obtain ⟨fuel, x, hx, hstep⟩ := hw
    have hspec := round_spec cfg hx
    cases hspec with
    | wait _ => exact ⟨fuel + 1, _, by rw [process, hx], rfl⟩
    | finish _ => cases hstep
    | error _ _ _ _ => cases hstep
    | next _ _ _ _ => cases hstep
    | data _ _ _ _ _ _ _ => cases hstep
  | @next r r' buf buf' o hs _ ih =>
    obtain ⟨fuel, x, hx, hstep⟩ := hs
    obtain ⟨fuel', y, hy, ho⟩ := ih
    refine ⟨max fuel fuel' + 1, y, ?_, ho⟩
    rw [process, round_mono_le cfg (Nat.le_max_left fuel fuel') hx]
    cases x with
    | next r'' buf'' =>
      cases hstep
      exact process_mono_le cfg (Nat.le_max_right fuel fuel') hy
    | done more _ _ => cases more <;> cases hstep
    | error _ _ _ => cases hstep
  | @stop r buf e he =>
    obtain ⟨fuel, x, hx, hstep⟩ := he
    refine ⟨fuel + 1, x, ?_, ?_⟩
    · rw [process, hx]
      cases x with
      | next _ _ => cases hstep
      | done _ _ _ => rfl
      | error _ _ _ => rfl
    · cases x with
      | next _ _ => cases hstep
      | done more _ _ =>
        cases more with
        | true => cases hstep
        | false =>
          cases hstep
          rfl
      | error _ _ _ =>
        cases hstep
        rfl

/-- The loop over the encoding's name comes to an ampersand where `P` holds of the name so far and of
the buffer. -/
inductive Comes (quote : UInt8) (P : Bytes → Bytes → Prop) : Bytes → Bytes → Prop where
  | here (d rest : Bytes) : P d (byte '&' :: rest) → Comes quote P d (byte '&' :: rest)
  | reference (d rest d' buf : Bytes) : 6 ≤ rest.length → entref d (byte '&' :: rest) = .yes d' buf →
    Comes quote P d' buf → Comes quote P d (byte '&' :: rest)
  | char (d : Bytes) (c : UInt8) (rest : Bytes) : c ≠ quote → c ≠ byte '&' → d.length + 1 ≤ MAX_VALUE_SIZE →
    Comes quote P (d ++ [c]) rest → Comes quote P d (c :: rest)

/-- At most six bytes are left from the ampersand on. -/
def Stalls (quote : UInt8) : Bytes → Bytes → Prop :=
  Comes quote fun d buf => d.length + 1 < MAX_VALUE_SIZE ∧ buf.length ≤ 6

def Reader.Stalled (r : Reader) (buf : Bytes) : Prop :=
  (r.state = .DECL_ENCODING_NAME_APOS ∨ r.state = .DECL_ENCODING_NAME_QUOT) ∧
    Stalls (quote r.state) r.encoding buf

theorem quote_ne (s : ParseState) : byte '&' ≠ quote s := by
  rw [quote.eq_def]
  split <;> decide

theorem entref_short {d buf : Bytes} (hd : d.length + 1 < MAX_VALUE_SIZE) (hb : buf.length ≤ 6) :
    entref d buf = .yes d buf := by
  rw [entref, if_neg (Nat.not_le_of_gt hd), if_neg (Nat.not_lt_of_le hb)]

theorem append_char (d : Bytes) (c : UInt8) : append d MAX_VALUE_SIZE [c] =
    if d.length + 1 ≤ MAX_VALUE_SIZE then some (d ++ [c]) else none := by
  rw [append, List.length_singleton]
  by_cases h : d.length + 1 ≤ MAX_VALUE_SIZE
  · rw [if_pos h, if_neg (Nat.not_lt_of_le h)]
  · rw [if_neg h, if_pos (Nat.lt_of_not_le h)]

/-- However much fuel there is, the loop does not end. -/
theorem declEncodingValue_stalls (cfg : Config) {r : Reader} {buf : Bytes}
    (h : Stalls (quote r.state) r.encoding buf) (fuel : Nat) : declEncodingValue cfg fuel r buf = none := by
  induction fuel generalizing r buf with
  | zero => rfl
  | succ fuel ih =>
    cases h with
    | here _ rest hp =>
      rw [declEncodingValue, if_neg (quote_ne _), if_pos rfl, entref_short hp.1 hp.2]
      exact ih (Comes.here _ rest hp)
    | reference _ rest d' buf _ hent hs =>
      rw [declEncodingValue, if_neg (quote_ne _), if_pos rfl, hent]
      exact ih (r := { r with encoding := d' }) hs
    | char _ c rest hq hamp hd hs =>
      rw [declEncodingValue, if_neg hq, if_neg hamp, append_char, if_pos hd]
      exact ih (r := { r with encoding := r.encoding ++ [c] }) hs

/-- Where it does not stall, every round of the loop takes something from the buffer. -/
theorem declEncodingValue_ends (cfg : Config) {r : Reader} {buf : Bytes}
    (h : ¬Stalls (quote r.state) r.encoding buf) : ∃ x, declEncodingValue cfg (buf.length + 1) r buf = some x := by
  induction hn : buf.length using Nat.strongRecOn generalizing r buf with
  | ind n ih =>
    cases buf with
    | nil =>
      subst hn
      exact ⟨_, rfl⟩
    | cons c rest =>
      have hrec : ∀ encoding buf', buf'.length < n → ¬Stalls (quote r.state) encoding buf' →
          ∃ x, declEncodingValue cfg n { r with encoding := encoding } buf' = some x := by
        intro encoding buf' hlt hns
        obtain ⟨x, hx⟩ := ih buf'.length hlt (r := { r with encoding := encoding }) hns rfl
        clear ih hn
        induction hlt with
        | refl => exact ⟨x, hx⟩
        | step _ ih =>
          obtain ⟨x, hx⟩ := ih
          exact ⟨x, declEncodingValue_mono cfg hx⟩
      have hlen : rest.length < n := hn ▸ Nat.lt_succ_self rest.length
      rw [declEncodingValue]
      split
      next => exact ⟨_, rfl⟩
      next hq =>
        split
        next hamp =>
          subst hamp
          split
          next => exact ⟨_, rfl⟩
          next => exact ⟨_, rfl⟩
          next encoding buf' hent =>
            by_cases hr : rest.length < 6
            · rw [entref] at hent
              split at hent
              next => cases hent
              next hd => exact absurd (Comes.here r.encoding rest ⟨Nat.lt_of_not_ge hd, hr⟩) h
            · have hr := Nat.le_of_not_lt hr
              have hlt : buf'.length < n := by
                obtain ⟨hle, _⟩ | hlt := entref_length hent
                · exact absurd (Nat.le_of_succ_le_succ hle) (Nat.not_le_of_lt hr)
                · rwa [hn] at hlt
              exact hrec encoding buf' hlt fun hs => h (Comes.reference _ rest _ _ hr hent hs)
        next hamp =>
          rw [append_char]
          by_cases hd : r.encoding.length + 1 ≤ MAX_VALUE_SIZE
          · rw [if_pos hd]
            exact hrec _ rest hlen fun hs => h (Comes.char _ c rest hq hamp hd hs)
          · rw [if_neg hd]
            exact ⟨_, rfl⟩

/-- A round is undefined only where the encoding's name stalls. -/
theorem machine_iff (cfg : Config) (r : Reader) (buf : Bytes) :
    (∃ y, machine cfg r buf y) ↔ ¬r.Stalled buf := by
  constructor
  · rintro ⟨_, fuel, x, hx, _⟩ ⟨hstate, hs⟩
    have hne : r.state ≠ .END := by
      obtain h | h := hstate <;> rw [h] <;> decide
    rw [round, if_neg hne, switch, if_pos hstate, declEncodingValue_stalls cfg hs fuel] at hx
    cases hx
  · intro hs
    by_cases hend : r.state = .END
    · exact ⟨_, 0, .done false r [], by rw [round, if_pos hend], rfl⟩
    by_cases hstate : r.state = .DECL_ENCODING_NAME_APOS ∨ r.state = .DECL_ENCODING_NAME_QUOT
    · obtain ⟨x, hx⟩ := declEncodingValue_ends cfg fun h => hs ⟨hstate, h⟩
      obtain ⟨y, hy⟩ : ∃ y, round cfg (buf.length + 1) r buf = some y := by
        rw [round, if_neg hend, switch, if_pos hstate, hx]
        exact ⟨_, rfl⟩
      exact ⟨_, _, y, hy, rfl⟩
    · obtain ⟨y, hy⟩ : ∃ y, round cfg 0 r buf = some y := by
        rw [round, if_neg hend, switch, if_neg hstate]
        exact ⟨_, rfl⟩
      exact ⟨_, _, y, hy, rfl⟩

/-- Every round that goes on has read something, or has just read an empty name. -/
theorem machine_lowers (cfg : Config) (r : Reader) (buf : Bytes) (r' : Reader) (buf' : Bytes)
    (h : machine cfg r buf (.next r' buf')) :
    2 * buf'.length + (if r'.state = .ELEMENT_END then 1 else 0) <
      2 * buf.length + if r.state = .ELEMENT_END then 1 else 0 := by
  obtain ⟨fuel, x, hx, hstep⟩ := h
  have hspec := round_spec cfg hx
  have hlt : ∀ r'', Consumes r buf r'' buf' → r''.state = r'.state →
      2 * buf'.length + (if r'.state = .ELEMENT_END then 1 else 0) <
        2 * buf.length + if r.state = .ELEMENT_END then 1 else 0 := by
    rintro r'' (hlt | ⟨heq, hs, hs'⟩) hstate
    · split <;> split <;> omega
    · rw [← hstate, hs', heq, hs]
      exact Nat.lt_succ_self _
  cases hspec with
  | wait _ => cases hstep
  | finish _ => cases hstep
  | error _ _ _ _ => cases hstep
  | next r'' _ _ hcons =>
    cases hstep
    exact hlt _ hcons rfl
  | data r'' _ _ _ hcons _ _ =>
    cases hstep
    exact hlt r'' hcons rfl

/-- `process` returns for every state and buffer from which no round of its loop stalls in the
encoding's name. -/
theorem process_returns_iff (cfg : Config) (r : Reader) (buf : Bytes) :
    (∃ fuel x, process cfg fuel r buf = some x) ↔
      ∀ r' buf', Steps (machine cfg) r buf r' buf' → ¬r'.Stalled buf' := by
  have hruns := runs_iff (fun r buf => 2 * buf.length + if r.state = .ELEMENT_END then 1 else 0)
    (machine_lowers cfg) (machine_det cfg) r buf
  constructor
  · rintro ⟨fuel, x, hx⟩ r' buf' hsteps
    exact (machine_iff cfg r' buf').mp (hruns.mp ⟨_, runs_of_process cfg hx⟩ r' buf' hsteps)
  · intro h
    obtain ⟨o, ho⟩ := hruns.mpr fun r' buf' hsteps => (machine_iff cfg r' buf').mpr (h r' buf' hsteps)
    obtain ⟨fuel, x, hx, _⟩ := process_of_runs cfg ho
    exact ⟨fuel, x, hx⟩

/-- A platform with wide characters and nothing but UTF-8. -/
def plainConfig : Config := ⟨⟨32, id, fun s _ => s, id⟩, false⟩

/-- A document whose encoding has a reference. -/
def declaration : Bytes := str "<?xml version=\"1.0\" encoding=\""

/-- The declaration is read, and the ampersand after it is never done with. -/
theorem not_process_returns :
    process plainConfig 12 start declaration =
        some (.done true { start with state := .DECL_ENCODING_NAME_QUOT } []) ∧
      ¬∀ (cfg : Config) (r : Reader) (buf : Bytes), ∃ fuel x, process cfg fuel r buf = some x := by
  refine ⟨by decide, fun h => ?_⟩
  obtain ⟨fuel, x, hx⟩ := h plainConfig { start with state := .DECL_ENCODING_NAME_QUOT } [byte '&']
  have hstall : Stalls (byte '"') [] [byte '&'] := Comes.here [] [] (by decide)
  cases fuel with
  | zero => cases hx
  | succ fuel =>
    have hround : round plainConfig fuel { start with state := .DECL_ENCODING_NAME_QUOT } [byte '&'] = none := by
      rw [round, if_neg (by decide), switch, if_pos (Or.inr rfl), 
        declEncodingValue_stalls plainConfig (r := { start with state := .DECL_ENCODING_NAME_QUOT }) hstall fuel]
      rfl
    rw [process, hround] at hx
    cases hx

end Dcpp.SimpleXMLReader
