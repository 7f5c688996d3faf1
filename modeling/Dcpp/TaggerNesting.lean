import Mathlib.Data.List.Sort
import Mathlib.Data.List.TakeDrop
import Dcpp.Tagger

-- What `merge` writes is well nested, and every tag has its text inside.
namespace Dcpp.Tagger

open Markup SimpleXML

/-- The tags after some calls of `add`. -/
def addAll (as : List Added) : List Tag := as.foldl add []

/-- What is written for a token. -/
def renderToken (as : List Added) : Token Nat UInt8 → Bytes
  | .text t => t
  | .opening i => (as[i]?).elim [] Added.openingS
  | .closing i => (as[i]?).elim [] Added.closingS

def render (as : List Added) (ts : List (Token Nat UInt8)) : Bytes := ts.flatMap (renderToken as)

theorem render_append (as : List Added) (ts us : List (Token Nat UInt8)) :
    render as (ts ++ us) = render as ts ++ render as us := List.flatMap_append

theorem escape_append (s t : Bytes) : escape (s ++ t) false = escape s false ++ escape t false := List.flatMap_append

/-- The tag is one of those of the calls. -/
def Tag.Of (as : List Added) (t : Tag) : Prop :=
  ∃ a, as[t.number]? = some a ∧ (t = a.openingTag t.number ∨ t = a.closingTag t.number)

theorem Tag.Of.append {as : List Added} {t : Tag} (h : t.Of as) (a : Added) : t.Of (as ++ [a]) := by
  obtain ⟨b, hb, ht⟩ := h
  refine ⟨b, ?_, ht⟩
  rw [List.getElem?_append_left (List.getElem?_eq_some_iff.mp hb).1]
  exact hb

/-- What is known of the tags that have been added. -/
structure Table (as : List Added) (tags : List Tag) : Prop where
  length : tags.length = 2 * as.length
  of : ∀ t ∈ tags, t.Of as
  nodup : tags.Nodup
  order : ∀ (i : Nat) (a : Added), as[i]? = some a → [a.openingTag i, a.closingTag i].Sublist tags

theorem table_add {as : List Added} {tags : List Tag} (h : Table as tags) (a : Added) :
    Table (as ++ [a]) (add tags a) := by
  have hhalf : tags.length / 2 = as.length := by rw [h.length]; omega
  have hlast : (as ++ [a])[as.length]? = some a := by simp
  have hfresh : ∀ t ∈ tags, t.number ≠ as.length := by
    intro t ht hn
    obtain ⟨b, hb, -⟩ := h.of t ht
    rw [hn] at hb
    exact absurd (List.getElem?_eq_some_iff.mp hb).1 (Nat.lt_irrefl _)
  rw [add, hhalf]
  refine ⟨?_, ?_, ?_, ?_⟩
  · simp only [List.length_append, List.length_cons, List.length_nil, h.length]
    omega
  · intro t ht
    obtain ht | ht := List.mem_append.mp ht
    · exact (h.of t ht).append a
    · obtain rfl | ht := List.mem_cons.mp ht
      · exact ⟨a, hlast, Or.inl rfl⟩
      · obtain rfl := List.mem_singleton.mp ht
        exact ⟨a, hlast, Or.inr rfl⟩
  · refine List.Nodup.append h.nodup (by simp [Added.openingTag, Added.closingTag]) ?_
    intro t ht ht'
    obtain rfl | ht' := List.mem_cons.mp ht'
    · exact hfresh _ ht rfl
    · obtain rfl := List.mem_singleton.mp ht'
      exact hfresh _ ht rfl
  · intro i b hi
    obtain hlt | heq := Nat.lt_or_ge i as.length
    · rw [List.getElem?_append_left hlt] at hi
      exact (h.order i b hi).trans (List.sublist_append_left _ _)
    · have hi' := (List.getElem?_eq_some_iff.mp hi).1
      rw [List.length_append, List.length_singleton] at hi'
      obtain rfl : i = as.length := by omega
      rw [hlast] at hi
      obtain rfl := Option.some.inj hi
      exact List.sublist_append_right _ _

theorem table_addAll (as : List Added) : Table as (addAll as) := by
  induction as using List.reverseRecOn with
  | nil => exact ⟨rfl, fun t h => absurd h List.not_mem_nil, List.nodup_nil, fun i a h => by simp at h⟩
  | append_singleton as a ih =>
    rw [addAll, List.foldl_append]
    exact table_add ih a

/-- The tags as the loop comes to them. -/
structure Ordered (as : List Added) (tags : List Tag) : Prop where
  of : ∀ t ∈ tags, t.Of as
  nodup : tags.Nodup
  order : ∀ (i : Nat) (a : Added), as[i]? = some a → [a.openingTag i, a.closingTag i].Sublist tags
  sorted : tags.Pairwise fun t u => t.pos ≤ u.pos

/-- The sort leaves the opening tag before the closing one where both are at one position. -/
theorem ordered_mergeSort {as : List Added} {tags : List Tag} (h : Table as tags) (hle : ∀ a ∈ as, a.start ≤ a.stop) :
    Ordered as (tags.mergeSort fun a b => a.pos ≤ b.pos) := by
  have htrans : ∀ a b c : Tag, decide (a.pos ≤ b.pos) = true → decide (b.pos ≤ c.pos) = true →
      decide (a.pos ≤ c.pos) = true := by
    intro a b c hab hbc
    exact decide_eq_true (Nat.le_trans (of_decide_eq_true hab) (of_decide_eq_true hbc))
  have htotal : ∀ a b : Tag, (decide (a.pos ≤ b.pos) || decide (b.pos ≤ a.pos)) = true := by
    intro a b
    rw [Bool.or_eq_true, decide_eq_true_iff, decide_eq_true_iff]
    exact Nat.le_total _ _
  refine ⟨?_, ?_, ?_, ?_⟩
  · intro t ht
    exact h.of t (List.mem_mergeSort.mp ht)
  · exact (List.mergeSort_perm _ _).nodup_iff.mpr h.nodup
  · intro i a hi
    refine List.pair_sublist_mergeSort htrans htotal ?_ (h.order i a hi)
    exact decide_eq_true (hle a (List.mem_of_getElem? hi))
  · exact (List.pairwise_mergeSort htrans htotal tags).imp of_decide_eq_true

/-- A list splits where a property that is kept along it begins to hold. -/
theorem filter_not_append_filter {α : Type*} {p : α → Bool} {l : List α}
    (h : l.Pairwise fun a b => p a = true → p b = true) : (l.filter fun a => !p a) ++ l.filter p = l := by
  induction l with
  | nil => rfl
  | cons a l ih =>
    obtain ⟨ha, hl⟩ := List.pairwise_cons.mp h
    cases hp : p a with
    | false => simp [hp, ih hl]
    | true =>
      have hall : ∀ b ∈ l, p b = true := fun b hb => ha b hb hp
      have hnone : (l.filter fun a => !p a) = [] := by
        rw [List.filter_eq_nil_iff]
        intro b hb
        simp [hall b hb]
      simp [hp, hnone, List.filter_eq_self.mpr hall]

/-- The tags of a first part of the list that are still open behind it. -/
def stillOpen (done : List Tag) : List Tag :=
  done.filter fun t => t.opening && done.all fun u => u.opening || u.number ≠ t.number

/-- The text of a tag as far as a position. -/
def inText (text : Bytes) (a : Added) (pos : Nat) : Bytes := (text.take (min a.stop pos)).drop a.start

/-- What has been written after the tags that are done, in terms of tokens. -/
structure Written (as : List Added) (text : Bytes) (m : Merging) (out : List (Token Nat UInt8)) : Prop where
  ret : m.ret = render as out
  nest : nest [] out = some (m.openTags.reverse.map Tag.number)
  plain : plain out = escape (text.take m.pos) false
  inside : ∀ (i : Nat) (a : Added), as[i]? = some a → inside i [] out = escape (inText text a m.pos) false

structure Inv (as : List Added) (text : Bytes) (done rest : List Tag) (m : Merging) : Prop where
  openTags : m.openTags = stillOpen done
  le : m.pos ≤ text.length
  before : ∀ t ∈ done, t.pos ≤ m.pos
  after : ∀ t ∈ rest, m.pos ≤ t.pos
  written : ∃ out, Written as text m out

theorem Tag.Of.eq_opening {as : List Added} {t : Tag} {a : Added} (h : t.Of as) (ha : as[t.number]? = some a)
    (ho : t.opening = true) : t = a.openingTag t.number := by
  obtain ⟨b, hb, ht | ht⟩ := h
  · rw [ha] at hb
    rwa [← Option.some.inj hb] at ht
  · rw [ht] at ho
    cases ho

theorem Tag.Of.eq_closing {as : List Added} {t : Tag} {a : Added} (h : t.Of as) (ha : as[t.number]? = some a)
    (ho : t.opening = false) : t = a.closingTag t.number := by
  obtain ⟨b, hb, ht | ht⟩ := h
  · rw [ht] at ho
    cases ho
  · rw [ha] at hb
    rwa [← Option.some.inj hb] at ht

theorem opening_ne_closing (a b : Added) (i j : Nat) : a.openingTag i ≠ b.closingTag j := by
  intro h
  have := congrArg Tag.opening h
  cases this

/-- The opening tag is done before the closing one. -/
theorem Ordered.opening_done {as : List Added} {done rest : List Tag} (h : Ordered as (done ++ rest)) {i : Nat}
    {a : Added} (ha : as[i]? = some a) (hc : a.closingTag i ∈ done) : a.openingTag i ∈ done := by
  have hnot : a.closingTag i ∉ rest := fun hr => (List.nodup_append.mp h.nodup).2.2 _ hc _ hr rfl
  obtain ⟨l₁, l₂, heq, h₁, h₂⟩ := List.sublist_append_iff.mp (h.order i a ha)
  cases l₁ with
  | nil =>
    rw [List.nil_append] at heq
    subst heq
    exact absurd (h₂.subset (by simp)) hnot
  | cons t l₁ =>
    rw [List.cons_append, List.cons.injEq] at heq
    rw [heq.1]
    exact h₁.subset List.mem_cons_self

theorem mem_stillOpen {done : List Tag} {t : Tag} : t ∈ stillOpen done ↔
    t ∈ done ∧ t.opening = true ∧ ∀ u ∈ done, u.opening = false → u.number ≠ t.number := by
  rw [stillOpen, List.mem_filter, Bool.and_eq_true, List.all_eq_true]
  refine and_congr Iff.rfl (and_congr Iff.rfl (forall_congr' fun u => forall_congr' fun hu => ?_))
  cases u.opening <;> simp

theorem stillOpen_opening {done : List Tag} {tag : Tag} (ho : tag.opening = true)
    (h : ∀ u ∈ done, u.opening = false → u.number ≠ tag.number) :
    stillOpen (done ++ [tag]) = stillOpen done ++ [tag] := by
  have hall : (done.all fun u => u.opening || decide (u.number ≠ tag.number)) = true := by
    rw [List.all_eq_true]
    intro u hu
    cases hopen : u.opening with
    | true => rfl
    | false => simpa using h u hu hopen
  rw [stillOpen, List.filter_append, stillOpen]
  congr 1
  · apply List.filter_congr
    intro t ht
    simp [List.all_append, ho]
  · rw [List.filter_singleton, List.all_append, hall]
    simp [ho]

theorem stillOpen_closing {done : List Tag} {tag : Tag} (ho : tag.opening = false) :
    stillOpen (done ++ [tag]) = (stillOpen done).filter fun t => t.number ≠ tag.number := by
  rw [stillOpen, List.filter_append, stillOpen, List.filter_filter]
  have hlast : [tag].filter (fun t => t.opening && (done ++ [tag]).all fun u => u.opening || u.number ≠ t.number) = [] := by
    simp [ho]
  rw [hlast, List.append_nil]
  apply List.filter_congr
  intro t ht
  simp only [List.all_append, List.all_cons, List.all_nil, ho, Bool.false_or, Bool.and_true]
  by_cases hn : t.number = tag.number
  · simp [hn]
  · simp [hn, Ne.symm hn]

/-- The open elements are those whose opening tag is done and whose closing tag is not. -/
theorem Ordered.mem_numbers {as : List Added} {done rest : List Tag} (h : Ordered as (done ++ rest)) {i : Nat}
    {a : Added} (ha : as[i]? = some a) :
    i ∈ (stillOpen done).map Tag.number ↔ a.openingTag i ∈ done ∧ a.closingTag i ∉ done := by
  rw [List.mem_map]
  constructor
  · rintro ⟨t, ht, rfl⟩
    obtain ⟨hdone, ho, hnone⟩ := mem_stillOpen.mp ht
    have ht := (h.of t (List.mem_append_left _ hdone)).eq_opening ha ho
    refine ⟨ht ▸ hdone, fun hc => ?_⟩
    exact hnone _ hc rfl rfl
  · rintro ⟨hopening, hclosing⟩
    refine ⟨a.openingTag i, mem_stillOpen.mpr ⟨hopening, rfl, ?_⟩, rfl⟩
    intro u hu ho hn
    have hn : u.number = i := hn
    subst hn
    exact hclosing ((h.of u (List.mem_append_left _ hu)).eq_closing ha ho ▸ hu)

theorem Ordered.mem_tags {as : List Added} {tags : List Tag} (h : Ordered as tags) {i : Nat} {a : Added}
    (ha : as[i]? = some a) : a.openingTag i ∈ tags ∧ a.closingTag i ∈ tags :=
  ⟨(h.order i a ha).subset (by simp), (h.order i a ha).subset (by simp)⟩

/-- The text up to the next position comes to the elements that are open, and to no others. -/
theorem Inv.inText_advance {as : List Added} {text : Bytes} {done rest : List Tag} {m : Merging} {p i : Nat} {a : Added}
    (ho : Ordered as (done ++ rest)) (h : Inv as text done rest m) (hp : m.pos ≤ p) (hrest : ∀ t ∈ rest, p ≤ t.pos)
    (ha : as[i]? = some a) :
    inText text a p = inText text a m.pos ++
      if i ∈ m.openTags.reverse.map Tag.number then (text.drop m.pos).take (p - m.pos) else [] := by
  have hmem : i ∈ m.openTags.reverse.map Tag.number ↔ a.openingTag i ∈ done ∧ a.closingTag i ∉ done := by
    rw [List.map_reverse, List.mem_reverse, h.openTags]
    exact ho.mem_numbers ha
  obtain ⟨hopening, hclosing⟩ := ho.mem_tags ha
  rw [List.mem_append] at hopening hclosing
  by_cases hi : i ∈ m.openTags.reverse.map Tag.number
  · obtain ⟨hdone, hnot⟩ := hmem.mp hi
    have hstart : a.start ≤ m.pos := h.before _ hdone
    have hstop : p ≤ a.stop := hrest _ (hclosing.resolve_left hnot)
    have hlen : a.start ≤ (text.take m.pos).length := by
      rw [List.length_take, Nat.min_eq_left h.le]
      exact hstart
    rw [if_pos hi, inText, inText, Nat.min_eq_right hstop, Nat.min_eq_right (Nat.le_trans hp hstop)]
    rw [show p = m.pos + (p - m.pos) by omega, List.take_add, List.drop_append_of_le_length hlen]
    congr 2
    omega
  · rw [if_neg hi, List.append_nil]
    by_cases hdone : a.openingTag i ∈ done
    · have hc : a.closingTag i ∈ done := by
        by_contra hnot
        exact hi (hmem.mpr ⟨hdone, hnot⟩)
      have hstop : a.stop ≤ m.pos := h.before _ hc
      rw [inText, inText, Nat.min_eq_left hstop, Nat.min_eq_left (Nat.le_trans hstop hp)]
    · have hstart : p ≤ a.start := hrest _ (hopening.resolve_left hdone)
      rw [inText, inText, List.drop_eq_nil_of_le, List.drop_eq_nil_of_le]
      · rw [List.length_take]
        omega
      · rw [List.length_take]
        omega

/-- The text up to the next tag is written. -/
theorem Inv.advance {as : List Added} {text : Bytes} {done rest : List Tag} {m : Merging} {p : Nat}
    (ho : Ordered as (done ++ rest)) (h : Inv as text done rest m) (hp : m.pos ≤ p) (hle : p ≤ text.length)
    (hrest : ∀ t ∈ rest, p ≤ t.pos) :
    Inv as text done rest
      ⟨m.ret ++ escape ((text.drop m.pos).take (p - m.pos)) false, p, m.openTags⟩ := by
  obtain ⟨out, hw⟩ := h.written
  refine ⟨h.openTags, hle, fun t ht => Nat.le_trans (h.before t ht) hp, hrest,
    out ++ [.text (escape ((text.drop m.pos).take (p - m.pos)) false)], ?_, ?_, ?_, ?_⟩
  · rw [render_append, hw.ret]
    simp [render, renderToken]
  · rw [nest_append, hw.nest]
    rfl
  · rw [plain_append, hw.plain, ← show m.pos + (p - m.pos) = p by omega, List.take_add, escape_append]
    simp [Markup.plain]
  · intro i a ha
    rw [inside_append hw.nest, hw.inside i a ha, h.inText_advance ho hp hrest ha, escape_append]
    simp only [Markup.inside, List.append_nil]
    split_ifs
    · rfl
    · rfl

/-- Tags are written behind what is there. -/
theorem Written.append {as : List Added} {text : Bytes} {m : Merging} {out ts : List (Token Nat UInt8)}
    {openTags : List Tag} (h : Written as text m out)
    (hnest : Markup.nest (m.openTags.reverse.map Tag.number) ts = some (openTags.reverse.map Tag.number))
    (hplain : Markup.plain ts = [])
    (hinside : ∀ i, Markup.inside i (m.openTags.reverse.map Tag.number) ts = []) :
    Written as text ⟨m.ret ++ render as ts, m.pos, openTags⟩ (out ++ ts) := by
  refine ⟨?_, ?_, ?_, ?_⟩
  · rw [render_append, h.ret]
  · rw [nest_append, h.nest]
    exact hnest
  · rw [plain_append, h.plain, hplain, List.append_nil]
  · intro i a ha
    rw [inside_append h.nest, hinside, List.append_nil]
    exact h.inside i a ha

theorem Ordered.stillOpen_nodup {as : List Added} {done rest : List Tag} (h : Ordered as (done ++ rest)) :
    (stillOpen done).Nodup := (List.nodup_append.mp h.nodup).1.filter _

/-- The open tags stand in the order of their positions. -/
theorem Ordered.stillOpen_sorted {as : List Added} {done rest : List Tag} (h : Ordered as (done ++ rest)) :
    (stillOpen done).Pairwise fun t u => t.pos ≤ u.pos := (List.pairwise_append.mp h.sorted).1.filter _

theorem Ordered.stillOpen_of {as : List Added} {done rest : List Tag} (h : Ordered as (done ++ rest)) {t : Tag}
    (ht : t ∈ stillOpen done) : ∃ a, as[t.number]? = some a ∧ t = a.openingTag t.number := by
  obtain ⟨hdone, ho, -⟩ := mem_stillOpen.mp ht
  have hof := h.of t (List.mem_append_left _ hdone)
  obtain ⟨a, ha, -⟩ := id hof
  exact ⟨a, ha, hof.eq_opening ha ho⟩

theorem render_openings {as : List Added} {tags : List Tag}
    (h : ∀ t ∈ tags, ∃ a, as[t.number]? = some a ∧ t = a.openingTag t.number) :
    render as ((tags.map Tag.number).map .opening) = tags.flatMap Tag.s := by
  rw [render, List.flatMap_map, List.flatMap_map]
  apply List.flatMap_congr
  intro t ht
  obtain ⟨a, ha, hta⟩ := h t ht
  rw [renderToken, ha, hta]
  rfl

theorem render_closings {as : List Added} {tags : List Tag}
    (h : ∀ t ∈ tags, ∃ a, as[t.number]? = some a ∧ t = a.openingTag t.number) :
    render as ((tags.map Tag.number).map .closing) = tags.flatMap Tag.otherS := by
  rw [render, List.flatMap_map, List.flatMap_map]
  apply List.flatMap_congr
  intro t ht
  obtain ⟨a, ha, hta⟩ := h t ht
  rw [renderToken, ha, hta]
  rfl

/-- The open tags below those that are entangled with a closing tag; they stay as they are. -/
def below (tag : Tag) (openTags : List Tag) : List Tag := openTags.filter fun t => !decide (t.pos ≥ tag.otherPos)

theorem below_append_entangled {tag : Tag} {openTags : List Tag} (h : openTags.Pairwise fun t u => t.pos ≤ u.pos) :
    below tag openTags ++ entangled tag openTags = openTags := by
  apply filter_not_append_filter
  refine h.imp fun {t u} hle ht => ?_
  exact decide_eq_true (Nat.le_trans (of_decide_eq_true ht) hle)

/-- What is left open when a tag is closed: all below the entangled tags, and the others of these. -/
theorem Ordered.filter_number {as : List Added} {done rest : List Tag} (h : Ordered as (done ++ rest)) {i : Nat}
    {a : Added} (ha : as[i]? = some a) :
    below (a.closingTag i) (stillOpen done) ++
        entangled (a.closingTag i) ((stillOpen done).filter fun t => t.number ≠ i) =
      (stillOpen done).filter fun t => t.number ≠ i := by
  have hbelow : (below (a.closingTag i) (stillOpen done)).filter (fun t => t.number ≠ i) =
      below (a.closingTag i) (stillOpen done) := by
    rw [List.filter_eq_self]
    intro t ht
    rw [below, List.mem_filter] at ht
    refine decide_eq_true fun hn => ?_
    obtain ⟨b, hb, hbt⟩ := h.stillOpen_of ht.1
    rw [hn, ha] at hb
    have hpos : t.pos = a.start := by rw [hbt, ← Option.some.inj hb]; rfl
    simp [hpos, Added.closingTag] at ht
  have hfilter : below (a.closingTag i) ((stillOpen done).filter fun t => t.number ≠ i) =
      below (a.closingTag i) (stillOpen done) := by
    rw [← hbelow, below, below, List.filter_filter, List.filter_filter]
    apply List.filter_congr
    intro t ht
    rw [Bool.and_comm]
  rw [← hfilter]
  exact below_append_entangled (h.stillOpen_sorted.filter _)

/-- The round of an opening tag. -/
theorem Inv.opening {as : List Added} {text : Bytes} {done rest : List Tag} {m : Merging} {i : Nat} {a : Added}
    (ho : Ordered as (done ++ a.openingTag i :: rest)) (ha : as[i]? = some a)
    (h : Inv as text done (a.openingTag i :: rest) m) (hpos : m.pos = a.start) :
    Inv as text (done ++ [a.openingTag i]) rest ⟨m.ret ++ a.openingS, m.pos, m.openTags ++ [a.openingTag i]⟩ := by
  obtain ⟨out, hw⟩ := h.written
  have hnone : ∀ u ∈ done, u.opening = false → u.number ≠ i := by
    intro u hu hopen hn
    subst hn
    have hc := (ho.of u (List.mem_append_left _ hu)).eq_closing ha hopen ▸ hu
    have hdone := ho.opening_done ha hc
    exact (List.nodup_append.mp ho.nodup).2.2 _ hdone _ List.mem_cons_self rfl
  have hopens : stillOpen (done ++ [a.openingTag i]) = stillOpen done ++ [a.openingTag i] :=
    stillOpen_opening rfl hnone
  refine ⟨by rw [h.openTags, hopens], h.le, ?_, fun t ht => h.after t (List.mem_cons_of_mem _ ht), ?_⟩
  · intro t ht
    obtain ht | ht := List.mem_append.mp ht
    · exact h.before t ht
    · rw [List.mem_singleton.mp ht, hpos]
      exact Nat.le_refl _
  · have hrender : a.openingS = render as ([i].map .opening) := by simp [render, renderToken, ha]
    rw [hrender]
    refine ⟨_, hw.append ?_ (plain_openings _) fun j => inside_openings j _ _⟩
    rw [nest_openings]
    simp [Added.openingTag]

/-- The round of a closing tag, where the last open tag is its own. -/
theorem Inv.closing {as : List Added} {text : Bytes} {done rest : List Tag} {m : Merging} {i : Nat} {a : Added}
    (h : Inv as text done (a.closingTag i :: rest) m) (hpos : m.pos = a.stop) {ts : List (Token Nat UInt8)}
    (hnest : Markup.nest (m.openTags.reverse.map Tag.number) ts =
      some (((stillOpen done).filter fun t => t.number ≠ i).reverse.map Tag.number))
    (hplain : Markup.plain ts = [])
    (hinside : ∀ j, Markup.inside j (m.openTags.reverse.map Tag.number) ts = []) :
    Inv as text (done ++ [a.closingTag i]) rest
      ⟨m.ret ++ render as ts, m.pos, (stillOpen done).filter fun t => t.number ≠ i⟩ := by
  obtain ⟨out, hw⟩ := h.written
  have hopens : stillOpen (done ++ [a.closingTag i]) = (stillOpen done).filter fun t => t.number ≠ i :=
    stillOpen_closing rfl
  refine ⟨hopens.symm, h.le, ?_, fun t ht => h.after t (List.mem_cons_of_mem _ ht),
    _, hw.append hnest hplain hinside⟩
  intro t ht
  obtain ht | ht := List.mem_append.mp ht
  · exact h.before t ht
  · rw [List.mem_singleton.mp ht, hpos]
    exact Nat.le_refl _

/-- The last open tag is the one that is closed. -/
theorem Inv.closing_last {as : List Added} {text : Bytes} {done rest : List Tag} {m : Merging} {i : Nat} {a : Added}
    (ho : Ordered as (done ++ a.closingTag i :: rest)) (ha : as[i]? = some a)
    (h : Inv as text done (a.closingTag i :: rest) m) (hpos : m.pos = a.stop) {back : Tag}
    (hlast : m.openTags.getLast? = some back) (hback : back.number = i) :
    Inv as text (done ++ [a.closingTag i]) rest ⟨m.ret ++ a.closingS, m.pos, m.openTags.dropLast⟩ := by
  obtain ⟨init, hinit⟩ := List.getLast?_eq_some_iff.mp hlast
  have hopens : stillOpen done = init ++ [back] := h.openTags ▸ hinit
  have hfilter : ((stillOpen done).filter fun t => t.number ≠ i) = init := by
    have hnone : ∀ t ∈ init, decide (t.number ≠ i) = true := by
      intro t ht
      refine decide_eq_true fun hn => ?_
      have hnodup := ho.stillOpen_nodup
      rw [hopens] at hnodup
      have heq : t = back := by
        obtain ⟨b, hb, ht'⟩ := ho.stillOpen_of (hopens ▸ List.mem_append_left _ ht)
        obtain ⟨c, hc, hback'⟩ := ho.stillOpen_of (hopens ▸ List.mem_append_right _ (List.mem_singleton_self back))
        rw [hn] at hb ht'
        rw [hback] at hc hback'
        rw [ht', hback', Option.some.inj (hb.symm.trans hc)]
      exact (List.nodup_append.mp hnodup).2.2 t ht back (List.mem_singleton_self back) heq
    rw [hopens, List.filter_append, List.filter_eq_self.mpr hnone]
    simp [hback]
  have hrender : a.closingS = render as ([i].map .closing) := by simp [render, renderToken, ha]
  have hdrop : m.openTags.dropLast = (stillOpen done).filter fun t => t.number ≠ i := by
    rw [hfilter, hinit, List.dropLast_concat]
  have hstack : m.openTags.reverse.map Tag.number = [i] ++ init.reverse.map Tag.number := by
    rw [hinit, List.reverse_append, List.map_append]
    simp [hback]
  rw [hrender, hdrop]
  refine h.closing hpos ?_ (plain_closings _) fun j => inside_closings j _ _
  rw [hstack, nest_closings, hfilter]

/-- Other tags are entangled with the one that is closed. -/
theorem Inv.closing_entangled {as : List Added} {text : Bytes} {done rest : List Tag} {m : Merging} {i : Nat}
    {a : Added} (ho : Ordered as (done ++ a.closingTag i :: rest)) (ha : as[i]? = some a)
    (h : Inv as text done (a.closingTag i :: rest) m) (hpos : m.pos = a.stop) :
    Inv as text (done ++ [a.closingTag i]) rest
      ⟨m.ret ++ (entangled (a.closingTag i) m.openTags).reverse.flatMap Tag.otherS ++
        (entangled (a.closingTag i) (m.openTags.filter fun t => t.number ≠ i)).flatMap Tag.s,
        m.pos, m.openTags.filter fun t => t.number ≠ i⟩ := by
  rw [h.openTags]
  have hold : below (a.closingTag i) (stillOpen done) ++ entangled (a.closingTag i) (stillOpen done) =
      stillOpen done := below_append_entangled ho.stillOpen_sorted
  have hnew := ho.filter_number ha
  have hclosings : ∀ t ∈ (entangled (a.closingTag i) (stillOpen done)).reverse,
      ∃ b, as[t.number]? = some b ∧ t = b.openingTag t.number := by
    intro t ht
    rw [List.mem_reverse, entangled, List.mem_filter] at ht
    exact ho.stillOpen_of ht.1
  have hopenings : ∀ t ∈ entangled (a.closingTag i) ((stillOpen done).filter fun t => t.number ≠ i),
      ∃ b, as[t.number]? = some b ∧ t = b.openingTag t.number := by
    intro t ht
    rw [entangled, List.mem_filter, List.mem_filter] at ht
    exact ho.stillOpen_of ht.1.1
  rw [List.append_assoc, ← render_closings hclosings, ← render_openings hopenings, ← render_append]
  have hstack : m.openTags.reverse.map Tag.number =
      (entangled (a.closingTag i) (stillOpen done)).reverse.map Tag.number ++
        (below (a.closingTag i) (stillOpen done)).reverse.map Tag.number := by
    rw [h.openTags, ← List.map_append, ← List.reverse_append, hold]
  have hclosed := @nest_closings Nat UInt8 _ ((below (a.closingTag i) (stillOpen done)).reverse.map Tag.number)
    ((entangled (a.closingTag i) (stillOpen done)).reverse.map Tag.number)
  refine h.closing hpos ?_ ?_ fun j => ?_
  · rw [hstack, nest_append, hclosed, Option.bind_some, nest_openings, ← List.map_reverse, ← List.map_append,
      ← List.reverse_append, hnew]
  · rw [plain_append, plain_closings, plain_openings, List.append_nil]
  · rw [hstack, inside_append hclosed, inside_closings, inside_openings, List.append_nil]

theorem mergeTag_inv {as : List Added} {text : Bytes} {done rest : List Tag} {m : Merging} {tag : Tag}
    (ho : Ordered as (done ++ tag :: rest)) (hle : ∀ a ∈ as, a.start ≤ a.stop ∧ a.stop ≤ text.length)
    (h : Inv as text done (tag :: rest) m) :
    ∃ m', mergeTag text m tag = some m' ∧ Inv as text (done ++ [tag]) rest m' := by
  obtain ⟨a, ha, htag⟩ := ho.of tag (by simp)
  generalize tag.number = i at ha htag
  have hbounds := hle a (List.mem_of_getElem? ha)
  have hpos : m.pos ≤ tag.pos := h.after tag List.mem_cons_self
  have hrest : ∀ t ∈ tag :: rest, tag.pos ≤ t.pos := by
    intro t ht
    obtain rfl | ht := List.mem_cons.mp ht
    · exact Nat.le_refl _
    · exact (List.pairwise_cons.mp (List.pairwise_append.mp ho.sorted).2.1).1 t ht
  have hlen : tag.pos ≤ text.length := by
    obtain rfl | rfl := htag
    · exact Nat.le_trans hbounds.1 hbounds.2
    · exact hbounds.2
  have hadvance := h.advance ho hpos hlen hrest
  rw [mergeTag, Edit.substr_of_le h.le]
  obtain rfl | rfl := htag
  · exact ⟨_, rfl, hadvance.opening ho ha rfl⟩
  · have hopen : i ∈ (stillOpen done).map Tag.number := by
      have hclosing : a.closingTag i ∉ done :=
        fun hc => (List.nodup_append.mp ho.nodup).2.2 _ hc _ List.mem_cons_self rfl
      rw [ho.mem_numbers ha]
      refine ⟨?_, hclosing⟩
      have ho' : Ordered as ((done ++ [a.closingTag i]) ++ rest) := by simpa using ho
      have hdone := ho'.opening_done ha (by simp)
      obtain hdone | hdone := List.mem_append.mp hdone
      · exact hdone
      · exact absurd (List.mem_singleton.mp hdone) (opening_ne_closing a a i i)
    cases hlast : m.openTags.getLast? with
    | none =>
      rw [← h.openTags, List.getLast?_eq_none_iff.mp hlast] at hopen
      exact absurd hopen List.not_mem_nil
    | some back =>
      by_cases hback : back.number = i
      · refine ⟨_, ?_, hadvance.closing_last ho ha rfl hlast hback⟩
        simp [Added.closingTag, hback]
      · refine ⟨_, ?_, hadvance.closing_entangled ho ha rfl⟩
        simp only [Added.closingTag, hback, Option.bind_eq_bind, Option.bind_some, Bool.false_eq_true, if_false]
        rfl

theorem foldlM_inv {as : List Added} {text : Bytes} {done rest : List Tag} {m : Merging}
    (ho : Ordered as (done ++ rest)) (hle : ∀ a ∈ as, a.start ≤ a.stop ∧ a.stop ≤ text.length)
    (h : Inv as text done rest m) :
    ∃ m', rest.foldlM (mergeTag text) m = some m' ∧ Inv as text (done ++ rest) [] m' := by
  induction rest generalizing done m with
  | nil => exact ⟨m, rfl, by rwa [List.append_nil]⟩
  | cons tag rest ih =>
    obtain ⟨m', hm', hinv⟩ := mergeTag_inv ho hle h
    have ho' : Ordered as ((done ++ [tag]) ++ rest) := by simpa using ho
    obtain ⟨m'', hm'', hinv'⟩ := ih ho' hinv
    refine ⟨m'', ?_, by simpa using hinv'⟩
    rw [List.foldlM_cons, hm']
    exact hm''

theorem start_inv (as : List Added) (text : Bytes) (tags : List Tag) : Inv as text [] tags ⟨[], 0, []⟩ := by
  refine ⟨rfl, Nat.zero_le _, fun t h => absurd h List.not_mem_nil, fun t _ => Nat.zero_le _, [], rfl, rfl, rfl, ?_⟩
  intro i a ha
  simp [inText, Markup.inside, escape]

/-- For every text and all tags in it, however they overlap: the output is well nested, without its tags it is the
escaped text, and the text inside the elements of each tag is that from its start to its end. -/
theorem merge_spec (text : Bytes) (as : List Added) (hle : ∀ a ∈ as, a.start ≤ a.stop ∧ a.stop ≤ text.length) :
    ∃ out : List (Token Nat UInt8), merge text (addAll as) = some (render as out) ∧ WellNested out ∧
      plain out = escape text false ∧
      ∀ (i : Nat) (a : Added), as[i]? = some a →
        inside i [] out = escape ((text.drop a.start).take (a.stop - a.start)) false := by
  have ho := ordered_mergeSort (table_addAll as) fun a ha => (hle a ha).1
  obtain ⟨m, hm, hinv⟩ := foldlM_inv (by simpa using ho) hle (start_inv as text _)
  rw [List.nil_append] at hinv
  have hnone : m.openTags = [] := by
    rw [hinv.openTags, List.eq_nil_iff_forall_not_mem]
    intro t ht
    have ho' : Ordered as (((addAll as).mergeSort fun a b => a.pos ≤ b.pos) ++ []) := by simpa using ho
    obtain ⟨a, ha, -⟩ := ho'.stillOpen_of ht
    exact (mem_stillOpen.mp ht).2.2 _ (ho.mem_tags ha).2 rfl rfl
  have hfinal := hinv.advance (by simpa using ho) hinv.le (Nat.le_refl _) fun t ht => absurd ht List.not_mem_nil
  obtain ⟨out, hw⟩ := hfinal.written
  refine ⟨out, ?_, ?_, ?_, ?_⟩
  · rw [merge, hm, ← hw.ret]
    by_cases hpos : m.pos = text.length
    · simp [hpos, escape]
    · simp [hpos, Edit.substr_of_le hinv.le]
  · have hnest := hw.nest
    rw [hnone] at hnest
    exact hnest
  · rw [hw.plain, List.take_length]
  · intro i a ha
    have hstop := (hle a (List.mem_of_getElem? ha)).2
    rw [hw.inside i a ha, inText, Nat.min_eq_left hstop, List.drop_take]

def crossing : List Added := [⟨0, 4, str "i", []⟩, ⟨2, 6, str "b", []⟩, ⟨2, 2, str "u", []⟩]

/-- Two tags that cross, and an empty one. -/
theorem merge_spec_crossing : ∃ out : List (Token Nat UInt8),
    merge (str "ab<>ef") (addAll crossing) = some (render crossing out) ∧ WellNested out ∧
      plain out = escape (str "ab<>ef") false ∧
      ∀ (i : Nat) (a : Added), crossing[i]? = some a →
        inside i [] out = escape (((str "ab<>ef").drop a.start).take (a.stop - a.start)) false :=
  merge_spec (str "ab<>ef") crossing (by decide)

end Dcpp.Tagger
