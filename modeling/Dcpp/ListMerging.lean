import Dcpp.PartialLists

namespace Dcpp.DirectoryListing

open SimpleXMLReader OrderedTree OrderedSet

theorem flatMap_tokens {s : Bytes} {a : UInt8} (h : s = [] ∨ s.getLast? = some a) :
    (tokens s a).flatMap (fun t => t ++ [a]) = s := by
  rcases h with rfl | h
  · rfl
  · obtain ⟨xs, rfl⟩ := List.getLast?_eq_some_iff.mp h
    have hpieces : (xs ++ [a]).splitOn a = xs.splitOn a ++ [[]] := List.splitOn_append_cons_self xs []
    have htokens : tokens (xs ++ [a]) a = xs.splitOn a := by
      simp only [tokens, hpieces, List.getLast?_concat, if_pos, List.dropLast_concat]
    have hflat : ∀ ts : List Bytes, ts.flatMap (fun t => t ++ [a]) = [a].intercalate (ts ++ [[]]) := fun ts => by
      induction ts with
      | nil => rfl
      | cons t ts ih =>
        rw [List.flatMap_cons, ih]
        cases ts <;> simp [List.intercalate]
    rw [htokens, hflat, ← hpieces, List.intercalate_splitOn]

/-- A base is its tokens. -/
theorem baseOf_eq (attribs : StringPairList) :
    PartialList.baseOf attribs = byte '/' ::
      (tokens ((PartialList.baseOf attribs).drop 1) (byte '/')).flatMap fun t => t ++ [byte '/'] := by
  obtain ⟨rest, hb, hrest⟩ : ∃ rest, PartialList.baseOf attribs = byte '/' :: rest ∧
      (rest = [] ∨ rest.getLast? = some (byte '/')) := by
    rw [PartialList.baseOf]
    split
    next h =>
      cases hb : getAttrib attribs (str "Base") 2 with
      | nil =>
        rw [hb] at h
        cases h.1
      | cons b rest =>
        rw [hb] at h
        obtain rfl := Option.some.inj h.1
        refine ⟨rest, rfl, ?_⟩
        cases rest with
        | nil => exact Or.inl rfl
        | cons c rest =>
          rw [List.getLast?_cons_cons] at h
          exact Or.inr h.2
    next => exact ⟨[], rfl, Or.inl rfl⟩
  rw [hb, List.drop_one, List.tail_cons, flatMap_tokens hrest]

theorem baseOf_isPrefix_base {p p' : PartialList} (h : p.base <+: p'.base) :
    PartialList.baseOf p.attribs <+: PartialList.baseOf p'.attribs := by
  rw [baseOf_eq p.attribs, baseOf_eq p'.attribs]
  obtain ⟨ts, hts⟩ := h
  change _ :: p.base.flatMap _ <+: _ :: p'.base.flatMap _
  rw [← hts, List.flatMap_append, ← List.cons_append]
  exact List.prefix_append _ _

variable (less : Bytes → Bytes → Prop) [DecidableRel less]

/-- The sets of the tree are in order. -/
def Ordered (d : Directory) : Prop :=
  WellOrdered less DirectoryNode.name (fun n => OrderedSet.Sorted less File.name n.files) d

def nodeAt (q : List Bytes) (d : Directory) : Option DirectoryNode := labelAt less DirectoryNode.name q d

def fileAt (q : List Bytes) (name : Bytes) (d : Directory) : Option File :=
  (nodeAt less q d).bind fun n => OrderedSet.find less File.name name n.files

/-- The change is one of the file called `name` in `q`. -/
def IsFile (q : List Bytes) (name : Bytes) (c : List Bytes × Change) : Prop :=
  SamePath less q c.1 ∧ ∃ f, c.2 = .file f ∧ Tie less f.name name

/-- The file that a change puts at `name` in `q`. -/
def fileOfChange (q : List Bytes) (name : Bytes) : List Bytes × Change → Option File
  | (p, .file f) => if SamePath less q p ∧ Tie less f.name name then some f else none
  | (_, .complete _) => none

def lastFile (q : List Bytes) (name : Bytes) : Changes → Option File
  | [] => none
  | c :: cs => (lastFile q name cs).or (fileOfChange less q name c)

def completes (q : List Bytes) (cs : Changes) : Bool :=
  cs.any fun c => match c.2 with
    | .complete b => b && decide (SamePath less q c.1)
    | .file _ => false

variable {less}

theorem changeAt_cons (q : List Bytes) (c : List Bytes × Change) (cs : Changes) (n : DirectoryNode) :
    changeAt less q (visits less (c :: cs)) n =
      changeAt less q (visits less cs) (if SamePath less q c.1 then c.2.apply less n else n) := rfl

theorem name_changeAt (q : List Bytes) (cs : Changes) (n : DirectoryNode) :
    (changeAt less q (visits less cs) n).name = n.name := by
  induction cs generalizing n with
  | nil => rfl
  | cons c cs ih =>
    rw [changeAt_cons, ih]
    split
    next => exact name_apply c.2 n
    next => rfl

theorem complete_changeAt (q : List Bytes) (cs : Changes) (n : DirectoryNode) :
    (changeAt less q (visits less cs) n).complete = (n.complete || completes less q cs) := by
  induction cs generalizing n with
  | nil => exact (Bool.or_false _).symm
  | cons c cs ih =>
    obtain ⟨p, c⟩ := c
    rw [changeAt_cons, ih, completes, completes, List.any_cons, ← Bool.or_assoc]
    congr 1
    cases c with
    | file f => split <;> simp [Change.apply, putFile]
    | complete b => split <;> simp_all [Change.apply, orComplete]

theorem lastFile_append (q : List Bytes) (name : Bytes) (cs cs' : Changes) :
    lastFile less q name (cs ++ cs') = (lastFile less q name cs').or (lastFile less q name cs) := by
  induction cs with
  | nil => exact (Option.or_none).symm
  | cons c cs ih => rw [List.cons_append, lastFile, ih, lastFile, Option.or_assoc]

theorem lastFile_eq_none {q : List Bytes} {name : Bytes} {cs : Changes} (h : ∀ c ∈ cs, ¬IsFile less q name c) :
    lastFile less q name cs = none := by
  induction cs with
  | nil => rfl
  | cons c cs ih =>
    have hc : fileOfChange less q name c = none := by
      obtain ⟨p, c⟩ := c
      cases c with
      | complete b => rfl
      | file f => exact if_neg fun hf => h _ List.mem_cons_self ⟨hf.1, f, rfl, hf.2⟩
    rw [lastFile, hc, Option.or_none]
    exact ih fun c' hc' => h c' (List.mem_cons_of_mem _ hc')

theorem changeAt_visits_eq {q : List Bytes} {cs : Changes} (h : ∀ c ∈ cs, ¬SamePath less q c.1) (n : DirectoryNode) :
    changeAt less q (visits less cs) n = n := by
  refine changeAt_eq (fun v hv => ?_) n
  obtain ⟨c, hc, rfl⟩ := List.mem_map.mp hv
  exact h c hc

variable [IsStrictWeakOrder Bytes less]

/-- A file is what was put last, or what was there. -/
theorem find_changeAt (q : List Bytes) (name : Bytes) (cs : Changes) (n : DirectoryNode) :
    OrderedSet.find less File.name name (changeAt less q (visits less cs) n).files =
      (lastFile less q name cs).or (OrderedSet.find less File.name name n.files) := by
  induction cs generalizing n with
  | nil => rfl
  | cons c cs ih =>
    obtain ⟨p, c⟩ := c
    rw [changeAt_cons, ih, lastFile, Option.or_assoc]
    congr 1
    cases c with
    | complete b => split <;> rfl
    | file f =>
      by_cases hp : SamePath less q p
      · rw [if_pos hp, Change.apply, putFile, find_put (Tie.refl f.name), fileOfChange]
        by_cases hf : Tie less f.name name
        · rw [if_pos hf, if_pos (And.intro hp hf), Option.some_or]
        · rw [if_neg hf, if_neg fun h => hf h.2, Option.none_or]
      · rw [if_neg hp, fileOfChange, if_neg fun h => hp h.1, Option.none_or]

theorem sorted_apply (c : Change) {n : DirectoryNode} (h : OrderedSet.Sorted less File.name n.files) :
    OrderedSet.Sorted less File.name (c.apply less n).files := by
  cases c with
  | complete b => exact h
  | file f => exact h.put (Tie.refl f.name)

theorem sorted_changeAt (q : List Bytes) (cs : Changes) {n : DirectoryNode}
    (h : OrderedSet.Sorted less File.name n.files) :
    OrderedSet.Sorted less File.name (changeAt less q (visits less cs) n).files := by
  induction cs generalizing n with
  | nil => exact h
  | cons c cs ih =>
    rw [changeAt_cons]
    split
    next => exact ih (sorted_apply c.2 h)
    next => exact ih h

/-- What was done once is not changed by doing it again. -/
theorem changeAt_changeAt (q : List Bytes) (cs : Changes) {n : DirectoryNode}
    (h : OrderedSet.Sorted less File.name n.files) :
    changeAt less q (visits less cs) (changeAt less q (visits less cs) n) = changeAt less q (visits less cs) n := by
  set n' := changeAt less q (visits less cs) n with hn'
  have hname : (changeAt less q (visits less cs) n').name = n'.name := name_changeAt q cs n'
  have hcomplete : (changeAt less q (visits less cs) n').complete = n'.complete := by
    rw [complete_changeAt, hn', complete_changeAt, Bool.or_assoc, Bool.or_self]
  have hsorted : OrderedSet.Sorted less File.name n'.files := sorted_changeAt q cs h
  have hfiles : (changeAt less q (visits less cs) n').files = n'.files := by
    refine (sorted_changeAt q cs hsorted).ext hsorted fun name => ?_
    rw [find_changeAt, hn', find_changeAt, ← Option.or_assoc, Option.or_self]
  revert hname hcomplete hfiles
  generalize changeAt less q (visits less cs) n' = n''
  intro hname hcomplete hfiles
  obtain ⟨name'', complete'', files''⟩ := n''
  exact (DirectoryNode.mk.injEq ..).mpr ⟨hname, hcomplete, hfiles⟩

theorem ordered_changeAll (cs : Changes) {d : Directory} (h : Ordered less d) : Ordered less (changeAll less cs d) := by
  refine h.visitAll name_newNode (fun _ => List.Pairwise.nil) name_visits fun v hv n hn => ?_
  obtain ⟨c, _, rfl⟩ := List.mem_map.mp hv
  exact sorted_apply c.2 hn

/-- What changes make of every directory is seen there. -/
theorem nodeAt_changeAll (q : List Bytes) (cs : Changes) (d : Directory) :
    nodeAt less q (changeAll less cs d) =
      ((nodeAt less q d).or (newAt less newNode q (cs.map Prod.fst))).map (changeAt less q (visits less cs)) := by
  change labelAt less _ q (visitAll less _ newNode (visits less cs) d) = _
  rw [labelAt_visitAll name_newNode name_visits, visits, List.map_map]
  rfl

variable (less) in
/-- The directories on the way are there under the very names. -/
def Named : List Bytes → Directory → Prop
  | [], _ => True
  | i :: sl, d => ∃ c, child less DirectoryNode.name i d = some c ∧ c.label.name = i ∧ Named sl c

omit [IsStrictWeakOrder Bytes less] in
theorem Named.finds {b : List Bytes} {d : Directory} (h : Named less b d) : Finds less b d := by
  induction b generalizing d with
  | nil => trivial
  | cons i b ih =>
    obtain ⟨c, hc, hname, hrest⟩ := h
    intro c' hc'
    obtain rfl := Option.some.inj (hc.symm.trans hc')
    exact ⟨hname, ih hrest⟩

theorem named_alterAt {b : List Bytes} {d : Directory} (h : Finds less b d) {g : Directory → Directory}
    (hg : ∀ d, (g d).label.name = d.label.name) : Named less b (alterAt less DirectoryNode.name newNode g b d) := by
  induction b generalizing d with
  | nil => trivial
  | cons i b ih =>
    refine ⟨_, ?_, ?_, ih (d := (child less DirectoryNode.name i d).getD (.node (newNode i) [])) ?_⟩
    · rw [alterAt, child_putChild (tie_alterAt name_newNode hg i b d), if_pos (Tie.refl i)]
    · rw [key_alterAt hg]
      cases hc : child less DirectoryNode.name i d with
      | none => rfl
      | some c => exact (h c hc).1
    · cases hc : child less DirectoryNode.name i d with
      | none =>
        rw [Option.getD_none]
        cases b with
        | nil => trivial
        | cons j b =>
          intro c hc
          cases hc
      | some c => exact (h c hc).2

/-- Where the names along `b₁` are the very names, and those along `b₂` are where there are any, a path on the
way to both is the same path. -/
theorem take_eq_take {q b₁ b₂ : List Bytes} {d : Directory} (h₁ : Named less b₁ d) (h₂ : Finds less b₂ d)
    (hq₁ : OnWay less q b₁) (hq₂ : OnWay less q b₂) : b₁.take q.length = b₂.take q.length := by
  induction q generalizing b₁ b₂ d with
  | nil => rfl
  | cons k q ih =>
    cases b₁ with
    | nil => exact hq₁.elim
    | cons i₁ b₁ =>
      cases b₂ with
      | nil => exact hq₂.elim
      | cons i₂ b₂ =>
        obtain ⟨c, hc, hname, hrest⟩ := h₁
        have hsame : child less DirectoryNode.name i₂ d = some c :=
          (find_congr (hq₂.1.trans hq₁.1.symm) d.children).trans hc
        obtain ⟨hname₂, hrest₂⟩ := h₂ c hsame
        rw [List.length_cons, List.take_succ_cons, List.take_succ_cons, ih hrest hrest₂ hq₁.2 hq₂.2, ← hname, hname₂]

/-- Trees with the same nodes are the same. -/
theorem Ordered.ext {d d' : Directory} (h : Ordered less d) (h' : Ordered less d')
    (hnodes : ∀ q, nodeAt less q d = nodeAt less q d') : d = d' := WellOrdered.ext h h' hnodes

omit [IsStrictWeakOrder Bytes less] in
/-- The files of a new node and of those there are in order. -/
theorem sorted_or {q : List Bytes} {ps : List (List Bytes)} {d : Directory} (h : Ordered less d) {n : DirectoryNode}
    (hn : (nodeAt less q d).or (newAt less newNode q ps) = some n) : OrderedSet.Sorted less File.name n.files := by
  cases hq : nodeAt less q d with
  | some n' =>
    rw [hq] at hn
    cases hn
    exact WellOrdered.label h hq
  | none =>
    rw [hq, Option.none_or, newAt] at hn
    obtain ⟨p, _, hp⟩ := List.exists_of_findSome?_eq_some hn
    split at hp
    next =>
      obtain ⟨i, _, rfl⟩ := Option.map_eq_some_iff.mp hp
      exact List.Pairwise.nil
    next => cases hp

theorem changeAll_changeAll (cs : Changes) {d : Directory} (h : Ordered less d) :
    changeAll less cs (changeAll less cs d) = changeAll less cs d := by
  have h₁ := ordered_changeAll cs h
  refine (ordered_changeAll cs h₁).ext h₁ fun q => ?_
  rw [nodeAt_changeAll, nodeAt_changeAll]
  cases hn : (nodeAt less q d).or (newAt less newNode q (cs.map Prod.fst)) with
  | none =>
    rw [Option.map_none, Option.none_or, (Option.or_eq_none_iff.mp hn).2]
    rfl
  | some n =>
    rw [Option.map_some, Option.some_or, Option.map_some, changeAt_changeAt q cs (sorted_or h hn)]

/-- Changes at paths that do not meet can be done in either order. -/
theorem changeAll_comm {cs cs' : Changes} {d : Directory} (h : Ordered less d)
    (hsame : ∀ q, ∀ c ∈ cs, ∀ c' ∈ cs', SamePath less q c.1 → ¬SamePath less q c'.1)
    (hnew : ∀ q n n', newAt less newNode q (cs.map Prod.fst) = some n →
      newAt less newNode q (cs'.map Prod.fst) = some n' → n = n') :
    changeAll less (cs ++ cs') d = changeAll less (cs' ++ cs) d := by
  refine (ordered_changeAll _ h).ext (ordered_changeAll _ h) fun q => ?_
  have hor : newAt less newNode q ((cs ++ cs').map Prod.fst) = newAt less newNode q ((cs' ++ cs).map Prod.fst) := by
    rw [List.map_append, List.map_append, newAt_append, newAt_append]
    cases hn : newAt less newNode q (cs.map Prod.fst) with
    | none => rw [Option.none_or, Option.or_none]
    | some n =>
      cases hn' : newAt less newNode q (cs'.map Prod.fst) with
      | none => rfl
      | some n' => rw [hnew q n n' hn hn']
  have hchange : ∀ n, changeAt less q (visits less (cs ++ cs')) n = changeAt less q (visits less (cs' ++ cs)) n := by
    intro n
    have happ : ∀ cs cs' : Changes, changeAt less q (visits less (cs ++ cs')) n =
        changeAt less q (visits less cs') (changeAt less q (visits less cs) n) := fun cs cs' => by
      rw [visits, List.map_append, changeAt_append]
      rfl
    rw [happ, happ]
    by_cases hc : ∃ c ∈ cs, SamePath less q c.1
    · obtain ⟨c, hc, hq⟩ := hc
      have hnot : ∀ c' ∈ cs', ¬SamePath less q c'.1 := fun c' hc' => hsame q c hc c' hc' hq
      rw [changeAt_visits_eq hnot, changeAt_visits_eq hnot]
    · have hnot : ∀ c ∈ cs, ¬SamePath less q c.1 := fun c hmem hq => hc ⟨c, hmem, hq⟩
      rw [changeAt_visits_eq hnot, changeAt_visits_eq hnot]
  rw [nodeAt_changeAll, nodeAt_changeAll, hor]
  congr 1
  funext n
  exact hchange n

namespace Listing

theorem said_of_live {list : Listing} (hlive : list.abort = false) (p : PartialList) : list.said [p] = p.changes := by
  rw [said, if_neg (by rw [hlive]; exact Bool.false_ne_true), List.flatMap_singleton]

theorem named_update {list : Listing} {p : PartialList} (hlive : list.abort = false)
    (h : Finds less p.base list.root) : Named less p.base (list.update less p).root := by
  rw [update_eq, if_neg (by rw [hlive]; exact Bool.false_ne_true), root_loaded h]
  exact named_alterAt h fun d => name_addAll _ (setComplete d)

theorem root_update_of_abort {list : Listing} (habort : list.abort = true) (p : PartialList) :
    (list.update less p).root = list.root := by
  rw [update_eq, if_pos habort]
  rfl

/-- Once more changes nothing. -/
theorem update_update {list : Listing} (h : Ordered less list.root) {p : PartialList}
    (hfinds : Finds less p.base list.root) : ((list.update less p).update less p).root = (list.update less p).root := by
  by_cases habort : list.abort = true
  · exact root_update_of_abort ((abort_update list p).trans habort) p
  · have hlive := Bool.not_eq_true _ ▸ habort
    have hlive' : (list.update less p).abort = false := (abort_update list p).trans hlive
    rw [root_update (named_update hlive hfinds).finds, root_update hfinds, said_of_live hlive, said_of_live hlive',
      changeAll_changeAll p.changes h]

theorem path_changes {p : PartialList} {c : List Bytes × Change} (hc : c ∈ p.changes) : ∃ r, c.1 = p.base ++ r := by
  rcases List.mem_cons.mp hc with rfl | hc
  · exact ⟨[], (List.append_nil _).symm⟩
  · obtain ⟨e, _, rfl⟩ := List.mem_map.mp hc
    exact ⟨e.path, rfl⟩

omit [IsStrictWeakOrder Bytes less] in
/-- A new node on the way to the base has the name that the base has there. -/
theorem newAt_changes {p : PartialList} {q : List Bytes} (hq : OnWay less q p.base) :
    newAt less newNode q (p.changes.map Prod.fst) = (p.base.take q.length).getLast?.map newNode := by
  rw [PartialList.changes, List.map_cons, newAt, List.findSome?_cons, if_pos hq]
  cases q with
  | nil =>
    refine List.findSome?_eq_none_iff.mpr fun p' _ => ?_
    rw [if_pos (show OnWay less [] p' from trivial)]
    rfl
  | cons k q =>
    have hsome : (((p.base.take (k :: q).length).getLast?).map newNode).isSome = true :=
      isSome_take hq (List.cons_ne_nil k q)
    obtain ⟨n, hn⟩ := Option.isSome_iff_exists.mp hsome
    rw [hn]

/-- Lists whose bases are not prefixes of each other can be loaded in either order. -/
theorem update_comm {list : Listing} (h : Ordered less list.root) {p p' : PartialList}
    (hp : Finds less p.base list.root) (hpp' : Finds less p'.base (list.update less p).root)
    (hp' : Finds less p'.base list.root) (hp'p : Finds less p.base (list.update less p').root)
    (hnot : ¬p.base <+: p'.base) (hnot' : ¬p'.base <+: p.base) :
    ((list.update less p).update less p').root = ((list.update less p').update less p).root := by
  by_cases habort : list.abort = true
  · rw [root_update_of_abort ((abort_update list p).trans habort) p', root_update_of_abort habort,
      root_update_of_abort ((abort_update list p').trans habort) p, root_update_of_abort habort]
  · have hlive := Bool.not_eq_true _ ▸ habort
    have hlive₁ : (list.update less p).abort = false := (abort_update list p).trans hlive
    have hlive₂ : (list.update less p').abort = false := (abort_update list p').trans hlive
    rw [root_update hpp', root_update hp'p, root_update hp, root_update hp', said_of_live hlive, said_of_live hlive,
      said_of_live hlive₁, said_of_live hlive₂, ← changeAll_append, ← changeAll_append]
    have hnamed := named_update hlive hp
    have hfork : ∀ q, ∀ c ∈ p.changes, ∀ c' ∈ p'.changes, OnWay less q c.1 → OnWay less q c'.1 →
        OnWay less q p.base ∧ OnWay less q p'.base := by
      intro q c hc c' hc' hq hq'
      obtain ⟨r, hr⟩ := path_changes hc
      obtain ⟨r', hr'⟩ := path_changes hc'
      rcases onWay_fork (hr ▸ hq) (hr' ▸ hq') with hway | hway | hboth
      · have htake := take_eq_take hnamed hpp' (OnWay.refl p.base) hway
        rw [List.take_length] at htake
        exact absurd (htake ▸ List.take_prefix _ _) hnot
      · have htake := take_eq_take hnamed hpp' hway (OnWay.refl p'.base)
        rw [List.take_length] at htake
        exact absurd (htake ▸ List.take_prefix _ _) hnot'
      · exact hboth
    refine changeAll_comm h (fun q c hc c' hc' hq hq' => ?_) fun q n n' hn hn' => ?_
    · obtain ⟨hb, hb'⟩ := hfork q c hc c' hc' hq.1 hq'.1
      obtain ⟨r, hr⟩ := path_changes hc
      have hlen : q.length = p.base.length := by
        have h₁ := hq.2
        have h₂ := hb.length_le
        rw [hr, List.length_append] at h₁
        omega
      have hway : OnWay less p.base p'.base := SamePath.onWay ⟨hb, hlen⟩ hb'
      have htake := take_eq_take hnamed hpp' (OnWay.refl p.base) hway
      rw [List.take_length] at htake
      exact hnot (htake ▸ List.take_prefix _ _)
    · obtain ⟨path, hpath, hsome⟩ := List.exists_of_findSome?_eq_some hn
      obtain ⟨path', hpath', hsome'⟩ := List.exists_of_findSome?_eq_some hn'
      obtain ⟨c, hc, rfl⟩ := List.mem_map.mp hpath
      obtain ⟨c', hc', rfl⟩ := List.mem_map.mp hpath'
      have hq : OnWay less q c.1 := by
        by_contra hnq
        rw [if_neg hnq] at hsome
        cases hsome
      have hq' : OnWay less q c'.1 := by
        by_contra hnq
        rw [if_neg hnq] at hsome'
        cases hsome'
      obtain ⟨hb, hb'⟩ := hfork q c hc c' hc' hq hq'
      rw [newAt_changes hb, take_eq_take hnamed hpp' hb hb', ← newAt_changes hb'] at hn
      exact Option.some.inj (hn.symm.trans hn')

omit [IsStrictWeakOrder Bytes less] in
theorem allFind_append {list : Listing} {ps qs : List PartialList} :
    AllFind less list (ps ++ qs) ↔ AllFind less list ps ∧ AllFind less (list.updates less ps) qs := by
  induction ps generalizing list with
  | nil => exact (true_and _).symm ▸ Iff.rfl
  | cons p ps ih => rw [List.cons_append, AllFind, AllFind, ih, and_assoc]; rfl

omit [IsStrictWeakOrder Bytes less] in
theorem updates_append (list : Listing) (ps qs : List PartialList) :
    list.updates less (ps ++ qs) = (list.updates less ps).updates less qs := List.foldl_append

theorem ordered_updates {list : Listing} (h : Ordered less list.root) {ps : List PartialList}
    (hfind : AllFind less list ps) : Ordered less (list.updates less ps).root := by
  rw [root_updates hfind]
  exact ordered_changeAll _ h

theorem abort_updates (list : Listing) (ps : List PartialList) : (list.updates less ps).abort = list.abort := by
  induction ps generalizing list with
  | nil => rfl
  | cons p ps ih => exact (ih (list.update less p)).trans (abort_update list p)

end Listing

omit [IsStrictWeakOrder Bytes less] in
theorem completes_iff (q : List Bytes) (cs : Changes) :
    completes less q cs = true ↔ ∃ q', SamePath less q q' ∧ (q', .complete true) ∈ cs := by
  rw [completes, List.any_eq_true]
  constructor
  · rintro ⟨⟨q', c⟩, hc, htrue⟩
    cases c with
    | file f => cases htrue
    | complete b =>
      obtain ⟨rfl, hq⟩ := (Bool.and_eq_true _ _).mp htrue
      exact ⟨q', of_decide_eq_true hq, hc⟩
  · rintro ⟨q', hq, hc⟩
    exact ⟨_, hc, by simpa using hq⟩

variable (less) in
/-- How lists become part of a tree. -/
structure Merging (list : Listing) : Prop where
  /-- A list that loads is read to its end. -/
  loaded : ∀ ps p l, AllFind less list (ps ++ [p]) →
    (list.updates less ps).load less true p.tags.calls = .returned l →
    ∀ e ∈ p.content.items, (p.base ++ e.path, e.toChange) ∈ list.said (ps ++ [p])
  /-- Every file that was read is there, as it was read last. -/
  files : ∀ ps, AllFind less list ps → ∀ q f before after, list.said ps = before ++ (q, .file f) :: after →
    (∀ c ∈ after, ¬IsFile less q f.name c) → fileAt less q f.name (list.updates less ps).root = some f
  otherFiles : ∀ ps, AllFind less list ps → ∀ q name, (∀ c ∈ list.said ps, ¬IsFile less q name c) →
    fileAt less q name (list.updates less ps).root = fileAt less q name list.root
  otherNodes : ∀ ps, AllFind less list ps → ∀ q, (∀ c ∈ list.said ps, ¬OnWay less q c.1) →
    nodeAt less q (list.updates less ps).root = nodeAt less q list.root
  /-- A directory stays, and is complete if it was or if a list says so. -/
  complete : ∀ ps, AllFind less list ps → ∀ q n, nodeAt less q list.root = some n →
    ∃ n', nodeAt less q (list.updates less ps).root = some n' ∧ n'.name = n.name ∧
      (n'.complete = true ↔ n.complete = true ∨ ∃ q', SamePath less q q' ∧ (q', .complete true) ∈ list.said ps)
  twice : ∀ ps p, AllFind less list (ps ++ [p]) →
    (list.updates less (ps ++ [p, p])).root = (list.updates less (ps ++ [p])).root
  swapped : ∀ ps p p', AllFind less list (ps ++ [p, p']) → AllFind less list (ps ++ [p', p]) →
    ¬PartialList.baseOf p.attribs <+: PartialList.baseOf p'.attribs →
    ¬PartialList.baseOf p'.attribs <+: PartialList.baseOf p.attribs →
    (list.updates less (ps ++ [p, p'])).root = (list.updates less (ps ++ [p', p])).root

theorem said_append (list : Listing) (ps qs : List PartialList) :
    list.said (ps ++ qs) = list.said ps ++ list.said qs := by
  rw [Listing.said, Listing.said, Listing.said]
  split
  next => rfl
  next => exact List.flatMap_append

theorem loaded_said {list : Listing} {ps : List PartialList} {p : PartialList} {l : ListLoader}
    (h : (list.updates less ps).load less true p.tags.calls = .returned l) {e : Entry} (he : e ∈ p.content.items) :
    (p.base ++ e.path, e.toChange) ∈ list.said (ps ++ [p]) := by
  have hlive : (list.updates less ps).abort = false := by
    by_contra habort
    have hthrew : (list.updates less ps).load less true p.tags.calls =
        .threw "" (ListLoader.ofListing (list.updates less ps) true) :=
      ListLoader.calls_abort (Bool.not_eq_false _ ▸ habort) (by rw [p.one]; exact List.cons_ne_nil _ _)
    rw [hthrew] at h
    cases h
  obtain ⟨hall, _, _⟩ := ListLoader.calls_returned less p.one rfl hlive h
  rw [Listing.abort_updates] at hlive
  rw [said_append, Listing.said_of_live hlive, PartialList.changes, p.content.read_eq_items hall]
  exact List.mem_append_right _ (List.mem_cons_of_mem _ (List.mem_map.mpr ⟨e, he, rfl⟩))

/-- A file that was put last is there. -/
theorem fileAt_changeAll {cs before after : Changes} {q : List Bytes} {f : File}
    (hcs : cs = before ++ (q, .file f) :: after) (hafter : ∀ c ∈ after, ¬IsFile less q f.name c) (d : Directory) :
    fileAt less q f.name (changeAll less cs d) = some f := by
  have hmem : q ∈ cs.map Prod.fst := by
    rw [hcs]
    exact List.mem_map.mpr ⟨_, List.mem_append_right _ List.mem_cons_self, rfl⟩
  have hsome : ((nodeAt less q d).or (newAt less newNode q (cs.map Prod.fst))).isSome = true := by
    by_cases hq : q = []
    · rw [hq]
      rfl
    · rw [Option.isSome_or, isSome_newAt hq hmem (OnWay.refl q), Bool.or_true]
  obtain ⟨n, hn⟩ := Option.isSome_iff_exists.mp hsome
  have hlast : lastFile less q f.name cs = some f := by
    have hone : lastFile less q f.name [(q, .file f)] = some f :=
      if_pos ⟨SamePath.refl q, Tie.refl f.name⟩
    rw [hcs, ← List.singleton_append, ← List.append_assoc, lastFile_append, lastFile_eq_none hafter, Option.none_or,
      lastFile_append, hone, Option.some_or]
  rw [fileAt, nodeAt_changeAll, hn, Option.map_some, Option.bind_some, find_changeAt, hlast, Option.some_or]

theorem fileAt_changeAll_other {cs : Changes} {q : List Bytes} {name : Bytes}
    (h : ∀ c ∈ cs, ¬IsFile less q name c) (d : Directory) :
    fileAt less q name (changeAll less cs d) = fileAt less q name d := by
  rw [fileAt, nodeAt_changeAll, fileAt]
  cases hn : nodeAt less q d with
  | some n => rw [Option.some_or, Option.map_some, Option.bind_some, find_changeAt, lastFile_eq_none h]; rfl
  | none =>
    rw [Option.none_or, Option.bind_none]
    cases hnew : newAt less newNode q (cs.map Prod.fst) with
    | none => rfl
    | some n =>
      rw [Option.map_some, Option.bind_some, find_changeAt, lastFile_eq_none h]
      obtain ⟨p, _, hp⟩ := List.exists_of_findSome?_eq_some hnew
      split at hp
      next =>
        obtain ⟨i, _, rfl⟩ := Option.map_eq_some_iff.mp hp
        rfl
      next => cases hp

theorem nodeAt_changeAll_other {cs : Changes} {q : List Bytes} (h : ∀ c ∈ cs, ¬OnWay less q c.1) (d : Directory) :
    nodeAt less q (changeAll less cs d) = nodeAt less q d := by
  have hnew : newAt less newNode q (cs.map Prod.fst) = none := newAt_eq_none fun p hp => by
    obtain ⟨c, hc, rfl⟩ := List.mem_map.mp hp
    exact h c hc
  rw [nodeAt_changeAll, hnew, Option.or_none]
  cases nodeAt less q d with
  | none => rfl
  | some n => rw [Option.map_some, changeAt_visits_eq fun c hc hq => h c hc hq.1]

/-- Lists merge into every listing, as long as each finds its base under the very names. -/
theorem merging (list : Listing) (h : Ordered less list.root) : Merging less list where
  loaded _ _ _ _ hload _ he := loaded_said hload he
  files ps hfind q f before after hsaid hafter := by
    rw [Listing.root_updates hfind]
    exact fileAt_changeAll hsaid hafter list.root
  otherFiles ps hfind q name hnot := by
    rw [Listing.root_updates hfind]
    exact fileAt_changeAll_other hnot list.root
  otherNodes ps hfind q hnot := by
    rw [Listing.root_updates hfind]
    exact nodeAt_changeAll_other hnot list.root
  complete ps hfind q n hn := by
    refine ⟨changeAt less q (visits less (list.said ps)) n, ?_, name_changeAt q _ n, ?_⟩
    · rw [Listing.root_updates hfind, nodeAt_changeAll, hn]
      rfl
    · rw [complete_changeAt, Bool.or_eq_true, completes_iff]
  twice ps p hfind := by
    obtain ⟨hps, hp, _⟩ := Listing.allFind_append.mp hfind
    rw [Listing.updates_append, Listing.updates_append]
    exact Listing.update_update (Listing.ordered_updates h hps) hp
  swapped ps p p' hfind hfind' hnot hnot' := by
    obtain ⟨hps, hp, hpp', _⟩ := Listing.allFind_append.mp hfind
    obtain ⟨_, hp', hp'p, _⟩ := Listing.allFind_append.mp hfind'
    rw [Listing.updates_append, Listing.updates_append]
    exact Listing.update_comm (Listing.ordered_updates h hps) hp hpp' hp' hp'p (fun hpre => hnot (baseOf_isPrefix_base hpre))
      fun hpre => hnot' (baseOf_isPrefix_base hpre)

/-- A list of one file in the directory a. -/
def fileInA : PartialList where
  tags := .element (str "FileListing") [(str "Base", str "/a/")]
    (.simple (str "File") [(str "Name", str "x"), (str "Size", str "1"), (str "TTH", str "A")] .nil) .nil
  attribs := [(str "Base", str "/a/")]
  content := .simple (str "File") [(str "Name", str "x"), (str "Size", str "1"), (str "TTH", str "A")] .nil
  one := rfl

/-- A tree with one directory in its root. -/
def oneDirectory (name : Bytes) : Listing := ⟨[], false, .node ⟨[], false, []⟩ [.node ⟨name, true, []⟩ []]⟩

theorem ordered_oneDirectory (f : UInt8 → Nat) (name : Bytes) : Ordered (lessBy f) (oneDirectory name).root := by
  refine Tree.All.node ⟨List.Pairwise.nil, List.pairwise_singleton _ _⟩ fun c hc => ?_
  obtain rfl := List.mem_singleton.mp hc
  exact Tree.All.node ⟨List.Pairwise.nil, List.Pairwise.nil⟩ fun _ hc => nomatch hc

theorem merging_oneDirectory :
    (fileAt (lessBy UInt8.toNat) [str "a"] (str "x")
      ((oneDirectory (str "a")).updates (lessBy UInt8.toNat) [fileInA]).root).map File.size = some 1 := by
  have hfind : AllFind (lessBy UInt8.toNat) (oneDirectory (str "a")) [fileInA] :=
    ⟨fun c hc => ⟨by cases hc; rfl, trivial⟩, trivial⟩
  rw [(merging (oneDirectory (str "a")) (ordered_oneDirectory UInt8.toNat (str "a"))).files [fileInA] hfind [str "a"]
    ⟨str "x", 1, Encoder.HashValue.ofBase32 (str "A")⟩ [([str "a"], .complete true)] [] rfl fun c hc => nomatch hc]
  rfl

/-- Capital letters count as small ones. -/
def caseless (b : UInt8) : Nat := if byte 'A' ≤ b ∧ b ≤ byte 'Z' then b.toNat + 32 else b.toNat

/-- The file of a list for the directory a is not in the tree when that has a directory A, which ties with a. -/
theorem not_merging :
    ¬∀ (list : Listing) (ps : List PartialList), Ordered (lessBy caseless) list.root →
      ∀ q f before after, list.said ps = before ++ (q, .file f) :: after →
        (∀ c ∈ after, ¬IsFile (lessBy caseless) q f.name c) →
        fileAt (lessBy caseless) q f.name (list.updates (lessBy caseless) ps).root = some f := by
  intro h
  have hfile := h (oneDirectory (str "A")) [fileInA] (ordered_oneDirectory caseless (str "A")) [str "a"]
    ⟨str "x", 1, Encoder.HashValue.ofBase32 (str "A")⟩ [([str "a"], .complete true)] [] rfl fun c hc => nomatch hc
  have hnone : (fileAt (lessBy caseless) [str "a"] (str "x")
      ((oneDirectory (str "A")).updates (lessBy caseless) [fileInA]).root).isSome = false := by
    decide +kernel
  rw [hfile] at hnone
  cases hnone

end Dcpp.DirectoryListing
