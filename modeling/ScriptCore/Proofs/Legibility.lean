import ScriptCore.Proofs.Encoding
import ScriptCore.Proofs.Printing
import ScriptCore.Proofs.WriterDomain

/-!
# Texts tell values apart

Values without cycles that are built from integers, truth values and texts print as the same text if and only if they
are equal (`repr_eq_iff_equal`), though a text may hold quotation marks, brackets and blanks, or read `nil`.

What is printed of a tree is `display`. It has no more of the kinds of cells than `heads` has, since the brackets of a
list tell the kind of its first cell. The texts are unambiguous because each part tells where it ends: a word goes on to
the next blank or bracket, a quoted text to the next mark without a backslash, a list to its own bracket. So where the
texts of two trees begin one text, the trees have the same heads, and the same is left behind both (`display_inj`).

* `escape_flatMap_inj`: quoted texts are unambiguous.
* `toList_repr`: a value prints as the tree that it unfolds to.
* `equal_iff_heads`: equality compares the heads of trees.
-/
namespace ScriptCore

/-! ## Words -/

theorem repr_inj {m n : Nat} (h : m.repr = n.repr) : m = n := by
  have hdigits := congrArg (fun text => Nat.ofDigitChars 10 text.toList 0) h
  simpa using hdigits

theorem sign_notMem_repr (n : Nat) : '-' ∉ n.repr.toList := by
  intro h
  exact absurd (isDigit_of_mem_repr h) (by decide)

theorem toString_inj {i j : Int} (h : toString i = toString j) : i = j := by
  simp only [Int.toString_eq_repr, Int.repr_eq_if] at h
  split at h <;> split at h
  · have hnat := repr_inj h
    omega
  · exact absurd (by simp [h]) (sign_notMem_repr i.toNat)
  · exact absurd (by simp [← h]) (sign_notMem_repr j.toNat)
  · have hnat := repr_inj (String.append_right_inj _ |>.mp h)
    omega

theorem toList_toString_ne_nil (i : Int) : (toString i).toList ≠ [] := by
  rw [Int.toString_eq_repr, Int.repr_eq_if]
  split <;> simp

/-- The characters of words: letters, digits and the sign. -/
def isWordChar (c : Char) : Bool :=
  c.isAlphanum || c = '-'

/-- The text stops a word: it is empty or does not go on with a character of a word. -/
def StopsWord (rest : List Char) : Prop :=
  ∀ c ∈ rest.head?, isWordChar c = false

/-- A word ends where no character of a word follows. -/
theorem word_inj {w w' r r' : List Char} (hw : ∀ c ∈ w, isWordChar c = true) (hw' : ∀ c ∈ w', isWordChar c = true)
    (hr : StopsWord r) (hr' : StopsWord r') (h : w ++ r = w' ++ r') : w = w' ∧ r = r' := by
  induction w generalizing w' with
  | nil =>
    cases w' with
    | nil => exact ⟨rfl, h⟩
    | cons c w' =>
      rw [List.nil_append] at h
      have hc := hr c (by simp [h])
      rw [hw' c (by simp)] at hc
      cases hc
  | cons c w ih =>
    cases w' with
    | nil =>
      rw [List.nil_append] at h
      have hc := hr' c (by simp [← h])
      rw [hw c (by simp)] at hc
      cases hc
    | cons c' w' =>
      rw [List.cons_append, List.cons_append, List.cons.injEq] at h
      obtain ⟨rfl, hrest⟩ := ih (fun d hd => hw d (by simp [hd])) (fun d hd => hw' d (by simp [hd])) h.2
      exact ⟨by rw [h.1], hrest⟩

/-! ## Quoted texts -/

theorem escape_inj {c c' : Char} {u u' : List Char} (h : escape c ++ u = escape c' ++ u') : c = c' ∧ u = u' := by
  unfold escape at h
  split at h <;> split at h <;> grind

theorem escape_ne_mark {c : Char} {u r : List Char} : escape c ++ u ≠ '"' :: r := by
  unfold escape
  split <;> grind

theorem escape_flatMap_inj {t t' r r' : List Char}
    (h : t.flatMap escape ++ '"' :: r = t'.flatMap escape ++ '"' :: r') : t = t' ∧ r = r' := by
  induction t generalizing t' with
  | nil =>
    cases t' with
    | nil => simpa using h
    | cons c t' =>
      rw [List.flatMap_nil, List.nil_append, List.flatMap_cons, List.append_assoc] at h
      exact absurd h.symm escape_ne_mark
  | cons c t ih =>
    cases t' with
    | nil =>
      rw [List.flatMap_nil, List.nil_append, List.flatMap_cons, List.append_assoc] at h
      exact absurd h escape_ne_mark
    | cons c' t' =>
      rw [List.flatMap_cons, List.flatMap_cons, List.append_assoc, List.append_assoc] at h
      obtain ⟨rfl, hrest⟩ := escape_inj h
      obtain ⟨rfl, hr⟩ := ih hrest
      exact ⟨rfl, hr⟩

/-! ## Texts of trees -/

/-- Data that is written in a way of its own, as symbols are not: their names may read like anything else. -/
def Datum.Literal : Datum → Prop
  | .symbol _ => False
  | _ => True

/-- The text can follow the text of a tree: an element of a list ends at a blank or a bracket, a list at a bracket. -/
def Place.Follows : Place → List Char → Prop
  | .first, rest => ∀ c ∈ rest.head?, c = ' ' ∨ c = ')' ∨ c = '\x7d'
  | .second, rest => ∃ c r, rest = c :: r ∧ (c = ')' ∨ c = '\x7d')

namespace Tree

variable {p : Place} {x y : Tree p} {r r' : List Char}

/-- The text of a tree. In a second slot a list goes on. -/
def display : {p : Place} → Tree p → List Char
  | .first, .nil => ['n', 'i', 'l']
  | .second, .nil => []
  | .first, .leaf d => d.display.toList
  | .first, .cell kind car cdr =>
    kind.brackets.1.toList ++ (car.display ++ (cdr.display ++ kind.brackets.2.toList))
  | .second, .cell _ car cdr => ' ' :: (car.display ++ cdr.display)

/-- All leaves are literal. -/
def Literal {p : Place} : Tree p → Prop
  | .nil => True
  | .leaf d => d.Literal
  | .cell _ car cdr => car.Literal ∧ cdr.Literal

/-- What is shown of a tree is what comparing sees of it. -/
theorem display_heads (x : Tree p) : x.heads.display = x.display := by
  induction x with
  | @nil p => cases p <;> rfl
  | leaf d => rfl
  | @cell p kind car cdr ihcar ihcdr =>
    cases p <;> simp only [heads, display, Place.seen, ihcar, ihcdr]

/-- The trees that are shown as words. -/
inductive IsWord : Tree .first → Prop
  | nil : IsWord .nil
  | integer (n : Int64) : IsWord (.leaf (.integer n))
  | boolean (b : Bool) : IsWord (.leaf (.boolean b))

theorem Literal.cases {x : Tree .first} (h : x.Literal) :
    x.IsWord ∨ (∃ t, x = .leaf (.text t)) ∨ ∃ kind car cdr, x = .cell kind car cdr := by
  cases x with
  | nil => exact .inl .nil
  | leaf d =>
    cases d with
    | integer n => exact .inl (.integer n)
    | boolean b => exact .inl (.boolean b)
    | text t => exact .inr (.inl ⟨t, rfl⟩)
    | symbol name => cases h
  | cell kind car cdr => exact .inr (.inr ⟨kind, car, cdr, rfl⟩)

theorem IsWord.chars {x : Tree .first} (h : x.IsWord) : ∀ c ∈ x.display, isWordChar c = true := by
  cases h with
  | nil => simp [display, isWordChar]
  | integer n =>
    intro c hc
    rcases mem_toString hc with h | h <;> simp [isWordChar, Char.isAlphanum, h]
  | boolean b => cases b <;> simp [display, Datum.display, isWordChar]

theorem IsWord.exists_cons {x : Tree .first} (h : x.IsWord) :
    ∃ c w, x.display = c :: w ∧ isWordChar c = true := by
  have hne : x.display ≠ [] := by
    cases h with
    | nil => simp [display]
    | integer n => exact toList_toString_ne_nil _
    | boolean b => cases b <;> simp [display, Datum.display]
  obtain ⟨c, w, hcw⟩ := List.exists_cons_of_ne_nil hne
  exact ⟨c, w, hcw, h.chars c (by simp [hcw])⟩

/-- A number has no letter in it. -/
theorem letter_notMem_integer {c : Char} (hc : c ∈ ['n', 't', 'f']) (n : Int64) :
    c ∉ (Tree.leaf (.integer n)).display := by
  intro h
  rcases mem_toString h with rfl | h
  · simp at hc
  · simp only [List.mem_cons, List.not_mem_nil, or_false] at hc
    rcases hc with rfl | rfl | rfl <;> simp at h

theorem IsWord.eq_integer {x : Tree .first} (hx : x.IsWord) {n : Int64}
    (h : x.display = (Tree.leaf (.integer n)).display) : x = .leaf (.integer n) := by
  have hletter := @letter_notMem_integer
  cases hx with
  | nil => exact absurd (h ▸ by simp [display]) (hletter (c := 'n') (by simp) n)
  | integer m =>
    have htext : toString m.toInt = toString n.toInt := String.toList_inj.mp h
    rw [Int64.toInt_inj.mp (toString_inj htext)]
  | boolean b =>
    cases b
    · exact absurd (h ▸ by simp [display, Datum.display]) (hletter (c := 'f') (by simp) n)
    · exact absurd (h ▸ by simp [display, Datum.display]) (hletter (c := 't') (by simp) n)

theorem IsWord.eq {x y : Tree .first} (hx : x.IsWord) (hy : y.IsWord) (h : x.display = y.display) : x = y := by
  cases hy with
  | integer n => exact hx.eq_integer h
  | nil =>
    cases hx with
    | integer n => exact (IsWord.nil.eq_integer h.symm).symm
    | nil => rfl
    | boolean b => cases b <;> simp [display, Datum.display] at h
  | boolean b =>
    cases hx with
    | integer n => exact ((IsWord.boolean b).eq_integer h.symm).symm
    | nil => cases b <;> simp [display, Datum.display] at h
    | boolean b' => cases b <;> cases b' <;> simp [display, Datum.display] at h ⊢

theorem stopsWord_of_follows (h : Place.first.Follows r) : StopsWord r := by
  intro c hc
  rcases h c hc with rfl | rfl | rfl <;> decide

theorem exists_bracket (kind : CellKind) (car : Tree .first) (cdr : Tree .second) :
    ∃ c w, (Tree.cell (p := .first) kind car cdr).display = c :: w ∧ (c = '(' ∨ c = '\x7b') := by
  cases kind
  · exact ⟨'(', _, rfl, .inl rfl⟩
  · exact ⟨'\x7b', _, rfl, .inr rfl⟩

theorem display_text (t : String) :
    (Tree.leaf (.text t)).display = '"' :: (t.toList.flatMap escape ++ ['"']) := by
  simp [display, Datum.display, quote]

/-- A word begins no other text than its own. -/
theorem IsWord.display_inj {x y : Tree .first} (hx : x.IsWord) (hy : y.Literal) (hr : Place.first.Follows r)
    (hr' : Place.first.Follows r') (h : x.display ++ r = y.display ++ r') : x = y ∧ r = r' := by
  obtain ⟨c, w, hcw, hc⟩ := hx.exists_cons
  rcases hy.cases with hy | ⟨t, rfl⟩ | ⟨kind, car, cdr, rfl⟩
  · obtain ⟨heq, hrest⟩ := word_inj hx.chars hy.chars (stopsWord_of_follows hr) (stopsWord_of_follows hr') h
    exact ⟨hx.eq hy heq, hrest⟩
  · rw [hcw, display_text, List.cons_append, List.cons_append, List.cons.injEq] at h
    rw [h.1] at hc
    simp [isWordChar] at hc
  · obtain ⟨b, w', hbw, hb⟩ := exists_bracket kind car cdr
    rw [hcw, hbw, List.cons_append, List.cons_append, List.cons.injEq] at h
    rw [h.1] at hc
    rcases hb with rfl | rfl <;> simp [isWordChar] at hc

/-- Nor does a quoted text. -/
theorem text_display_inj {t : String} {y : Tree .first} (hy : y.Literal) (hr : Place.first.Follows r)
    (hr' : Place.first.Follows r') (h : (Tree.leaf (.text t)).display ++ r = y.display ++ r') :
    Tree.leaf (.text t) = y ∧ r = r' := by
  rcases hy.cases with hy | ⟨t', rfl⟩ | ⟨kind, car, cdr, rfl⟩
  · obtain ⟨heq, hrest⟩ := hy.display_inj (y := .leaf (.text t)) trivial hr' hr h.symm
    exact ⟨heq.symm, hrest.symm⟩
  · simp only [display_text, List.cons_append, List.append_assoc, List.cons.injEq, true_and, List.nil_append] at h
    obtain ⟨heq, hrest⟩ := escape_flatMap_inj h
    rw [String.toList_inj.mp heq]
    exact ⟨rfl, hrest⟩
  · obtain ⟨b, w', hbw, hb⟩ := exists_bracket kind car cdr
    rw [display_text, hbw, List.cons_append, List.cons_append, List.cons.injEq] at h
    rcases hb with rfl | rfl <;> simp at h

theorem follows_display (cdr : Tree .second) (h : Place.second.Follows r) : Place.first.Follows (cdr.display ++ r) := by
  intro c hc
  cases cdr with
  | nil =>
    obtain ⟨b, rest, rfl, hb⟩ := h
    simp only [display, List.nil_append, List.head?_cons, Option.mem_some_iff] at hc
    exact .inr (hc ▸ hb)
  | cell kind x y =>
    simp only [display, List.cons_append, List.head?_cons, Option.mem_some_iff] at hc
    exact .inl hc.symm

theorem follows_closing (kind : CellKind) (r : List Char) : Place.second.Follows (kind.brackets.2.toList ++ r) := by
  cases kind
  · exact ⟨')', r, rfl, .inl rfl⟩
  · exact ⟨'\x7d', r, rfl, .inr rfl⟩

/-- Where the texts of two trees begin one text, the trees have the same heads and the same is left behind both. The
induction is along the first tree: each part ends where the other one's does, so the next parts begin at one place. -/
theorem display_inj (hx : x.Literal) (hy : y.Literal) (hr : p.Follows r) (hr' : p.Follows r')
    (h : x.display ++ r = y.display ++ r') : x.heads = y.heads ∧ r = r' := by
  induction x generalizing r r' with
  | @nil p =>
    cases p with
    | first =>
      obtain ⟨rfl, hrest⟩ := IsWord.nil.display_inj hy hr hr' h
      exact ⟨rfl, hrest⟩
    | second =>
      cases y with
      | nil => exact ⟨rfl, h⟩
      | cell kind car cdr =>
        obtain ⟨b, rest, rfl, hb⟩ := hr
        simp only [display, List.nil_append, List.cons_append, List.cons.injEq] at h
        rcases hb with rfl | rfl <;> simp at h
  | leaf d =>
    rcases hx.cases with hx | ⟨t, ht⟩ | ⟨_, _, _, hcell⟩
    · obtain ⟨rfl, hrest⟩ := hx.display_inj hy hr hr' h
      exact ⟨rfl, hrest⟩
    · cases ht
      obtain ⟨rfl, hrest⟩ := text_display_inj hy hr hr' h
      exact ⟨rfl, hrest⟩
    · cases hcell
  | @cell p kind car cdr ihcar ihcdr =>
    cases p with
    | first =>
      rcases hy.cases with hy | ⟨t, rfl⟩ | ⟨kind', car', cdr', rfl⟩
      · obtain ⟨rfl, hrest⟩ := hy.display_inj hx hr' hr h.symm
        exact ⟨rfl, hrest.symm⟩
      · obtain ⟨heq, hrest⟩ := text_display_inj hx hr' hr h.symm
        cases heq
      · simp only [display, List.append_assoc] at h
        have hkind : kind = kind' := by
          cases kind <;> cases kind' <;> simp [CellKind.brackets] at h ⊢
        subst hkind
        obtain ⟨hcar, hrest⟩ := ihcar hx.1 hy.1 (follows_display _ (follows_closing _ _))
          (follows_display _ (follows_closing _ _)) (List.append_cancel_left h)
        obtain ⟨hcdr, hrest⟩ := ihcdr hx.2 hy.2 (follows_closing _ _) (follows_closing _ _) hrest
        exact ⟨by rw [heads, heads, hcar, hcdr], List.append_cancel_left hrest⟩
    | second =>
      cases y with
      | nil =>
        obtain ⟨b, rest, rfl, hb⟩ := hr'
        simp only [display, List.nil_append, List.cons_append, List.cons.injEq] at h
        rcases hb with rfl | rfl <;> simp at h
      | cell kind' car' cdr' =>
        simp only [display, List.cons_append, List.append_assoc, List.cons.injEq, true_and] at h
        obtain ⟨hcar, hrest⟩ := ihcar hx.1 hy.1 (follows_display _ hr) (follows_display _ hr') h
        obtain ⟨hcdr, hrest⟩ := ihcdr hx.2 hy.2 hr hr' hrest
        exact ⟨by rw [heads, heads, hcar, hcdr]; rfl, hrest⟩

end Tree

namespace Store

open Chain Relation

variable {s : Store} {v w : Value} {n : Nat} {busy : List CellId} {rs qs : List Ref}

/-- All atoms that can be reached from the value hold integers, truth values or texts. -/
def Literal (s : Store) (v : Value) : Prop :=
  ∀ a, s.Reaches v (.atom a) → ∃ d, s.atom a = .datum d ∧ d.Literal

theorem Literal.core (h : s.Literal v) : s.Core v := by
  intro a ha
  obtain ⟨d, hd, -⟩ := h a ha
  exact ⟨d, hd⟩

theorem Literal.tree {p : Place} {x : Tree p} (h : s.Literal v) (hx : s.Unfolds v x rs) : x.Literal := by
  induction hx with
  | nil => trivial
  | @leaf a d ha =>
    obtain ⟨d', hd', hlit⟩ := h a (Reaches.refl s _)
    rw [ha] at hd'
    cases hd'
    exact hlit
  | cell _ _ ihx ihy => exact ⟨ihx fun a ha => h a ha.of_car, ihy fun a ha => h a ha.of_cdr⟩

theorem Literal.unfolds (h : s.Literal v) (hv : s.Covers v) (ha : s.Acyclic v) :
    ∃ (x : Tree .first) (rs : List Ref), s.Unfolds v x rs := by
  obtain ⟨n, hn⟩ := exists_hasDepth hv ha
  obtain ⟨x, rs, hx, -⟩ := unfolds_of_hasDepth hn h.core .first (by rintro ⟨⟩)
  exact ⟨x, rs, hx⟩

/-! ## Values print as their trees -/

/-- What is printed of a value is the text of a tree. Of a chain in a second slot the further elements are printed, with
a blank in front of each. -/
def PrintsAs (s : Store) (n : Nat) (busy : List CellId) : (p : Place) → Value → Tree p → Prop
  | .first, v, x => x.depth ≤ n → (s.shown n busy v).toList = x.display
  | .second, v, y => y.depth ≤ n + 1 → ∀ link, v = .ofLink link → ∃ l, EndsBehind s.next link l ∧
      l.flatMap (fun d => ' ' :: (s.shown n busy (s.cell d).car).toList) = y.display

/-- The first cell of a list is not met inside it, so it is printed as its elements. -/
theorem toList_shown_list {c : CellId} {l : List CellId} (hc : c ∉ busy) (hl : EndsBehind s.next (s.cell c).cdr l) :
    (s.shown (n + 1) busy (some (.cell c))).toList =
      (s.cell c).kind.brackets.1.toList ++ ((s.shown n (c :: busy) (s.cell c).car).toList ++
        (l.flatMap (fun d => ' ' :: (s.shown n (c :: busy) (s.cell d).car).toList) ++
          (s.cell c).kind.brackets.2.toList)) := by
  have hends : Ends s.next c (c :: l) := ends_cons_iff.mpr ⟨rfl, hl⟩
  rw [shown_cell hc, toList_listText, cyclic_of_ends hends, elements, spine_of_ends hends]
  simp [intercalate_cons, List.flatMap_map]

/-- No cell that is met inside a value without cycles is being printed already. -/
theorem printsAs_of_unfolds {p : Place} {x : Tree p} (h : s.Unfolds v x rs)
    (hbusy : ∀ d ∈ busy, ¬ s.Reaches v (.cell d)) : s.PrintsAs n busy p v x := by
  induction h generalizing n busy with
  | @nil p =>
    cases p with
    | first => exact fun _ => by rw [shown_nil]; rfl
    | second =>
      intro _ link hlink
      cases link <;> cases hlink
      exact ⟨[], rfl, rfl⟩
  | @leaf a d ha =>
    intro hn
    obtain ⟨m, rfl⟩ : ∃ m, n = m + 1 := ⟨n - 1, by simp only [Tree.depth] at hn; omega⟩
    rw [shown_atom, ha]
    rfl
  | @cell p c x y xs ys hx hy ihx ihy =>
    have hcar : ∀ d ∈ busy, ¬ s.Reaches (s.cell c).car (.cell d) := fun d hd hr => hbusy d hd hr.of_car
    have hcdr : ∀ d ∈ busy, ¬ s.Reaches (.ofLink (s.cell c).cdr) (.cell d) := fun d hd hr => hbusy d hd hr.of_cdr
    cases p with
    | first =>
      intro hn
      simp only [Tree.depth] at hn
      obtain ⟨m, rfl⟩ : ∃ m, n = m + 1 := ⟨n - 1, by omega⟩
      have hself : ¬ TransGen s.Link (.cell c) (.cell c) :=
        (Unfolds.cell (p := .first) hx hy).acyclic _ (Reaches.refl s _)
      have hcar' : ¬ s.Reaches (s.cell c).car (.cell c) := by
        rintro ⟨q, hq, hqc⟩
        exact hself (.head' (.car hq) hqc)
      have hcdr' : ¬ s.Reaches (.ofLink (s.cell c).cdr) (.cell c) := by
        rintro ⟨q, hq, hqc⟩
        obtain ⟨d, hd, rfl⟩ := ofLink_eq_some.mp hq
        exact hself (.head' (.cdr hd) hqc)
      have hhead : (s.shown m (c :: busy) (s.cell c).car).toList = x.display :=
        ihx (List.forall_mem_cons.mpr ⟨hcar', hcar⟩) (by omega)
      obtain ⟨l, hl, hrest⟩ := ihy (n := m) (List.forall_mem_cons.mpr ⟨hcdr', hcdr⟩) (by omega) _ rfl
      rw [toList_shown_list (fun h => hbusy c h (Reaches.refl s _)) hl, hhead, hrest]
      rfl
    | second =>
      intro hn link hlink
      simp only [Tree.depth] at hn
      cases link <;> cases hlink
      have hhead : (s.shown n busy (s.cell c).car).toList = x.display := ihx hcar (by omega)
      obtain ⟨l, hl, hrest⟩ := ihy (n := n) hcdr (by omega) _ rfl
      refine ⟨c :: l, ends_cons_iff.mpr ⟨rfl, hl⟩, ?_⟩
      rw [List.flatMap_cons, hrest, hhead]
      rfl

theorem toList_repr {x : Tree .first} (h : s.Unfolds v x rs) : (s.repr v).toList = x.display := by
  have hlarge : (s.shown (max s.printDepth x.depth) [] v).toList = x.display :=
    printsAs_of_unfolds h (by simp) (Nat.le_max_right _ _)
  rw [← hlarge]
  cases v with
  | none => rw [shown_nil]; rfl
  | some r =>
    have hground : s.Grounded (some r) := grounded_of_data fun _ => h.data
    have hlevels := s.levels_lt_printDepth ([], r)
    have hstable := shown_stable (n := s.printDepth) (m := max s.printDepth x.depth) hground hlevels (by omega)
    rw [← hstable]
    rfl

/-! ## Equal values have the same heads, and the other way round -/

/-- Two values unfold, through objects that exist, to trees with the same heads. -/
def SameHeads (s : Store) (v w : Value) : Prop :=
  ∃ (x y : Tree .first) (rs qs : List Ref), s.Unfolds v x rs ∧ s.Unfolds w y qs ∧ (∀ r ∈ rs, s.Has r) ∧
    (∀ r ∈ qs, s.Has r) ∧ x.heads = y.heads

/-- The induction is along the rest of the first list; the other one is as long, since the heads are the same. -/
theorem sameHeads_chains {link link' : Option CellId} {y y' : Tree .second} {rs qs : List Ref}
    (hy : s.Unfolds (.ofLink link) y rs) (hy' : s.Unfolds (.ofLink link') y' qs) (hrs : ∀ r ∈ rs, s.Has r) (hqs : ∀ r ∈ qs, s.Has r)
    (h : y.heads = y'.heads) :
    ∃ l l', EndsBehind s.next link l ∧ EndsBehind s.next link' l' ∧
      List.Forall₂ (fun c d => s.SameHeads (s.cell c).car (s.cell d).car) l l' := by
  cases y with
  | nil =>
    cases y' with
    | nil =>
      cases link <;> cases hy
      cases link' <;> cases hy'
      exact ⟨[], [], rfl, rfl, .nil⟩
    | cell => simp [Tree.heads] at h
  | cell kind car cdr =>
    cases y' with
    | nil => simp [Tree.heads] at h
    | cell kind' car' cdr' =>
      cases link with
      | none => cases hy
      | some c =>
        cases link' with
        | none => cases hy'
        | some d =>
          cases hy with
          | cell hx hy =>
            cases hy' with
            | cell hx' hy' =>
              simp only [Tree.heads, Tree.cell.injEq] at h
              simp only [List.forall_mem_cons, List.forall_mem_append] at hrs hqs
              obtain ⟨l, l', hl, hl', hall⟩ := sameHeads_chains hy hy' hrs.2.2 hqs.2.2 h.2.2
              exact ⟨c :: l, d :: l', ends_cons_iff.mpr ⟨rfl, hl⟩, ends_cons_iff.mpr ⟨rfl, hl'⟩,
                .cons ⟨_, _, _, _, hx, hx', hrs.2.1, hqs.2.1, h.2.1⟩ hall⟩

theorem sameHeads_bisimulation (s : Store) : s.Bisimulation s.SameHeads := by
  rintro v w ⟨x, y, rs, qs, hx, hy, hrs, hqs, h⟩
  cases hx with
  | nil =>
    cases hy with
    | nil => exact .same none
    | leaf | cell => simp [Tree.heads] at h
  | leaf ha =>
    cases hy with
    | nil | cell => simp [Tree.heads] at h
    | leaf hb =>
      simp only [Tree.heads, Tree.leaf.injEq] at h
      exact .datum ha (h ▸ hb)
  | cell hx hx' =>
    cases hy with
    | nil | leaf => simp [Tree.heads] at h
    | cell hy hy' =>
      simp only [Tree.heads, Tree.cell.injEq, Place.seen] at h
      simp only [List.forall_mem_cons, List.forall_mem_append] at hrs hqs
      obtain ⟨l, l', hl, hl', hall⟩ := sameHeads_chains hx' hy' hrs.2.2 hqs.2.2 h.2.2
      obtain ⟨hextent, helements⟩ :=
        extent_and_elements hl hl' ⟨_, _, _, _, hx, hy, hrs.2.1, hqs.2.1, h.2.1⟩ hall
      exact .cell hrs.1 hqs.1 h.1 hextent helements

theorem equal_iff_heads {x y : Tree .first} (hx : s.Unfolds v x rs) (hy : s.Unfolds w y qs) (hv : s.Covers v)
    (hw : s.Covers w) : s.equal v w = true ↔ x.heads = y.heads := by
  constructor
  · intro h
    have hplain : ∀ {u : Value} {z : Tree .first} {ps : List Ref}, s.Unfolds u z ps → s.Plain u :=
      fun hu => Core.plain fun a ha => hu.data ha
    obtain ⟨R, hR, hvw⟩ := (equal_eq_true_iff ((hplain hx).regular hv) ((hplain hy).regular hw)).mp h
    exact heads_of_correspondence (p := .first) hR hvw hx hy
  · intro h
    refine equal_of_bisimulation (sameHeads_bisimulation s) ⟨x, y, rs, qs, hx, hy, ?_, ?_, h⟩
    · exact fun r hr => hv r (hx.reaches hr)
    · exact fun r hr => hw r (hy.reaches hr)

/-- Literal values without cycles print as the same text if and only if they are equal. -/
theorem repr_eq_iff_equal (hv : s.Covers v) (hw : s.Covers w) (hav : s.Acyclic v) (haw : s.Acyclic w)
    (hlv : s.Literal v) (hlw : s.Literal w) : s.repr v = s.repr w ↔ s.equal v w = true := by
  obtain ⟨x, rs, hx⟩ := hlv.unfolds hv hav
  obtain ⟨y, qs, hy⟩ := hlw.unfolds hw haw
  rw [equal_iff_heads hx hy hv hw, ← String.toList_inj, toList_repr hx, toList_repr hy]
  constructor
  · intro h
    have hnothing : Place.first.Follows [] := by simp [Place.Follows]
    exact (Tree.display_inj (hlv.tree hx) (hlw.tree hy) hnothing hnothing (by rw [h])).1
  · intro h
    rw [← Tree.display_heads x, h, Tree.display_heads]

/-- Two lists of the texts `a` and `b`, the first of which goes on with a block, a list of one text that looks like the
two together, and a list that has the second list as an element twice. -/
def lookalikes : Store where
  cells := #[{ car := some (.atom ⟨0⟩), cdr := some ⟨1⟩ }, { kind := .block, car := some (.atom ⟨1⟩) },
    { car := some (.atom ⟨0⟩), cdr := some ⟨3⟩ }, { car := some (.atom ⟨1⟩) }, { car := some (.atom ⟨2⟩) },
    { car := some (.cell ⟨2⟩), cdr := some ⟨6⟩ }, { car := some (.cell ⟨2⟩) }]
  atoms := #[.datum (.text "a"), .datum (.text "b"), .datum (.text "a\" \"b")]

theorem unfolds_lookalikes : ∀ c ∈ [⟨0⟩, ⟨2⟩, ⟨4⟩, ⟨5⟩], ∃ (x : Tree .first) (rs : List Ref),
    lookalikes.Unfolds (some (.cell c)) x rs ∧ ∀ r ∈ rs, lookalikes.Has r := by
  have ha : lookalikes.atom ⟨0⟩ = .datum (.text "a") := rfl
  have hb : lookalikes.atom ⟨1⟩ = .datum (.text "b") := rfl
  have hboth : lookalikes.atom ⟨2⟩ = .datum (.text "a\" \"b") := rfl
  intro c hc
  simp only [List.mem_cons, List.not_mem_nil, or_false] at hc
  rcases hc with rfl | rfl | rfl | rfl
  · exact ⟨_, _, .cell (.leaf ha) (.cell (.leaf hb) .nil), by decide⟩
  · exact ⟨_, _, .cell (.leaf ha) (.cell (.leaf hb) .nil), by decide⟩
  · exact ⟨_, _, .cell (.leaf hboth) .nil, by decide⟩
  · exact ⟨_, _, .cell (.cell (.leaf ha) (.cell (.leaf hb) .nil))
      (.cell (.cell (.leaf ha) (.cell (.leaf hb) .nil)) .nil), by decide⟩

/-- The two lists of two texts print alike, so they are equal; the list of one text does not. What is shared is printed
twice. -/
theorem repr_eq_iff_equal_lookalikes :
    lookalikes.repr (some (.cell ⟨0⟩)) = "(\"a\" \"b\")" ∧
    lookalikes.equal (some (.cell ⟨0⟩)) (some (.cell ⟨2⟩)) = true ∧
    lookalikes.repr (some (.cell ⟨4⟩)) = "(\"a\\\" \\\"b\")" ∧
    lookalikes.equal (some (.cell ⟨0⟩)) (some (.cell ⟨4⟩)) = false ∧
    lookalikes.repr (some (.cell ⟨5⟩)) = "((\"a\" \"b\") (\"a\" \"b\"))" ∧
    lookalikes.equal (some (.cell ⟨5⟩)) (some (.cell ⟨2⟩)) = false := by
  have hlit : ∀ v, lookalikes.Literal v := by
    intro v a _
    rcases a with ⟨_ | _ | _ | i⟩
    · exact ⟨_, rfl, trivial⟩
    · exact ⟨_, rfl, trivial⟩
    · exact ⟨_, rfl, trivial⟩
    · exact ⟨.integer 0, by simp [atom, lookalikes], trivial⟩
  have hall : ∀ c ∈ [⟨0⟩, ⟨2⟩, ⟨4⟩, ⟨5⟩], lookalikes.Covers (some (.cell c)) ∧ lookalikes.Acyclic (some (.cell c)) := by
    intro c hc
    obtain ⟨x, rs, hx, hrs⟩ := unfolds_lookalikes c hc
    exact ⟨hx.covers hrs, hx.acyclic⟩
  have hiff : ∀ c ∈ [⟨0⟩, ⟨2⟩, ⟨4⟩, ⟨5⟩], ∀ d ∈ [⟨0⟩, ⟨2⟩, ⟨4⟩, ⟨5⟩],
      (lookalikes.repr (some (.cell c)) = lookalikes.repr (some (.cell d)) ↔
        lookalikes.equal (some (.cell c)) (some (.cell d)) = true) := fun c hc d hd =>
    repr_eq_iff_equal (hall c hc).1 (hall d hd).1 (hall c hc).2 (hall d hd).2 (hlit _) (hlit _)
  refine ⟨by decide +kernel, (hiff _ (by simp) _ (by simp)).mp (by decide +kernel), by decide +kernel, ?_,
    by decide +kernel, ?_⟩
  · exact Bool.eq_false_iff.mpr fun h => absurd ((hiff _ (by simp) _ (by simp)).mpr h) (by decide +kernel)
  · exact Bool.eq_false_iff.mpr fun h => absurd ((hiff _ (by simp) _ (by simp)).mpr h) (by decide +kernel)

end Store

end ScriptCore
